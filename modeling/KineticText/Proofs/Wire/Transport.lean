import Mathlib
import KineticText.Engine
import KineticText.Proofs.AttributedText.Runs
import KineticText.Proofs.Wire.Framing
import KineticText.Proofs.Wire.Spans

/-! Texts survive transport.  Whatever is sent arrives, with its scalars brought into range.  Of the
spans of a text only numbers of effects can be out of range, so the text, its style and the kinds of
its effects arrive as they are.  Main statement: what an engine reads from the bytes of a parsed
text has the spans of the text in order, and its characters. -/

namespace KineticText

namespace Wire

/-! ### What arrives -/

/-- The span as the receiver has it. -/
def SpanOf.arrived (s : Span) : Span := s.toRaw.settle

/-- A message arrives span by span. -/
theorem value_decode_of_encode {spans : List Span} {bytes : List UInt8}
    (h : encode spans = .ok bytes) :
    (decode bytes).value = .ok (spans.map SpanOf.arrived) := by
  have hmessage : message =
      (Field.list "spans" maxSpans spanField).map (List.map SpanOf.toRaw)
        (List.map SpanOf.settle) := Field.list_map ..
  have hreturns : (Field.list "spans" maxSpans spanField).Returns (spans.map SpanOf.toRaw) :=
    Field.Returns.list (by decide) fun s _ => returns_spanField s
  rw [encode, hmessage] at h
  have hreads := (hreturns bytes h).map (List.map SpanOf.settle)
  rw [value_decode, hmessage, Field.decode_eq_ok hreads, List.map_map]
  rfl

/-- What the receiver has of a span is what was sent, but for the numbers of its effects. -/
structure SpanOf.Keeps (sent got : Span) : Prop where
  content : got.content = sent.content
  style : got.style = sent.style
  color : got.color = sent.color
  font : got.font = sent.font
  gradient : got.gradient = sent.gradient
  tags : got.tags = sent.tags
  shake : got.shake.map Shake.motion = sent.shake.map Shake.motion
  charShake : got.charShake.map Shake.motion = sent.charShake.map Shake.motion
  scramble : got.scramble.map Scramble.mode = sent.scramble.map Scramble.mode

theorem SpanOf.keeps_arrived {s : Span}
    (hstyle : ∀ flags ∈ s.style, StyleFlags.all.contains flags = true) : s.Keeps s.arrived where
  content := rfl
  style := map_eq_self fun flags hflags => StyleFlags.ofBits_bits (hstyle flags hflags)
  color := rfl
  font := rfl
  gradient := rfl
  tags := rfl
  shake := Option.map_map ..
  charShake := Option.map_map ..
  scramble := Option.map_map ..

end Wire

/-! ### Parsed texts -/

theorem Markup.inBounds_parse (registry : Registry) (options : ParseOptions) (source : String) :
    (parse registry options source).value.InBounds :=
  AttributedText.inBounds_ofSpans _ _

namespace Engine

open Wire

variable {ω σ ω' σ' : Type}

/-- What is read from the bytes of a parsed text is one span for each run of the text, with the
content, the style and the kinds of effects of that run, and the contents are the text. -/
theorem decode_encode_parse (sender : Engine ω σ) (receiver : Engine ω' σ') {registry : Registry}
    {options : Markup.ParseOptions} {source : String} {text : AttributedText}
    (htext : (Markup.parse registry options source).value = text) {bytes : List UInt8}
    (h : sender.encode text = .ok bytes) :
    ∃ spans, (receiver.decode bytes).value = .ok spans ∧
      spans.map SpanOf.content = text.runs.map Run.text ∧
      String.join (spans.map SpanOf.content) = text.raw ∧
      List.Forall₂ SpanOf.Keeps (spansOf text) spans := by
  subst htext
  have hbounds := Markup.inBounds_parse registry options source
  generalize (Markup.parse registry options source).value = text at h hbounds ⊢
  have hencode : Wire.encode (spansOf text) = .ok bytes := by
    unfold encode at h
    cases hspans : Wire.encode (spansOf text) with
    | error e =>
      rw [hspans] at h
      cases h
    | ok found =>
      rw [hspans] at h
      cases h
      rfl
  have hcontents : ((spansOf text).map SpanOf.arrived).map SpanOf.content =
      text.runs.map Run.text := by
    rw [spansOf, List.map_map, List.map_map]
    exact List.map_congr_left fun r _ => SpanOf.content_ofRun r
  refine ⟨(spansOf text).map SpanOf.arrived, ?_, hcontents, ?_, ?_⟩
  · rw [decode, Logged.value_map, value_decode_of_encode hencode]
    rfl
  · rw [hcontents, AttributedText.join_runs hbounds]
  · refine List.forall₂_map_right_iff.mpr (List.forall₂_same.mpr fun s hs => ?_)
    obtain ⟨r, -, rfl⟩ := List.mem_map.mp hs
    exact SpanOf.keeps_arrived (SpanOf.contains_style_ofRun r)

/-- A source of four runs. -/
def cheer : String := "a<b>h<i>é</i>!</b>"

/-- The text of the source. -/
def cheerText : AttributedText where
  raw := "ahé!"
  spans := [⟨⟨1, 4⟩, [{ id := "bold", extent := ⟨1, 4⟩ }]⟩,
    ⟨⟨2, 3⟩, [{ id := "bold", extent := ⟨1, 4⟩ }, { id := "italic", extent := ⟨2, 3⟩ }]⟩]

/-- The spans of the text. -/
def cheerSpans : List Wire.Span :=
  [{ content := "a" }, { content := "h", style := some .bold, tags := ["bold"] },
    { content := "é", style := some (.union .bold .italic), tags := ["bold", "italic"] },
    { content := "!", style := some .bold, tags := ["bold"] }]

theorem spansOf_cheerText : spansOf cheerText = cheerSpans := by
  have hbounds : cheerText.boundaries = [0, 1, 2, 3, 4] := by cbv
  have hranges : cheerText.ownedRanges =
      [(⟨0, 1⟩, none), (⟨1, 2⟩, some 0), (⟨2, 3⟩, some 1), (⟨3, 4⟩, some 0)] := by
    rw [AttributedText.ownedRanges, hbounds]
    simp only [AttributedText.owner_owners]
    decide
  rw [spansOf, AttributedText.runs, hranges]
  decide

theorem decode_encode_parse_cheer :
    (Markup.parse .builtin {} cheer).value = cheerText ∧
      ∃ bytes, (Engine.ofConfig {} : Engine Unit Unit).encode cheerText = .ok bytes ∧
        ∃ spans, ((Engine.ofConfig {} : Engine Unit Unit).decode bytes).value = .ok spans ∧
          String.join (spans.map SpanOf.content) = "ahé!" ∧
          List.Forall₂ SpanOf.Keeps cheerSpans spans := by
  have hparse : (Markup.parse .builtin {} cheer).value = cheerText := by cbv
  have hbytes : ∃ bytes, (Engine.ofConfig {} : Engine Unit Unit).encode cheerText = .ok bytes := by
    simp only [encode, spansOf_cheerText]
    exact ⟨_, rfl⟩
  obtain ⟨bytes, hbytes⟩ := hbytes
  obtain ⟨spans, hspans, -, hjoin, hkeeps⟩ :=
    decode_encode_parse _ (Engine.ofConfig {} : Engine Unit Unit) hparse hbytes
  rw [spansOf_cheerText] at hkeeps
  exact ⟨hparse, bytes, hbytes, spans, hspans, hjoin, hkeeps⟩

end Engine

end KineticText
