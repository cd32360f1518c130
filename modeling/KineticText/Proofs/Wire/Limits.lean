import Mathlib.Data.String.Basic
import KineticText.Proofs.Markup.Texts
import KineticText.Proofs.Registry.Names
import KineticText.Proofs.Wire.RoundTrip
import KineticText.Proofs.Wire.Spans

/-! Parsed texts are within the limits of the format.  The limit on the length of a source bounds
its runs and their contents, the built-in tags give attributes of a few names, and a gradient keeps
few stops.  Only the name of a font has no limit of its own.  Main statement: what is parsed with
the default limits and the built-in tags can be sent unless a run has too long a font. -/

namespace KineticText

/-- A character is at most four bytes. -/
theorem Text.length_utf8_le (s : String) : (utf8 s).length ≤ 4 * s.length := by
  have hlist : ∀ cs : List Char, String.utf8Len cs ≤ 4 * cs.length := by
    intro cs
    induction cs with
    | nil => exact Nat.le_refl 0
    | cons c cs ih =>
      have hchar := c.utf8Size_le_four
      rw [String.utf8Len_cons, List.length_cons]
      omega
  have hsize := String.utf8ByteSize_ofList s.toList
  rw [String.ofList_toList] at hsize
  show s.utf8ByteSize ≤ _
  rw [hsize, ← String.length_toList]
  exact hlist s.toList

/-- The text of a source, read with the default limits and the built-in tags. -/
def Markup.parseByDefault (source : String) : AttributedText :=
  (parse .builtin (.ofConfig {}) source).value

namespace Markup

theorem length_runs_parseByDefault_le (source : String) :
    (parseByDefault source).runs.length ≤ 4096 := by
  have h : 4 * (parseByDefault source).runs.length ≤ 16384 + 3 :=
    length_runs_parse_le .builtin (.ofConfig {}) source
  omega

theorem length_parseByDefault_le (source : String) : (parseByDefault source).length ≤ 16384 :=
  Nat.le_trans (length_parse_le .builtin (.ofConfig {}) source) (Nat.min_le_left _ _)

theorem id_mem_parseByDefault {source : String} {r : Run} (h : r ∈ (parseByDefault source).runs) :
    ∀ a ∈ r.attributes, a.id ∈ Registry.builtinNames := by
  intro a ha
  obtain ⟨s, hs, hmem⟩ := AttributedText.exists_span_of_mem_runs h ha
  rw [parseByDefault, value_parse] at hs
  exact id_mem_flatten Registry.gives_builtin _ s hs a hmem

end Markup

namespace Wire

namespace SpanOf

/-- Built-in names are few and short. -/
theorem tags_ofRun_le {r : Run} (h : ∀ a ∈ r.attributes, a.id ∈ Registry.builtinNames) :
    (ofRun r).tags.length ≤ 256 ∧ ∀ tag ∈ (ofRun r).tags, (Text.utf8 tag).length ≤ 512 := by
  obtain ⟨hnodup, hnames⟩ := tags_ofRun r
  have hsubset : (ofRun r).tags ⊆ Registry.builtinNames := by
    intro tag htag
    obtain ⟨a, ha, rfl⟩ := hnames tag htag
    exact h a ha
  have hcount : Registry.builtinNames.length ≤ 256 := by decide
  have hshort : ∀ name ∈ Registry.builtinNames, (Text.utf8 name).length ≤ 512 := by decide
  exact ⟨Nat.le_trans (hnodup.length_le_of_subset hsubset) hcount,
    fun tag htag => hshort tag (hsubset htag)⟩

/-- Of a run with a short text and built-in names only the font can be too long. -/
theorem fits_ofRun_iff {r : Run} (hcontent : (Text.utf8 r.text).length ≤ 65536)
    (hnames : ∀ a ∈ r.attributes, a.id ∈ Registry.builtinNames) :
    (ofRun r).Fits ↔
      ∀ font ∈ (Style.ofAttributes r.attributes).font, (Text.utf8 font).length ≤ 256 := by
  rw [← font_ofRun]
  constructor
  · exact Fits.font
  · intro hfont
    obtain ⟨_, _, _, _, _, hrest⟩ := extends_ofRun r
    exact {
      content := by rwa [content_ofRun]
      font := hfont
      gradient := length_gradient_ofRun_le r
      backgroundGradient := by rw [hrest]; exact fun _ h => nomatch h
      item := by rw [hrest]; exact fun _ h => nomatch h
      entity := by rw [hrest]; exact fun _ h => nomatch h
      tags := tags_ofRun_le hnames }

end SpanOf

/-- What is read with the default limits and the built-in tags has bytes exactly when no run has a
font of more than 256 bytes; everything else is within the limits of the format. -/
theorem encode_parseByDefault (source : String) :
    ((∃ bytes, encode (spansOf (Markup.parseByDefault source)) = .ok bytes) ↔
        ∀ r ∈ (Markup.parseByDefault source).runs,
          ∀ font ∈ (Style.ofAttributes r.attributes).font, (Text.utf8 font).length ≤ 256) ∧
      (Markup.parseByDefault source).runs.length ≤ 4096 ∧
      ∀ s ∈ spansOf (Markup.parseByDefault source), (Text.utf8 s.content).length ≤ 65536 ∧
        (s.tags.length ≤ 256 ∧ ∀ tag ∈ s.tags, (Text.utf8 tag).length ≤ 512) ∧
        ∀ colors ∈ s.gradient, colors.length ≤ 256 := by
  have hruns := Markup.length_runs_parseByDefault_le source
  have hcontent : ∀ r ∈ (Markup.parseByDefault source).runs,
      (Text.utf8 r.text).length ≤ 65536 := by
    intro r hr
    have hutf8 := Text.length_utf8_le r.text
    have htext := AttributedText.length_text_le hr
    have hlength := Markup.length_parseByDefault_le source
    omega
  have hnames : ∀ r ∈ (Markup.parseByDefault source).runs,
      ∀ a ∈ r.attributes, a.id ∈ Registry.builtinNames :=
    fun r hr => Markup.id_mem_parseByDefault hr
  refine ⟨?_, hruns, ?_⟩
  · have htakes : (∃ bytes, encode (spansOf (Markup.parseByDefault source)) = .ok bytes) ↔ _ :=
      Field.takes_list (by decide)
    rw [htakes, spansOf, List.length_map, List.forall_mem_map]
    constructor
    · rintro ⟨-, hall⟩ r hr
      exact (SpanOf.fits_ofRun_iff (hcontent r hr) (hnames r hr)).mp (takes_span.mp (hall r hr))
    · intro hfonts
      refine ⟨hruns, fun r hr => takes_span.mpr ?_⟩
      exact (SpanOf.fits_ofRun_iff (hcontent r hr) (hnames r hr)).mpr (hfonts r hr)
  · intro s hs
    obtain ⟨r, hr, rfl⟩ := List.mem_map.mp hs
    rw [SpanOf.content_ofRun]
    exact ⟨hcontent r hr, SpanOf.tags_ofRun_le (hnames r hr), SpanOf.length_gradient_ofRun_le r⟩

end Wire

end KineticText
