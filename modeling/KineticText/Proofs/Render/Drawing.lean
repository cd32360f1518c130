import Mathlib.Data.List.Forall2
import KineticText.Render

/-! Drawing without its log.  What a frame draws and what it leaves in the store do not depend on
the events, nor on which failures have been logged, so a frame is a pass over the characters that
takes the tracks along (`value_draw`).  Two such passes stay related when every effect keeps them
related (`Relates.paintAll`). -/

namespace KineticText

/-- The glyph and the tracks after an effect.  A glyph that the effect cannot be applied to stays as
it is. -/
def Effect.touch (e : Effect) (s : Scope) (state : Glyph × TrackStore) : Glyph × TrackStore :=
  let applied := (e.apply s state.2 state.1).value
  (applied.1.toOption.getD state.1, applied.2)

/-- The glyph and the tracks after the effects of a span, the outermost first. -/
def Appearance.touch (a : Appearance) (scopeOf : Extent → Scope) (state : Glyph × TrackStore) :
    Glyph × TrackStore :=
  a.effects.foldl (fun state entry => entry.2.touch (scopeOf entry.1) state) state

theorem Effect.value_act (e : Effect) (s : Scope) (slot : Nat × Nat) (canvas : Canvas) (g : Glyph) :
    ∃ failed, (e.act s slot canvas g).value =
      ({ canvas with tracks := (e.touch s (g, canvas.tracks)).2, failed },
        (e.touch s (g, canvas.tracks)).1) := by
  unfold act touch
  rw [Logged.value_bind]
  rcases (e.apply s canvas.tracks g).value with ⟨error | glyph, tracks⟩
  · by_cases hfailed : slot ∈ canvas.failed
    · refine ⟨canvas.failed, ?_⟩
      simp [hfailed, Except.toOption]
    · refine ⟨slot :: canvas.failed, ?_⟩
      simp [hfailed, Except.toOption]
  · exact ⟨canvas.failed, rfl⟩

theorem Appearance.value_act (a : Appearance) (scopeOf : Extent → Scope) (place : Nat)
    (canvas : Canvas) (g : Glyph) :
    ∃ failed, (a.act scopeOf place canvas g).value =
      ({ canvas with tracks := (a.touch scopeOf (g, canvas.tracks)).2, failed },
        (a.touch scopeOf (g, canvas.tracks)).1) := by
  unfold act touch
  rw [Logged.value_fold]
  -- Along the effects the glyph and the tracks change, and so do the failures that are known.
  generalize 0 = first
  generalize a.effects = effects
  induction effects generalizing first canvas g with
  | nil => exact ⟨canvas.failed, rfl⟩
  | cons entry rest ih =>
    obtain ⟨failed, hact⟩ := entry.2.value_act (scopeOf entry.1) (place, first) canvas g
    simp only [List.zipIdx_cons, List.foldl_cons, hact]
    exact ih _ _ _

namespace Renderer

section

variable (r : Renderer) (text : AttributedText) (frame : Frame) (now : Millis)

/-- How a character looks; `none` for one that no span governs. -/
def look? (index : Nat) : Option Appearance :=
  ((text.spanIndexAt? index).bind (text.spans[·]?)).map r.config.appearance

/-- How much each outermost typewriter shows, when they share a count, and the tracks after
counting. -/
def shareIn (tracks : TrackStore) : List (Extent × Nat) × TrackStore :=
  match r.config.allocation with
  | .independent => ([], tracks)
  | .container => (shareOut r.config frame now (frame.key text.raw).container
      (outerTypewriters (text.spans.map r.config.appearance)) tracks).value

/-- What the effects of an element see. -/
def scope (shares : List (Extent × Nat)) (extent : Extent) : Scope :=
  { frame, config := r.config, now, text := frame.key text.raw, extent, shares }

/-- The glyph of a character at its place, and the tracks after it. -/
def paint (shares : List (Extent × Nat)) (tracks : TrackStore) (entry : Char × Nat) :
    Glyph × TrackStore :=
  match r.look? text entry.2 with
  | none => (frame.blankGlyph entry.2 entry.1, tracks)
  | some look =>
    look.touch (r.scope text frame now shares) (look.glyph frame entry.2 entry.1, tracks)

/-- The glyphs of characters one after the other, and the tracks after them. -/
def paintAll (shares : List (Extent × Nat)) :
    TrackStore → List (Char × Nat) → List Glyph × TrackStore
  | tracks, [] => ([], tracks)
  | tracks, entry :: rest =>
    let painted := r.paint text frame now shares tracks entry
    let others := paintAll shares painted.2 rest
    (painted.1 :: others.1, others.2)

theorem value_drawCharacter (shares : List (Extent × Nat)) (canvas : Canvas) (entry : Char × Nat) :
    ∃ failed, (drawCharacter (text.spans.map r.config.appearance).toArray
        (text.owner text.owners) frame (r.scope text frame now shares) canvas entry).value =
      { tracks := (r.paint text frame now shares canvas.tracks entry).2
        failed
        glyphs := canvas.glyphs.push (r.paint text frame now shares canvas.tracks entry).1 } := by
  obtain ⟨c, index⟩ := entry
  have hlook : (do
      let place ← text.owner text.owners index
      return (place, ← (text.spans.map r.config.appearance).toArray[place]?)) =
        (text.spanIndexAt? index).bind fun place =>
          (text.spans[place]?).map fun span => (place, r.config.appearance span) := by
    rw [AttributedText.owner_owners]
    cases text.spanIndexAt? index with
    | none => rfl
    | some place => cases hspan : text.spans[place]? <;> simp [hspan]
  unfold drawCharacter paint look?
  simp only [hlook]
  cases hplace : text.spanIndexAt? index with
  | none => exact ⟨canvas.failed, rfl⟩
  | some place =>
    cases hspan : text.spans[place]? with
    | none => exact ⟨canvas.failed, by simp [hspan]⟩
    | some span =>
      obtain ⟨failed, hact⟩ := (r.config.appearance span).value_act
        (r.scope text frame now shares) place canvas ((r.config.appearance span).glyph frame index c)
      refine ⟨failed, ?_⟩
      simp [hspan, hact]

theorem value_fold_drawCharacter (shares : List (Extent × Nat)) (canvas : Canvas)
    (entries : List (Char × Nat)) :
    ∃ failed, (Logged.fold (drawCharacter (text.spans.map r.config.appearance).toArray
        (text.owner text.owners) frame (r.scope text frame now shares)) canvas entries).value =
      { tracks := (r.paintAll text frame now shares canvas.tracks entries).2
        failed
        glyphs := canvas.glyphs ++
          (r.paintAll text frame now shares canvas.tracks entries).1.toArray } := by
  rw [Logged.value_fold]
  induction entries generalizing canvas with
  | nil => exact ⟨canvas.failed, by simp [paintAll]⟩
  | cons entry rest ih =>
    obtain ⟨failed, hfirst⟩ := r.value_drawCharacter text frame now shares canvas entry
    obtain ⟨failed', hrest⟩ := ih { tracks := _, failed, glyphs := _ }
    refine ⟨failed', ?_⟩
    rw [List.foldl_cons, hfirst, hrest]
    simp [paintAll]

/-- The glyphs of a frame in order, and the tracks after it. -/
def drawn (tracks : TrackStore) : List Glyph × TrackStore :=
  r.paintAll text frame now (r.shareIn text frame now tracks).1
    (r.shareIn text frame now tracks).2 text.raw.toList.zipIdx

/-- A frame is a pass over the characters. -/
theorem value_draw (tracks : TrackStore) :
    (r.draw text frame now tracks).value =
      ((r.drawn text frame now tracks).1.toArray, (r.drawn text frame now tracks).2) := by
  obtain ⟨failed, hcanvas⟩ := r.value_fold_drawCharacter text frame now
    (r.shareIn text frame now tracks).1 { tracks := (r.shareIn text frame now tracks).2 }
    text.raw.toList.zipIdx
  have hdraw : (r.draw text frame now tracks).value =
      let canvas := (Logged.fold (drawCharacter (text.spans.map r.config.appearance).toArray
        (text.owner text.owners) frame
        (r.scope text frame now (r.shareIn text frame now tracks).1))
        { tracks := (r.shareIn text frame now tracks).2 } text.raw.toList.zipIdx).value
      (canvas.glyphs, canvas.tracks) := by
    unfold draw shareIn
    cases r.config.allocation <;> rfl
  rw [hdraw, hcanvas]
  simp [drawn]

/-- A frame without effects draws every character as it is. -/
theorem value_render (tracks : TrackStore) :
    (r.render text frame now tracks).value =
      if r.config.suppresses frame then
        ((text.raw.toList.zipIdx.map fun (c, index) => frame.blankGlyph index c).toArray, tracks)
      else (r.draw text frame now tracks).value := by
  unfold render
  split <;> rfl

end

/-! ### What all effects keep -/

section

variable {r : Renderer} {text : AttributedText} {frame : Frame} {now : Millis}

theorem look?_eq_some {index : Nat} {look : Appearance} (h : r.look? text index = some look) :
    ∃ span ∈ text.spans, r.config.appearance span = look := by
  obtain ⟨span, hspan, hlook⟩ := Option.map_eq_some_iff.mp h
  obtain ⟨place, -, hplace⟩ := Option.bind_eq_some_iff.mp hspan
  exact ⟨span, List.mem_of_getElem? hplace, hlook⟩

variable {G : Glyph → Glyph → Prop} {R : TrackStore → TrackStore → Prop}

/-- Every effect of the text leaves related glyphs and stores related. -/
def Relates (r : Renderer) (text : AttributedText) (frame : Frame) (now : Millis)
    (G : Glyph → Glyph → Prop) (R : TrackStore → TrackStore → Prop) : Prop :=
  ∀ span ∈ text.spans, ∀ entry ∈ (r.config.appearance span).effects, ∀ shares state state',
    G state.1 state'.1 → R state.2 state'.2 →
      G (entry.2.touch (r.scope text frame now shares entry.1) state).1
          (entry.2.touch (r.scope text frame now shares entry.1) state').1 ∧
        R (entry.2.touch (r.scope text frame now shares entry.1) state).2
          (entry.2.touch (r.scope text frame now shares entry.1) state').2

theorem Relates.touch (h : r.Relates text frame now G R) {span : Span} (hspan : span ∈ text.spans)
    (shares : List (Extent × Nat)) {state state' : Glyph × TrackStore} (hg : G state.1 state'.1)
    (ht : R state.2 state'.2) :
    G ((r.config.appearance span).touch (r.scope text frame now shares) state).1
        ((r.config.appearance span).touch (r.scope text frame now shares) state').1 ∧
      R ((r.config.appearance span).touch (r.scope text frame now shares) state).2
        ((r.config.appearance span).touch (r.scope text frame now shares) state').2 := by
  have hentries := h span hspan
  unfold Appearance.touch
  generalize (r.config.appearance span).effects = entries at hentries ⊢
  induction entries generalizing state state' with
  | nil => exact ⟨hg, ht⟩
  | cons entry rest ih =>
    obtain ⟨hentry, hrest⟩ := List.forall_mem_cons.mp hentries
    obtain ⟨hg, ht⟩ := hentry shares state state' hg ht
    exact ih hg ht hrest

theorem Relates.paintAll (h : r.Relates text frame now G R) (hrefl : ∀ g, G g g)
    (shares : List (Extent × Nat)) (tracks tracks' : TrackStore) (ht : R tracks tracks')
    (entries : List (Char × Nat)) :
    List.Forall₂ G (r.paintAll text frame now shares tracks entries).1
        (r.paintAll text frame now shares tracks' entries).1 ∧
      R (r.paintAll text frame now shares tracks entries).2
        (r.paintAll text frame now shares tracks' entries).2 := by
  induction entries generalizing tracks tracks' with
  | nil => exact ⟨.nil, ht⟩
  | cons entry rest ih =>
    have hfirst : G (r.paint text frame now shares tracks entry).1
          (r.paint text frame now shares tracks' entry).1 ∧
        R (r.paint text frame now shares tracks entry).2
          (r.paint text frame now shares tracks' entry).2 := by
      unfold paint
      cases hlook : r.look? text entry.2 with
      | none => exact ⟨hrefl _, ht⟩
      | some look =>
        obtain ⟨span, hspan, rfl⟩ := look?_eq_some hlook
        exact h.touch hspan shares (hrefl _) ht
    obtain ⟨hrest, hafter⟩ := ih _ _ hfirst.2
    exact ⟨.cons hfirst.1 hrest, hafter⟩

theorem draw_keeps {P : TrackStore → Prop} {tracks : TrackStore}
    (hshare : P (r.shareIn text frame now tracks).2)
    (heffect : ∀ span ∈ text.spans, ∀ entry ∈ (r.config.appearance span).effects,
      ∀ shares tracks g, P tracks →
        P (entry.2.apply (r.scope text frame now shares entry.1) tracks g).value.2) :
    P (r.draw text frame now tracks).value.2 := by
  -- A property is a relation that looks at one side only.
  have hrelates : r.Relates text frame now (fun _ _ => True) fun tracks _ => P tracks :=
    fun span hspan entry hentry shares state _ _ hstate =>
      ⟨trivial, heffect span hspan entry hentry shares state.2 state.1 hstate⟩
  rw [value_draw]
  exact (hrelates.paintAll (fun _ => trivial) _ _ tracks hshare _).2

end

end Renderer

/-! ### Drawings one after the other -/

/-- A drawing of a text at a time. -/
structure Drawing where
  renderer : Renderer
  text : AttributedText
  frame : Frame
  now : Millis

namespace Drawing

/-- The key of the text that is drawn. -/
def key (d : Drawing) : TrackKey := d.frame.key d.text.raw

/-- The glyphs, and the tracks after them. -/
def outcome (d : Drawing) (tracks : TrackStore) : Array Glyph × TrackStore :=
  (d.renderer.render d.text d.frame d.now tracks).value

end Drawing

/-- The tracks after drawings. -/
def tracksAfter (tracks : TrackStore) (drawings : List Drawing) : TrackStore :=
  drawings.foldl (fun tracks d => (d.outcome tracks).2) tracks

end KineticText
