import KineticText.Proofs.Render.Typewriters

/-! Glyphs but for their characters.  Only scrambling draws other characters, and scrambling changes
nothing else, so what else a frame draws, and what it leaves of the tracks of typewriters, comes
from the tracks of typewriters alone.  Main statement: stores with the same typewriters show the
same figures in all frames to come. -/

namespace KineticText

/-- The glyph with another character. -/
def Glyph.withCharacter (g : Glyph) (c : Char) : Glyph := { g with character := c }

/-- The glyph with its character blotted out. -/
def Glyph.figure (g : Glyph) : Glyph := g.withCharacter ' '

theorem Glyph.eq_withCharacter {g g' : Glyph} (h : g.figure = g'.figure) :
    g' = g.withCharacter g'.character := by
  cases g
  cases g'
  simp only [figure, withCharacter, mk.injEq] at h ⊢
  simp [h]

section

variable (s : Scope) (g : Glyph) (c : Char)

@[simp] theorem Scope.place_withCharacter : s.place (g.withCharacter c) = s.place g := rfl

theorem Typewriter.reveal_withCharacter (e : Typewriter) (place length shown : Nat) :
    e.reveal s place length shown (g.withCharacter c) =
      (e.reveal s place length shown g).withCharacter c := by
  unfold reveal
  split
  · rfl
  · split <;> rfl

theorem Typewriter.revealShare_withCharacter (e : Typewriter) :
    e.revealShare s (g.withCharacter c) = (e.revealShare s g).withCharacter c := by
  have hindex : (g.withCharacter c).index = g.index := rfl
  unfold revealShare
  rw [hindex]
  cases s.shares.find? fun share => share.1.contains g.index with
  | none => rfl
  | some share => exact e.reveal_withCharacter s g c _ _ _

theorem Shake.apply_withCharacter (e : Shake) :
    e.apply s (g.withCharacter c) = (e.apply s g).map (·.withCharacter c) := by
  unfold apply
  cases requireFinite "shake" [("ticks", s.frame.ticks), ("amplitude", e.amplitude),
    ("speed", e.speed), ("wavelength", e.wavelength)] <;> rfl

theorem Gradient.apply_withCharacter (e : Gradient) :
    e.apply s (g.withCharacter c) = (e.apply s g).map (·.withCharacter c) := by
  unfold apply
  rw [Scope.place_withCharacter]
  cases requireFinite "gradient" [("ticks", s.frame.ticks), ("flow", e.flow)] with
  | error error => rfl
  | ok _ =>
    simp only [bind, Except.bind]
    cases shade (e.colors s.frame.base).toArray (e.position (s.place g) s.length s.frame.ticks)
      e.repeating <;> rfl

theorem Rainbow.apply_withCharacter (e : Rainbow) :
    e.apply s (g.withCharacter c) = (e.apply s g).map (·.withCharacter c) := by
  unfold apply
  cases requireFinite "rainbow" [("ticks", s.frame.ticks)] <;> rfl

end

theorem figure_getD_eq {outcome : Glyph → Except EffectError Glyph}
    (hcommutes : ∀ g c, outcome (g.withCharacter c) = (outcome g).map (·.withCharacter c))
    {g g' : Glyph} (h : g.figure = g'.figure) :
    ((outcome g).toOption.getD g).figure = ((outcome g').toOption.getD g').figure := by
  rw [Glyph.eq_withCharacter h, hcommutes]
  cases outcome g <;> rfl

namespace Effect

theorem figure_scramble (e : Scramble) (s : Scope) (state : Glyph × TrackStore) :
    ((Effect.scramble e).touch s state).1.figure = state.1.figure := by
  unfold touch
  show ((e.apply s state.2 state.1).value.1.toOption.getD state.1).figure = _
  unfold Scramble.apply
  cases requireFinite "obfuscate" [("speed", e.speed)] with
  | error error => rfl
  | ok _ =>
    simp only [Logged.value_bind, Logged.value_pure]
    generalize (state.2.askScramble s.now s.key _).value.1 = track
    cases track.isScrambled (s.place state.1) e.mode e.speed s.now with
    | error error => rfl
    | ok scrambled => cases scrambled <;> rfl

/-- What an effect does to a glyph but for its character, and to the tracks of typewriters, comes
from these alone. -/
theorem touch_figure (e : Effect) (s : Scope) {state state' : Glyph × TrackStore}
    (hfigure : state.1.figure = state'.1.figure) (htracks : state.2.SameTypewriters state'.2) :
    (e.touch s state).1.figure = (e.touch s state').1.figure ∧
      (e.touch s state).2.SameTypewriters (e.touch s state').2 := by
  cases e with
  | scramble e =>
    refine ⟨(figure_scramble e s _).trans (hfigure.trans (figure_scramble e s _).symm), ?_⟩
    exact (e.sameTypewriters_apply s _ _).trans
      (htracks.trans (e.sameTypewriters_apply s _ _).symm)
  | typewriter e =>
    -- The other glyph is this one with another character, which revealing does not look at.
    simp only [touch, apply, e.value_apply]
    rw [Glyph.eq_withCharacter hfigure]
    split
    · split
      · obtain ⟨hanswer, hafter⟩ := htracks.askTypewriter s.now s.key
          (s.frame.question s.config s.now s.length)
        rw [hanswer, e.reveal_withCharacter]
        exact ⟨rfl, hafter⟩
      · rw [e.revealShare_withCharacter]
        exact ⟨rfl, htracks⟩
    · exact ⟨rfl, htracks⟩
  | shake e => exact ⟨figure_getD_eq (e.apply_withCharacter s) hfigure, htracks⟩
  | gradient e => exact ⟨figure_getD_eq (e.apply_withCharacter s) hfigure, htracks⟩
  | rainbow e => exact ⟨figure_getD_eq (e.apply_withCharacter s) hfigure, htracks⟩
  | style => exact ⟨hfigure, htracks⟩

end Effect

/-! ### Frames -/

namespace Renderer

variable (r : Renderer) (text : AttributedText) (frame : Frame) (now : Millis)

theorem relates_figure :
    r.Relates text frame now (fun g g' => g.figure = g'.figure) TrackStore.SameTypewriters :=
  fun _ _ entry _ _ _ _ hfigure htracks => entry.2.touch_figure _ hfigure htracks

theorem render_same {tracks tracks' : TrackStore} (h : tracks.SameTypewriters tracks') :
    (r.render text frame now tracks).value.1.map Glyph.figure =
        (r.render text frame now tracks').value.1.map Glyph.figure ∧
      (r.render text frame now tracks).value.2.SameTypewriters
        (r.render text frame now tracks').value.2 := by
  obtain ⟨hglyphs, htracks⟩ := (r.relates_figure text frame now).render (fun _ => rfl)
    (fun _ _ hsame => hsame.askTypewriter now) h
  refine ⟨Array.toList_inj.mp ?_, htracks⟩
  rw [Array.toList_map, Array.toList_map, ← List.forall₂_eq_eq_eq, List.forall₂_map_left_iff,
    List.forall₂_map_right_iff]
  exact hglyphs

end Renderer

/-- What drawings show one after the other, but for the characters. -/
def figures : TrackStore → List Drawing → List (Array Glyph)
  | _, [] => []
  | tracks, d :: rest => (d.outcome tracks).1.map Glyph.figure :: figures (d.outcome tracks).2 rest

theorem figures_eq {tracks tracks' : TrackStore} (h : tracks.SameTypewriters tracks')
    (drawings : List Drawing) : figures tracks drawings = figures tracks' drawings := by
  induction drawings generalizing tracks tracks' with
  | nil => rfl
  | cons d rest ih =>
    obtain ⟨hfigures, hafter⟩ := d.renderer.render_same d.text d.frame d.now h
    rw [figures, figures, Drawing.outcome, Drawing.outcome, hfigures, ih hafter]

end KineticText
