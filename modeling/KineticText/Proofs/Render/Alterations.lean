import KineticText.Proofs.Render.Scrambles
import KineticText.Proofs.Render.Typewriters

/-! What effects make of a glyph.  Each kind of effect has fields of the glyph that are its own: a
typewriter hides the glyph or moves it sideways, scrambling puts a filler for its character, shaking
moves it, and gradients and rainbows paint it as transparent as it was.  Main statement: an effect
changes those fields at most, so the others can be read off any glyph before it. -/

namespace KineticText

theorem Color.alpha_withAlpha (c : Color) (a : UInt8) : (c.withAlpha a).alpha = a := by
  have hrest : (c.argb &&& 0x00FFFFFF) >>> 24 = 0 := by
    have hmask : (0x00FFFFFF : UInt32) >>> 24 = 0 := by decide
    rw [UInt32.shiftRight_and, hmask, UInt32.and_zero]
  have hwidth : (24 : UInt32).toNat % 32 = 24 := by decide
  have ha := a.toNat_lt
  rw [alpha, withAlpha, channel, UInt32.shiftRight_or, hrest, UInt32.or_zero]
  apply UInt8.toNat_inj.mp
  rw [UInt32.toNat_toUInt8, UInt32.toNat_shiftRight, UInt32.toNat_shiftLeft, UInt8.toNat_toUInt32,
    hwidth, Nat.shiftLeft_eq, Nat.shiftRight_eq_div_pow]
  omega

/-- The filler that a glyph gets from a scramble; `none` when the glyph is not scrambled, or has a
blank, which is its own filler. -/
def Scramble.filler? (e : Scramble) (s : Scope) (state : Glyph × TrackStore) : Option Char :=
  let track := e.moved s (state.2.scrambleAt s.now s.key)
  let place := s.place state.1
  match track.isScrambled place e.mode e.speed s.now with
  | .ok true =>
    if e.speed.isFinite && !Text.isBlank state.1.character then
      some (track.filler place state.1.character e.alphabet s.now)
    else none
  | _ => none

theorem Scramble.glyph_touch (e : Scramble) (s : Scope) (state : Glyph × TrackStore) :
    ((Effect.scramble e).touch s state).1 =
      { state.1 with character := (e.filler? s state).getD state.1.character } := by
  unfold filler?
  cases hspeed : e.speed.isFinite with
  | false =>
    rw [touch_of_not_finite hspeed]
    simp only [Bool.false_and, Bool.false_eq_true, if_false]
    split <;> rfl
  | true =>
    rw [touch_of_finite hspeed, draw, redraw]
    simp only [Bool.true_and]
    cases (e.moved s (state.2.scrambleAt s.now s.key)).isScrambled (s.place state.1) e.mode e.speed
      s.now with
    | error => rfl
    | ok scrambled =>
      cases scrambled with
      | false => rfl
      | true =>
        cases hblank : Text.isBlank state.1.character with
        | false => rfl
        | true =>
          simp only [ScrambleTrack.filler, hblank, if_true]
          rfl

theorem bind_ok {ε α β : Type} {x : Except ε α} {f : α → Except ε β} {b : β}
    (h : x >>= f = .ok b) : ∃ a, x = .ok a ∧ f a = .ok b := by
  cases x with
  | error => cases h
  | ok a => exact ⟨a, rfl, h⟩

namespace Effect

/-- What an effect may make of a glyph. -/
inductive Alters : Effect → Glyph → Glyph → Prop
  | leave (e : Effect) (g : Glyph) : Alters e g g
  | hide (e : Typewriter) (g : Glyph) : Alters (.typewriter e) g { g with visible := false }
  | center (e : Typewriter) (g : Glyph) (x : Float) :
      Alters (.typewriter e) g { g with offsetX := x }
  | fill (e : Scramble) (g : Glyph) (filler : Char) :
      Alters (.scramble e) g { g with character := filler }
  | move (e : Shake) (g : Glyph) (x y : Float) :
      Alters (.shake e) g { g with offsetX := x, offsetY := y }
  | blend (e : Gradient) (g : Glyph) (color : Color) : Alters (.gradient e) g (g.paint color)
  | tint (e : Rainbow) (g : Glyph) (color : Color) : Alters (.rainbow e) g (g.paint color)

theorem alters_reveal (e : Typewriter) (s : Scope) (place length shown : Nat) (g : Glyph) :
    (Effect.typewriter e).Alters g (e.reveal s place length shown g) := by
  unfold Typewriter.reveal
  split
  · exact .hide e g
  · split
    · exact .center e g _
    · exact .leave _ g

theorem alters_touch_typewriter (e : Typewriter) (s : Scope) (state : Glyph × TrackStore) :
    (Effect.typewriter e).Alters state.1 ((Effect.typewriter e).touch s state).1 := by
  cases hticks : s.frame.ticks.isFinite with
  | false =>
    rw [e.touch_of_not_finite hticks]
    exact .leave _ state.1
  | true =>
    cases hallocation : s.config.allocation with
    | independent =>
      rw [e.touch_of_independent hallocation hticks]
      exact alters_reveal e s _ _ _ state.1
    | container =>
      rw [e.touch_of_container hallocation hticks, Typewriter.revealShare]
      split
      · exact .leave _ state.1
      · exact alters_reveal e s _ _ _ state.1

/-- An effect that fails leaves the glyph alone. -/
theorem alters_of_ok {e : Effect} {g : Glyph} {outcome : Except EffectError Glyph}
    (h : ∀ g', outcome = .ok g' → e.Alters g g') : e.Alters g (outcome.toOption.getD g) := by
  cases outcome with
  | error => exact .leave e g
  | ok g' => exact h g' rfl

/-- An effect changes the fields of its kind at most. -/
theorem alters_touch (e : Effect) (s : Scope) (state : Glyph × TrackStore) :
    e.Alters state.1 (e.touch s state).1 := by
  cases e with
  | typewriter e => exact alters_touch_typewriter e s state
  | scramble e => exact e.glyph_touch s state ▸ .fill e state.1 _
  | shake e =>
    refine alters_of_ok fun g' h => ?_
    obtain ⟨-, -, h⟩ := bind_ok h
    cases h
    exact .move e state.1 _ _
  | gradient e =>
    refine alters_of_ok fun g' h => ?_
    obtain ⟨-, -, h⟩ := bind_ok h
    simp only at h
    split at h
    · cases h
    · cases h
      exact .blend e state.1 _
  | rainbow e =>
    refine alters_of_ok fun g' h => ?_
    obtain ⟨-, -, h⟩ := bind_ok h
    cases h
    exact .tint e state.1 _
  | style toggle => exact .leave _ state.1

/-- Whether the effect paints glyphs. -/
def Paints : Effect → Prop
  | .gradient _ | .rainbow _ => True
  | _ => False

namespace Alters

variable {e : Effect} {g g' : Glyph}

theorem index_eq (h : e.Alters g g') : g'.index = g.index := by cases h <;> rfl

theorem flags_eq (h : e.Alters g g') : g'.flags = g.flags := by cases h <;> rfl

theorem alpha_eq (h : e.Alters g g') : g'.color.alpha = g.color.alpha := by
  cases h with
  | blend e g color => exact color.alpha_withAlpha g.color.alpha
  | tint e g color => exact color.alpha_withAlpha g.color.alpha
  | _ => rfl

theorem color_eq (h : e.Alters g g') (hpaints : ¬ e.Paints) : g'.color = g.color := by
  cases h with
  | blend => exact absurd trivial hpaints
  | tint => exact absurd trivial hpaints
  | _ => rfl

theorem visible_eq (h : e.Alters g g') (hkind : ∀ t, e ≠ .typewriter t) :
    g'.visible = g.visible := by
  cases h with
  | hide e => exact absurd rfl (hkind e)
  | _ => rfl

theorem character_eq (h : e.Alters g g') (hkind : ∀ t, e ≠ .scramble t) :
    g'.character = g.character := by
  cases h with
  | fill e => exact absurd rfl (hkind e)
  | _ => rfl

end Alters

/-- What each of some effects keeps of a glyph, they keep one after the other. -/
theorem foldl_touch_eq {α : Type} (part : Glyph → α) {effects : List (Extent × Effect)}
    (h : ∀ entry ∈ effects, ∀ s state, part (entry.2.touch s state).1 = part state.1)
    (scopeOf : Extent → Scope) (state : Glyph × TrackStore) :
    part (effects.foldl (fun state entry => entry.2.touch (scopeOf entry.1) state) state).1 =
      part state.1 := by
  induction effects generalizing state with
  | nil => rfl
  | cons entry rest ih =>
    obtain ⟨hentry, hrest⟩ := List.forall_mem_cons.mp h
    exact (ih hrest _).trans (hentry _ state)

end Effect

end KineticText
