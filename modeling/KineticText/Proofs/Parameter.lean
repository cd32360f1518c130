import KineticText.Parameter
import KineticText.Proofs.Params

/-! The range of a declared parameter.  Every declared range holds its default and its bounds, so
whatever is written, what is read lies in it; and a number of the range is read as it is.  Reading
with and without the log gives the same number. -/

namespace KineticText.Parameter

variable {p : Parameter} {params : Params} {x : Float}

/-- The number lies in the parameter's range. -/
def Admits (p : Parameter) (x : Float) : Prop :=
  x.isNaN = false ∧ ¬ x < p.min ∧ ¬ p.max < x

instance (p : Parameter) (x : Float) : Decidable (p.Admits x) :=
  inferInstanceAs (Decidable (_ ∧ _ ∧ _))

/-- The parameters of the effects. -/
def declared : List Parameter :=
  [typewriterSpeed, typewriterDelay, scrambleSpeed, shakeAmplitude, shakeSpeed, shakeWavelength,
    gradientFlow, gradientSpread, rainbowSpeed, rainbowSaturation, rainbowBrightness,
    rainbowSpread]

theorem mem_declared_of_typewriter (hp : p = typewriterSpeed ∨ p = typewriterDelay) :
    p ∈ declared := by
  rcases hp with rfl | rfl <;> simp [declared]

theorem admits_declared :
    ∀ p ∈ declared, p.Admits p.default ∧ p.Admits p.min ∧ p.Admits p.max := by
  decide +kernel

theorem admits_clamp (hp : p ∈ declared) (x : Float) : p.Admits (p.clamp x) := by
  obtain ⟨hdefault, hmin, hmax⟩ := admits_declared p hp
  unfold clamp
  split
  · exact hdefault
  · rename_i hnumber
    unfold Double.clamp
    split
    · exact hmin
    · rename_i hlow
      split
      · exact hmax
      · rename_i hhigh
        exact ⟨Bool.eq_false_iff.mpr hnumber, hlow, hhigh⟩

theorem Admits.clamp_eq (h : p.Admits x) : p.clamp x = x := by
  obtain ⟨hnumber, hlow, hhigh⟩ := h
  rw [clamp, hnumber, Double.clamp, if_neg hlow, if_neg hhigh]
  rfl

theorem admits_quiet (hp : p ∈ declared) (params : Params) : p.Admits (p.quiet params) := by
  unfold quiet
  split
  · exact (admits_declared p hp).1
  · exact admits_clamp hp _

/-! ### Reading -/

theorem value_read (p : Parameter) (effect : String) (params : Params) :
    (p.read effect params).value = p.quiet params := by
  unfold read quiet
  split <;> rfl

theorem value_read? (p : Parameter) (effect : String) (params : Params) :
    (p.read? effect params).value = (p.lookup? params).map p.clamp := by
  unfold read?
  cases h : p.lookup? params with
  | none => rfl
  | some x =>
    simp only [Logged.value_map, value_read, Option.map_some]
    rw [quiet, h]

/-- A number that is not NaN is found as it is written. -/
theorem lookup?_of_get? (h : params.get? p.name = some (.number x)) (hx : x.isNaN = false) :
    p.lookup? params = some x := by
  rw [lookup?, Params.number?_of_get? h hx]
  rfl

/-- A number of the range is read as it is written. -/
theorem Admits.quiet_eq (h : p.Admits x) (hget : params.get? p.name = some (.number x)) :
    p.quiet params = x := by
  rw [quiet, lookup?_of_get? hget h.1]
  exact h.clamp_eq

end KineticText.Parameter
