import Mathlib.Data.Fintype.EquivFin
import Mathlib.Data.Set.Function
import KineticText.Proofs.Random.Mixing
import KineticText.Random.Generator

/-! What a generator draws.  Its three shifts lose nothing, so zero is the only state that they take
to zero, and no seed starts there.  A word below a bound and a word between two bounds are drawn
without a sum or a difference that does not fit.  Main statement: a generator never comes to the
state that it would not leave, and draws from the range it is asked for, all words included. -/

namespace KineticText.Random

open Function

/-- The sum of two words, if it is a word. -/
def sum? (x y : UInt64) : Option UInt64 :=
  if x.toNat + y.toNat < 2 ^ 64 then some (x + y) else none

/-- The difference of two words, if it is not below zero. -/
def difference? (x y : UInt64) : Option UInt64 := if y ≤ x then some (x - y) else none

theorem sum?_eq_some {x y : UInt64} (h : x.toNat + y.toNat < 2 ^ 64) : sum? x y = some (x + y) :=
  if_pos h

theorem sum?_eq_some_iff {x y z : UInt64} :
    sum? x y = some z ↔ z.toNat = x.toNat + y.toNat := by
  have hx := x.toNat_lt
  have hz := z.toNat_lt
  unfold sum?
  split
  · rw [Option.some_inj, ← UInt64.toNat_inj, UInt64.toNat_add]
    omega
  · simp
    omega

theorem eq_add_of_sum? {x y z : UInt64} (h : sum? x y = some z) : z = x + y :=
  (Option.some.inj ((sum?_eq_some (sum?_eq_some_iff.mp h ▸ z.toNat_lt)).symm.trans h)).symm

theorem sum?_one (x : UInt64) : sum? x 1 = if x + 1 = 0 then none else some (x + 1) := by
  have hx := x.toNat_lt
  have hzero : x + 1 = 0 ↔ ¬ x.toNat + (1 : UInt64).toNat < 2 ^ 64 := by
    rw [← UInt64.toNat_inj, UInt64.toNat_add]
    simp
    omega
  rw [sum?]
  simp only [hzero, ite_not]

namespace Generator

variable (g : Generator) {lo hi bound : UInt64}

/-! ### Ranges -/

theorem below_lt (h : 0 < bound) : (g.below bound).1 < bound := by
  have hne : ¬ (bound == 0) = true := by simpa using UInt64.pos_iff_ne_zero.mp h
  unfold below
  rw [if_neg hne, UInt64.lt_iff_toNat_lt, UInt64.toNat_mod]
  exact Nat.mod_lt _ (UInt64.lt_iff_toNat_lt.mp h)

/-- A drawn index is one of the sequence. -/
theorem index_lt {length : Nat} (h : 0 < length) : (g.index length).1 < length := by
  unfold index
  by_cases hpos : 0 < UInt64.ofNat length
  · have hle : (UInt64.ofNat length).toNat ≤ length := Nat.mod_le _ _
    exact Nat.lt_of_lt_of_le (UInt64.lt_iff_toNat_lt.mp (g.below_lt hpos)) hle
  · have hzero : UInt64.ofNat length = 0 := by simpa using hpos
    rw [hzero]
    exact h

theorem toNat_sub_add_one (h : lo ≤ hi) :
    (hi - lo + 1).toNat = (hi.toNat - lo.toNat + 1) % 2 ^ 64 := by
  rw [UInt64.toNat_add, UInt64.toNat_sub_of_le _ _ (UInt64.le_iff_toNat_le.mp h)]
  rfl

/-- With a word below the number of words in a range, the sum stays in the range. -/
theorem add_below_le (h : lo ≤ hi) (hsome : hi - lo + 1 ≠ 0) :
    lo.toNat + (g.below (hi - lo + 1)).1.toNat ≤ hi.toNat := by
  have hlt := UInt64.lt_iff_toNat_lt.mp (g.below_lt (UInt64.pos_iff_ne_zero.mpr hsome))
  have hle := UInt64.le_iff_toNat_le.mp h
  have hmod := Nat.mod_le (hi.toNat - lo.toNat + 1) (2 ^ 64)
  rw [toNat_sub_add_one h] at hlt
  omega

/-- A drawn word lies between the bounds; when they are the wrong way round it is the first one. -/
theorem between_mem (lo hi : UInt64) :
    lo.toNat ≤ (g.between lo hi).1.toNat ∧
      (g.between lo hi).1.toNat ≤ max lo.toNat hi.toNat := by
  unfold between
  split
  · exact ⟨Nat.le_refl _, Nat.le_max_left _ _⟩
  · rename_i hlt
    have hle : lo ≤ hi := UInt64.le_of_lt (UInt64.not_le.mp hlt)
    split
    · -- All words lie between the bounds.
      rename_i hall
      have hzero := congrArg UInt64.toNat (eq_of_beq hall)
      rw [toNat_sub_add_one hle] at hzero
      have hhi := hi.toNat_lt
      have hx := g.next.1.toNat_lt
      simp at hzero
      omega
    · rename_i hsome
      have hsum := g.add_below_le hle (by simpa using hsome)
      have hhi := hi.toNat_lt
      simp only [UInt64.toNat_add]
      omega

/-- Draws a word from `lo` to `hi`.  The number of words to choose from need not be a word; `none`
if any other sum or difference on the way is none. -/
def between? (lo hi : UInt64) : Option (UInt64 × Generator) :=
  if hi ≤ lo then some (lo, g)
  else do
    let distance ← difference? hi lo
    match sum? distance 1 with
    | none => some g.next
    | some count =>
      let (x, g) := g.below count
      return (← sum? lo x, g)

theorem between?_eq_some (lo hi : UInt64) : g.between? lo hi = some (g.between lo hi) := by
  unfold between? between
  split
  · rfl
  · rename_i hlt
    have hle : lo ≤ hi := UInt64.le_of_lt (UInt64.not_le.mp hlt)
    rw [difference?, if_pos hle, Option.bind_eq_bind, Option.bind_some, sum?_one]
    by_cases hall : hi - lo + 1 = 0
    · simp [hall]
    · have hsum := g.add_below_le hle hall
      have hfits := sum?_eq_some (Nat.lt_of_le_of_lt hsum hi.toNat_lt)
      simp [hall, hfits]

/-! ### States -/

/-- What can be drawn. -/
inductive Draw
  | next
  | below (bound : UInt64)
  | index (length : Nat)
  | between (lo hi : UInt64)
  | unit
  | signedUnit

/-- The generator after a draw. -/
def drawn (g : Generator) : Draw → Generator
  | .next => g.next.2
  | .below bound => (g.below bound).2
  | .index length => (g.index length).2
  | .between lo hi => (g.between lo hi).2
  | .unit => g.unit.2
  | .signedUnit => g.signedUnit.2

theorem shift_injective : Injective shift := by
  intro x y h
  have hsecond := xorShiftLeft_injective (by decide) h
  exact xorShiftLeft_injective (by decide) (xorShift_injective (by decide) hsecond)

theorem shift_ne_zero {x : UInt64} (h : x ≠ 0) : shift x ≠ 0 := fun hzero =>
  h (shift_injective (hzero.trans (show 0 = shift 0 by decide)))

theorem bijOn_shift : Set.BijOn shift {0}ᶜ {0}ᶜ := by
  have hfinite : Finite UInt64 := Finite.of_injective UInt64.toFin fun _ _ => UInt64.eq_of_toFin_eq
  refine ⟨fun x => shift_ne_zero, shift_injective.injOn, fun y hy => ?_⟩
  obtain ⟨x, rfl⟩ := Finite.injective_iff_surjective.mp shift_injective y
  refine ⟨x, fun hzero => hy ?_, rfl⟩
  rw [Set.mem_singleton_iff.mp hzero]
  decide

theorem state_ofSeed_ne_zero (seed : UInt64) : (ofSeed seed).state ≠ 0 := by
  unfold ofSeed
  simp only
  split
  · decide
  · rename_i hne
    simpa using hne

theorem state_below (bound : UInt64) :
    (g.below bound).2 = g ∨ (g.below bound).2 = g.next.2 := by
  unfold below
  split
  · exact .inl rfl
  · exact .inr rfl

/-- A draw shifts the state once, or leaves the generator alone. -/
theorem drawn_eq (draw : Draw) : g.drawn draw = g ∨ g.drawn draw = g.next.2 := by
  cases draw with
  | next | unit | signedUnit => exact .inr rfl
  | below bound => exact g.state_below bound
  | index length => exact g.state_below (UInt64.ofNat length)
  | between lo hi =>
    unfold drawn between
    simp only
    split
    · exact .inl rfl
    · split
      · exact .inr rfl
      · exact g.state_below _

theorem state_draws_ne_zero {g : Generator} (h : g.state ≠ 0) (draws : List Draw) :
    (draws.foldl drawn g).state ≠ 0 := by
  induction draws generalizing g with
  | nil => exact h
  | cons draw rest ih =>
    refine ih ?_
    rcases g.drawn_eq draw with hsame | hnext
    · rwa [hsame]
    · rw [hnext]
      exact shift_ne_zero h

/-- No draws from a seeded generator bring it to the state zero; one draw takes the other states
one-to-one onto themselves; and every word drawn lies in its range, whatever the state. -/
theorem draws_regular :
    (∀ (seed : UInt64) (draws : List Draw), (draws.foldl drawn (ofSeed seed)).state ≠ 0) ∧
    Set.BijOn (fun state => (Generator.mk state).next.2.state) {0}ᶜ {0}ᶜ ∧
    (∀ (g : Generator) (bound : UInt64), 0 < bound → (g.below bound).1 < bound) ∧
    ∀ (g : Generator) (lo hi : UInt64), g.between? lo hi = some (g.between lo hi) ∧
      (lo ≤ hi → lo ≤ (g.between lo hi).1 ∧ (g.between lo hi).1 ≤ hi) ∧
      (hi < lo → g.between lo hi = (lo, g)) := by
  refine ⟨fun seed => state_draws_ne_zero (state_ofSeed_ne_zero seed), bijOn_shift,
    fun g _ => g.below_lt, fun g lo hi => ⟨g.between?_eq_some lo hi, fun hle => ?_, fun hlt => ?_⟩⟩
  · have hmem := g.between_mem lo hi
    rw [Nat.max_eq_right (UInt64.le_iff_toNat_le.mp hle)] at hmem
    exact ⟨UInt64.le_iff_toNat_le.mpr hmem.1, UInt64.le_iff_toNat_le.mpr hmem.2⟩
  · rw [between, if_pos (UInt64.le_of_lt hlt)]

end Generator

end KineticText.Random
