import KineticText.Effect.Shade
import KineticText.Proofs.Color.Blending
import KineticText.Proofs.Number.Signs

/-! Colors along a row of stops.  A position is brought onto the row first, whatever number it is,
and the stop before it is kept away from the end, so that there is always a next one.  Main
statement: a row of stops shows at every position a blend of two stops that lie next to each other,
with every channel between theirs. -/

namespace KineticText

variable {stops : Array Color} {count : Nat} {repeating : Bool}

/-- A position brought onto a row of stops; a repeating row goes on from its end to its start. -/
def onRow (count : Nat) (position : Float) (repeating : Bool) : Float :=
  let position := if position.isFinite then position else 0.0
  if repeating then Double.modulo position (Double.ofNat count)
  else Double.clamp 0.0 (Double.ofNat (count - 1)) position

/-- The stop at a position or before it. -/
def stopBefore (count : Nat) (position : Float) (repeating : Bool) : Nat :=
  min (Double.toNat (Double.floor (onRow count position repeating)))
    (if repeating then count - 1 else count - 2)

/-- The weight of the next stop, in 256ths. -/
def nextWeight (count : Nat) (position : Float) (repeating : Bool) : Nat :=
  Color.weight
    (onRow count position repeating - Double.ofNat (stopBefore count position repeating))

/-- One stop lies next before another; in a repeating row the last one does so before the first. -/
inductive Adjacent (count : Nat) (repeating : Bool) : Nat → Nat → Prop
  | next (i : Nat) (h : i + 1 < count) : Adjacent count repeating i (i + 1)
  | around (h : repeating = true) : Adjacent count repeating (count - 1) 0

theorem adjacent_stopBefore (hmany : 2 ≤ count) (position : Float) (repeating : Bool) :
    Adjacent count repeating (stopBefore count position repeating)
      ((stopBefore count position repeating + 1) % count) := by
  have hle : stopBefore count position repeating ≤ if repeating then count - 1 else count - 2 :=
    Nat.min_le_right _ _
  generalize stopBefore count position repeating = i at hle
  by_cases hinside : i + 1 < count
  · rw [Nat.mod_eq_of_lt hinside]
    exact .next i hinside
  · cases repeating with
    | true =>
      have hlast : i = count - 1 := by simp at hle; omega
      subst hlast
      rw [Nat.sub_add_cancel (by omega), Nat.mod_self]
      exact .around rfl
    | false =>
      simp at hle
      omega

theorem Adjacent.lt {i j : Nat} (h : Adjacent count repeating i j) (hsome : 0 < count) :
    i < count ∧ j < count := by
  cases h with
  | next i h => exact ⟨Nat.lt_of_succ_lt h, h⟩
  | around h => exact ⟨Nat.sub_one_lt_of_lt hsome, hsome⟩

/-- Of several stops, those at and behind a position are there, and they are blended. -/
theorem exists_blend (hmany : 2 ≤ stops.size) (position : Float) (repeating : Bool) :
    ∃ a b, stops[stopBefore stops.size position repeating]? = some a ∧
      stops[(stopBefore stops.size position repeating + 1) % stops.size]? = some b ∧
      shade stops position repeating =
        some (a.blend b (nextWeight stops.size position repeating)) := by
  obtain ⟨hi, hj⟩ := (adjacent_stopBefore hmany position repeating).lt (Nat.zero_lt_of_lt hmany)
  have hshade : shade stops position repeating = do
      let i := stopBefore stops.size position repeating
      return Color.blend (← stops[i]?) (← stops[(i + 1) % stops.size]?)
        (nextWeight stops.size position repeating) :=
    if_neg (Nat.not_lt.mpr hmany)
  refine ⟨_, _, Array.getElem?_eq_getElem hi, Array.getElem?_eq_getElem hj, ?_⟩
  simp only [hshade, Array.getElem?_eq_getElem hi, Array.getElem?_eq_getElem hj]
  rfl

/-- A row with stops has a color everywhere. -/
theorem exists_shade (h : 0 < stops.size) (position : Float) (repeating : Bool) :
    ∃ color, shade stops position repeating = some color := by
  by_cases hmany : 2 ≤ stops.size
  · obtain ⟨a, b, -, -, hshade⟩ := exists_blend hmany position repeating
    exact ⟨_, hshade⟩
  · exact ⟨stops[0], (if_pos (Nat.not_le.mp hmany)).trans (Array.getElem?_eq_getElem h)⟩

/-- Without stops there is no color, and a single stop is the color everywhere.  Of several stops
those at and behind a position are blended: both are stops of the row, they lie next to each other,
and no channel leaves the range of theirs.  A row that ends has its last stop not before its first
one, so that a position can be kept between them.  The ends of a blend are its colors. -/
theorem shade_between (stops : Array Color) (position : Float) (repeating : Bool) :
    (stops = #[] → shade stops position repeating = none) ∧
    (∀ only, stops = #[only] → shade stops position repeating = some only) ∧
    0.0 ≤ Double.ofNat (stops.size - 1) ∧
    (2 ≤ stops.size → ∃ j a b,
      let i := stopBefore stops.size position repeating
      let w := nextWeight stops.size position repeating
      Adjacent stops.size repeating i j ∧ stops[i]? = some a ∧ stops[j]? = some b ∧
        shade stops position repeating = some (a.blend b w) ∧ w ≤ 256 ∧
        (a.blend b w).LiesBetween a b) ∧
    ∀ a b : Color, a.blend b 0 = a ∧ a.blend b 256 = b := by
  refine ⟨?_, ?_, Double.zero_le_ofNat _, fun hmany => ?_, fun a b => ⟨a.blend_zero b, a.blend_full b⟩⟩
  · rintro rfl
    rfl
  · rintro only rfl
    rfl
  · obtain ⟨a, b, ha, hb, hshade⟩ := exists_blend hmany position repeating
    have hweight : nextWeight stops.size position repeating ≤ 256 := Color.weight_le _
    exact ⟨_, a, b, adjacent_stopBefore hmany position repeating, ha, hb, hshade, hweight,
      a.blend_liesBetween b hweight⟩

example : shade #[⟨0xFF102030⟩, ⟨0x00FFFFFF⟩] (-1.0 / 0.0) true = some ⟨0xFF102030⟩ := by
  decide +kernel

end KineticText
