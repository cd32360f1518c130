import KineticText.Number.Double

/-! How many characters a typewriter shows, and how several ones share a number of characters. -/

namespace KineticText

/-- The characters out of `total` that show after `elapsed` ticks, at `speed` characters per tick
from the tick `delay` on. -/
def visibleCount (elapsed speed delay : Float) (total : Nat) : Nat :=
  let shown := (elapsed - delay) * speed
  if 0.0 < shown then min (Double.toNat (Double.floor shown)) total else 0

theorem visibleCount_le (elapsed speed delay : Float) (total : Nat) :
    visibleCount elapsed speed delay total ≤ total := by
  unfold visibleCount
  simp only
  split
  · exact Nat.min_le_right _ _
  · exact Nat.zero_le _

/-- The number of characters of elements of given lengths. -/
def totalLength : List Nat → Nat
  | [] => 0
  | length :: rest => length + totalLength rest

/-- Gives a number of characters to elements of given lengths, the first ones first. -/
def allot : Nat → List Nat → List Nat
  | _, [] => []
  | budget, length :: rest => min budget length :: allot (budget - length) rest

@[simp] theorem length_allot (budget : Nat) (lengths : List Nat) :
    (allot budget lengths).length = lengths.length := by
  induction lengths generalizing budget with
  | nil => rfl
  | cons length rest ih => simp [allot, ih]

/-- Everything is given out, up to what there is room for. -/
theorem totalLength_allot (budget : Nat) (lengths : List Nat) :
    totalLength (allot budget lengths) = min budget (totalLength lengths) := by
  induction lengths generalizing budget with
  | nil => simp [allot, totalLength]
  | cons length rest ih =>
    simp only [allot, totalLength, ih]
    omega

end KineticText
