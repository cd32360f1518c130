import KineticText.Effect.Choice
import KineticText.Random.Generator

/-! The order in which the characters of an element are revealed or hidden, and the rank of each
character in it.  An order has every index below the number of characters once. -/

namespace KineticText

/-- Exchanges the element at each place from `place` down with one not after it, drawn at random. -/
def shuffleBelow : Nat → Array Nat → Random.Generator → Array Nat
  | 0, order, _ => order
  | place + 1, order, g =>
    let (other, g) := g.index (place + 2)
    shuffleBelow place (order.swapIfInBounds (place + 1) other) g

/-- The indices below `count` from the middle outward, the left one of a pair first. -/
def outward (count : Nat) : List Nat :=
  let middle := (count - 1) / 2
  (List.range count).flatMap fun k =>
    (if k ≤ middle then [middle - k] else []) ++
      if middle + 1 + k < count then [middle + 1 + k] else []

/-- The indices below `count` from both ends inward, the left one of a pair first. -/
def inward (count : Nat) : List Nat :=
  (List.range ((count + 1) / 2)).flatMap fun k =>
    if count - 1 - k = k then [k] else [k, count - 1 - k]

/-- The indices below `count` in the order of a direction. -/
def Direction.order (d : Direction) (count : Nat) (seed : UInt64) : List Nat :=
  match d with
  | .left => List.range count
  | .right => (List.range count).reverse
  | .center => outward count
  | .edges => inward count
  | .random =>
    (shuffleBelow (count - 1) (List.range count).toArray (.ofSeed seed)).toList

/-- The place of each index in an order; what is no index is passed over. -/
def rankOf (order : List Nat) : Array Nat :=
  order.zipIdx.foldl (fun rank entry => rank.setIfInBounds entry.1 entry.2)
    (Array.replicate order.length 0)

@[simp] theorem size_rankOf (order : List Nat) : (rankOf order).size = order.length := by
  suffices h : ∀ (entries : List (Nat × Nat)) (rank : Array Nat),
      (entries.foldl (fun rank entry => rank.setIfInBounds entry.1 entry.2) rank).size =
        rank.size by
    simp [rankOf, h]
  intro entries
  induction entries with
  | nil => intro rank; rfl
  | cons entry rest ih => intro rank; simp [ih]

end KineticText
