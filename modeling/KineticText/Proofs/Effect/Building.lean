import Mathlib.Data.Nat.PSub
import KineticText.Proofs.Effect.Orders
import KineticText.Proofs.Random.Draws

/-! Orders built index by index.  From the middle outward and from the ends inward, each round
computes an index or two from its number and appends them; at random, elements of the list of all
indices are exchanged.  Here each of these steps can fail: a difference that would be below zero, an
index beyond the last character, an exchange with an element that is not there.  Main statement:
none fails, and what they build is the order of the direction. -/

namespace KineticText

/-- Appends an index to an order of `count` characters, if it is one of theirs. -/
def push? (count : Nat) (order : List Nat) (index : Nat) : Option (List Nat) :=
  if index < count then some (order ++ [index]) else none

/-- Exchanges two elements, if both are there. -/
def exchange? (xs : Array Nat) (i j : Nat) : Option (Array Nat) :=
  if h : i < xs.size ∧ j < xs.size then some (xs.swap i j h.1 h.2) else none

/-- A round from the middle outward. -/
def outwardRound? (count middle : Nat) (order : List Nat) (k : Nat) : Option (List Nat) := do
  let order ← if k ≤ middle then (middle.psub k).bind (push? count order) else some order
  if middle + 1 + k < count then push? count order (middle + 1 + k) else some order

/-- Rounds from the middle outward, the first of them round `k`, until the order is full. -/
def outwardFrom? (count middle : Nat) : (rounds k : Nat) → List Nat → Option (List Nat)
  | 0, _, order => some order
  | rounds + 1, k, order => do
    let order ← outwardRound? count middle order k
    if order.length = count then some order else outwardFrom? count middle rounds (k + 1) order

/-- The indices below `count` from the middle outward. -/
def outward? (count : Nat) : Option (List Nat) :=
  if count = 0 then some []
  else do
    let last ← count.psub 1
    outwardFrom? count (last / 2) count 0 []

/-- A round from both ends inward. -/
def inwardRound? (count : Nat) (order : List Nat) (k : Nat) : Option (List Nat) := do
  let order ← push? count order k
  let last ← count.psub 1
  let opposite ← last.psub k
  if opposite = k then some order else push? count order opposite

/-- The indices below `count` from both ends inward. -/
def inward? (count : Nat) : Option (List Nat) :=
  (List.range ((count + 1) / 2)).foldlM (inwardRound? count) []

/-- Exchanges the element at each place from `place` down with one not after it. -/
def shuffleBelow? : Nat → Array Nat → Random.Generator → Option (Array Nat)
  | 0, order, _ => some order
  | place + 1, order, g => do
    let (other, g) := g.index (place + 2)
    shuffleBelow? place (← exchange? order (place + 1) other) g

/-- The order of a direction, built step by step; `none` if a step fails. -/
def Direction.order? (d : Direction) (count : Nat) (seed : UInt64) : Option (List Nat) :=
  match d with
  | .left => some (List.range count)
  | .right => some (List.range count).reverse
  | .center => outward? count
  | .edges => inward? count
  | .random =>
    (shuffleBelow? (count - 1) (List.range count).toArray (.ofSeed seed)).map Array.toList

/-! ### Rounds -/

/-- The indices of a round from the middle outward. -/
def outwardPair (count middle k : Nat) : List Nat :=
  (if k ≤ middle then [middle - k] else []) ++
    if middle + 1 + k < count then [middle + 1 + k] else []

theorem outward_eq_flatMap (count : Nat) :
    outward count = (List.range count).flatMap (outwardPair count ((count - 1) / 2)) := rfl

theorem push?_eq_some {count index : Nat} (h : index < count) (order : List Nat) :
    push? count order index = some (order ++ [index]) := if_pos h

theorem outwardRound?_eq_some {count middle : Nat} (h : middle < count) (order : List Nat)
    (k : Nat) : outwardRound? count middle order k = some (order ++ outwardPair count middle k) := by
  unfold outwardRound? outwardPair
  by_cases hleft : k ≤ middle
  · have hpush := push?_eq_some (show middle - k < count by omega) order
    by_cases hright : middle + 1 + k < count <;>
      simp [hleft, hright, Nat.psub_eq_sub hleft, hpush, push?_eq_some]
  · by_cases hright : middle + 1 + k < count <;> simp [hleft, hright, push?_eq_some]

/-- An order that is full has had all its rounds. -/
theorem outwardFrom?_eq_some {count : Nat} (hpos : 0 < count) (rounds k : Nat)
    (hrounds : k + rounds = count) :
    outwardFrom? count ((count - 1) / 2) rounds k
        ((List.range k).flatMap (outwardPair count ((count - 1) / 2))) =
      some (outward count) := by
  induction rounds generalizing k with
  | zero =>
    rw [Nat.add_zero] at hrounds
    rw [outwardFrom?, hrounds, outward_eq_flatMap]
  | succ rounds ih =>
    have hround := outwardRound?_eq_some (show (count - 1) / 2 < count by omega)
      ((List.range k).flatMap (outwardPair count ((count - 1) / 2))) k
    rw [← List.flatMap_singleton (outwardPair count ((count - 1) / 2)) k, ← List.flatMap_append,
      ← List.range_succ] at hround
    rw [outwardFrom?, hround, Option.bind_eq_bind, Option.bind_some]
    split
    · rename_i hfull
      have hrange : List.range count = List.range (k + 1) ++ (List.range rounds).map (k + 1 + ·) := by
        rw [← List.range_add, ← hrounds, Nat.add_right_comm, Nat.add_assoc]
      have hbegins : (List.range (k + 1)).flatMap (outwardPair count ((count - 1) / 2)) <+:
          outward count := by
        rw [outward_eq_flatMap, hrange, List.flatMap_append]
        exact List.prefix_append _ _
      rw [hbegins.eq_of_length (hfull.trans (length_order .center count 0).symm)]
    · exact ih (k + 1) (by omega)

theorem outward?_eq_some (count : Nat) : outward? count = some (outward count) := by
  unfold outward?
  split
  · rename_i hzero
    subst hzero
    rfl
  · rename_i hpos
    rw [Nat.psub_eq_sub (Nat.one_le_iff_ne_zero.mpr hpos)]
    exact outwardFrom?_eq_some (Nat.pos_of_ne_zero hpos) count 0 (Nat.zero_add count)

theorem inwardRound?_eq_some {count k : Nat} (h : k < (count + 1) / 2) (order : List Nat) :
    inwardRound? count order k =
      some (order ++ if count - 1 - k = k then [k] else [k, count - 1 - k]) := by
  unfold inwardRound?
  rw [push?_eq_some (show k < count by omega), Nat.psub_eq_sub (show 1 ≤ count by omega)]
  simp only [Option.bind_eq_bind, Option.bind_some]
  rw [Nat.psub_eq_sub (show k ≤ count - 1 by omega), Option.bind_some]
  split
  · rfl
  · rw [push?_eq_some (show count - 1 - k < count by omega), List.append_assoc]
    rfl

/-- Steps that append build what they append one after the other. -/
theorem foldlM_eq_some_append {α β : Type} {step : List β → α → Option (List β)}
    {round : α → List β} (items : List α)
    (h : ∀ item ∈ items, ∀ built, step built item = some (built ++ round item))
    (built : List β) : items.foldlM step built = some (built ++ items.flatMap round) := by
  induction items generalizing built with
  | nil => simp
  | cons item rest ih =>
    obtain ⟨hitem, hrest⟩ := List.forall_mem_cons.mp h
    rw [List.foldlM_cons, hitem, Option.bind_eq_bind, Option.bind_some, ih hrest,
      List.flatMap_cons, List.append_assoc]

theorem inward?_eq_some (count : Nat) : inward? count = some (inward count) :=
  foldlM_eq_some_append _ (fun _ hk => inwardRound?_eq_some (List.mem_range.mp hk)) []

/-! ### Exchanges -/

theorem exchange?_eq_some {xs : Array Nat} {i j : Nat} (hi : i < xs.size) (hj : j < xs.size) :
    exchange? xs i j = some (xs.swapIfInBounds i j) := by
  rw [exchange?, dif_pos ⟨hi, hj⟩, Array.swapIfInBounds_def, dif_pos hi, dif_pos hj]

theorem shuffleBelow?_eq_some (place : Nat) (order : Array Nat) (g : Random.Generator)
    (h : place ≤ order.size - 1) :
    shuffleBelow? place order g = some (shuffleBelow place order g) := by
  induction place generalizing order g with
  | zero => rfl
  | succ place ih =>
    have hother : (g.index (place + 2)).1 < place + 2 := g.index_lt (Nat.succ_pos _)
    have hexchange : exchange? order (place + 1) (g.index (place + 2)).1 =
        some (order.swapIfInBounds (place + 1) (g.index (place + 2)).1) :=
      exchange?_eq_some (by omega) (by omega)
    unfold shuffleBelow? shuffleBelow
    simp only [hexchange, Option.bind_eq_bind, Option.bind_some]
    exact ih _ _ (by rw [Array.size_swapIfInBounds]; omega)

/-- Every step in building an order succeeds. -/
theorem Direction.order?_eq_some (d : Direction) (count : Nat) (seed : UInt64) :
    d.order? count seed = some (d.order count seed) := by
  cases d with
  | left | right => rfl
  | center => exact outward?_eq_some count
  | edges => exact inward?_eq_some count
  | random =>
    have hle : count - 1 ≤ (List.range count).toArray.size - 1 := by simp
    rw [order?, shuffleBelow?_eq_some _ _ _ hle]
    rfl

end KineticText
