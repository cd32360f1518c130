import KineticText.Proofs.Effect.Building

/-! Where the characters of an order lie.  From the middle outward and from the ends inward the
index at a place has a closed form, by the parity of the place.  So what has been revealed from the
middle outward are neighbouring characters, and so are those that are left from the ends inward.
Main statement: the order of each direction is built without a step that fails, has each character
once, and is undone by its ranks, and these two have their blocks. -/

namespace KineticText

/-- The indices are those of neighbouring characters, in some order. -/
def IsBlock (indices : List Nat) : Prop :=
  ∃ first, indices.Perm (List.range' first indices.length)

theorem isBlock_of_perm {indices : List Nat} {first length : Nat}
    (h : indices.Perm (List.range' first length)) : IsBlock indices := by
  have hlength : indices.length = length := by rw [h.length_eq, List.length_range']
  exact ⟨first, hlength ▸ h⟩

/-- Rounds of two indices, the last of which may have one only, in a row. -/
theorem flatMap_pairs {count rounds : Nat} {index : Nat → Nat} {round : Nat → List Nat}
    (h : ∀ k < rounds, round k = (if 2 * k < count then [index (2 * k)] else []) ++
      if 2 * k + 1 < count then [index (2 * k + 1)] else []) :
    (List.range rounds).flatMap round = (List.range (min (2 * rounds) count)).map index := by
  induction rounds with
  | zero => simp
  | succ rounds ih =>
    rw [List.range_succ, List.flatMap_append, ih fun k hk => h k (Nat.lt_succ_of_lt hk),
      List.flatMap_singleton, h rounds (Nat.lt_succ_self rounds)]
    by_cases hfirst : 2 * rounds < count
    · by_cases hsecond : 2 * rounds + 1 < count
      · have hmin : min (2 * (rounds + 1)) count = 2 * rounds + 1 + 1 := by omega
        rw [hmin, List.range_succ, List.range_succ, Nat.min_eq_left (Nat.le_of_lt hfirst)]
        simp [hfirst, hsecond]
      · have hmin : min (2 * (rounds + 1)) count = 2 * rounds + 1 := by omega
        rw [hmin, List.range_succ, Nat.min_eq_left (Nat.le_of_lt hfirst)]
        simp [hfirst, hsecond]
    · have hmin : min (2 * (rounds + 1)) count = min (2 * rounds) count := by omega
      have hsecond : ¬ 2 * rounds + 1 < count := by omega
      simp [hfirst, hsecond, hmin]

/-! ### From the middle outward -/

/-- The index at a place from the middle outward: the left ones and the right ones take turns. -/
def outwardIndex (middle place : Nat) : Nat :=
  if place % 2 = 0 then middle - place / 2 else middle + 1 + place / 2

theorem outward_eq_map (count : Nat) :
    outward count = (List.range count).map (outwardIndex ((count - 1) / 2)) := by
  have hpairs : ∀ k < count, outwardPair count ((count - 1) / 2) k =
      (if 2 * k < count then [outwardIndex ((count - 1) / 2) (2 * k)] else []) ++
        if 2 * k + 1 < count then [outwardIndex ((count - 1) / 2) (2 * k + 1)] else [] := by
    intro k hk
    have hleft : k ≤ (count - 1) / 2 ↔ 2 * k < count := by omega
    have hright : (count - 1) / 2 + 1 + k < count ↔ 2 * k + 1 < count := by omega
    have heven : outwardIndex ((count - 1) / 2) (2 * k) = (count - 1) / 2 - k := by
      rw [outwardIndex, if_pos (by omega)]
      omega
    have hodd : outwardIndex ((count - 1) / 2) (2 * k + 1) = (count - 1) / 2 + 1 + k := by
      rw [outwardIndex, if_neg (by omega)]
      omega
    simp only [outwardPair, hleft, hright, heven, hodd]
  rw [outward_eq_flatMap, flatMap_pairs hpairs, Nat.min_eq_right (by omega)]

/-- Each place adds an index at the left end or at the right end of the block before it. -/
theorem perm_map_outwardIndex {count places : Nat} (h : places ≤ count) :
    ((List.range places).map (outwardIndex ((count - 1) / 2))).Perm
      (List.range' ((count - 1) / 2 + 1 - (places + 1) / 2) places) := by
  induction places with
  | zero => exact .refl _
  | succ places ih =>
    have hbefore := ih (Nat.le_of_succ_le h)
    rw [List.range_succ, List.map_append, List.map_singleton]
    refine (hbefore.append_right _).trans ?_
    by_cases heven : places % 2 = 0
    · have hindex : outwardIndex ((count - 1) / 2) places =
          (count - 1) / 2 + 1 - (places + 1 + 1) / 2 := by
        rw [outwardIndex, if_pos heven]
        omega
      have hnext : (count - 1) / 2 + 1 - (places + 1) / 2 =
          (count - 1) / 2 + 1 - (places + 1 + 1) / 2 + 1 := by omega
      rw [hindex, hnext, List.range'_succ]
      exact List.perm_append_singleton _ _
    · have hindex : outwardIndex ((count - 1) / 2) places =
          (count - 1) / 2 + 1 - (places + 1 + 1) / 2 + places := by
        rw [outwardIndex, if_neg heven]
        omega
      have hsame : (count - 1) / 2 + 1 - (places + 1) / 2 =
          (count - 1) / 2 + 1 - (places + 1 + 1) / 2 := by omega
      rw [hindex, hsame, List.range'_1_concat]

theorem isBlock_take_outward (count places : Nat) : IsBlock ((outward count).take places) := by
  rw [outward_eq_map, ← List.map_take, List.take_range]
  exact isBlock_of_perm (perm_map_outwardIndex (Nat.min_le_right places count))

/-! ### From the ends inward -/

/-- The index at a place from the ends inward: the left ones and the right ones take turns. -/
def inwardIndex (count place : Nat) : Nat :=
  if place % 2 = 0 then place / 2 else count - 1 - place / 2

theorem inward_eq_map (count : Nat) :
    inward count = (List.range count).map (inwardIndex count) := by
  have hpairs : ∀ k < (count + 1) / 2, (if count - 1 - k = k then [k] else [k, count - 1 - k]) =
      (if 2 * k < count then [inwardIndex count (2 * k)] else []) ++
        if 2 * k + 1 < count then [inwardIndex count (2 * k + 1)] else [] := by
    intro k hk
    have heven : inwardIndex count (2 * k) = k := by
      rw [inwardIndex, if_pos (by omega)]
      omega
    have hodd : inwardIndex count (2 * k + 1) = count - 1 - k := by
      rw [inwardIndex, if_neg (by omega)]
      omega
    rw [if_pos (show 2 * k < count by omega), heven, hodd]
    by_cases hmeet : count - 1 - k = k
    · rw [if_pos hmeet, if_neg (by omega), List.append_nil]
    · rw [if_neg hmeet, if_pos (by omega)]
      rfl
  rw [inward, flatMap_pairs hpairs, Nat.min_eq_right (by omega)]

/-- Each place takes an index from the left end or from the right end of the block that was left. -/
theorem perm_map_inwardIndex {count place rest : Nat} (h : place + rest = count) :
    ((List.range' place rest).map (inwardIndex count)).Perm
      (List.range' ((place + 1) / 2) rest) := by
  induction rest generalizing place with
  | zero => exact .refl _
  | succ rest ih =>
    have hafter := ih (show place + 1 + rest = count by omega)
    rw [List.range'_succ, List.map_cons]
    refine (hafter.cons _).trans ?_
    by_cases heven : place % 2 = 0
    · have hindex : inwardIndex count place = (place + 1) / 2 := by
        rw [inwardIndex, if_pos heven]
        omega
      have hnext : (place + 1 + 1) / 2 = (place + 1) / 2 + 1 := by omega
      rw [hindex, hnext, List.range'_succ]
    · have hindex : inwardIndex count place = (place + 1) / 2 + rest := by
        rw [inwardIndex, if_neg heven]
        omega
      have hsame : (place + 1 + 1) / 2 = (place + 1) / 2 := by omega
      rw [hindex, hsame, List.range'_1_concat]
      exact (List.perm_append_singleton _ _).symm

theorem isBlock_drop_inward (count places : Nat) : IsBlock ((inward count).drop places) := by
  rw [inward_eq_map, ← List.map_drop, List.range_eq_range', List.drop_range', Nat.zero_add]
  by_cases hle : places ≤ count
  · exact isBlock_of_perm (perm_map_inwardIndex (by omega))
  · rw [Nat.sub_eq_zero_of_le (by omega)]
    exact ⟨0, .refl _⟩

/-! ### Orders of reveal -/

/-- The list has each character once, and its ranks undo it from both sides. -/
structure IsOrder (order : List Nat) (count : Nat) : Prop where
  length_eq : order.length = count
  count_eq_one : ∀ index < count, order.count index = 1
  rank_order : ∀ place < count, (order[place]?).bind ((rankOf order)[·]?) = some place
  order_rank : ∀ index < count, ((rankOf order)[index]?).bind (order[·]?) = some index

theorem isOrder_of_perm {order : List Nat} {count : Nat} (h : order.Perm (List.range count)) :
    IsOrder order count := by
  have hlength : order.length = count := by rw [h.length_eq, List.length_range]
  have hranked := getElem?_rankOf_iff h
  refine ⟨hlength, fun index hindex => ?_, fun place hplace => ?_, fun index hindex => ?_⟩
  · rw [h.count_eq]
    exact List.count_eq_one_of_mem List.nodup_range (List.mem_range.mpr hindex)
  · obtain ⟨index, horder⟩ : ∃ index, order[place]? = some index :=
      ⟨_, List.getElem?_eq_getElem (hlength ▸ hplace)⟩
    rw [horder, Option.bind_some]
    exact (hranked place index).mpr horder
  · obtain ⟨place, hrank⟩ : ∃ place, (rankOf order)[index]? = some place :=
      ⟨_, Array.getElem?_eq_getElem (by rwa [size_rankOf, hlength])⟩
    rw [hrank, Option.bind_some]
    exact (hranked place index).mp hrank

/-- The order begins at the middle character, or at the left one of two, and whatever has been
revealed is one block. -/
structure RevealsBlocks (order : List Nat) (count : Nat) : Prop where
  middle : ∀ first, order[0]? = some first → 2 * first + 1 = count ∨ 2 * first + 2 = count
  isBlock : ∀ places, IsBlock (order.take places)

theorem revealsBlocks_outward (count : Nat) : RevealsBlocks (outward count) count := by
  refine ⟨fun first hfirst => ?_, isBlock_take_outward count⟩
  rw [outward_eq_map, List.getElem?_map] at hfirst
  obtain ⟨place, hplace, rfl⟩ := Option.map_eq_some_iff.mp hfirst
  obtain ⟨hpos, hzero⟩ := List.getElem?_eq_some_iff.mp hplace
  rw [List.length_range] at hpos
  rw [List.getElem_range] at hzero
  subst hzero
  show 2 * ((count - 1) / 2) + 1 = count ∨ 2 * ((count - 1) / 2) + 2 = count
  omega

/-- For every number of characters and every seed, the order of each direction is built without a
step that fails, and has each character once.  From the middle outward, what has been revealed is
one block, and from the ends inward what is left. -/
theorem orders_of_reveal (count : Nat) (seed : UInt64) :
    (∀ d : Direction, d.order? count seed = some (d.order count seed) ∧
      IsOrder (d.order count seed) count) ∧
    RevealsBlocks (Direction.center.order count seed) count ∧
    ∀ places, IsBlock ((Direction.edges.order count seed).drop places) :=
  ⟨fun d => ⟨d.order?_eq_some count seed, isOrder_of_perm (perm_order d count seed)⟩,
    revealsBlocks_outward count, isBlock_drop_inward count⟩

end KineticText
