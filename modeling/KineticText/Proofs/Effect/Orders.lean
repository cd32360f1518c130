import Mathlib.Data.List.Nodup
import Mathlib.Data.List.Range
import KineticText.Effect.Order

/-! Orders of reveal.  From the middle outward and from the ends inward every index comes up in one
round only, and exchanging elements moves them about.  Main statements: the order of each direction
is a permutation of the indices, and the ranks in a permutation are its inverse. -/

namespace KineticText

/-- Rounds that name every index below `count` once. -/
theorem perm_range_of_rounds {count rounds : Nat} {round : Nat → List Nat}
    (hnodup : ∀ k < rounds, (round k).Nodup)
    (hdisjoint : ∀ i < rounds, ∀ j < rounds, i ≠ j → (round i).Disjoint (round j))
    (hmem : ∀ index, (∃ k < rounds, index ∈ round k) ↔ index < count) :
    ((List.range rounds).flatMap round).Perm (List.range count) := by
  have hdistinct : ((List.range rounds).flatMap round).Nodup := by
    refine List.nodup_flatMap.mpr ⟨fun k hk => hnodup k (List.mem_range.mp hk), ?_⟩
    refine List.nodup_range.pairwise_of_forall_ne fun i hi j hj hne => ?_
    exact hdisjoint i (List.mem_range.mp hi) j (List.mem_range.mp hj) hne
  refine (List.perm_ext_iff_of_nodup hdistinct List.nodup_range).mpr fun index => ?_
  rw [List.mem_flatMap, List.mem_range, ← hmem]
  simp only [List.mem_range]

theorem perm_outward (count : Nat) : (outward count).Perm (List.range count) := by
  unfold outward
  simp only
  generalize hmiddle : (count - 1) / 2 = middle
  have hmem : ∀ index k, index ∈ ((if k ≤ middle then [middle - k] else []) ++
      if middle + 1 + k < count then [middle + 1 + k] else []) ↔
        k ≤ middle ∧ index = middle - k ∨ middle + 1 + k < count ∧ index = middle + 1 + k := by
    intro index k
    split_ifs <;> simp [*]
  refine perm_range_of_rounds (fun k _ => ?_) (fun i _ j _ hne => ?_) fun index => ?_
  · split_ifs <;> simp
    omega
  · intro index hi hj
    rw [hmem] at hi hj
    omega
  · simp only [hmem]
    constructor
    · rintro ⟨k, hk, h⟩
      omega
    · intro hindex
      -- A left one comes up in the round of its distance to the middle, a right one a round later.
      by_cases hleft : index ≤ middle
      · exact ⟨middle - index, by omega, by omega⟩
      · exact ⟨index - (middle + 1), by omega, by omega⟩

theorem perm_inward (count : Nat) : (inward count).Perm (List.range count) := by
  unfold inward
  have hmem : ∀ index k, index ∈ (if count - 1 - k = k then [k] else [k, count - 1 - k]) ↔
      index = k ∨ index = count - 1 - k := by
    intro index k
    split_ifs with h
    · simp [h]
    · simp
  refine perm_range_of_rounds (fun k _ => ?_) (fun i hi j hj hne => ?_) fun index => ?_
  · split_ifs with h
    · simp
    · simpa using Ne.symm h
  · intro index hin hin'
    rw [hmem] at hin hin'
    omega
  · simp only [hmem]
    constructor
    · rintro ⟨k, hk, h⟩
      omega
    · intro hindex
      by_cases hleft : index < (count + 1) / 2
      · exact ⟨index, hleft, .inl rfl⟩
      · exact ⟨count - 1 - index, by omega, by omega⟩

theorem perm_swapIfInBounds (xs : Array Nat) (i j : Nat) : (xs.swapIfInBounds i j).Perm xs := by
  unfold Array.swapIfInBounds
  split_ifs
  · exact Array.swap_perm _ _
  · exact .refl _
  · exact .refl _

theorem perm_shuffleBelow (place : Nat) (order : Array Nat) (g : Random.Generator) :
    (shuffleBelow place order g).toList.Perm order.toList := by
  induction place generalizing order g with
  | zero => exact .refl _
  | succ place ih =>
    exact (ih _ _).trans (Array.perm_iff_toList_perm.mp (perm_swapIfInBounds _ _ _))

theorem perm_order (d : Direction) (count : Nat) (seed : UInt64) :
    (d.order count seed).Perm (List.range count) := by
  cases d with
  | left => exact .refl _
  | right => exact List.reverse_perm _
  | center => exact perm_outward count
  | edges => exact perm_inward count
  | random => exact perm_shuffleBelow _ _ _

theorem length_order (d : Direction) (count : Nat) (seed : UInt64) :
    (d.order count seed).length = count := by
  rw [(perm_order d count seed).length_eq, List.length_range]

/-! ### Ranks -/

/-- Both are permutations of the indices below `count`, and each is the inverse of the other. -/
structure Inverse (order : List Nat) (rank : Array Nat) (count : Nat) : Prop where
  order_perm : order.Perm (List.range count)
  rank_perm : rank.toList.Perm (List.range count)
  rank_order : ∀ place index : Nat, rank[index]? = some place ↔ order[place]? = some index

theorem getElem?_foldl_of_not_mem {entries : List (Nat × Nat)} {index : Nat}
    (h : index ∉ entries.map Prod.fst) (rank : Array Nat) :
    (entries.foldl (fun rank entry => rank.setIfInBounds entry.1 entry.2) rank)[index]? =
      rank[index]? := by
  induction entries generalizing rank with
  | nil => rfl
  | cons entry rest ih =>
    rw [List.map_cons, List.mem_cons, not_or] at h
    rw [List.foldl_cons, ih h.2, Array.getElem?_setIfInBounds, if_neg (Ne.symm h.1)]

theorem getElem?_foldl_of_mem {entries : List (Nat × Nat)} {place index : Nat}
    (hnodup : (entries.map Prod.fst).Nodup) (hmem : (index, place) ∈ entries) {rank : Array Nat}
    (hindex : index < rank.size) :
    (entries.foldl (fun rank entry => rank.setIfInBounds entry.1 entry.2) rank)[index]? =
      some place := by
  induction entries generalizing rank with
  | nil => cases hmem
  | cons entry rest ih =>
    obtain ⟨hfirst, hrest⟩ := List.nodup_cons.mp hnodup
    rw [List.foldl_cons]
    rcases List.mem_cons.mp hmem with rfl | hlater
    · rw [getElem?_foldl_of_not_mem hfirst, Array.getElem?_setIfInBounds, if_pos rfl,
        if_pos hindex]
    · exact ih hrest hlater (by rwa [Array.size_setIfInBounds])

theorem getElem?_rankOf_iff {order : List Nat} {count : Nat} (h : order.Perm (List.range count))
    (place index : Nat) : (rankOf order)[index]? = some place ↔ order[place]? = some index := by
  have hnodup : order.Nodup := h.nodup_iff.mpr List.nodup_range
  have hlength : order.length = count := by rw [h.length_eq, List.length_range]
  have hranked : ∀ place index : Nat, order[place]? = some index →
      (rankOf order)[index]? = some place := by
    intro place index hplace
    have hindex : index < count := List.mem_range.mp (h.mem_iff.mp (List.mem_of_getElem? hplace))
    refine getElem?_foldl_of_mem ?_ (List.mk_mem_zipIdx_iff_getElem?.mpr hplace) ?_
    · rwa [List.zipIdx_map_fst]
    · rwa [Array.size_replicate, hlength]
  refine ⟨fun hrank => ?_, hranked place index⟩
  -- The index has a place in the order, and that is its rank.
  obtain ⟨hsize, -⟩ := Array.getElem?_eq_some_iff.mp hrank
  rw [size_rankOf, hlength] at hsize
  obtain ⟨place', hplace'⟩ := List.mem_iff_getElem?.mp (h.mem_iff.mpr (List.mem_range.mpr hsize))
  have hsame := (hranked place' index hplace').symm.trans hrank
  rwa [Option.some.inj hsame] at hplace'

theorem inverse_rankOf {order : List Nat} {count : Nat} (h : order.Perm (List.range count)) :
    Inverse order (rankOf order) count := by
  have hranked := getElem?_rankOf_iff h
  have hlength : order.length = count := by rw [h.length_eq, List.length_range]
  have hdistinct : (rankOf order).toList.Nodup := by
    refine List.nodup_iff_getElem?_ne_getElem?.mpr fun i j hlt hj heq => ?_
    rw [Array.getElem?_toList, Array.getElem?_toList] at heq
    obtain ⟨place, hplace⟩ : ∃ place, (rankOf order)[j]? = some place :=
      ⟨_, Array.getElem?_eq_getElem (by rwa [Array.length_toList] at hj)⟩
    have hi := (hranked place i).mp (heq.trans hplace)
    have hj := (hranked place j).mp hplace
    exact absurd (Option.some.inj (hi.symm.trans hj)) (Nat.ne_of_lt hlt)
  refine ⟨h, (List.perm_ext_iff_of_nodup hdistinct List.nodup_range).mpr fun place => ?_, hranked⟩
  rw [List.mem_range, ← hlength, List.mem_iff_getElem?]
  simp only [Array.getElem?_toList, hranked]
  exact ⟨fun ⟨_, hindex⟩ => (List.getElem?_eq_some_iff.mp hindex).1,
    fun hplace => ⟨_, List.getElem?_eq_getElem hplace⟩⟩

end KineticText
