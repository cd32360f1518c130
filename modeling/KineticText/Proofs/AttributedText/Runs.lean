import KineticText.AttributedText.Runs

/-! Runs.  The boundaries of a text are its places in order, each once, from its start to its end,
so the ranges between neighbours lie next to each other and cover the text.  Uniting neighbours
keeps that.  Main statements: the runs of a text are its characters in order, and there are fewer
runs than boundaries. -/

namespace KineticText

/-! ### Repeats in a sorted list -/

theorem eraseRepsBy_loop_eq (x : Nat) (xs done : List Nat) :
    List.eraseRepsBy.loop (· == ·) x xs done =
      done.reverse ++ List.eraseRepsBy.loop (· == ·) x xs [] := by
  induction xs generalizing x done with
  | nil => simp [List.eraseRepsBy.loop]
  | cons y xs ih =>
    simp only [List.eraseRepsBy.loop]
    split
    · exact ih x done
    · rw [ih y (x :: done), ih y [x]]
      simp

theorem eraseReps_cons_cons (x y : Nat) (xs : List Nat) : (x :: y :: xs).eraseReps =
    if x = y then (x :: xs).eraseReps else x :: (y :: xs).eraseReps := by
  show List.eraseRepsBy.loop (· == ·) x (y :: xs) [] = _
  by_cases h : x = y
  · have hsame : (x == y) = true := beq_iff_eq.mpr h
    simp only [List.eraseRepsBy.loop, hsame, if_pos h]
    rfl
  · have hsame : (x == y) = false := beq_eq_false_iff_ne.mpr h
    simp only [List.eraseRepsBy.loop, hsame, if_neg h]
    exact eraseRepsBy_loop_eq y xs [x]

/-- Of a sorted list each number is left once. -/
theorem eraseReps_of_sorted {x : Nat} {xs : List Nat} (h : (x :: xs).Pairwise (· ≤ ·)) :
    ∃ rest, (x :: xs).eraseReps = x :: rest ∧ (x :: rest).Pairwise (· < ·) ∧
      ∀ y, y ∈ x :: rest ↔ y ∈ x :: xs := by
  induction xs generalizing x with
  | nil => exact ⟨[], rfl, List.pairwise_singleton _ x, fun _ => Iff.rfl⟩
  | cons z xs ih =>
    obtain ⟨hx, hrest⟩ := List.pairwise_cons.mp h
    rw [eraseReps_cons_cons]
    by_cases hxz : x = z
    · subst hxz
      obtain ⟨rest, heq, hsorted, hmem⟩ := ih hrest
      refine ⟨rest, by rw [if_pos rfl, heq], hsorted, fun y => ?_⟩
      rw [hmem y]
      simp
    · obtain ⟨rest, heq, hsorted, hmem⟩ := ih hrest
      refine ⟨z :: rest, by rw [if_neg hxz, heq], ?_, fun y => ?_⟩
      · refine List.pairwise_cons.mpr ⟨fun y hy => ?_, hsorted⟩
        have hz := hx z List.mem_cons_self
        rcases List.mem_cons.mp ((hmem y).mp hy) with rfl | hy
        · omega
        · have := hx y (List.mem_cons_of_mem _ hy)
          have := (List.pairwise_cons.mp hrest).1 y hy
          omega
      · rw [List.mem_cons, hmem y, ← List.mem_cons]

namespace AttributedText

/-! ### Boundaries -/

/-- Every span of the text lies in it. -/
def InBounds (t : AttributedText) : Prop :=
  ∀ s ∈ t.spans, s.extent.start ≤ t.length ∧ s.extent.stop ≤ t.length

theorem inBounds_ofSpans (raw : String) (spans : List Span) : (ofSpans raw spans).InBounds := by
  intro s hs
  obtain ⟨hmem, -⟩ := List.mem_filter.mp (List.mem_mergeSort.mp hs)
  obtain ⟨s', -, rfl⟩ := List.mem_map.mp hmem
  have hstop : Nat.min s'.extent.stop raw.length ≤ raw.length := Nat.min_le_right _ _
  exact ⟨Nat.le_trans (Nat.min_le_right _ _) hstop, hstop⟩

/-- The boundaries are the start and the end of the text and the ends of its spans, in order and
each once. -/
theorem boundaries_eq (t : AttributedText) : ∃ rest, t.boundaries = 0 :: rest ∧
    (0 :: rest).Pairwise (· < ·) ∧ ∀ place, place ∈ 0 :: rest ↔ place = 0 ∨ place = t.length ∨
      ∃ s ∈ t.spans, place = s.extent.start ∨ place = s.extent.stop := by
  let places := 0 :: t.length :: t.spans.flatMap fun s => [s.extent.start, s.extent.stop]
  have hmem : ∀ place, place ∈ places.mergeSort (decide <| · ≤ ·) ↔ place = 0 ∨
      place = t.length ∨ ∃ s ∈ t.spans, place = s.extent.start ∨ place = s.extent.stop := by
    intro place
    simp [places, List.mem_mergeSort]
  have hsorted : (places.mergeSort (decide <| · ≤ ·)).Pairwise (· ≤ ·) := by
    refine (List.pairwise_mergeSort ?_ ?_ places).imp of_decide_eq_true
    · intro a b c hab hbc
      rw [decide_eq_true_eq] at *
      omega
    · intro a b
      rw [Bool.or_eq_true, decide_eq_true_eq, decide_eq_true_eq]
      omega
  have hbounds : t.boundaries = (places.mergeSort (decide <| · ≤ ·)).eraseReps := rfl
  rw [hbounds]
  cases hplaces : places.mergeSort (decide <| · ≤ ·) with
  | nil =>
    have hzero := (hmem 0).mpr (.inl rfl)
    rw [hplaces] at hzero
    cases hzero
  | cons first others =>
    rw [hplaces] at hsorted hmem
    -- The least place comes first, and no place is less than 0.
    have hfirst : first = 0 := by
      rcases List.mem_cons.mp ((hmem 0).mpr (.inl rfl)) with h | h
      · exact h.symm
      · have := (List.pairwise_cons.mp hsorted).1 0 h
        omega
    subst hfirst
    obtain ⟨rest, heq, hstrict, hsame⟩ := eraseReps_of_sorted hsorted
    exact ⟨rest, heq, hstrict, fun place => (hsame place).trans (hmem place)⟩

/-! ### Ranges next to each other -/

/-- Each range begins where the one before it ends, from `start` to `stop`. -/
def Covers (start stop : Nat) : List (Extent × Option Nat) → Prop
  | [] => start = stop
  | (extent, _) :: rest => extent.start = start ∧ start ≤ extent.stop ∧ Covers extent.stop stop rest

theorem Covers.le {start stop : Nat} {ranges : List (Extent × Option Nat)}
    (h : Covers start stop ranges) : start ≤ stop := by
  induction ranges generalizing start with
  | nil => exact Nat.le_of_eq h
  | cons range ranges ih => exact Nat.le_trans h.2.1 (ih h.2.2)

theorem covers_append {start stop : Nat} {ranges ranges' : List (Extent × Option Nat)} :
    Covers start stop (ranges ++ ranges') ↔
      ∃ mid, Covers start mid ranges ∧ Covers mid stop ranges' := by
  induction ranges generalizing start with
  | nil => simp [Covers]
  | cons range ranges ih =>
    simp only [List.cons_append, Covers, ih]
    constructor
    · rintro ⟨hstart, hle, mid, hfirst, hrest⟩
      exact ⟨mid, ⟨hstart, hle, hfirst⟩, hrest⟩
    · rintro ⟨mid, ⟨hstart, hle, hfirst⟩, hrest⟩
      exact ⟨hstart, hle, mid, hfirst, hrest⟩

/-- What uniting two neighbours keeps, uniting all of them keeps. -/
theorem joinOwned_induction {P : List (Extent × Option Nat) → Prop}
    (hunite : ∀ front before extent owner rest,
      P (front ++ (before, owner) :: (extent, owner) :: rest) →
      P (front ++ (⟨before.start, extent.stop⟩, owner) :: rest))
    (done ranges : List (Extent × Option Nat)) (h : P (done.reverse ++ ranges)) :
    P (joinOwned done ranges) := by
  fun_induction AttributedText.joinOwned done ranges with
  | case1 done => rwa [List.append_nil] at h
  | case2 extent rest before owner done ih =>
    refine ih ?_
    rw [List.reverse_cons, List.append_assoc] at h ⊢
    exact hunite done.reverse before extent owner rest h
  | case3 extent owner rest before owner' done hne ih =>
    refine ih ?_
    rwa [List.reverse_cons, List.append_assoc]
  | case4 extent owner rest ih => exact ih h

/-- Uniting neighbours covers the same. -/
theorem Covers.joinOwned {start mid stop : Nat} {done ranges : List (Extent × Option Nat)}
    (hdone : Covers start mid done.reverse) (hranges : Covers mid stop ranges) :
    Covers start stop (joinOwned done ranges) := by
  refine joinOwned_induction ?_ done ranges (covers_append.mpr ⟨mid, hdone, hranges⟩)
  intro front before extent owner rest h
  obtain ⟨mid, hfront, hstart, hle, -, hle', hrest⟩ := covers_append.mp h
  exact covers_append.mpr ⟨mid, hfront, hstart, Nat.le_trans hle hle', hrest⟩

theorem length_joinOwned_le (done ranges : List (Extent × Option Nat)) :
    (joinOwned done ranges).length ≤ done.length + ranges.length := by
  fun_induction AttributedText.joinOwned done ranges with
  | case1 done => simp
  | case2 | case3 | case4 =>
    simp only [List.length_cons, List.length_nil] at *
    omega

/-- The ranges between places in order cover what lies between the first and the last. -/
theorem covers_zip_tail {first last : Nat} {places : List Nat}
    (hsorted : (first :: places).Pairwise (· < ·)) (hlast : last ∈ first :: places)
    (hle : ∀ place ∈ first :: places, place ≤ last) (owner : Nat → Option Nat) :
    Covers first last (((first :: places).zip places).map fun (start, stop) =>
      (⟨start, stop⟩, owner start)) := by
  induction places generalizing first with
  | nil =>
    obtain rfl := List.mem_singleton.mp hlast
    rfl
  | cons next places ih =>
    obtain ⟨hfirst, hrest⟩ := List.pairwise_cons.mp hsorted
    have hlt := hfirst next List.mem_cons_self
    have hnext := hle next (List.mem_cons_of_mem _ List.mem_cons_self)
    refine ⟨rfl, Nat.le_of_lt hlt, ih hrest ?_ fun place hplace => ?_⟩
    · rcases List.mem_cons.mp hlast with rfl | h
      · omega
      · exact h
    · exact hle place (List.mem_cons_of_mem _ hplace)

theorem covers_boundaries {t : AttributedText} (h : t.InBounds) (owner : Nat → Option Nat) :
    Covers 0 t.length ((t.boundaries.zip t.boundaries.tail).map fun (start, stop) =>
      (⟨start, stop⟩, owner start)) := by
  obtain ⟨rest, hbounds, hsorted, hmem⟩ := t.boundaries_eq
  have hle : ∀ place ∈ 0 :: rest, place ≤ t.length := by
    intro place hplace
    rcases (hmem place).mp hplace with rfl | rfl | ⟨s, hs, rfl | rfl⟩
    · exact Nat.zero_le _
    · exact Nat.le_refl _
    · exact (h s hs).1
    · exact (h s hs).2
  rw [hbounds]
  exact covers_zip_tail hsorted ((hmem _).mpr (.inr (.inl rfl))) hle owner

theorem covers_ownedRanges {t : AttributedText} (h : t.InBounds) (hempty : t.isEmpty = false) :
    Covers 0 t.length t.ownedRanges := by
  unfold ownedRanges
  rw [if_neg (by rw [hempty]; decide)]
  exact Covers.joinOwned rfl (covers_boundaries h _)

/-! ### The runs -/

theorem flatMap_cut (chains : Array (List Attribute)) (cs : List Char) {start stop : Nat}
    {ranges : List (Extent × Option Nat)} (h : Covers start stop ranges) :
    (cut chains cs ranges).flatMap (·.text.toList) = cs.take (stop - start) := by
  induction ranges generalizing start cs with
  | nil =>
    obtain rfl : start = stop := h
    simp [cut]
  | cons range ranges ih =>
    obtain ⟨extent, owner⟩ := range
    obtain ⟨rfl, hle, hrest⟩ := h
    have hstop := hrest.le
    rw [cut, List.flatMap_cons, ih _ hrest, String.toList_ofList, ← List.take_add]
    unfold Extent.length
    congr 1
    omega

/-- The runs of a text are its characters, in order. -/
theorem join_runs {t : AttributedText} (h : t.InBounds) :
    String.join (t.runs.map Run.text) = t.raw := by
  rw [← String.toList_inj, String.toList_join, List.flatMap_map]
  unfold runs
  by_cases hempty : t.isEmpty = true
  · have hraw : t.raw.length = 0 := beq_iff_eq.mp hempty
    have hranges : t.ownedRanges = [] := if_pos hempty
    rw [hranges, String.length_eq_zero_iff.mp hraw]
    rfl
  · rw [flatMap_cut _ _ (covers_ownedRanges h (Bool.eq_false_iff.mpr hempty)), Nat.sub_zero]
    refine List.take_of_length_le ?_
    rw [String.length_toList]
    exact Nat.le_refl _

theorem mem_cut {chains : Array (List Attribute)} {cs : List Char}
    {ranges : List (Extent × Option Nat)} {r : Run} (h : r ∈ cut chains cs ranges) :
    r.text.length ≤ cs.length ∧ ∀ a ∈ r.attributes, ∃ chain ∈ chains, a ∈ chain := by
  induction ranges generalizing cs with
  | nil => exact absurd h List.not_mem_nil
  | cons range ranges ih =>
    rcases List.mem_cons.mp h with rfl | hrest
    · refine ⟨?_, fun a ha => ?_⟩
      · show (String.ofList _).length ≤ _
        rw [String.length_ofList, List.length_take]
        exact Nat.min_le_right _ _
      · cases hchain : range.2.bind (chains[·]?) with
        | none =>
          rw [hchain] at ha
          exact absurd ha List.not_mem_nil
        | some chain =>
          rw [hchain] at ha
          obtain ⟨place, -, hplace⟩ := Option.bind_eq_some_iff.mp hchain
          exact ⟨chain, Array.mem_of_getElem? hplace, ha⟩
    · obtain ⟨hlength, hattributes⟩ := ih hrest
      rw [List.length_drop] at hlength
      exact ⟨by omega, hattributes⟩

theorem length_text_le {t : AttributedText} {r : Run} (h : r ∈ t.runs) :
    r.text.length ≤ t.length := by
  have hlength := (mem_cut h).1
  rwa [String.length_toList] at hlength

theorem exists_span_of_mem_runs {t : AttributedText} {r : Run} (h : r ∈ t.runs) {a : Attribute}
    (ha : a ∈ r.attributes) : ∃ s ∈ t.spans, a ∈ s.attributes := by
  obtain ⟨chain, hchain, hmem⟩ := (mem_cut h).2 a ha
  obtain ⟨s, hs, rfl⟩ := List.mem_map.mp (List.mem_toArray.mp hchain)
  exact ⟨s, hs, hmem⟩

theorem length_cut (chains : Array (List Attribute)) (cs : List Char)
    (ranges : List (Extent × Option Nat)) : (cut chains cs ranges).length = ranges.length := by
  induction ranges generalizing cs with
  | nil => rfl
  | cons range ranges ih => rw [cut, List.length_cons, List.length_cons, ih]

/-- There are fewer runs than boundaries. -/
theorem length_runs_lt (t : AttributedText) : t.runs.length < t.boundaries.length := by
  obtain ⟨rest, hbounds, -, -⟩ := t.boundaries_eq
  unfold runs ownedRanges
  rw [length_cut]
  split
  · rw [hbounds]
    exact Nat.succ_pos _
  · refine Nat.lt_of_le_of_lt (length_joinOwned_le _ _) ?_
    rw [hbounds]
    simp

end AttributedText

end KineticText
