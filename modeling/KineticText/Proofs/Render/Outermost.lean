import Mathlib.Data.List.Basic
import Mathlib.Data.List.Pairwise
import KineticText.Proofs.AttributedText.Spans
import KineticText.Proofs.Render.Typewriters

/-! Elements that share a count.  Of elements that are apart or in each other the outermost ones, in
document order, are apart and hold the characters of all others.  So the characters under any of
them are those of the outermost ones one after the other, and a count that the outermost ones share
front to back goes to the first ones of these characters. -/

namespace KineticText

section Outermost

variable {α : Type} {elements : List (Extent × α)} {e : Extent × α}

/-- No element is empty, and two of them are apart or one is in the other. -/
structure Laminar (elements : List (Extent × α)) : Prop where
  start_lt_stop : ∀ e ∈ elements, e.1.start < e.1.stop
  nested : ∀ e ∈ elements, ∀ e' ∈ elements,
    e.1.stop ≤ e'.1.start ∨ e'.1.stop ≤ e.1.start ∨
      e.1.encloses e'.1 = true ∨ e'.1.encloses e.1 = true

theorem Laminar.subset {others : List (Extent × α)} (h : Laminar elements)
    (hsub : others ⊆ elements) : Laminar others :=
  ⟨fun e he => h.start_lt_stop e (hsub he), fun e he e' he' => h.nested e (hsub he) e' (hsub he')⟩

theorem inDocumentOrder_iff {a b : Extent × α} : inDocumentOrder a b = true ↔
    a.1.start < b.1.start ∨ a.1.start = b.1.start ∧ b.1.stop ≤ a.1.stop := by
  simp [inDocumentOrder]

theorem pairwise_inDocumentOrder (elements : List (Extent × α)) :
    (elements.mergeSort inDocumentOrder).Pairwise (inDocumentOrder · ·) := by
  refine List.pairwise_mergeSort (fun a b c hab hbc => ?_) (fun a b => ?_) elements
  · rw [inDocumentOrder_iff] at *
    omega
  · rw [Bool.or_eq_true, inDocumentOrder_iff, inDocumentOrder_iff]
    omega

theorem outermost_cons (e : Extent × α) (rest : List (Extent × α)) :
    outermost (e :: rest) = e :: outermost (rest.filter fun other => !e.1.encloses other.1) := by
  rw [outermost]

/-- The recursion of `outermost`: from the elements that the first one does not enclose. -/
@[elab_as_elim]
theorem outermostInduction {motive : List (Extent × α) → Prop} (nil : motive [])
    (cons : ∀ e rest, motive (rest.filter fun other => !e.1.encloses other.1) → motive (e :: rest))
    (elements : List (Extent × α)) : motive elements := by
  match elements with
  | [] => exact nil
  | e :: rest => exact cons e rest (outermostInduction nil cons _)
termination_by elements.length
decreasing_by exact Nat.lt_succ_of_le (List.length_filter_le _ _)

theorem outermost_sublist (elements : List (Extent × α)) :
    (outermost elements).Sublist elements := by
  induction elements using outermostInduction with
  | nil => simp [outermost]
  | cons e rest ih =>
    rw [outermost_cons]
    exact (ih.trans List.filter_sublist).cons_cons e

/-- Every element is in one of the outermost ones. -/
theorem exists_outermost (he : e ∈ elements) :
    ∃ outer ∈ outermost elements, outer.1.encloses e.1 = true := by
  induction elements using outermostInduction with
  | nil => exact absurd he List.not_mem_nil
  | cons first rest ih =>
    rw [outermost_cons]
    by_cases hin : first.1.encloses e.1 = true
    · exact ⟨first, List.mem_cons_self, hin⟩
    · rcases List.mem_cons.mp he with rfl | hrest
      · exact absurd e.1.encloses_self hin
      · obtain ⟨outer, houter, hencloses⟩ := ih (List.mem_filter.mpr ⟨hrest, by simpa using hin⟩)
        exact ⟨outer, List.mem_cons_of_mem first houter, hencloses⟩

/-- The earlier element ends before the later one begins. -/
theorem pairwise_outermost (hlaminar : Laminar elements)
    (horder : elements.Pairwise (inDocumentOrder · ·)) :
    (outermost elements).Pairwise fun a b => a.1.stop ≤ b.1.start := by
  induction elements using outermostInduction with
  | nil => simp [outermost]
  | cons first rest ih =>
    obtain ⟨hfirst, hrest⟩ := List.pairwise_cons.mp horder
    have hsub : (rest.filter fun other => !first.1.encloses other.1) ⊆ first :: rest :=
      fun e he => List.mem_cons_of_mem first (List.mem_filter.mp he).1
    rw [outermost_cons]
    refine List.pairwise_cons.mpr ⟨fun other hother => ?_,
      ih (hlaminar.subset hsub) (hrest.filter _)⟩
    obtain ⟨hother, hout⟩ := List.mem_filter.mp ((outermost_sublist _).subset hother)
    have hout : ¬ first.1.encloses other.1 = true := by simpa using hout
    have hle := inDocumentOrder_iff.mp (hfirst other hother)
    have hlt := hlaminar.start_lt_stop other (List.mem_cons_of_mem first hother)
    have hnested := hlaminar.nested first List.mem_cons_self other
      (List.mem_cons_of_mem first hother)
    simp only [Extent.encloses_iff] at hout hnested
    omega

/-! ### The characters of elements -/

/-- The first characters of each element, as many as it is given. -/
def charactersOf (shares : List (Extent × Nat)) : List Nat :=
  shares.flatMap fun share => List.range' share.1.start share.2

theorem take_range' (budget start length : Nat) :
    (List.range' start length).take budget = List.range' start (min budget length) := by
  rw [List.range'_eq_map_range, List.range'_eq_map_range, ← List.map_take, List.take_range]

/-- A count that is shared front to back is a count of characters. -/
theorem charactersOf_allot (budget : Nat) (extents : List Extent) :
    charactersOf (extents.zip (allot budget (extents.map Extent.length))) =
      (charactersOf (extents.map fun e => (e, e.length))).take budget := by
  unfold charactersOf
  induction extents generalizing budget with
  | nil => simp
  | cons e rest ih =>
    rw [List.map_cons, List.map_cons, allot, List.zip_cons_cons, List.flatMap_cons,
      List.flatMap_cons, List.take_append, take_range', List.length_range', ih]

theorem mem_charactersOf {shares : List (Extent × Nat)} {index : Nat} :
    index ∈ charactersOf shares ↔
      ∃ share ∈ shares, share.1.start ≤ index ∧ index < share.1.start + share.2 := by
  simp [charactersOf, List.mem_range'_1]

theorem pairwise_charactersOf {shares : List (Extent × Nat)}
    (happart : shares.Pairwise fun a b => a.1.stop ≤ b.1.start)
    (hfits : ∀ share ∈ shares, share.1.start + share.2 ≤ share.1.stop) :
    (charactersOf shares).Pairwise (· < ·) := by
  refine List.pairwise_flatMap.mpr ⟨fun share _ => List.pairwise_lt_range', ?_⟩
  refine happart.imp_of_mem fun {a b} ha _ hstop i hi j hj => ?_
  have hfit := hfits a ha
  rw [List.mem_range'_1] at hi hj
  omega

end Outermost

end KineticText
