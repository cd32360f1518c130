import KineticText.AttributedText

/-! The governing spans of all characters at once.  The spans are laid over the characters one after
the other, and a span takes the characters under it that no span holds yet or that a longer one
holds.  `owner_owners` says that every character ends with the span that governs it. -/

namespace KineticText.AttributedText

/-- The place and the length of the span that holds a character, if there is one. -/
abbrev Holder : Type := Option (Nat × Nat)

/-- The holder of a character after a span of the given place and length has been laid over it. -/
def Holder.yield (place length : Nat) (holder : Holder) : Holder :=
  if holder.all (length < ·.2) then some (place, length) else holder

/-- Lays a span over the characters. -/
def lay (place : Nat) (extent : Extent) (holders : Array Holder) : Array Holder :=
  (List.range' extent.start extent.length).foldl
    (fun holders index => holders.modify index (Holder.yield place extent.length)) holders

/-- Lays spans over the characters, the first of which has the given place. -/
def layFrom (place : Nat) (holders : Array Holder) : List Span → Array Holder
  | [] => holders
  | s :: rest => layFrom (place + 1) (lay place s.extent holders) rest

/-- The place of the governing span for each character. -/
def owners (t : AttributedText) : Array (Option Nat) :=
  (layFrom 0 (Array.replicate t.length none) t.spans).map (·.map Prod.fst)

/-- The place of the span that governs a character, when the `owners` are known. -/
def owner (t : AttributedText) (owners : Array (Option Nat)) (index : Nat) : Option Nat :=
  match owners[index]? with
  | some owner => owner
  | none => t.spanIndexAt? index

theorem getElem?_foldl_modify {α : Type} (f : α → α) (start n : Nat) (xs : Array α) (i : Nat) :
    ((List.range' start n).foldl (fun xs i => xs.modify i f) xs)[i]? =
      if start ≤ i ∧ i < start + n then xs[i]?.map f else xs[i]? := by
  induction n generalizing start xs with
  | zero => rw [if_neg (by omega)]; rfl
  | succ n ih =>
    rw [List.range'_succ, List.foldl_cons, ih, Array.getElem?_modify]
    by_cases h : start = i
    · subst h
      rw [if_neg (by omega), if_pos rfl, if_pos (by omega)]
    · rw [if_neg h]
      by_cases hi : start + 1 ≤ i ∧ i < start + 1 + n
      · rw [if_pos hi, if_pos (by omega)]
      · rw [if_neg hi, if_neg (by omega)]

theorem getElem?_lay (place : Nat) (extent : Extent) (holders : Array Holder) (i : Nat) :
    (lay place extent holders)[i]? =
      if extent.contains i then holders[i]?.map (Holder.yield place extent.length)
      else holders[i]? := by
  have h : extent.contains i = true ↔ extent.start ≤ i ∧ i < extent.start + extent.length := by
    simp only [Extent.contains, Extent.length, Bool.and_eq_true, decide_eq_true_eq]
    omega
  simp only [lay, getElem?_foldl_modify, h]

/-- A character that is in the array ends with the shortest span over it, the first of several. -/
theorem getElem?_layFrom (place : Nat) (holders : Array Holder) (spans : List Span) {i : Nat}
    {holder : Holder} (h : holders[i]? = some holder) :
    (layFrom place holders spans)[i]?.map (·.map Prod.fst) =
      some (shortestFrom i place holder spans) := by
  induction spans generalizing place holders holder with
  | nil => simp [layFrom, shortestFrom, h]
  | cons s rest ih =>
    have hs : (lay place s.extent holders)[i]? =
        some (if s.extent.contains i then holder.yield place s.extent.length else holder) := by
      rw [getElem?_lay, h]
      split <;> rfl
    rw [layFrom, ih _ _ hs, shortestFrom]
    by_cases hc : s.extent.contains i <;>
      by_cases hl : holder.all (s.extent.length < ·.2) <;> simp [hc, hl, Holder.yield]

theorem size_lay (place : Nat) (extent : Extent) (holders : Array Holder) :
    (lay place extent holders).size = holders.size := by
  suffices h : ∀ (indices : List Nat) (holders : Array Holder), (indices.foldl (fun holders index =>
      holders.modify index (Holder.yield place extent.length)) holders).size = holders.size from
    h _ _
  intro indices
  induction indices with
  | nil => intro _; rfl
  | cons _ _ ih => intro _; rw [List.foldl_cons, ih, Array.size_modify]

theorem size_layFrom (place : Nat) (holders : Array Holder) (spans : List Span) :
    (layFrom place holders spans).size = holders.size := by
  induction spans generalizing place holders with
  | nil => rfl
  | cons s rest ih => rw [layFrom, ih, size_lay]

@[simp] theorem size_owners (t : AttributedText) : t.owners.size = t.length := by
  simp [owners, size_layFrom]

/-- The owner of a character is the span that governs it. -/
@[simp] theorem owner_owners (t : AttributedText) (index : Nat) :
    t.owner t.owners index = t.spanIndexAt? index := by
  by_cases h : index < t.length
  · have hs : (Array.replicate t.length (none : Holder))[index]? = some none := by simp [h]
    have := getElem?_layFrom 0 _ t.spans hs
    simp only [owner, owners, Array.getElem?_map, this]
    rfl
  · have : t.owners[index]? = none := by simp; omega
    simp only [owner, this]

end KineticText.AttributedText
