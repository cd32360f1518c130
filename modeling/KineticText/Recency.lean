/-! Bounded maps that drop the entry that has not been used for the longest time.  The entries are a
list in order of use, the latest first, so using an entry moves it to the front, and a new entry
in a full map pushes the last one out.  That keys are distinct and that the entries fit are part of
the type. -/

namespace KineticText

/-- A map with room for `capacity` entries, in order of use. -/
@[ext] structure Recency (κ α : Type) where
  capacity : Nat
  entries : List (κ × α) := []
  capacity_pos : 0 < capacity
  nodup : (entries.map Prod.fst).Nodup := by simp
  length_le : entries.length ≤ capacity := by simp

namespace Recency

variable {κ α : Type}

/-- The empty map; there is room for one entry at least. -/
def empty (capacity : Nat) : Recency κ α where
  capacity := Nat.max capacity 1
  capacity_pos := Nat.lt_of_lt_of_le Nat.zero_lt_one (Nat.le_max_right _ _)

/-- The number of entries. -/
def size (m : Recency κ α) : Nat := m.entries.length

/-- Entries that are left when some are taken away keep their keys distinct. -/
theorem nodup_of_sublist {xs ys : List (κ × α)} (h : xs.Sublist ys)
    (hys : (ys.map Prod.fst).Nodup) : (xs.map Prod.fst).Nodup :=
  (h.map Prod.fst).nodup hys

/-- The map with some of its entries. -/
def restrict (m : Recency κ α) (entries : List (κ × α)) (h : entries.Sublist m.entries) :
    Recency κ α where
  capacity := m.capacity
  entries
  capacity_pos := m.capacity_pos
  nodup := nodup_of_sublist h m.nodup
  length_le := Nat.le_trans h.length_le m.length_le

/-- The map without entries. -/
def clear (m : Recency κ α) : Recency κ α := m.restrict [] (List.nil_sublist _)

/-- The first `n` entries; nothing is copied when there are no others. -/
def firstEntries (n : Nat) (entries : List (κ × α)) : List (κ × α) :=
  if entries.length ≤ n then entries else entries.take n

@[simp] theorem firstEntries_eq_take (n : Nat) (entries : List (κ × α)) :
    firstEntries n entries = entries.take n := by
  unfold firstEntries
  split
  · rename_i h
    exact (List.take_of_length_le h).symm
  · rfl

/-- The map with room for another number of entries, one at least; the least recently used ones
give way. -/
def resize (m : Recency κ α) (capacity : Nat) : Recency κ α where
  capacity := Nat.max capacity 1
  entries := firstEntries (Nat.max capacity 1) m.entries
  capacity_pos := Nat.lt_of_lt_of_le Nat.zero_lt_one (Nat.le_max_right _ _)
  nodup := by
    rw [firstEntries_eq_take]
    exact nodup_of_sublist (List.take_sublist _ _) m.nodup
  length_le := by
    rw [firstEntries_eq_take]
    exact List.length_take_le _ _

/-- The entries up to the last one that is not `stale`. -/
def untilFresh (stale : α → Bool) (entries : List (κ × α)) : List (κ × α) :=
  (entries.reverse.dropWhile fun entry => stale entry.2).reverse

theorem untilFresh_sublist (stale : α → Bool) (entries : List (κ × α)) :
    (untilFresh stale entries).Sublist entries := by
  have h := (List.dropWhile_sublist (fun entry : κ × α => stale entry.2)
    (l := entries.reverse)).reverse
  rwa [List.reverse_reverse] at h

/-- The map without the `stale` entries among the least recently used, up to the first one that is
not stale. -/
def dropStale (m : Recency κ α) (stale : α → Bool) : Recency κ α :=
  m.restrict (untilFresh stale m.entries) (untilFresh_sublist _ _)

variable [BEq κ]

/-- The value under a key; looking at it is no use of it. -/
def peek? (m : Recency κ α) (key : κ) : Option α := m.entries.lookup key

/-- The entries without the one under a key. -/
def others (key : κ) (entries : List (κ × α)) : List (κ × α) := entries.eraseP (·.1 == key)

/-- The map without the entry under a key. -/
def erase (m : Recency κ α) (key : κ) : Recency κ α :=
  m.restrict (others key m.entries) List.eraseP_sublist

variable [LawfulBEq κ]

/-- Since keys are distinct, taking the first entry under a key away leaves none. -/
theorem others_eq_filter (key : κ) {entries : List (κ × α)}
    (h : (entries.map Prod.fst).Nodup) :
    others key entries = entries.filter fun entry => !(entry.1 == key) := by
  induction entries with
  | nil => rfl
  | cons entry rest ih =>
    simp only [List.map_cons, List.nodup_cons] at h
    by_cases hk : entry.1 == key
    · have hrest : ∀ e ∈ rest, !(e.1 == key) := by
        intro e he
        simp only [Bool.not_eq_true', beq_eq_false_iff_ne]
        intro heq
        exact h.1 (List.mem_map.mpr ⟨e, he, heq.trans (eq_of_beq hk).symm⟩)
      simp [others, hk, List.filter_eq_self.mpr hrest]
    · have : others key rest = rest.filter fun e => !(e.1 == key) := ih h.2
      simp only [others] at this
      simp [others, hk, this]

/-- The map with the entry for a key made or replaced, as the last one used; when the map is full,
the least recently used entry gives way to a new one. -/
def put (m : Recency κ α) (key : κ) (value : α) : Recency κ α where
  capacity := m.capacity
  entries := (key, value) :: firstEntries (m.capacity - 1) (others key m.entries)
  capacity_pos := m.capacity_pos
  nodup := by
    rw [firstEntries_eq_take, others_eq_filter key m.nodup, List.map_cons, List.nodup_cons]
    constructor
    · intro h
      obtain ⟨e, he, hek⟩ := List.mem_map.mp h
      have hf := (List.mem_filter.mp (List.mem_of_mem_take he)).2
      simp [hek] at hf
    · exact nodup_of_sublist ((List.take_sublist _ _).trans List.filter_sublist) m.nodup
  length_le := by
    rw [firstEntries_eq_take, List.length_cons]
    have := List.length_take_le (m.capacity - 1) (others key m.entries)
    have := m.capacity_pos
    omega

/-- The value under a key, and the map with its entry as the last one used. -/
def get? (m : Recency κ α) (key : κ) : Option α × Recency κ α :=
  match m.peek? key with
  | none => (none, m)
  | some value => (some value, m.put key value)

end Recency

end KineticText
