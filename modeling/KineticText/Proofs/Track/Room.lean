import Mathlib.Data.Finset.Card
import Mathlib.Data.List.Nodup
import KineticText.Proofs.Track.Store

/-! Maps with room to spare.  When what is stored and what may yet be put fits in a map, putting an
entry drops no other, so the map is a function from keys to values and the order of use says
nothing about what is stored.  When only what is put fits, older entries may be dropped, but none
that has been used since the first of them was put. -/

namespace KineticText.Recency

variable {κ α : Type} [DecidableEq κ] {m m' : Recency κ α} {key key' : κ} {keys : Finset κ}

/-- The keys of the entries. -/
def storedKeys (m : Recency κ α) : Finset κ := (m.entries.map Prod.fst).toFinset

/-- There is room for all entries and for one under each of the keys. -/
def Fits (m : Recency κ α) (keys : Finset κ) : Prop := (m.storedKeys ∪ keys).card ≤ m.capacity

instance (m : Recency κ α) (keys : Finset κ) : Decidable (m.Fits keys) :=
  inferInstanceAs (Decidable (_ ≤ _))

theorem mem_others {entry : κ × α} :
    entry ∈ others key m.entries ↔ entry ∈ m.entries ∧ entry.1 ≠ key := by
  rw [others_eq_filter key m.nodup, List.mem_filter]
  simp

/-- Beside one key there is room for one entry less. -/
theorem length_le_of_keys {entries : List (κ × α)} (hnodup : (entries.map Prod.fst).Nodup)
    (hkey : key ∈ keys) (hkeys : ∀ entry ∈ entries, entry.1 ∈ keys ∧ entry.1 ≠ key) :
    entries.length ≤ keys.card - 1 := by
  have hsub : entries.map Prod.fst ⊆ (keys.erase key).toList := by
    intro k hk
    obtain ⟨entry, hentry, rfl⟩ := List.mem_map.mp hk
    rw [Finset.mem_toList, Finset.mem_erase]
    exact (hkeys entry hentry).symm
  have hcard := (hnodup.subperm hsub).length_le
  rwa [List.length_map, Finset.length_toList, Finset.card_erase_of_mem hkey] at hcard

/-- What fits beside a new entry stays. -/
theorem Fits.entries_put (h : m.Fits keys) (hkey : key ∈ keys) (value : α) :
    (m.put key value).entries = (key, value) :: others key m.entries := by
  have hle : (others key m.entries).length ≤ (m.storedKeys ∪ keys).card - 1 := by
    refine length_le_of_keys (nodup_of_sublist List.eraseP_sublist m.nodup)
      (Finset.mem_union_right _ hkey) fun entry hentry => ?_
    obtain ⟨hstored, hne⟩ := mem_others.mp hentry
    rw [Finset.mem_union, storedKeys, List.mem_toFinset]
    exact ⟨.inl (List.mem_map_of_mem hstored), hne⟩
  rw [Recency.entries_put, List.take_of_length_le (Nat.le_trans hle (Nat.sub_le_sub_right h 1))]

theorem Fits.put (h : m.Fits keys) (hkey : key ∈ keys) (value : α) :
    (m.put key value).Fits keys := by
  refine Nat.le_trans (Finset.card_le_card fun k hk => ?_) h
  rw [storedKeys, h.entries_put hkey, List.map_cons, List.toFinset_cons, Finset.mem_union,
    Finset.mem_insert, List.mem_toFinset] at hk
  rw [Finset.mem_union, storedKeys, List.mem_toFinset]
  rcases hk with (rfl | hothers) | hk
  · exact .inr hkey
  · obtain ⟨entry, hentry, rfl⟩ := List.mem_map.mp hothers
    exact .inl (List.mem_map_of_mem (mem_others.mp hentry).1)
  · exact .inr hk

theorem Fits.peek?_put (h : m.Fits keys) (hkey : key ∈ keys) (value : α) (key' : κ) :
    (m.put key value).peek? key' = if key' = key then some value else m.peek? key' := by
  split
  · rename_i heq
    rw [heq, peek?_put_self]
  · rename_i hne
    rw [peek?, h.entries_put hkey, List.lookup_cons, beq_false_of_ne hne]
    exact lookup_others hne m.entries

theorem mem_entries_iff {value : α} : (key, value) ∈ m.entries ↔ m.peek? key = some value := by
  have hnodup := m.nodup
  unfold peek?
  generalize m.entries = entries at hnodup
  induction entries with
  | nil => simp
  | cons entry rest ih =>
    obtain ⟨key', value'⟩ := entry
    obtain ⟨hfirst, hrest⟩ := List.nodup_cons.mp hnodup
    rw [List.lookup_cons, List.mem_cons, Prod.mk.injEq]
    by_cases heq : key = key'
    · subst heq
      have hout : (key, value) ∉ rest := fun hmem =>
        hfirst (List.mem_map.mpr ⟨_, hmem, rfl⟩)
      simp [hout, eq_comm]
    · simp [heq, ih hrest, beq_false_of_ne heq]

/-- Maps with the same values under all keys have the same entries, in some order. -/
theorem perm_of_peek? (h : ∀ key, m.peek? key = m'.peek? key) : m.entries.Perm m'.entries := by
  refine (List.perm_ext_iff_of_nodup m.nodup.of_map m'.nodup.of_map).mpr fun entry => ?_
  rw [mem_entries_iff, mem_entries_iff, h]

/-! ### Recent uses -/

/-- Since the entry was used, entries under the given keys have been used only. -/
def Recent (m : Recency κ α) (keys : Finset κ) (key : κ) (value : α) : Prop :=
  ∃ front, front ++ [(key, value)] <+: m.entries ∧ ∀ entry ∈ front, entry.1 ∈ keys

theorem recent_put (m : Recency κ α) (keys : Finset κ) (key : κ) (value : α) :
    (m.put key value).Recent keys key value :=
  ⟨[], ⟨_, rfl⟩, fun _ hentry => absurd hentry List.not_mem_nil⟩

namespace Recent

variable {value : α}

theorem peek?_eq (h : m.Recent keys key value) : m.peek? key = some value := by
  obtain ⟨front, hbegins, -⟩ := h
  exact mem_entries_iff.mp (hbegins.subset (by simp))

/-- In a map with room for all the keys, using one of them drops none that was used recently. -/
theorem put_of_ne (h : m.Recent keys key value) (hkey : key ∈ keys) (hkey' : key' ∈ keys)
    (hne : key ≠ key') (hroom : keys.card ≤ m.capacity) (value' : α) :
    (m.put key' value').Recent keys key value := by
  obtain ⟨front, hbegins, hfront⟩ := h
  let kept := front.filter fun entry => !(entry.1 == key')
  have hothers : kept ++ [(key, value)] <+: others key' m.entries := by
    have hfilter := hbegins.filter fun entry => !(entry.1 == key')
    rwa [List.filter_append, List.filter_cons_of_pos (by simp [hne]), List.filter_nil,
      ← others_eq_filter key' m.nodup] at hfilter
  have hle : (kept ++ [(key, value)]).length ≤ keys.card - 1 := by
    refine length_le_of_keys
      (nodup_of_sublist (hothers.sublist.trans List.eraseP_sublist) m.nodup) hkey'
      fun entry hentry => ⟨?_, (mem_others.mp (hothers.subset hentry)).2⟩
    rcases List.mem_append.mp hentry with hbefore | hlast
    · exact hfront entry (List.mem_of_mem_filter hbefore)
    · rw [List.mem_singleton.mp hlast]
      exact hkey
  refine ⟨(key', value') :: kept, ?_, ?_⟩
  · rw [entries_put, List.cons_append, List.cons_prefix_cons, List.prefix_take_iff]
    exact ⟨rfl, hothers, Nat.le_trans hle (Nat.sub_le_sub_right hroom 1)⟩
  · exact List.forall_mem_cons.mpr
      ⟨hkey', fun entry hentry => hfront entry (List.mem_of_mem_filter hentry)⟩

end Recent

/-- What holds of recent values holds of them after one has been replaced, if the new value keeps
it. -/
theorem exists_recent_put {P : α → Prop} {value' : α} (hkey : key ∈ keys) (hkey' : key' ∈ keys)
    (hroom : keys.card ≤ m.capacity)
    (hnew : ∀ value, key' = key → m.Recent keys key value → P value → P value')
    (h : ∃ value, m.Recent keys key' value ∧ P value) :
    ∃ value, (m.put key value').Recent keys key' value ∧ P value := by
  obtain ⟨value, hrecent, hvalue⟩ := h
  by_cases heq : key' = key
  · subst heq
    exact ⟨value', m.recent_put keys key' value', hnew value rfl hrecent hvalue⟩
  · exact ⟨value, hrecent.put_of_ne hkey' hkey heq hroom value', hvalue⟩

end KineticText.Recency
