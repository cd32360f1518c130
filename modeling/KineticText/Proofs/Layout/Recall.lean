import KineticText.Proofs.Layout.Requests

/-! What a cache of layouts still knows.  A cache with room for everything would hold the layouts
stored since all were dropped, in order of use; a cache holds as many of them as it has room for,
from the front, and in front of a key stand the keys that have been used since.  Main statement: a
lookup finds a layout exactly when it was stored since then and fewer other keys than there is room
for have been used since its own last use. -/

namespace KineticText

namespace Recency

variable {κ α : Type} [BEq κ]

theorem take_others_take (n : Nat) (key : κ) (entries : List (κ × α)) :
    (others key (entries.take (n + 1))).take n = (others key entries).take n := by
  unfold others
  induction entries generalizing n with
  | nil => rfl
  | cons entry rest ih =>
    rw [List.take_succ_cons, List.eraseP_cons, List.eraseP_cons]
    cases entry.1 == key with
    | true => simp
    | false =>
      cases n with
      | zero => rfl
      | succ n => simp [ih]

variable [LawfulBEq κ]

/-- An entry is among the first ones when there are few keys in front of it. -/
theorem lookup_take_eq (n : Nat) (key : κ) (entries : List (κ × α)) :
    (entries.take n).lookup key =
      if ((entries.map Prod.fst).takeWhile (· != key)).length < n then entries.lookup key
      else none := by
  induction entries generalizing n with
  | nil => simp
  | cons entry rest ih =>
    cases n with
    | zero => simp
    | succ n =>
      rw [List.take_succ_cons, List.lookup_cons, List.lookup_cons, List.map_cons,
        List.takeWhile_cons]
      by_cases hsame : key = entry.1
      · simp [hsame]
      · simp [beq_false_of_ne hsame, Ne.symm hsame, ih]

end Recency

namespace LayoutCache

variable {α : Type} {history : List (Mark α)} {all : List (LayoutKey × α)}
  {m : Recency LayoutKey α} {key : LayoutKey} {layout : α}

/-- These are the layouts stored since all were dropped, in order of use. -/
structure InOrderOfUse (history : List (Mark α)) (all : List (LayoutKey × α)) : Prop where
  nodup : (all.map Prod.fst).Nodup
  lookup : ∀ key, all.lookup key = lastStored history key
  used : ∀ key, ((all.map Prod.fst).takeWhile (· != key)).toFinset = usedSince history key

theorem InOrderOfUse.nil (h : sinceCleared history = []) : InOrderOfUse history [] := by
  refine ⟨List.nodup_nil, fun key => ?_, fun key => ?_⟩
  · rw [lastStored, h]
    rfl
  · rw [usedSince, h]
    rfl

theorem takeWhile_filter_ne (keys : List LayoutKey) {key key' : LayoutKey} (h : key' ≠ key) :
    (keys.filter (· != key')).takeWhile (· != key) =
      (keys.takeWhile (· != key)).filter (· != key') := by
  induction keys with
  | nil => rfl
  | cons first rest ih =>
    by_cases hkey : first = key
    · subst hkey
      simp [Ne.symm h]
    · by_cases hkey' : first = key'
      · subst hkey'
        simp [h, ih]
      · simp [hkey, hkey', ih]

/-- A key that is used moves to the front. -/
theorem InOrderOfUse.use (h : InOrderOfUse history all) {mark : Mark α}
    (hmark : mark.key? = some key)
    (hstored : ∀ key', lastStored (mark :: history) key' =
      if key = key' then some layout else lastStored history key') :
    InOrderOfUse (mark :: history) ((key, layout) :: Recency.others key all) := by
  have hothers : (Recency.others key all).map Prod.fst = (all.map Prod.fst).filter (· != key) := by
    rw [Recency.others_eq_filter key h.nodup, List.filter_map]
    rfl
  refine ⟨?_, fun key' => ?_, fun key' => ?_⟩
  · rw [List.map_cons, hothers, List.nodup_cons]
    exact ⟨fun hmem => by simp at hmem, h.nodup.filter _⟩
  · rw [hstored, List.lookup_cons]
    by_cases hsame : key = key'
    · simp [hsame]
    · rw [if_neg hsame, beq_false_of_ne (Ne.symm hsame), ← h.lookup]
      exact Recency.lookup_others (Ne.symm hsame) all
  · rw [usedSince_cons history key' key hmark, List.map_cons, hothers, List.takeWhile_cons]
    by_cases hsame : key = key'
    · simp [hsame]
    · have hbefore := takeWhile_filter_ne (all.map Prod.fst) hsame
      rw [if_neg hsame, ← h.used, hbefore]
      ext other
      simp only [bne_iff_ne, ne_eq, hsame, not_false_eq_true, if_true, List.toFinset_cons,
        Finset.mem_insert, List.mem_toFinset, List.mem_filter]
      tauto

/-- The map holds the layouts of a history, as many as there is room for. -/
def Recalls (m : Recency LayoutKey α) (history : List (Mark α)) : Prop :=
  ∃ all, InOrderOfUse history all ∧ m.entries = all.take m.capacity

namespace Recalls

theorem empty (capacity : Nat) : Recalls (.empty capacity : Recency LayoutKey α) [] :=
  ⟨[], .nil rfl, List.take_nil.symm⟩

theorem peek?_eq_some_iff (h : Recalls m history) (key : LayoutKey) (layout : α) :
    m.peek? key = some layout ↔
      lastStored history key = some layout ∧ (usedSince history key).card < m.capacity := by
  obtain ⟨all, hall, hentries⟩ := h
  have hdistinct : ((all.map Prod.fst).takeWhile (· != key)).Nodup :=
    (List.takeWhile_sublist _).nodup hall.nodup
  rw [← hall.used, List.toFinset_card_of_nodup hdistinct, ← hall.lookup, Recency.peek?, hentries,
    Recency.lookup_take_eq]
  split_ifs with hroom
  · exact (and_iff_left hroom).symm
  · simp [hroom]

theorem use (h : Recalls m history) {mark : Mark α} (hmark : mark.key? = some key)
    (hstored : ∀ key', lastStored (mark :: history) key' =
      if key = key' then some layout else lastStored history key') :
    Recalls (m.put key layout) (mark :: history) := by
  obtain ⟨all, hall, hentries⟩ := h
  refine ⟨_, hall.use hmark hstored, ?_⟩
  -- One place is for the key, the others are for what was in front before.
  obtain ⟨room, hroom⟩ := Nat.exists_eq_add_of_lt m.capacity_pos
  rw [Nat.zero_add] at hroom
  show (m.put key layout).entries = _
  rw [Recency.entries_put, hentries]
  show _ = List.take m.capacity _
  rw [hroom, List.take_succ_cons, Nat.add_sub_cancel, Recency.take_others_take]

end Recalls

theorem eachMark_recalls : EachMark (Recalls (α := α)) where
  stored h key layout := h.use rfl fun key' => lastStored_stored _ key' key layout
  found {_ _} h {key layout} hpeek := by
    refine h.use rfl fun key' => ?_
    rw [lastStored_found]
    split_ifs with hsame
    · exact hsame ▸ ((h.peek?_eq_some_iff key layout).mp hpeek).1
    · rfl
  cleared _ := ⟨[], .nil rfl, List.take_nil.symm⟩

/-! ### Runs -/

def Request.isLookup : Request α → Bool
  | .get _ => true
  | .getOrMake _ _ => true
  | _ => false

/-- The cache after requests, with its history. -/
def follow (c : LayoutCache α) (requests : List (Request α)) : LayoutCache α × List (Mark α) :=
  requests.foldl (fun state request =>
    (state.1.after request, state.1.marks request ++ state.2)) (c, [])

theorem eachMark_capacity (capacity : Nat) :
    EachMark fun (m : Recency LayoutKey α) _ => m.capacity = capacity :=
  ⟨fun h _ _ => h, fun h _ _ _ => h, fun h => h⟩

theorem lookups_after (c : LayoutCache α) (request : Request α) :
    (c.after request).hits + (c.after request).misses =
      c.hits + c.misses + if request.isLookup then 1 else 0 := by
  have hreport : ∀ {report : Bool × LayoutCache α}, c.Reports report →
      report.2.hits + report.2.misses = c.hits + c.misses := by
    intro report hreport
    rw [hreport.hits, hreport.misses]
  cases request with
  | put key layout => rfl
  | get key =>
    rw [after, value_get]
    cases c.entries.peek? key with
    | some layout => exact Nat.add_right_comm _ _ _
    | none => rfl
  | getOrMake key make => exact (c.after_getOrMake key make).2
  | clear => rfl
  | setLanguage language => exact hreport (c.reports_setLanguage language)
  | setScale scale => exact hreport (c.reports_setScale scale)
  | setFingerprint fingerprint => exact hreport (c.reports_setFingerprint fingerprint)

theorem follow_concat (c : LayoutCache α) (requests : List (Request α)) (request : Request α) :
    c.follow (requests ++ [request]) = ((c.follow requests).1.after request,
      (c.follow requests).1.marks request ++ (c.follow requests).2) := by
  rw [follow, List.foldl_append]
  rfl

theorem EachMark.follow {P : Recency LayoutKey α → List (Mark α) → Prop} (hP : EachMark P)
    {c : LayoutCache α} (h : P c.entries []) (requests : List (Request α)) :
    P (c.follow requests).1.entries (c.follow requests).2 := by
  induction requests using List.reverseRecOn with
  | nil => exact h
  | append_singleton requests request ih =>
    rw [follow_concat]
    exact hP.after ih request

theorem lookups_follow (c : LayoutCache α) (requests : List (Request α)) :
    (c.follow requests).1.hits + (c.follow requests).1.misses =
      c.hits + c.misses + requests.countP Request.isLookup := by
  induction requests using List.reverseRecOn with
  | nil => rfl
  | append_singleton requests request ih =>
    rw [follow_concat, lookups_after, ih, List.countP_append, List.countP_singleton, Nat.add_assoc]

/-- After any requests to a new cache, a lookup finds the layout that was stored last under its key,
unless all have been dropped since or as many other keys as there is room for have been used since
the key was. -/
theorem get_follow (capacity : Nat) (requests : List (Request α)) :
    let after := (empty capacity : LayoutCache α).follow requests
    (∀ key layout, (after.1.get key).value.1 = some layout ↔
      lastStored after.2 key = some layout ∧ (usedSince after.2 key).card < after.1.capacity) ∧
    after.1.capacity = max capacity 1 ∧ after.1.size ≤ after.1.capacity ∧
    after.1.hits + after.1.misses = requests.countP Request.isLookup := by
  intro after
  have hrecalls : Recalls after.1.entries after.2 := eachMark_recalls.follow (.empty capacity) _
  have hcapacity := (eachMark_capacity (α := α) _).follow (c := empty capacity) rfl requests
  refine ⟨fun key layout => ?_, hcapacity, after.1.entries.length_le, ?_⟩
  · rw [answer_get]
    exact hrecalls.peek?_eq_some_iff key layout
  · rw [lookups_follow]
    exact Nat.zero_add _

example : let key (text : String) : LayoutKey := ⟨text, 100, 0, "en_us", 0, 1⟩
    let cache := ((empty 2).follow
      [.put (key "a") 1, .put (key "b") 2, .get (key "a"), .put (key "c") 3]).1
    ((cache.get (key "a")).value.1, (cache.get (key "b")).value.1) = (some 1, none) := by
  decide

end LayoutCache

end KineticText
