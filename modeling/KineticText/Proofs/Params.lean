import KineticText.Params
import KineticText.Proofs.Registry.Aliases

/-! Parameters from typed pairs.  When no name comes twice and none has capitals, the entries are
the pairs, and a look-up under a name without capitals is one among the pairs.  Numbers but NaN,
flags and texts are given as they are. -/

namespace KineticText.Params

variable {p : Params} {pairs : List (String × Value)} {key : String} {value : Value}

theorem insertEntry_of_notMem {entries : List (String × Value)}
    (h : key ∉ entries.map Prod.fst) :
    insertEntry key value entries = entries ++ [(key, value)] := by
  induction entries with
  | nil => rfl
  | cons entry rest ih =>
    obtain ⟨hfirst, hrest⟩ := List.ne_and_not_mem_of_not_mem_cons h
    rw [insertEntry, if_neg (by simpa using hfirst.symm), ih hrest, List.cons_append]

/-- No name comes twice, and none has capitals. -/
structure Tidy (names : List String) : Prop where
  nodup : names.Nodup
  small : ∀ name ∈ names, Text.fold name = name

theorem ofList_append (hnodup : ((p.entries ++ pairs).map Prod.fst).Nodup)
    (hsmall : ∀ name ∈ pairs.map Prod.fst, Text.fold name = name) :
    pairs.foldl (fun p pair => p.insert pair.1 pair.2) p = ⟨p.entries ++ pairs⟩ := by
  induction pairs generalizing p with
  | nil => rw [List.foldl_nil, List.append_nil]
  | cons pair rest ih =>
    obtain ⟨hpair, hrest⟩ := List.forall_mem_cons.mp hsmall
    have hnew : pair.1 ∉ p.entries.map Prod.fst := by
      rw [List.map_append, List.map_cons] at hnodup
      exact fun hmem => (List.disjoint_of_nodup_append hnodup) hmem List.mem_cons_self
    have hinsert : p.insert pair.1 pair.2 = ⟨p.entries ++ [pair]⟩ := by
      rw [insert, hpair, insertEntry_of_notMem hnew]
    rw [List.foldl_cons, hinsert, ih (by simpa using hnodup) hrest]
    simp

theorem Tidy.ofList_eq (h : Tidy (pairs.map Prod.fst)) : ofList pairs = ⟨pairs⟩ :=
  ofList_append (p := {}) h.nodup h.small

/-- Among names without capitals, a look-up in any case compares with the small letters. -/
theorem get?_eq_find? (hsmall : ∀ name ∈ p.entries.map Prod.fst, Text.fold name = name)
    (key : String) :
    p.get? key = (p.entries.find? (·.1 == Text.fold key)).map Prod.snd := by
  rw [get?, List.find?_congr fun entry hentry => ?_]
  rw [Text.sameName, hsmall entry.1 (List.mem_map_of_mem hentry)]

theorem find?_map_snd (key : String) (entries : List (String × Value)) :
    (entries.find? (·.1 == key)).map Prod.snd = entries.lookup key := by
  induction entries with
  | nil => rfl
  | cons entry rest ih =>
    rw [List.lookup_cons, List.find?_cons, BEq.comm]
    cases key == entry.1
    · exact ih
    · rfl

theorem get?_eq_lookup (hsmall : ∀ name ∈ p.entries.map Prod.fst, Text.fold name = name)
    (key : String) : p.get? key = p.entries.lookup (Text.fold key) := by
  rw [get?_eq_find? hsmall, find?_map_snd]

theorem Tidy.get?_ofList (h : Tidy (pairs.map Prod.fst)) (hkey : Text.fold key = key) :
    (ofList pairs).get? key = pairs.lookup key := by
  rw [h.ofList_eq, get?_eq_lookup h.small, hkey]

theorem Tidy.get?_of_mem (h : Tidy (pairs.map Prod.fst)) (hmem : (key, value) ∈ pairs) :
    (ofList pairs).get? key = some value := by
  rw [h.get?_ofList (h.small key (List.mem_map_of_mem hmem)),
    Registry.lookup_of_mem h.nodup hmem]

theorem Tidy.get?_of_notMem (h : Tidy (pairs.map Prod.fst)) (hkey : Text.fold key = key)
    (hmem : key ∉ pairs.map Prod.fst) : (ofList pairs).get? key = none := by
  rw [h.get?_ofList hkey, ← Option.not_isSome_iff_eq_none, Registry.lookup_isSome_iff_mem]
  exact hmem

/-! ### Values as what they are -/

theorem number?_of_get? {x : Float} (h : p.get? key = some (.number x)) (hx : x.isNaN = false) :
    p.number? key = some x := by
  rw [number?, h, Option.bind_some, Value.number?, Option.filter_some, hx]
  rfl

theorem isNaN_of_number? {x : Float} (h : p.number? key = some x) : x.isNaN = false := by
  obtain ⟨value, -, hvalue⟩ := Option.bind_eq_some_iff.mp h
  obtain ⟨-, hnumber⟩ := Option.filter_eq_some_iff.mp hvalue
  simpa only [Bool.not_eq_true'] using hnumber

theorem flag?_of_get? {b : Bool} (h : p.get? key = some (.flag b)) : p.flag? key = some b := by
  rw [flag?, h]
  rfl

theorem text?_of_get? {text : String} (h : p.get? key = some (.text text)) :
    p.text? key = some text := by
  rw [text?, h]
  rfl

end KineticText.Params
