import KineticText.Proofs.Params
import KineticText.Recency

/-! Parameters after any insertions and removals.  What has been done is told by a history, the
latest operation first: it says which value a name was given last, if it has not been removed since,
and at which operation the name got its place, which is when it was given a value and had none.
Main statement: parameters are the map of their history, under small letters and in the order of
these places. -/

namespace KineticText.Params

/-- What is done to parameters. -/
inductive Operation
  | insert (key : String) (value : Value)
  | remove (key : String)

/-- The name that an operation is about, whatever the case of the key. -/
def Operation.name : Operation → String
  | insert key _ => Text.fold key
  | remove key => Text.fold key

/-- The parameters after an operation. -/
def after (p : Params) : Operation → Params
  | .insert key value => p.insert key value
  | .remove key => (p.remove key).2

/-- The insertions that written pairs stand for. -/
def written (pairs : List (String × String)) : List Operation :=
  pairs.map fun pair => .insert pair.1 (.text pair.2)

theorem ofTexts_eq (pairs : List (String × String)) :
    ofTexts pairs = (written pairs).foldl after {} := by
  rw [written, List.foldl_map]
  rfl

/-- The names of the entries, in order. -/
def names (p : Params) : List String := p.entries.map Prod.fst

variable {p : Params} {history : List Operation} {op : Operation} {name key : String}
  {value : Value} {place : Nat}

/-! ### Histories -/

/-- The last operation on a name gave it this value. -/
def Holds (history : List Operation) (name : String) (value : Value) : Prop :=
  ∃ later key earlier, history = later ++ .insert key value :: earlier ∧ Text.fold key = name ∧
    ∀ op ∈ later, op.name ≠ name

/-- An operation gave the name a value when it had none, and it has not been removed since; so many
operations came earlier. -/
def Begins (history : List Operation) (name : String) (place : Nat) : Prop :=
  ∃ later key value earlier, history = later ++ .insert key value :: earlier ∧
    Text.fold key = name ∧ earlier.length = place ∧ (∀ value, ¬ Holds earlier name value) ∧
    ∀ key, .remove key ∈ later → Text.fold key ≠ name

theorem not_holds_nil : ¬ Holds [] name value := by
  rintro ⟨later, key, earlier, heq, -⟩
  simp at heq

theorem not_begins_nil : ¬ Begins [] name place := by
  rintro ⟨later, key, value, earlier, heq, -⟩
  simp at heq

theorem holds_cons :
    Holds (op :: history) name value ↔
      (∃ key, op = .insert key value ∧ Text.fold key = name) ∨
        op.name ≠ name ∧ Holds history name value := by
  constructor
  · rintro ⟨later, key, earlier, heq, hkey, hlater⟩
    rcases List.cons_eq_append_iff.mp heq with ⟨-, hfirst⟩ | ⟨rest, rfl, hrest⟩
    · cases hfirst
      exact .inl ⟨key, rfl, hkey⟩
    · obtain ⟨hop, hothers⟩ := List.forall_mem_cons.mp hlater
      exact .inr ⟨hop, rest, key, earlier, hrest, hkey, hothers⟩
  · rintro (⟨key, rfl, hkey⟩ | ⟨hop, later, key, earlier, rfl, hkey, hlater⟩)
    · exact ⟨[], key, history, rfl, hkey, fun _ h => absurd h List.not_mem_nil⟩
    · exact ⟨op :: later, key, earlier, rfl, hkey, List.forall_mem_cons.mpr ⟨hop, hlater⟩⟩

theorem begins_cons :
    Begins (op :: history) name place ↔
      (history.length = place ∧ (∃ key value, op = .insert key value ∧ Text.fold key = name) ∧
        ∀ value, ¬ Holds history name value) ∨
      (∀ key, op = .remove key → Text.fold key ≠ name) ∧ Begins history name place := by
  constructor
  · rintro ⟨later, key, value, earlier, heq, hkey, hplace, hnone, hlater⟩
    rcases List.cons_eq_append_iff.mp heq with ⟨-, hfirst⟩ | ⟨rest, rfl, hrest⟩
    · cases hfirst
      exact .inl ⟨hplace, ⟨key, value, rfl, hkey⟩, hnone⟩
    · refine .inr ⟨fun key' hop => hlater key' (hop ▸ List.mem_cons_self), ?_⟩
      exact ⟨rest, key, value, earlier, hrest, hkey, hplace, hnone,
        fun key' hmem => hlater key' (List.mem_cons_of_mem _ hmem)⟩
  · rintro (⟨hplace, ⟨key, value, rfl, hkey⟩, hnone⟩ |
      ⟨hop, later, key, value, earlier, rfl, hkey, hplace, hnone, hlater⟩)
    · exact ⟨[], key, value, history, rfl, hkey, hplace, hnone,
        fun _ h => absurd h List.not_mem_nil⟩
    · refine ⟨op :: later, key, value, earlier, rfl, hkey, hplace, hnone, fun key' hmem => ?_⟩
      rcases List.mem_cons.mp hmem with hfirst | hrest
      · exact hop key' hfirst.symm
      · exact hlater key' hrest

theorem Begins.lt_length (h : Begins history name place) : place < history.length := by
  obtain ⟨later, key, value, earlier, rfl, -, rfl, -⟩ := h
  simp
  omega

/-- A name has a place exactly as long as it has a value. -/
theorem exists_begins_iff :
    (∃ place, Begins history name place) ↔ ∃ value, Holds history name value := by
  induction history with
  | nil => simp [not_begins_nil, not_holds_nil]
  | cons op earlier ih =>
    simp only [begins_cons, holds_cons]
    constructor
    · rintro ⟨place, ⟨-, ⟨key, value, hop, hkey⟩, -⟩ | ⟨hop, hbegins⟩⟩
      · exact ⟨value, .inl ⟨key, hop, hkey⟩⟩
      · obtain ⟨value, hvalue⟩ := ih.mp ⟨place, hbegins⟩
        by_cases hname : op.name = name
        · cases op with
          | insert key new => exact ⟨new, .inl ⟨key, rfl, hname⟩⟩
          | remove key => exact absurd hname (hop key rfl)
        · exact ⟨value, .inr ⟨hname, hvalue⟩⟩
    · rintro ⟨value, ⟨key, rfl, hkey⟩ | ⟨hname, hvalue⟩⟩
      · by_cases hold : ∃ old, Holds earlier name old
        · obtain ⟨place, hplace⟩ := ih.mpr hold
          exact ⟨place, .inr ⟨by simp, hplace⟩⟩
        · exact ⟨earlier.length, .inl ⟨rfl, ⟨key, value, rfl, hkey⟩, not_exists.mp hold⟩⟩
      · obtain ⟨place, hplace⟩ := ih.mpr ⟨value, hvalue⟩
        exact ⟨place, .inr ⟨fun key hop => by rwa [hop] at hname, hplace⟩⟩

/-! ### What an operation does -/

/-- A name that is there gets its new value in place. -/
theorem insertEntry_of_mem {entries : List (String × Value)}
    (hnodup : (entries.map Prod.fst).Nodup) (h : key ∈ entries.map Prod.fst) :
    insertEntry key value entries =
      entries.map fun entry => if entry.1 = key then (key, value) else entry := by
  induction entries with
  | nil => cases h
  | cons entry rest ih =>
    obtain ⟨hentry, hrest⟩ := List.nodup_cons.mp hnodup
    by_cases hkey : entry.1 = key
    · have hsame : ∀ e ∈ rest, (if e.1 = key then (key, value) else e) = e := fun e he =>
        if_neg fun heq => hentry (List.mem_map.mpr ⟨e, he, heq.trans hkey.symm⟩)
      rw [List.map_cons, List.map_congr_left hsame, List.map_id', insertEntry,
        if_pos (beq_iff_eq.mpr hkey), if_pos hkey, hkey]
    · have hmem : key ∈ rest.map Prod.fst :=
        (List.mem_cons.mp h).resolve_left fun heq => hkey heq.symm
      rw [List.map_cons, insertEntry, if_neg (by simpa using hkey), if_neg hkey, ih hrest hmem]

/-- After an insertion an entry is the one just made or one of another name. -/
theorem mem_insertEntry {entries : List (String × Value)} {new : Value}
    (hnodup : (entries.map Prod.fst).Nodup) :
    (name, value) ∈ insertEntry key new entries ↔
      key = name ∧ new = value ∨ key ≠ name ∧ (name, value) ∈ entries := by
  by_cases hkey : key ∈ entries.map Prod.fst
  · rw [insertEntry_of_mem hnodup hkey, List.mem_map]
    constructor
    · rintro ⟨entry, hentry, heq⟩
      split at heq
      · cases heq
        exact .inl ⟨rfl, rfl⟩
      · next hne =>
        subst heq
        exact .inr ⟨Ne.symm hne, hentry⟩
    · rintro (⟨rfl, rfl⟩ | ⟨hne, hentry⟩)
      · obtain ⟨entry, hentry, hname⟩ := List.mem_map.mp hkey
        exact ⟨entry, hentry, if_pos hname⟩
      · exact ⟨_, hentry, if_neg (Ne.symm hne)⟩
  · rw [insertEntry_of_notMem hkey, List.mem_append, List.mem_singleton, Prod.mk.injEq]
    constructor
    · rintro (hentry | ⟨rfl, rfl⟩)
      · exact .inr ⟨fun heq => hkey (heq ▸ List.mem_map_of_mem hentry), hentry⟩
      · exact .inl ⟨rfl, rfl⟩
    · rintro (⟨rfl, rfl⟩ | ⟨-, hentry⟩)
      · exact .inr ⟨rfl, rfl⟩
      · exact .inl hentry

theorem names_insert (hp : p.names.Nodup) :
    (p.insert key value).names =
      if Text.fold key ∈ p.names then p.names else p.names ++ [Text.fold key] := by
  unfold names insert
  split
  · next h =>
    rw [insertEntry_of_mem hp h, List.map_map]
    refine List.map_congr_left fun entry _ => ?_
    by_cases hkey : entry.1 = Text.fold key <;> simp [hkey]
  · next h =>
    rw [insertEntry_of_notMem h, List.map_append]
    rfl

theorem entries_remove (hp : p.names.Nodup) :
    (p.remove key).2.entries = p.entries.filter (·.1 ≠ Text.fold key) :=
  (Recency.others_eq_filter (Text.fold key) hp).trans (by simp [beq_eq_decide])

theorem names_remove (hp : p.names.Nodup) :
    (p.remove key).2.names = p.names.filter (· ≠ Text.fold key) := by
  rw [names, entries_remove hp, names, List.filter_map]
  rfl

/-- A removal gives what a look-up gives. -/
theorem remove_fst (hp : Tidy p.names) : (p.remove key).1 = p.get? key :=
  (get?_eq_find? hp.small key).symm

theorem Tidy.after (hp : Tidy p.names) (op : Operation) : Tidy (p.after op).names := by
  cases op with
  | insert key value =>
    rw [Params.after, names_insert hp.nodup]
    split
    · exact hp
    · next hnew =>
      refine ⟨List.nodup_append.mpr ⟨hp.nodup, List.nodup_singleton _, ?_⟩, ?_⟩
      · rintro name hname _ hlast rfl
        exact hnew (List.mem_singleton.mp hlast ▸ hname)
      · intro name hname
        rcases List.mem_append.mp hname with hold | hlast
        · exact hp.small name hold
        · rw [List.mem_singleton.mp hlast, Text.fold_fold]
  | remove key =>
    rw [Params.after, names_remove hp.nodup]
    exact ⟨hp.nodup.filter _, fun name hname => hp.small name (List.mem_of_mem_filter hname)⟩

theorem mem_entries_after (hp : p.names.Nodup) :
    (name, value) ∈ (p.after op).entries ↔
      (∃ key, op = .insert key value ∧ Text.fold key = name) ∨
        op.name ≠ name ∧ (name, value) ∈ p.entries := by
  cases op with
  | insert key new =>
    refine (mem_insertEntry hp).trans (or_congr ⟨?_, ?_⟩ Iff.rfl)
    · rintro ⟨hname, rfl⟩
      exact ⟨key, rfl, hname⟩
    · rintro ⟨_, hop, hname⟩
      cases hop
      exact ⟨hname, rfl⟩
  | remove key =>
    rw [after, entries_remove hp, List.mem_filter, decide_eq_true_iff]
    constructor
    · rintro ⟨hentry, hne⟩
      exact .inr ⟨Ne.symm hne, hentry⟩
    · rintro (⟨_, hop, -⟩ | ⟨hne, hentry⟩)
      · cases hop
      · exact ⟨hentry, Ne.symm hne⟩

/-! ### Parameters of a history -/

/-- The first name got its place before the second. -/
def Precedes (history : List Operation) (first second : String) : Prop :=
  ∀ i j, Begins history first i → Begins history second j → i < j

/-- The parameters are the map that a history tells. -/
structure Tells (history : List Operation) (p : Params) : Prop where
  tidy : Tidy p.names
  mem_entries : ∀ name value, (name, value) ∈ p.entries ↔ Holds history name value
  ordered : p.names.Pairwise (Precedes history)

namespace Tells

theorem nil : Tells [] {} where
  tidy := ⟨List.nodup_nil, fun _ h => absurd h List.not_mem_nil⟩
  mem_entries _ _ := iff_of_false List.not_mem_nil not_holds_nil
  ordered := .nil

theorem get?_eq_some (h : Tells history p) :
    p.get? key = some value ↔ Holds history (Text.fold key) value := by
  rw [get?_eq_lookup h.tidy.small, ← h.mem_entries]
  exact ⟨Registry.mem_of_lookup, Registry.lookup_of_mem h.tidy.nodup⟩

theorem mem_names (h : Tells history p) :
    name ∈ p.names ↔ ∃ place, Begins history name place := by
  rw [exists_begins_iff, names, List.mem_map]
  constructor
  · rintro ⟨entry, hentry, rfl⟩
    exact ⟨entry.2, (h.mem_entries _ _).mp hentry⟩
  · rintro ⟨value, hvalue⟩
    exact ⟨(name, value), (h.mem_entries _ _).mpr hvalue, rfl⟩

/-- A name that is there keeps its place, and a new one comes last. -/
theorem ordered_after (h : Tells history p) (op : Operation) :
    (p.after op).names.Pairwise (Precedes (op :: history)) := by
  have hstays : ∀ {name place}, name ∈ p.names → Begins (op :: history) name place →
      Begins history name place := by
    intro name place hname hbegins
    rcases begins_cons.mp hbegins with ⟨-, -, hnone⟩ | ⟨-, hstays⟩
    · obtain ⟨value, hvalue⟩ := exists_begins_iff.mp (h.mem_names.mp hname)
      exact absurd hvalue (hnone value)
    · exact hstays
  have hold : p.names.Pairwise (Precedes (op :: history)) :=
    h.ordered.imp_of_mem fun ha hb hab i j hi hj => hab i j (hstays ha hi) (hstays hb hj)
  cases op with
  | insert key value =>
    rw [Params.after, names_insert h.tidy.nodup]
    split
    · exact hold
    · next hnew =>
      refine List.pairwise_append.mpr ⟨hold, List.pairwise_singleton _ _, ?_⟩
      intro name hname _ hlast i j hi hj
      obtain rfl := List.mem_singleton.mp hlast
      rcases begins_cons.mp hj with ⟨rfl, -⟩ | ⟨-, hthere⟩
      · exact (hstays hname hi).lt_length
      · exact absurd (h.mem_names.mpr ⟨j, hthere⟩) hnew
  | remove key =>
    rw [Params.after, names_remove h.tidy.nodup]
    exact hold.filter _

theorem after (h : Tells history p) (op : Operation) : Tells (op :: history) (p.after op) where
  tidy := h.tidy.after op
  mem_entries name value := by
    rw [mem_entries_after h.tidy.nodup, holds_cons, h.mem_entries]
  ordered := h.ordered_after op

theorem foldl (operations : List Operation) (h : Tells history p) :
    Tells (operations.reverse ++ history) (operations.foldl Params.after p) := by
  induction operations generalizing history p with
  | nil => exact h
  | cons op rest ih =>
    rw [List.reverse_cons, List.append_assoc]
    exact ih (h.after op)

end Tells

/-- Parameters that start as written pairs and come to any insertions and removals, told by the
history of all of these, the latest first.  Names are in small letters and come once.  A look-up
finds the value that a name was given last, unless it has been removed since.  The names are those
with a value, in the order in which they got their places.  A removal gives what the look-up gives
and leaves the other entries as they are, and a name that is there gets a new value in place. -/
theorem follows_history (pairs : List (String × String)) (operations : List Operation) :
    let p := operations.foldl after (ofTexts pairs)
    let history := (written pairs ++ operations).reverse
    (p.names.Nodup ∧ ∀ name ∈ p.names, ∀ c ∈ name.toList, c.isUpper = false) ∧
      (∀ key value, p.get? key = some value ↔ Holds history (Text.fold key) value) ∧
      (∀ name, name ∈ p.names ↔ ∃ place, Begins history name place) ∧
      p.names.Pairwise (Precedes history) ∧
      (∀ key, (p.remove key).1 = p.get? key ∧
        (p.remove key).2.entries = p.entries.filter (·.1 ≠ Text.fold key)) ∧
      ∀ key value, Text.fold key ∈ p.names →
        (p.insert key value).entries = p.entries.map fun entry =>
          if entry.1 = Text.fold key then (Text.fold key, value) else entry := by
  intro p history
  have h : Tells history p := by
    have hrun := Tells.nil.foldl (written pairs ++ operations)
    rwa [List.append_nil, List.foldl_append, ← ofTexts_eq] at hrun
  refine ⟨⟨h.tidy.nodup, fun name hname c hc => ?_⟩, fun _ _ => h.get?_eq_some,
    fun _ => h.mem_names, h.ordered, fun _ => ⟨remove_fst h.tidy, entries_remove h.tidy.nodup⟩,
    fun _ _ => insertEntry_of_mem h.tidy.nodup⟩
  rw [← h.tidy.small name hname] at hc
  exact Text.isUpper_of_mem_fold hc

end KineticText.Params
