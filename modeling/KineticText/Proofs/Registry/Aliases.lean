import Mathlib
import KineticText.Registry.Builtin

/-! Names and aliases of a registry, however it has come about.  Names are kept folded, a name stays
registered for good, and an alias stands for a registered name, never for another alias; so every
known tag resolves.  An alias of a spelling that is registered itself is kept but never consulted.
Main statements: what holds of every registry that a host can come to, and when a new alias takes
effect. -/

namespace KineticText

/-! ### Folded names -/

theorem Text.isUpper_of_mem_fold {s : String} {c : Char} (h : c ∈ (Text.fold s).toList) :
    c.isUpper = false := by
  rw [Text.fold, String.toList_map] at h
  obtain ⟨c', -, rfl⟩ := List.mem_map.mp h
  exact c'.isUpper_toLower_eq_false

/-- A name without capitals is its own folding. -/
theorem Text.fold_eq_self {s : String} (h : ∀ c ∈ s.toList, c.isUpper = false) :
    Text.fold s = s := by
  have hself : s.toList.map Char.toLower = s.toList :=
    List.map_congr_left (g := id) (fun c hc =>
      Char.toLower_eq_of_not_isUpper (Bool.eq_false_iff.mp (h c hc))) |>.trans (List.map_id _)
  rw [← String.toList_inj, Text.fold, String.toList_map, hself]

theorem Text.fold_fold (s : String) : Text.fold (Text.fold s) = Text.fold s :=
  Text.fold_eq_self fun _ => Text.isUpper_of_mem_fold

namespace Registry

/-! ### Entries -/

section Entries

variable {α : Type} {key name : String} {value : α} {entries : List (String × α)}

theorem lookup_isSome_iff_mem :
    (entries.lookup key).isSome = true ↔ key ∈ entries.map Prod.fst := by
  rw [List.lookup_isSome_iff, List.mem_map]
  exact exists_congr fun _ => and_congr_right fun _ => beq_iff_eq.trans eq_comm

theorem mem_of_lookup (h : entries.lookup key = some value) : (key, value) ∈ entries := by
  obtain ⟨before, after, rfl, -⟩ := List.lookup_eq_some_iff.mp h
  simp

/-- When no key comes twice, every entry is found. -/
theorem lookup_of_mem (hnodup : (entries.map Prod.fst).Nodup) (h : (key, value) ∈ entries) :
    entries.lookup key = some value := by
  obtain ⟨before, after, rfl⟩ := List.append_of_mem h
  refine List.lookup_eq_some_iff.mpr ⟨before, after, rfl, fun entry hentry => ?_⟩
  rw [List.map_append, List.map_cons, List.nodup_middle, List.nodup_cons] at hnodup
  rw [bne_iff_ne]
  intro heq
  exact hnodup.1 (List.mem_append_left _ (List.mem_map.mpr ⟨entry, hentry, heq.symm⟩))

/-- Without the entries of another key a look-up finds what it found. -/
theorem lookup_drop (h : name ≠ key) :
    (entries.filter (·.1 != key)).lookup name = entries.lookup name := by
  induction entries with
  | nil => rfl
  | cons entry rest ih =>
    by_cases hkey : entry.1 = key
    · have hname : (name == entry.1) = false := by simp [hkey, h]
      rw [List.filter_cons_of_neg (by simp [hkey]), ih, List.lookup_cons, hname]
    · rw [List.filter_cons_of_pos (by simp [hkey]), List.lookup_cons, List.lookup_cons, ih]

theorem lookup_put_self : (put key value entries).lookup key = some value :=
  List.lookup_cons_self

theorem lookup_put_of_ne (h : name ≠ key) :
    (put key value entries).lookup name = entries.lookup name := by
  rw [put, List.lookup_cons, beq_eq_false_iff_ne.mpr h]
  exact lookup_drop h

theorem mem_map_fst_put :
    name ∈ (put key value entries).map Prod.fst ↔ name = key ∨ name ∈ entries.map Prod.fst := by
  by_cases h : name = key
  · simp [put, h]
  · rw [← lookup_isSome_iff_mem, ← lookup_isSome_iff_mem, lookup_put_of_ne h]
    simp [h]

theorem nodup_drop (h : (entries.map Prod.fst).Nodup) :
    ((entries.filter (·.1 != key)).map Prod.fst).Nodup :=
  h.sublist (List.filter_sublist.map _)

theorem nodup_put (h : (entries.map Prod.fst).Nodup) :
    ((put key value entries).map Prod.fst).Nodup := by
  rw [put, List.map_cons]
  refine List.nodup_cons.mpr ⟨fun hkey => ?_, nodup_drop h⟩
  obtain ⟨entry, hentry, heq⟩ := List.mem_map.mp hkey
  have hne := (List.mem_filter.mp hentry).2
  simp [heq] at hne

end Entries

variable {r : Registry} {name target tag : String} {resolver : Resolver}

/-! ### What a tag stands for -/

/-- A resolver is registered under the name. -/
def Registers (r : Registry) (name : String) : Prop := Text.fold name ∈ r.resolvers.map Prod.fst

theorem canonical?_of_registers (h : r.Registers tag) : r.canonical? tag = some (Text.fold tag) :=
  if_pos (lookup_isSome_iff_mem.mpr h)

theorem canonical?_of_not_registers (h : ¬ r.Registers tag) :
    r.canonical? tag = r.aliases.lookup (Text.fold tag) :=
  if_neg (mt lookup_isSome_iff_mem.mp h)

/-- A tag's name, if it is known, is found among the resolvers or among the aliases. -/
theorem canonical?_eq_some (h : r.canonical? tag = some name) :
    r.Registers tag ∧ name = Text.fold tag ∨
      ¬ r.Registers tag ∧ (Text.fold tag, name) ∈ r.aliases := by
  by_cases htag : r.Registers tag
  · rw [canonical?_of_registers htag] at h
    exact .inl ⟨htag, (Option.some.inj h).symm⟩
  · rw [canonical?_of_not_registers htag] at h
    exact .inr ⟨htag, mem_of_lookup h⟩

theorem registers_register : (r.register name resolver).Registers tag ↔
    Text.fold tag = Text.fold name ∨ r.Registers tag := mem_map_fst_put

/-- Nothing changes for a tag that is not the one registered. -/
theorem canonical?_register (h : Text.fold tag ≠ Text.fold name) (resolver : Resolver) :
    (r.register name resolver).canonical? tag = r.canonical? tag := by
  by_cases htag : r.Registers tag
  · rw [canonical?_of_registers htag, canonical?_of_registers (registers_register.mpr (.inr htag))]
  · have hafter : ¬ (r.register name resolver).Registers tag := by
      rw [registers_register]
      exact not_or.mpr ⟨h, htag⟩
    rw [canonical?_of_not_registers htag, canonical?_of_not_registers hafter]
    exact lookup_drop h

/-- An alias is added when its target is known, and then stands for what the target stands for. -/
theorem addAlias_cases (r : Registry) (name target : String) :
    r.canonical? target = none ∧ r.addAlias name target = (false, r) ∨
      ∃ n, r.canonical? target = some n ∧
        r.addAlias name target =
          (true, { r with aliases := put (Text.fold name) n r.aliases }) := by
  unfold addAlias
  cases r.canonical? target with
  | none => exact .inl ⟨rfl, rfl⟩
  | some n => exact .inr ⟨n, rfl, rfl⟩

theorem resolvers_addAlias : (r.addAlias name target).2.resolvers = r.resolvers := by
  rcases r.addAlias_cases name target with ⟨-, heq⟩ | ⟨n, -, heq⟩ <;> rw [heq]

theorem registers_addAlias : (r.addAlias name target).2.Registers tag ↔ r.Registers tag := by
  rw [Registers, resolvers_addAlias, Registers]

/-- Nothing changes for a tag that is registered or is not the new alias. -/
theorem canonical?_addAlias (h : r.Registers tag ∨ Text.fold tag ≠ Text.fold name)
    (target : String) : (r.addAlias name target).2.canonical? tag = r.canonical? tag := by
  by_cases htag : r.Registers tag
  · rw [canonical?_of_registers htag, canonical?_of_registers (registers_addAlias.mpr htag)]
  · rw [canonical?_of_not_registers htag,
      canonical?_of_not_registers (mt registers_addAlias.mp htag)]
    rcases r.addAlias_cases name target with ⟨-, heq⟩ | ⟨n, -, heq⟩
    · rw [heq]
    · rw [heq]
      exact lookup_put_of_ne (h.resolve_left htag)

/-! ### Registries that a host can come to -/

/-- A registry after any registrations and aliases. -/
inductive Reachable : Registry → Prop
  | empty : Reachable {}
  | builtin : Reachable builtin
  | register {r : Registry} (h : Reachable r) (name : String) (resolver : Resolver) :
      Reachable (r.register name resolver)
  | addAlias {r : Registry} (h : Reachable r) (name target : String) :
      Reachable (r.addAlias name target).2

/-- Names are folded and each has one entry, and aliases stand for registered names. -/
structure Consistent (r : Registry) : Prop where
  small : ∀ name ∈ r.resolvers.map Prod.fst ++ r.aliases.map Prod.fst,
    ∀ c ∈ name.toList, c.isUpper = false
  resolvers_nodup : (r.resolvers.map Prod.fst).Nodup
  aliases_nodup : (r.aliases.map Prod.fst).Nodup
  registered : ∀ a ∈ r.aliases, a.2 ∈ r.resolvers.map Prod.fst

namespace Consistent

theorem empty : Consistent {} := ⟨by simp, List.nodup_nil, List.nodup_nil, by simp⟩

/-- A registered name is its own folding. -/
theorem fold_eq (h : r.Consistent) (hname : name ∈ r.resolvers.map Prod.fst) :
    Text.fold name = name :=
  Text.fold_eq_self (h.small name (List.mem_append_left _ hname))

/-- What a tag stands for is registered. -/
theorem mem_of_canonical? (h : r.Consistent) (hname : r.canonical? tag = some name) :
    name ∈ r.resolvers.map Prod.fst := by
  rcases canonical?_eq_some hname with ⟨htag, rfl⟩ | ⟨-, halias⟩
  · exact htag
  · exact h.registered _ halias

theorem register (h : r.Consistent) (name : String) (resolver : Resolver) :
    (r.register name resolver).Consistent := by
  refine ⟨fun n hn => ?_, nodup_put h.resolvers_nodup, nodup_drop h.aliases_nodup, fun a ha => ?_⟩
  · rcases List.mem_append.mp hn with hresolver | halias
    · rcases mem_map_fst_put.mp hresolver with rfl | hbefore
      · exact fun c => Text.isUpper_of_mem_fold
      · exact h.small n (List.mem_append_left _ hbefore)
    · have hbefore := (List.filter_sublist.map Prod.fst).subset halias
      exact h.small n (List.mem_append_right _ hbefore)
  · exact mem_map_fst_put.mpr (.inr (h.registered a (List.mem_filter.mp ha).1))

theorem addAlias (h : r.Consistent) (name target : String) :
    (r.addAlias name target).2.Consistent := by
  rcases r.addAlias_cases name target with ⟨-, heq⟩ | ⟨n, hn, heq⟩
  · rwa [heq]
  · rw [heq]
    refine ⟨fun m hm => ?_, h.resolvers_nodup, nodup_put h.aliases_nodup, fun a ha => ?_⟩
    · rcases List.mem_append.mp hm with hresolver | halias
      · exact h.small m (List.mem_append_left _ hresolver)
      · rcases mem_map_fst_put.mp halias with rfl | hbefore
        · exact fun c => Text.isUpper_of_mem_fold
        · exact h.small m (List.mem_append_right _ hbefore)
    · rcases List.mem_cons.mp ha with rfl | hbefore
      · exact h.mem_of_canonical? hn
      · exact h.registered a (List.mem_filter.mp hbefore).1

theorem builtin : builtin.Consistent := by
  have htags : Consistent (builtinTags.foldl (fun r t => r.register t.1 t.2) {}) :=
    List.foldlRecOn (motive := Consistent) builtinTags _ empty
      fun _ h entry _ => h.register entry.1 entry.2
  exact List.foldlRecOn (motive := Consistent) builtinAliases _ htags
    fun _ h entry _ => h.addAlias entry.1 entry.2

end Consistent

theorem Reachable.consistent (h : r.Reachable) : r.Consistent := by
  induction h with
  | empty => exact .empty
  | builtin => exact .builtin
  | register _ name resolver ih => exact ih.register name resolver
  | addAlias _ name target ih => exact ih.addAlias name target

theorem isSome_resolve (h : r.Consistent) (tag : String) (params : Params)
    (enclosing : List Attribute) :
    (r.resolve tag params enclosing).value.isSome = r.contains tag := by
  unfold resolve contains
  cases hname : r.canonical? tag with
  | none => rfl
  | some name =>
    -- The name is registered, so its resolver is found.
    obtain ⟨resolver, hresolver⟩ := Option.isSome_iff_exists.mp
      (lookup_isSome_iff_mem.mpr (h.mem_of_canonical? hname))
    rw [Option.bind_some, hresolver]
    rfl

/-- However a registry has come about, its names are small and each is there once, aliases stand for
registered names, and a name stands for itself.  Tags are told apart without the case of ASCII
letters, and those that are known are those that resolve.  What is registered or added under one
name changes no other tag. -/
theorem consistent_of_reachable (h : r.Reachable) :
    r.Consistent ∧
      (∀ tag name, r.canonical? tag = some name → r.canonical? name = some name) ∧
      (∀ tag tag', Text.sameName tag tag' = true → r.canonical? tag = r.canonical? tag') ∧
      (∀ tag params enclosing,
        (r.resolve tag params enclosing).value.isSome = r.contains tag) ∧
      ∀ name tag, Text.sameName tag name = false →
        (∀ resolver, (r.register name resolver).canonical? tag = r.canonical? tag) ∧
          ∀ target, (r.addAlias name target).2.canonical? tag = r.canonical? tag := by
  refine ⟨h.consistent, fun tag name hname => ?_, fun tag tag' hsame => ?_,
    isSome_resolve h.consistent, fun name tag hother => ?_⟩
  · have hregistered := h.consistent.mem_of_canonical? hname
    have hfold := h.consistent.fold_eq hregistered
    have hregisters : r.Registers name := by rwa [Registers, hfold]
    rw [canonical?_of_registers hregisters, hfold]
  · unfold canonical?
    rw [Text.sameName_iff.mp hsame]
  · have hne : Text.fold tag ≠ Text.fold name :=
      fun heq => Bool.eq_false_iff.mp hother (Text.sameName_iff.mpr heq)
    exact ⟨fun resolver => canonical?_register hne resolver,
      fun target => canonical?_addAlias (.inr hne) target⟩

/-- A host that gives a tag a new name, tries to rename an unknown one, and registers an alias. -/
theorem consistent_of_reachable_loud :
    let resolver : Resolver := fun params _ => pure [{ id := "glow", params }]
    let r := (((builtin.addAlias "Loud" "B").2.addAlias "quiet" "soft").2.register "S" resolver)
    r.Reachable ∧ r.Consistent ∧
      (∀ tag name, r.canonical? tag = some name → r.canonical? name = some name) ∧
      (∀ tag tag', Text.sameName tag tag' = true → r.canonical? tag = r.canonical? tag') ∧
      (∀ tag params enclosing,
        (r.resolve tag params enclosing).value.isSome = r.contains tag) ∧
      ∀ name tag, Text.sameName tag name = false →
        (∀ resolver, (r.register name resolver).canonical? tag = r.canonical? tag) ∧
          ∀ target, (r.addAlias name target).2.canonical? tag = r.canonical? tag := by
  intro resolver r
  have hreachable : r.Reachable :=
    ((Reachable.builtin.addAlias "Loud" "B").addAlias "quiet" "soft").register "S" resolver
  exact ⟨hreachable, consistent_of_reachable hreachable⟩

/-! ### When an alias takes effect -/

theorem resolve_congr (h : r.canonical? name = r.canonical? target) (params : Params)
    (enclosing : List Attribute) :
    r.resolve name params enclosing = r.resolve target params enclosing := by
  unfold resolve
  rw [h]

/-- An alias of a spelling that is not registered stands for what the target stands for. -/
theorem canonical?_addAlias_self (h : ¬ r.Registers name) {n : String}
    (hn : r.canonical? target = some n) :
    (r.addAlias name target).2.canonical? name = some n := by
  rw [canonical?_of_not_registers (mt registers_addAlias.mp h)]
  rcases r.addAlias_cases name target with ⟨hnone, -⟩ | ⟨m, hm, heq⟩
  · rw [hn] at hnone
    cases hnone
  · obtain rfl : n = m := Option.some.inj (hn.symm.trans hm)
    rw [heq]
    exact lookup_put_self

/-- Adding an alias leaves what its target stands for. -/
theorem canonical?_addAlias_target {n : String} (hn : r.canonical? target = some n) :
    (r.addAlias name target).2.canonical? target = some n := by
  by_cases hsame : r.Registers target ∨ Text.fold target ≠ Text.fold name
  · rw [canonical?_addAlias hsame, hn]
  · -- The target is the new alias itself.
    obtain ⟨htarget, hfold⟩ := not_or.mp hsame
    have hname : ¬ r.Registers name := by rwa [Registers, ← not_not.mp hfold]
    rw [canonical?, not_not.mp hfold, ← canonical?, canonical?_addAlias_self hname hn]

/-- An alias that is added takes effect exactly when its spelling is not registered, or is
registered as what the target stands for; then it resolves like the target.  Otherwise no tag
stands for anything else than before. -/
theorem canonical?_addAlias_iff (h : (r.addAlias name target).1 = true) :
    let after := (r.addAlias name target).2
    (after.canonical? name = after.canonical? target ↔
        (r.Registers name → r.canonical? target = some (Text.fold name))) ∧
      (after.canonical? name = after.canonical? target → ∀ params enclosing,
        after.resolve name params enclosing = after.resolve target params enclosing) ∧
      (r.Registers name → ∀ tag, after.canonical? tag = r.canonical? tag) := by
  intro after
  obtain ⟨n, hn⟩ : ∃ n, r.canonical? target = some n := by
    rcases r.addAlias_cases name target with ⟨-, heq⟩ | ⟨n, hn, -⟩
    · rw [heq] at h
      cases h
    · exact ⟨n, hn⟩
  have htarget : after.canonical? target = some n := canonical?_addAlias_target hn
  refine ⟨?_, fun heq => resolve_congr heq, fun hname tag => canonical?_addAlias ?_ target⟩
  · by_cases hname : r.Registers name
    · rw [htarget, canonical?_addAlias (.inl hname), canonical?_of_registers hname, hn]
      simp [hname, eq_comm]
    · have hself : after.canonical? name = some n := canonical?_addAlias_self hname hn
      simp [hname, hself, htarget]
  · by_cases hfold : Text.fold tag = Text.fold name
    · exact .inl (by rwa [Registers, hfold])
    · exact .inr hfold

/-- A new name for a tag that is given by its short name. -/
theorem canonical?_addAlias_iff_loud :
    let after := (builtin.addAlias "loud" "b").2
    (builtin.addAlias "loud" "b").1 = true ∧
      (after.canonical? "loud" = after.canonical? "b" ↔
        (builtin.Registers "loud" → builtin.canonical? "b" = some (Text.fold "loud"))) ∧
      (after.canonical? "loud" = after.canonical? "b" → ∀ params enclosing,
        after.resolve "loud" params enclosing = after.resolve "b" params enclosing) ∧
      (builtin.Registers "loud" → ∀ tag, after.canonical? tag = builtin.canonical? tag) := by
  have hadded : (builtin.addAlias "loud" "b").1 = true := by decide +kernel
  exact ⟨hadded, canonical?_addAlias_iff hadded⟩

/-- An alias of a spelling that is registered is added and does not take effect. -/
theorem canonical?_addAlias_registered :
    let after := (builtin.addAlias "bold" "italic").2
    builtin.Reachable ∧ (builtin.addAlias "bold" "italic").1 = true ∧
      after.canonical? "bold" ≠ after.canonical? "italic" ∧
      (after.resolve "bold" {} []).value ≠ (after.resolve "italic" {} []).value := by
  have hadded : (builtin.addAlias "bold" "italic").1 = true := by decide +kernel
  have hcanonical : (builtin.addAlias "bold" "italic").2.canonical? "bold" ≠
      (builtin.addAlias "bold" "italic").2.canonical? "italic" := by decide +kernel
  have hresolve : ((builtin.addAlias "bold" "italic").2.resolve "bold" {} []).value ≠
      ((builtin.addAlias "bold" "italic").2.resolve "italic" {} []).value := by decide +kernel
  exact ⟨.builtin, hadded, hcanonical, hresolve⟩

end Registry

end KineticText
