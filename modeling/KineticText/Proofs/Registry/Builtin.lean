import KineticText.Proofs.Registry.Aliases
import KineticText.Proofs.Registry.Resolvers

/-! Look-ups among the built-in tags.  They are registered under different names without capitals,
so none replaces another, and aliases leave them alone: what stands for a built-in name resolves
with the resolver that the list of built-in tags has beside it. -/

namespace KineticText.Registry

variable {r : Registry} {name tag : String} {resolver : Resolver}

theorem resolvers_register_of_notMem (hname : Text.fold name = name)
    (h : name ∉ r.resolvers.map Prod.fst) :
    (r.register name resolver).resolvers = (name, resolver) :: r.resolvers := by
  have hkeep : r.resolvers.filter (·.1 != name) = r.resolvers := by
    refine List.filter_eq_self.mpr fun entry hentry => bne_iff_ne.mpr fun heq => ?_
    exact h (heq ▸ List.mem_map_of_mem hentry)
  unfold register
  rw [hname]
  exact congrArg _ hkeep

theorem resolvers_foldl_register (tags : List (String × Resolver))
    (hsmall : ∀ name ∈ tags.map Prod.fst, Text.fold name = name)
    (hnodup : (tags.map Prod.fst ++ r.resolvers.map Prod.fst).Nodup) :
    (tags.foldl (fun r t => r.register t.1 t.2) r).resolvers = tags.reverse ++ r.resolvers := by
  induction tags generalizing r with
  | nil => rfl
  | cons t tags ih =>
    obtain ⟨ht, htags⟩ := List.forall_mem_cons.mp hsmall
    rw [List.map_cons, List.cons_append, List.nodup_cons, List.mem_append, not_or] at hnodup
    obtain ⟨⟨hfresh, hnew⟩, hnodup⟩ := hnodup
    have hregister : (r.register t.1 t.2).resolvers = t :: r.resolvers :=
      resolvers_register_of_notMem ht hnew
    have hrest : (tags.map Prod.fst ++
        (r.register t.1 t.2).resolvers.map Prod.fst).Nodup := by
      rw [hregister, List.map_cons, List.nodup_middle]
      exact List.nodup_cons.mpr ⟨by simp [hfresh, hnew], hnodup⟩
    rw [List.foldl_cons, ih htags hrest, hregister]
    simp

theorem resolvers_foldl_addAlias (aliases : List (String × String)) :
    (aliases.foldl (fun r a => (r.addAlias a.1 a.2).2) r).resolvers = r.resolvers :=
  List.foldlRecOn (motive := fun after : Registry => after.resolvers = r.resolvers) aliases _ rfl
    fun _ h _ _ => resolvers_addAlias.trans h

theorem resolvers_builtin : builtin.resolvers = builtinTags.reverse := by
  have hnames : builtinTags.map Prod.fst = ["bold", "italic", "underline", "strikethrough", "color",
    "font", "typewriter", "obfuscate", "shake", "wave", "circle", "jitter", "gradient", "rainbow",
    "span", "group"] := rfl
  rw [builtin, resolvers_foldl_addAlias, resolvers_foldl_register, List.append_nil]
  · rw [hnames]
    decide +kernel
  · rw [hnames]
    decide +kernel

theorem colorTag_mem : ("color", colorTag) ∈ builtinTags := by simp [builtinTags]

theorem typewriterTag_mem : ("typewriter", typewriterTag) ∈ builtinTags := by simp [builtinTags]

theorem scrambleTag_mem : ("obfuscate", scrambleTag) ∈ builtinTags := by simp [builtinTags]

theorem gradientTag_mem : ("gradient", gradientTag) ∈ builtinTags := by simp [builtinTags]

theorem nodup_builtinTags : (builtinTags.map Prod.fst).Nodup := by
  have hnodup := Consistent.builtin.resolvers_nodup
  rwa [resolvers_builtin, List.map_reverse, List.nodup_reverse] at hnodup

/-- What stands for a built-in name resolves with that name's resolver. -/
theorem resolve_of_canonical? (hname : builtin.canonical? tag = some name)
    (hmem : (name, resolver) ∈ builtinTags) (params : Params) (enclosing : List Attribute) :
    builtin.resolve tag params enclosing = some <$> resolver params enclosing := by
  have hlookup : builtin.resolvers.lookup name = some resolver := by
    rw [resolvers_builtin]
    refine lookup_of_mem ?_ (List.mem_reverse.mpr hmem)
    rw [List.map_reverse, List.nodup_reverse]
    exact nodup_builtinTags
  rw [resolve, hname, Option.bind_some, hlookup]

theorem canonical?_of_mem (hmem : (name, resolver) ∈ builtinTags) :
    builtin.canonical? name = some name := by
  have hregistered : name ∈ builtin.resolvers.map Prod.fst := by
    rw [resolvers_builtin]
    exact List.mem_map_of_mem (List.mem_reverse.mpr hmem)
  have hfold : Text.fold name = name := Consistent.builtin.fold_eq hregistered
  have hregisters : builtin.Registers name := by rwa [Registers, hfold]
  rw [canonical?_of_registers hregisters, hfold]

theorem resolve_of_mem (hmem : (name, resolver) ∈ builtinTags) (params : Params)
    (enclosing : List Attribute) :
    builtin.resolve name params enclosing = some <$> resolver params enclosing :=
  resolve_of_canonical? (canonical?_of_mem hmem) hmem params enclosing

/-- A tag that is known has one of the built-in resolvers. -/
theorem exists_resolver (hname : builtin.canonical? tag = some name) :
    ∃ resolver, (name, resolver) ∈ builtinTags := by
  have hmem := Consistent.builtin.mem_of_canonical? hname
  rw [resolvers_builtin, List.map_reverse, List.mem_reverse] at hmem
  obtain ⟨⟨_, resolver⟩, hentry, rfl⟩ := List.mem_map.mp hmem
  exact ⟨resolver, hentry⟩

end KineticText.Registry
