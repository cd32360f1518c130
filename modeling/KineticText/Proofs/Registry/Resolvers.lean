import KineticText.Registry.Builtin

/-! What all tags of a registry have in common.  A property of resolvers holds of every tag when it
holds of those that are registered; aliases add none.  A resolved tag has such a resolver behind it.
The built-in tags give one attribute each, or none. -/

namespace KineticText.Registry

/-- Every tag of the registry has a resolver with the property. -/
def Every (registry : Registry) (P : Resolver → Prop) : Prop :=
  ∀ entry ∈ registry.resolvers, P entry.2

variable {registry : Registry} {P : Resolver → Prop}

theorem Every.register (h : registry.Every P) {resolver : Resolver} (hresolver : P resolver)
    (name : String) : (registry.register name resolver).Every P := by
  intro entry hentry
  rcases List.mem_cons.mp hentry with rfl | hentry
  · exact hresolver
  · exact h entry (List.mem_filter.mp hentry).1

theorem Every.addAlias (h : registry.Every P) (name target : String) :
    (registry.addAlias name target).2.Every P := by
  unfold Registry.addAlias
  cases registry.canonical? target with
  | none => exact h
  | some target => exact h

theorem every_builtin (h : ∀ entry ∈ builtinTags, P entry.2) : builtin.Every P := by
  have hnone : Every {} P := List.forall_mem_nil _
  have htags : Every (builtinTags.foldl (fun r t => Registry.register r t.1 t.2) {}) P :=
    List.foldlRecOn (motive := (Every · P)) builtinTags _ hnone
      fun registry hevery entry hentry => hevery.register (h entry hentry) entry.1
  exact List.foldlRecOn (motive := (Every · P)) builtinAliases _ htags
    fun registry hevery a _ => hevery.addAlias a.1 a.2

theorem Every.resolve (h : registry.Every P) {tag : String} {params : Params}
    {enclosing own : List Attribute}
    (hown : (registry.resolve tag params enclosing).value = some own) :
    ∃ resolver, P resolver ∧ (resolver params enclosing).value = own := by
  unfold Registry.resolve at hown
  cases hresolver : (registry.canonical? tag).bind (registry.resolvers.lookup ·) with
  | none =>
    rw [hresolver] at hown
    cases hown
  | some resolver =>
    rw [hresolver] at hown
    obtain ⟨name, -, hlookup⟩ := Option.bind_eq_some_iff.mp hresolver
    obtain ⟨before, after, hentries, -⟩ := List.lookup_eq_some_iff.mp hlookup
    have hentry : (name, resolver) ∈ registry.resolvers := by
      rw [hentries]
      exact List.mem_append_right _ List.mem_cons_self
    exact ⟨resolver, h _ hentry, Option.some.inj hown⟩

/-! ### One attribute -/

/-- No tag of the registry gives two attributes. -/
def GivesOne (registry : Registry) : Prop :=
  registry.Every fun resolver => ∀ params enclosing, (resolver params enclosing).value.length ≤ 1

theorem givesOne_builtin : builtin.GivesOne := by
  have hcolor : ∀ params enclosing, (colorTag params enclosing).value.length ≤ 1 := by
    intro params enclosing
    unfold colorTag
    simp only
    split <;> exact Nat.le_refl 1
  have hfont : ∀ params enclosing, (fontTag params enclosing).value.length ≤ 1 := by
    intro params enclosing
    unfold fontTag
    split
    · split
      · exact Nat.zero_le 1
      · exact Nat.le_refl 1
    · exact Nat.zero_le 1
  have hshake : ∀ preset params enclosing,
      (shakeTag preset params enclosing).value.length ≤ 1 := by
    intro preset params enclosing
    cases preset <;> exact Nat.le_refl 1
  have hone : ∀ a : Attribute, [a].length ≤ 1 := fun a => Nat.le_refl 1
  refine every_builtin ?_
  simp only [builtinTags, List.forall_mem_cons]
  exact ⟨fun _ _ => hone _, fun _ _ => hone _, fun _ _ => hone _, fun _ _ => hone _, hcolor, hfont,
    fun _ _ => hone _, fun _ _ => hone _, hshake _, hshake _, hshake _, hshake _,
    fun _ _ => hone _, fun _ _ => hone _, fun _ _ => Nat.zero_le 1, fun _ _ => Nat.zero_le 1,
    List.forall_mem_nil _⟩

end KineticText.Registry
