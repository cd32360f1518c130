import KineticText.Proofs.Markup.Flattening
import KineticText.Proofs.Registry.Resolvers

/-! Names of attributes.  The built-in tags give attributes of a few names only, whatever their
parameters and whatever stands around them.  A registry that gives only certain names fills a text
with attributes of those names. -/

namespace KineticText

/-- Every attribute that a tag of the registry gives has one of the names. -/
def Registry.Gives (registry : Registry) (names : List String) : Prop :=
  ∀ entry ∈ registry.resolvers, ∀ params enclosing, ∀ a ∈ (entry.2 params enclosing).value,
    a.id ∈ names

namespace Registry

variable {registry : Registry} {names : List String}

/-- The names of the attributes that built-in tags give. -/
def builtinNames : List String :=
  ["bold", "italic", "underline", "strikethrough", "color", "font", "typewriter", "obfuscate",
    "shake", "gradient", "rainbow"]

/-- Whatever the resolver is asked, it gives attributes of one name only. -/
def GivesOnly (name : String) (resolver : Resolver) : Prop :=
  ∀ params enclosing, ∀ a ∈ (resolver params enclosing).value, a.id = name

theorem givesOnly_plainTag (name : String) : GivesOnly name (plainTag name) :=
  fun _ _ => List.forall_mem_singleton.mpr rfl

theorem givesOnly_groupTag (name : String) : GivesOnly name groupTag :=
  fun _ _ => List.forall_mem_nil _

theorem givesOnly_colorTag : GivesOnly "color" colorTag := by
  intro params enclosing
  unfold colorTag
  simp only
  split
  · exact List.forall_mem_singleton.mpr rfl
  · exact List.forall_mem_singleton.mpr rfl

theorem givesOnly_fontTag : GivesOnly "font" fontTag := by
  intro params enclosing
  unfold fontTag
  split
  · split
    · exact List.forall_mem_nil _
    · exact List.forall_mem_singleton.mpr rfl
  · exact List.forall_mem_nil _

theorem givesOnly_typewriterTag : GivesOnly "typewriter" typewriterTag :=
  fun _ _ => List.forall_mem_singleton.mpr rfl

theorem givesOnly_scrambleTag : GivesOnly "obfuscate" scrambleTag :=
  fun _ _ => List.forall_mem_singleton.mpr rfl

theorem givesOnly_shakeTag (preset : Option Motion) : GivesOnly "shake" (shakeTag preset) := by
  intro params enclosing
  cases preset with
  | none => exact List.forall_mem_singleton.mpr rfl
  | some motion => exact List.forall_mem_singleton.mpr rfl

theorem givesOnly_gradientTag : GivesOnly "gradient" gradientTag :=
  fun _ _ => List.forall_mem_singleton.mpr rfl

theorem givesOnly_rainbowTag : GivesOnly "rainbow" rainbowTag :=
  fun _ _ => List.forall_mem_singleton.mpr rfl

theorem givesOnly_builtinTags :
    ∀ entry ∈ builtinTags, ∃ name ∈ builtinNames, GivesOnly name entry.2 := by
  simp only [builtinTags, List.forall_mem_cons]
  exact ⟨⟨"bold", by decide, givesOnly_plainTag _⟩, ⟨"italic", by decide, givesOnly_plainTag _⟩,
    ⟨"underline", by decide, givesOnly_plainTag _⟩,
    ⟨"strikethrough", by decide, givesOnly_plainTag _⟩, ⟨"color", by decide, givesOnly_colorTag⟩,
    ⟨"font", by decide, givesOnly_fontTag⟩, ⟨"typewriter", by decide, givesOnly_typewriterTag⟩,
    ⟨"obfuscate", by decide, givesOnly_scrambleTag⟩, ⟨"shake", by decide, givesOnly_shakeTag _⟩,
    ⟨"shake", by decide, givesOnly_shakeTag _⟩, ⟨"shake", by decide, givesOnly_shakeTag _⟩,
    ⟨"shake", by decide, givesOnly_shakeTag _⟩, ⟨"gradient", by decide, givesOnly_gradientTag⟩,
    ⟨"rainbow", by decide, givesOnly_rainbowTag⟩, ⟨"bold", by decide, givesOnly_groupTag _⟩,
    ⟨"bold", by decide, givesOnly_groupTag _⟩, List.forall_mem_nil _⟩

theorem gives_builtin : builtin.Gives builtinNames := by
  intro entry hentry params enclosing a ha
  have hgiven : ∃ name ∈ builtinNames, GivesOnly name entry.2 :=
    every_builtin (P := fun resolver => ∃ name ∈ builtinNames, GivesOnly name resolver)
      givesOnly_builtinTags entry hentry
  obtain ⟨name, hname, hgives⟩ := hgiven
  rwa [hgives params enclosing a ha]

theorem Gives.resolve (h : registry.Gives names) {tag : String} {params : Params}
    {enclosing own : List Attribute}
    (hown : (registry.resolve tag params enclosing).value = some own) :
    ∀ a ∈ own, a.id ∈ names := by
  have hevery : registry.Every fun resolver =>
      ∀ params enclosing, ∀ a ∈ (resolver params enclosing).value, a.id ∈ names := h
  obtain ⟨resolver, hgives, rfl⟩ := hevery.resolve hown
  exact hgives params enclosing

end Registry

namespace Markup

variable {registry : Registry} {names : List String} {logUnknown : Bool}

theorem id_mem_contribution (h : registry.Gives names) (chain : List Attribute) (e : Element) :
    ∀ a ∈ e.contribution registry chain, a.id ∈ names := by
  unfold Element.contribution
  cases hown : (registry.resolve e.tag (Params.ofTexts e.attributes) chain).value with
  | none =>
    intro a ha
    exact absurd ha List.not_mem_nil
  | some own =>
    intro a ha
    obtain ⟨a', ha', rfl⟩ := List.mem_map.mp ha
    exact h.resolve hown a' ha'

theorem id_mem_listSpans (h : registry.Gives names) (nodes : List Node) (chain : List Attribute)
    (offset : Nat) (hchain : ∀ a ∈ chain, a.id ∈ names) :
    ∀ s ∈ (Node.listSpans registry logUnknown chain offset nodes).value,
      ∀ a ∈ s.attributes, a.id ∈ names := by
  induction nodes using Node.listInduction generalizing chain offset with
  | nil => intro s hs; exact absurd hs List.not_mem_nil
  | text content rest ih =>
    rw [value_listSpans_text]
    exact ih chain _ hchain
  | element tag attributes children rest ihChildren ihRest =>
    rw [value_listSpans_element chain offset tag attributes children rest rfl]
    have hown : ∀ a ∈ chain ++ Element.contribution registry chain ⟨tag, attributes, offset,
        children⟩, a.id ∈ names :=
      List.forall_mem_append.mpr ⟨hchain, id_mem_contribution h chain _⟩
    intro s hs
    rcases List.mem_append.mp hs with hfirst | hothers
    · rcases mem_withOwn hfirst with hinner | ⟨rfl, -⟩
      · exact ihChildren _ _ hown s hinner
      · exact hown
    · exact ihRest _ _ hchain s hothers

/-- The attributes of a flat text have names that the registry gives. -/
theorem id_mem_flatten (h : registry.Gives names) (nodes : List Node) :
    ∀ s ∈ (flatten registry logUnknown nodes).value.spans, ∀ a ∈ s.attributes, a.id ∈ names := by
  intro s hs
  exact id_mem_listSpans h nodes [] 0 (by simp) s (mem_listSpans hs)

end Markup

end KineticText
