import Mathlib.Data.List.Induction
import Mathlib.Data.List.Infix
import KineticText.Proofs.Markup.Governing
import KineticText.Proofs.Render.Drawing

/-! The effects that a configuration keeps.  The limits cut a chain of attributes from its inner
end, so the effects of a chain begin with those of every shorter one.  In a text whose attributes
govern all characters under their elements, an effect that is kept for one character is therefore
kept for all that it is over.  Main statement: the effects of a character are the kept ones over it,
and of two that are kept one is over the other or they are apart. -/

namespace KineticText

namespace Config

variable {c : Config} {chain : List Attribute} {a : Attribute} {entry : Extent × Effect}

/-- The effects that are kept of a chain of attributes, each with the characters of its element. -/
def effectsOf (c : Config) (chain : List Attribute) : List (Extent × Effect) :=
  ((chain.take c.maxSpanDepth.toNat).filterMap fun a =>
    ((Effect.ofAttribute? a).filter (!·.isStatic)).map (a.extent, ·)).take
      c.maxEffectsPerGlyph.toNat

theorem effectsOf_nil (c : Config) : c.effectsOf [] = [] := by simp [effectsOf]

theorem effectsOf_prefix (c : Config) {chain' : List Attribute} (h : chain <+: chain') :
    c.effectsOf chain <+: c.effectsOf chain' :=
  ((h.take _).filterMap _).take _

/-- One more attribute adds its own effect, or none. -/
theorem mem_effectsOf_append (h : entry ∈ c.effectsOf (chain ++ [a])) :
    entry ∈ c.effectsOf chain ∨ a.extent = entry.1 ∧ Effect.ofAttribute? a = some entry.2 := by
  unfold effectsOf at h
  rw [List.take_append, List.filterMap_append, List.take_append] at h
  rcases List.mem_append.mp h with hbefore | hown
  · exact .inl hbefore
  · obtain ⟨a', ha', hentry⟩ := List.mem_filterMap.mp (List.mem_of_mem_take hown)
    obtain rfl : a' = a := List.mem_singleton.mp (List.mem_of_mem_take ha')
    obtain ⟨effect, heffect, rfl⟩ := Option.map_eq_some_iff.mp hentry
    exact .inr ⟨rfl, (Option.filter_eq_some_iff.mp heffect).1⟩

/-- An effect that is kept is one of an attribute, and is kept of the attributes up to that one. -/
theorem exists_attribute_of_mem_effectsOf (h : entry ∈ c.effectsOf chain) :
    ∃ before a, before ++ [a] <+: chain ∧ a.extent = entry.1 ∧
      Effect.ofAttribute? a = some entry.2 ∧ entry ∈ c.effectsOf (before ++ [a]) := by
  induction chain using List.reverseRecOn with
  | nil => exact absurd (c.effectsOf_nil ▸ h) List.not_mem_nil
  | append_singleton before a ih =>
    rcases mem_effectsOf_append h with hbefore | ⟨hextent, heffect⟩
    · obtain ⟨before', a', hbegins, hrest⟩ := ih hbefore
      exact ⟨before', a', hbegins.trans (List.prefix_append _ _), hrest⟩
    · exact ⟨before, a, List.prefix_refl _, hextent, heffect, h⟩

/-- An effect that is kept for some span of a text. -/
def Keeps (c : Config) (t : AttributedText) (entry : Extent × Effect) : Prop :=
  ∃ s ∈ t.spans, entry ∈ c.effectsOf s.attributes

end Config

namespace AttributedText

variable {t : AttributedText} {index : Nat}

/-- The attributes of a character are those of a span over it, if there is one. -/
theorem exists_span_of_mem_attributesAt {a : Attribute} (h : a ∈ t.attributesAt index) :
    ∃ s ∈ t.spans, s.extent.contains index = true ∧ t.attributesAt index = s.attributes := by
  cases hplace : t.spanIndexAt? index with
  | none =>
    rw [attributesAt, hplace] at h
    exact absurd h List.not_mem_nil
  | some place =>
    obtain ⟨s, hs, hcontains, hattributes⟩ := exists_span_of_spanIndexAt? hplace
    exact ⟨s, List.mem_of_getElem? hs, hcontains, hattributes⟩

end AttributedText

theorem Surrounds.encloses_or {chain : List Attribute} {e : Extent} {a a' : Attribute}
    (h : Surrounds chain e) (ha : a ∈ chain) (ha' : a' ∈ chain) :
    a.extent.encloses a'.extent = true ∨ a'.extent.encloses a.extent = true := by
  have hsymm : Std.Symm fun a a' : Attribute =>
      a.extent.encloses a'.extent = true ∨ a'.extent.encloses a.extent = true :=
    ⟨fun _ _ => Or.symm⟩
  have hpairs : chain.Pairwise fun a a' =>
      a.extent.encloses a'.extent = true ∨ a'.extent.encloses a.extent = true :=
    h.shrinks.imp .inl
  by_cases heq : a = a'
  · rw [heq]
    exact .inl a'.extent.encloses_self
  · exact hpairs.forall ha ha' heq

/-! ### Effects over the characters of their elements -/

namespace Config.Keeps

variable {c : Config} {t : AttributedText} {entry other : Extent × Effect} {index : Nat}

/-- The attribute of a kept effect, with those before it, which has the effect's extent. -/
theorem exists_attribute (h : c.Keeps t entry) (hgoverned : t.Governed) :
    ∃ before a, a.extent = entry.1 ∧ entry ∈ c.effectsOf (before ++ [a]) ∧
      ∃ s ∈ t.spans, before ++ [a] <+: s.attributes ∧ entry.1.encloses s.extent = true := by
  obtain ⟨s, hs, hentry⟩ := h
  obtain ⟨before, a, hbegins, hextent, -, hkept⟩ := exists_attribute_of_mem_effectsOf hentry
  refine ⟨before, a, hextent, hkept, s, hs, hbegins, ?_⟩
  rw [← hextent]
  exact (hgoverned.nested.chained s hs).surrounds.encloses a (hbegins.subset (by simp))

theorem start_lt_stop (h : c.Keeps t entry) (hgoverned : t.Governed) :
    entry.1.start < entry.1.stop := by
  obtain ⟨-, -, -, -, s, hs, -, hencloses⟩ := h.exists_attribute hgoverned
  have hlt := (hgoverned.nested.inText s hs).1
  rw [Extent.encloses_iff] at hencloses
  omega

/-- Wherever the element of a kept effect is, the effect acts. -/
theorem mem_effectsOf_attributesAt (hgoverned : t.Governed) :
    entry ∈ c.effectsOf (t.attributesAt index) ↔
      c.Keeps t entry ∧ entry.1.contains index = true := by
  constructor
  · intro h
    obtain ⟨before, a, hbegins, hextent, -⟩ := exists_attribute_of_mem_effectsOf h
    have ha : a ∈ t.attributesAt index := hbegins.subset (by simp)
    obtain ⟨s, hs, hcontains, hattributes⟩ := AttributedText.exists_span_of_mem_attributesAt ha
    rw [hattributes] at h ha
    have hencloses := (hgoverned.nested.chained s hs).surrounds.encloses a ha
    refine ⟨⟨s, hs, h⟩, ?_⟩
    rw [← hextent]
    rw [Extent.encloses_iff] at hencloses
    rw [Extent.contains_iff] at hcontains ⊢
    omega
  · rintro ⟨h, hcontains⟩
    obtain ⟨before, a, hextent, hkept, s, hs, hbegins, -⟩ := h.exists_attribute hgoverned
    rw [← hextent] at hcontains
    have hgoverns := hgoverned.governs s hs before a hbegins index hcontains
    exact (c.effectsOf_prefix hgoverns).subset hkept

theorem stop_le (h : c.Keeps t entry) (hgoverned : t.Governed) :
    entry.1.stop ≤ t.length := by
  have hlt := h.start_lt_stop hgoverned
  -- The last character under the element has a span over it.
  have hlast := (mem_effectsOf_attributesAt hgoverned).mpr
    ⟨h, Extent.contains_iff.mpr (show entry.1.start ≤ entry.1.stop - 1 ∧ _ by omega)⟩
  obtain ⟨before, a, hbegins, -⟩ := exists_attribute_of_mem_effectsOf hlast
  obtain ⟨s, hs, hcontains, -⟩ :=
    AttributedText.exists_span_of_mem_attributesAt (hbegins.subset (by simp : a ∈ before ++ [a]))
  have hin := (hgoverned.nested.inText s hs).2
  rw [Extent.contains_iff] at hcontains
  omega

/-- Of two kept effects the elements are apart, or one is in the other. -/
theorem laminar (h : c.Keeps t entry) (hother : c.Keeps t other) (hgoverned : t.Governed) :
    entry.1.stop ≤ other.1.start ∨ other.1.stop ≤ entry.1.start ∨
      entry.1.encloses other.1 = true ∨ other.1.encloses entry.1 = true := by
  by_cases happart : entry.1.stop ≤ other.1.start ∨ other.1.stop ≤ entry.1.start
  · exact or_assoc.mp (.inl happart)
  · -- Both act on a character that they share, so both come from attributes of one span.
    have hlt := h.start_lt_stop hgoverned
    have hlt' := hother.start_lt_stop hgoverned
    obtain ⟨index, hindex, hindex'⟩ :
        ∃ index, entry.1.contains index = true ∧ other.1.contains index = true := by
      refine ⟨max entry.1.start other.1.start, Extent.contains_iff.mpr ?_,
        Extent.contains_iff.mpr ?_⟩ <;> omega
    have hmem : ∀ e, c.Keeps t e → e.1.contains index = true →
        ∃ a ∈ t.attributesAt index, a.extent = e.1 := by
      intro e he hcontains
      obtain ⟨before, a, hbegins, hextent, -⟩ := exists_attribute_of_mem_effectsOf
        ((mem_effectsOf_attributesAt hgoverned).mpr ⟨he, hcontains⟩)
      exact ⟨a, hbegins.subset (by simp), hextent⟩
    obtain ⟨a, ha, hextent⟩ := hmem entry h hindex
    obtain ⟨a', ha', hextent'⟩ := hmem other hother hindex'
    obtain ⟨s, hs, -, hattributes⟩ := AttributedText.exists_span_of_mem_attributesAt ha
    rw [hattributes] at ha ha'
    rw [← hextent, ← hextent']
    exact .inr (.inr ((hgoverned.nested.chained s hs).surrounds.encloses_or ha ha'))

end Config.Keeps

/-! ### Typewriters -/

/-- The typewriters among effects. -/
def typewritersAmong (effects : List (Extent × Effect)) : List (Extent × Typewriter) :=
  effects.filterMap fun
    | (extent, .typewriter e) => some (extent, e)
    | _ => none

theorem mem_typewritersAmong {effects : List (Extent × Effect)} {e : Extent × Typewriter} :
    e ∈ typewritersAmong effects ↔ (e.1, .typewriter e.2) ∈ effects := by
  refine List.mem_filterMap.trans ⟨?_, fun h => ⟨_, h, rfl⟩⟩
  rintro ⟨⟨extent, effect⟩, hmem, heq⟩
  cases effect with
  | typewriter => cases heq; exact hmem
  | scramble | shake | gradient | rainbow | style => cases heq

theorem typewritersAmong_cons_of_ne {extent : Extent} {effect : Effect}
    (h : ∀ e, effect ≠ .typewriter e) (effects : List (Extent × Effect)) :
    typewritersAmong ((extent, effect) :: effects) = typewritersAmong effects := by
  cases effect with
  | typewriter e => exact absurd rfl (h e)
  | scramble | shake | gradient | rainbow | style => rfl

namespace Renderer

variable (r : Renderer) (text : AttributedText) (frame : Frame) (index : Nat)

/-- The typewriters that are kept of a text, each with the characters of its element. -/
def typewriters : List (Extent × Typewriter) :=
  typewritersAmong (text.spans.flatMap fun s => r.config.effectsOf s.attributes)

variable {r text} in
theorem mem_typewriters {e : Extent × Typewriter} :
    e ∈ r.typewriters text ↔ r.config.Keeps text (e.1, .typewriter e.2) := by
  rw [typewriters, mem_typewritersAmong, List.mem_flatMap]
  rfl

/-- The effects that act on a character in a frame. -/
def effectsAt : List (Extent × Effect) :=
  if r.config.suppresses frame then [] else r.config.effectsOf (text.attributesAt index)

/-- The effects with which a character is drawn are those of the attributes that govern it. -/
theorem effects_look? :
    ((r.look? text index).map (·.effects)).getD [] =
      r.config.effectsOf (text.attributesAt index) := by
  unfold look? AttributedText.attributesAt AttributedText.attributesOf
  cases (text.spanIndexAt? index).bind (text.spans[·]?) with
  | none => exact r.config.effectsOf_nil.symm
  | some s => rfl

end Renderer

end KineticText
