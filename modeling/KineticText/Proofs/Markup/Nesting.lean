import Mathlib.Data.List.Basic
import Mathlib.Data.List.Pairwise
import KineticText.Markup.Parse
import KineticText.Proofs.Markup.Flattening
import KineticText.Proofs.Markup.Spending
import KineticText.Proofs.Registry.Resolvers

/-! How the spans of a parsed text lie in each other.  Whatever the source is, two spans are apart
or one encloses the other, and the attributes of the outer one begin those of the inner one.  The
extents of a span's attributes shrink down to the span itself.  A registry whose tags give one
attribute at most leaves no span with more attributes than elements may nest.  Main statement: all
this holds of every source, registry and limit. -/

namespace KineticText

/-- The attributes' extents shrink, the outermost first, and all have `e` inside. -/
structure Surrounds (chain : List Attribute) (e : Extent) : Prop where
  encloses : ∀ a ∈ chain, a.extent.encloses e = true
  shrinks : chain.Pairwise fun outer inner => outer.extent.encloses inner.extent = true

namespace Surrounds

variable {chain own : List Attribute} {e e' : Extent}

theorem mono (h : Surrounds chain e) (hin : e.encloses e' = true) : Surrounds chain e' := by
  refine ⟨fun a ha => ?_, h.shrinks⟩
  have hout := h.encloses a ha
  rw [Extent.encloses_iff] at *
  omega

/-- Attributes over `e` go inside. -/
theorem append (h : Surrounds chain e) (hown : ∀ a ∈ own, a.extent = e) :
    Surrounds (chain ++ own) e := by
  have hself := e.encloses_self
  refine ⟨List.forall_mem_append.mpr ⟨h.encloses, fun a ha => ?_⟩,
    List.pairwise_append.mpr ⟨h.shrinks, List.pairwise_of_forall_mem_list fun a ha b hb => ?_,
      fun a ha b hb => ?_⟩⟩
  · rwa [hown a ha]
  · rwa [hown a ha, hown b hb]
  · rw [hown b hb]
    exact h.encloses a ha

end Surrounds

namespace Span

/-- The span has attributes, whose extents shrink from the outermost down to the span itself. -/
structure Chained (s : Span) : Prop where
  nonempty : s.attributes ≠ []
  surrounds : Surrounds s.attributes s.extent
  last : ∀ a ∈ s.attributes.getLast?, a.extent = s.extent

/-- The attributes of the outer span are the first ones of the inner span, which has more. -/
def Extends (inner outer : Span) : Prop :=
  outer.attributes <+: inner.attributes ∧ outer.attributes ≠ inner.attributes

/-- The earlier span ends before the later one begins, or lies in it and has more attributes. -/
def Deepens (earlier later : Span) : Prop :=
  earlier.extent.stop ≤ later.extent.start ∨
    later.extent.encloses earlier.extent = true ∧ earlier.Extends later

end Span

/-- The spans of a text lie in the text, in order, apart from or in each other, and so do their
attributes. -/
structure AttributedText.WellNested (t : AttributedText) : Prop where
  inText : ∀ s ∈ t.spans, s.extent.start < s.extent.stop ∧ s.extent.stop ≤ t.length
  inOrder : t.spans.Pairwise Span.Precedes
  laminar : ∀ a ∈ t.spans, ∀ b ∈ t.spans,
    a.extent.stop ≤ b.extent.start ∨ b.extent.stop ≤ a.extent.start ∨
      a.extent.encloses b.extent = true ∨ b.extent.encloses a.extent = true
  chained : ∀ s ∈ t.spans, s.Chained
  deepens : ∀ outer ∈ t.spans, ∀ inner ∈ t.spans, outer ≠ inner →
    outer.extent.encloses inner.extent = true → inner.Extends outer

/-- Spans of which the inner ones come first are well nested when they are put in order. -/
theorem AttributedText.wellNested_of_deepens {t : AttributedText} {spans : List Span}
    (hspans : t.spans = Span.dropRepeats (spans.mergeSort Span.inOrder))
    (hin : ∀ s ∈ spans, s.extent.start < s.extent.stop ∧ s.extent.stop ≤ t.length)
    (hchained : ∀ s ∈ spans, s.Chained) (hdeepens : spans.Pairwise Span.Deepens) :
    t.WellNested := by
  have hmem : ∀ s ∈ t.spans, s ∈ spans := by
    intro s hs
    rw [hspans] at hs
    exact Span.mem_of_mem_dropRepeats hs
  have hprecedes : t.spans.Pairwise Span.Precedes := by
    rw [hspans]
    exact Span.pairwise_precedes spans
  have hboth : ∀ a ∈ t.spans, ∀ b ∈ t.spans, a ≠ b → a.Deepens b ∨ b.Deepens a := by
    have hsymm : Std.Symm fun a b : Span => a.Deepens b ∨ b.Deepens a := ⟨fun _ _ => Or.symm⟩
    have hpairs : spans.Pairwise fun a b => a.Deepens b ∨ b.Deepens a := hdeepens.imp .inl
    exact fun a ha b hb hne => hpairs.forall (hmem a ha) (hmem b hb) hne
  refine ⟨fun s hs => hin s (hmem s hs), hprecedes, fun a ha b hb => ?_,
    fun s hs => hchained s (hmem s hs), fun outer houter inner hinner hne hencloses => ?_⟩
  · by_cases heq : a = b
    · rw [heq]
      exact .inr (.inr (.inl b.extent.encloses_self))
    · rcases hboth a ha b hb heq with (happart | ⟨hin, -⟩) | (happart | ⟨hin, -⟩)
      · exact .inl happart
      · exact .inr (.inr (.inr hin))
      · exact .inr (.inl happart)
      · exact .inr (.inr (.inl hin))
  · have hlt := (hin inner (hmem inner hinner)).1
    rw [Extent.encloses_iff] at hencloses
    rcases hboth inner hinner outer houter hne.symm with
      (happart | ⟨-, hextends⟩) | (happart | ⟨hback, -⟩)
    · omega
    · exact hextends
    · omega
    · -- Spans that enclose each other have the same characters, and only one of them is kept.
      rw [Extent.encloses_iff] at hback
      have hextent : outer.extent = inner.extent := Extent.eq_iff.mpr (by omega)
      exact absurd (Span.eq_of_extent_eq hprecedes houter hinner hextent) hne

namespace Markup

variable {registry : Registry} {logUnknown : Bool}

/-! ### The attributes of spans -/

theorem extent_of_mem_contribution {chain : List Attribute} {e : Element} {a : Attribute}
    (ha : a ∈ e.contribution registry chain) : a.extent = e.extent := by
  unfold Element.contribution at ha
  split at ha
  · obtain ⟨a', -, rfl⟩ := List.mem_map.mp ha
    rfl
  · exact absurd ha List.not_mem_nil

/-- Every span has the attributes that stand around it and more. -/
theorem prefix_listSpans (nodes : List Node) (chain : List Attribute) (offset : Nat) :
    ∀ s ∈ (Node.listSpans registry logUnknown chain offset nodes).value,
      chain <+: s.attributes ∧ chain ≠ s.attributes := by
  induction nodes using Node.listInduction generalizing chain offset with
  | nil => intro s hs; exact absurd hs List.not_mem_nil
  | text content rest ih =>
    rw [value_listSpans_text]
    exact ih chain _
  | element tag attributes children rest ihChildren ihRest =>
    rw [value_listSpans_element chain offset tag attributes children rest rfl]
    intro s hs
    rcases List.mem_append.mp hs with hfirst | hothers
    · rcases mem_withOwn hfirst with hinner | ⟨rfl, hown, -⟩
      · obtain ⟨hstarts, hne⟩ := ihChildren _ _ s hinner
        have hchain := (List.prefix_append chain _).trans hstarts
        refine ⟨hchain, fun heq => hne ?_⟩
        exact hstarts.eq_of_length_le (heq ▸ (List.prefix_append chain _).length_le)
      · exact ⟨List.prefix_append chain _, fun heq => hown (List.self_eq_append_right.mp heq)⟩
    · exact ihRest _ _ s hothers

/-- The attributes around nodes, if they surround them, and those of the elements above a span
surround the span. -/
theorem chained_listSpans (nodes : List Node) (chain : List Attribute) (offset : Nat)
    (h : Surrounds chain ⟨offset, offset + Node.listLength nodes⟩) :
    ∀ s ∈ (Node.listSpans registry logUnknown chain offset nodes).value, s.Chained := by
  induction nodes using Node.listInduction generalizing chain offset with
  | nil => intro s hs; exact absurd hs List.not_mem_nil
  | text content rest ih =>
    rw [value_listSpans_text]
    refine ih chain _ (h.mono (Extent.encloses_iff.mpr ?_))
    simp only [Node.listLength, Node.length]
    omega
  | element tag attributes children rest ihChildren ihRest =>
    rw [value_listSpans_element chain offset tag attributes children rest rfl]
    generalize he : (⟨tag, attributes, offset, children⟩ : Element) = e
    have hextent : e.extent = ⟨offset, offset + Node.listLength children⟩ := by rw [← he]; rfl
    have hchain : Surrounds chain e.extent := by
      refine h.mono (Extent.encloses_iff.mpr ?_)
      simp only [hextent, Node.listLength, Node.length]
      omega
    have hown : Surrounds (chain ++ e.contribution registry chain) e.extent :=
      hchain.append fun a ha => extent_of_mem_contribution ha
    intro s hs
    rcases List.mem_append.mp hs with hfirst | hothers
    · rcases mem_withOwn hfirst with hinner | ⟨rfl, hne, -⟩
      · exact ihChildren _ _ (hextent ▸ hown) s hinner
      · refine ⟨List.append_ne_nil_of_right_ne_nil _ hne, hown, fun a ha => ?_⟩
        rw [List.getLast?_append_of_ne_nil _ hne] at ha
        exact extent_of_mem_contribution (List.mem_of_mem_getLast? ha)
    · refine ihRest _ _ (h.mono (Extent.encloses_iff.mpr ?_)) s hothers
      simp only [hextent, Node.listLength, Node.length]
      omega

/-- Of two spans the later one is apart or outside, and then the earlier one adds to it. -/
theorem deepens_listSpans (nodes : List Node) (chain : List Attribute) (offset : Nat) :
    (Node.listSpans registry logUnknown chain offset nodes).value.Pairwise Span.Deepens :=
  pairwise_listSpans (fun _ _ => .inl)
    (fun _ e s hs _ => .inr ⟨encloses_of_mem_listSpans hs, prefix_listSpans e.children _ _ s hs⟩)
    nodes chain offset

theorem length_flatten (nodes : List Node) :
    (flatten registry logUnknown nodes).value.length = Node.listLength nodes :=
  length_rawText nodes

theorem wellNested_flatten (nodes : List Node) :
    (flatten registry logUnknown nodes).value.WellNested := by
  refine AttributedText.wellNested_of_deepens (spans_flatten nodes) (fun s hs => ?_)
    (chained_listSpans nodes [] 0 ⟨by simp, List.Pairwise.nil⟩) (deepens_listSpans nodes [] 0)
  obtain ⟨-, hlt, hstop⟩ := within_listSpans nodes [] 0 s hs
  rw [length_flatten]
  exact ⟨hlt, by omega⟩

/-! ### The number of attributes -/

theorem length_contribution_le (h : registry.GivesOne) (chain : List Attribute) (e : Element) :
    (e.contribution registry chain).length ≤ 1 := by
  unfold Element.contribution
  split
  · rename_i own hown
    have hevery : registry.Every fun resolver =>
        ∀ params enclosing, (resolver params enclosing).value.length ≤ 1 := h
    obtain ⟨resolver, hone, rfl⟩ := hevery.resolve hown
    rw [List.length_map]
    exact hone _ _
  · exact Nat.zero_le 1

/-- Every attribute of a span after those around the nodes comes from one element. -/
theorem length_attributes_listSpans_le (h : registry.GivesOne) (nodes : List Node)
    (chain : List Attribute) (offset : Nat) :
    ∀ s ∈ (Node.listSpans registry logUnknown chain offset nodes).value,
      s.attributes.length ≤ chain.length + Node.listDepth nodes := by
  induction nodes using Node.listInduction generalizing chain offset with
  | nil => intro s hs; exact absurd hs List.not_mem_nil
  | text content rest ih =>
    rw [value_listSpans_text]
    intro s hs
    have hrest := ih chain _ s hs
    simp only [Node.listDepth, Node.depth]
    omega
  | element tag attributes children rest ihChildren ihRest =>
    rw [value_listSpans_element chain offset tag attributes children rest rfl]
    have hone := length_contribution_le h chain ⟨tag, attributes, offset, children⟩
    intro s hs
    simp only [Node.listDepth, Node.depth]
    rcases List.mem_append.mp hs with hfirst | hothers
    · rcases mem_withOwn hfirst with hinner | ⟨rfl, -⟩
      · have hchildren := ihChildren _ _ s hinner
        rw [List.length_append] at hchildren
        omega
      · rw [List.length_append]
        omega
    · have hrest := ihRest _ _ s hothers
      omega

theorem length_attributes_flatten_le (h : registry.GivesOne) (nodes : List Node) :
    ∀ s ∈ (flatten registry logUnknown nodes).value.spans,
      s.attributes.length ≤ Node.listDepth nodes := by
  intro s hs
  have hlength := length_attributes_listSpans_le h nodes [] 0 s (mem_listSpans hs)
  rwa [List.length_nil, Nat.zero_add] at hlength

/-! ### Parsed texts -/

theorem value_parse (registry : Registry) (options : ParseOptions) (source : String) :
    (parse registry options source).value = (flatten registry options.logUnknownTags
      (Node.ofTokens (tokenize (truncate options.maxLength source).value) options.maxDepth
        options.logDepthSkips).value).value := rfl

theorem length_truncate (maxLength : Nat) (source : String) :
    (truncate maxLength source).value.length = min maxLength source.length := by
  unfold truncate
  simp only
  split
  · simp only [Logged.value_bind, Logged.value_pure, String.length_ofList, List.length_take,
      String.length_toList]
  · simp only [Logged.value_pure]
    omega

theorem length_parse_le (registry : Registry) (options : ParseOptions) (source : String) :
    (parse registry options source).value.length ≤ min options.maxLength source.length := by
  rw [value_parse, length_flatten, ← length_truncate]
  refine Nat.le_trans (listLength_ofTokens_le _) ?_
  have hcost := totalCost_tokenize_le (truncate options.maxLength source).value
  rw [totalCost_eq] at hcost
  omega

/-- The spans of a parsed text are well nested.  With the built-in tags a span has no more
attributes than elements may nest, and the text is no longer than its source. -/
theorem wellNested_parse (registry : Registry) (options : ParseOptions) (source : String) :
    (parse registry options source).value.WellNested ∧
      (∀ s ∈ (parse .builtin options source).value.spans,
        s.attributes.length ≤ options.maxDepth) ∧
      (parse registry options source).value.length ≤ source.length := by
  refine ⟨?_, fun s hs => ?_, ?_⟩
  · rw [value_parse]
    exact wellNested_flatten _
  · rw [value_parse] at hs
    exact Nat.le_trans (length_attributes_flatten_le Registry.givesOne_builtin _ s hs)
      (listDepth_ofTokens_le _)
  · exact Nat.le_trans (length_parse_le registry options source) (Nat.min_le_right _ _)

end Markup

end KineticText
