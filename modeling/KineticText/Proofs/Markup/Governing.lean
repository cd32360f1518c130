import KineticText.Proofs.Markup.Nesting

/-! Attributes over the characters of their elements.  The span of a character may be that of an
inner element, but its attributes begin with those of every element around it.  So an attribute that
some span has governs every character under the element that it comes from, and the attributes
before it are the same at all of them.  Main statement: this holds of every parsed text. -/

namespace KineticText

/-- The attributes of a text are those of elements: they lie in each other as the spans do, and each
governs all characters of its extent, after the same attributes. -/
structure AttributedText.Governed (t : AttributedText) : Prop where
  nested : t.WellNested
  governs : ∀ s ∈ t.spans, ∀ before a, before ++ [a] <+: s.attributes →
    ∀ index, a.extent.contains index = true → before ++ [a] <+: t.attributesAt index

namespace Markup

variable {registry : Registry} {logUnknown : Bool}

/-- An attribute that follows a chain is none of the chain. -/
theorem mem_of_prefix_append {chain own before : List Attribute} {a : Attribute}
    (h : before ++ [a] <+: chain ++ own) (hlength : chain.length ≤ before.length) : a ∈ own := by
  obtain ⟨after, heq⟩ := h
  have hget : (chain ++ own)[before.length]? = some a := by simp [← heq]
  rw [List.getElem?_append_right hlength] at hget
  exact List.mem_of_getElem? hget

theorem prefix_innermost (nodes : List Node) (chain : List Attribute) (offset index : Nat) :
    chain <+: Span.innermost index chain
      (Node.listSpans registry logUnknown chain offset nodes).value := by
  unfold Span.innermost
  cases hfind : (Node.listSpans registry logUnknown chain offset nodes).value.find?
      (·.extent.contains index) with
  | none => exact List.prefix_refl chain
  | some s => exact (prefix_listSpans nodes chain offset s (List.mem_of_find?_eq_some hfind)).1

/-- Over an element the spans after it say nothing, and its own span adds what it contributes. -/
theorem innermost_element {index : Nat} {chain : List Attribute} {e : Element} {rest : List Node}
    {inner : List Span} (hindex : e.extent.contains index = true) :
    Span.innermost index chain (withOwn registry chain e inner ++
        (Node.listSpans registry logUnknown chain e.extent.stop rest).value) =
      Span.innermost index (chain ++ e.contribution registry chain) inner := by
  have hothers : Span.innermost index chain
      (Node.listSpans registry logUnknown chain e.extent.stop rest).value = chain := by
    refine Span.innermost_of_not_contains fun s hs hcontains => ?_
    obtain ⟨hstart, -, -⟩ := within_listSpans rest _ _ s hs
    rw [Extent.contains_iff] at hindex hcontains
    omega
  rw [Span.innermost_append, hothers, innermost_withOwn hindex]

/-- After an element its spans say nothing. -/
theorem innermost_rest {index : Nat} {chain : List Attribute} {e : Element} {rest : List Node}
    (h : Span.innermost index chain
      (Node.listSpans registry logUnknown chain e.extent.stop rest).value ≠ chain) :
    Span.innermost index chain (withOwn registry chain e (Node.listSpans registry logUnknown
        (chain ++ e.contribution registry chain) e.offset e.children).value ++
        (Node.listSpans registry logUnknown chain e.extent.stop rest).value) =
      Span.innermost index chain
        (Node.listSpans registry logUnknown chain e.extent.stop rest).value := by
  have hindex : e.extent.stop ≤ index := by
    by_contra hbefore
    refine h (Span.innermost_of_not_contains fun s hs hcontains => ?_)
    obtain ⟨hstart, -, -⟩ := within_listSpans rest _ _ s hs
    rw [Extent.contains_iff] at hcontains
    omega
  rw [Span.innermost_append]
  refine Span.innermost_of_not_contains fun s hs hcontains => ?_
  rw [Extent.contains_iff] at hcontains
  have hstop : s.extent.stop ≤ e.extent.stop := by
    rcases mem_withOwn hs with hinner | ⟨rfl, -⟩
    · exact (Extent.encloses_iff.mp (encloses_of_mem_listSpans hinner)).2
    · exact Nat.le_refl _
  omega

/-- What a span has after the attributes around the nodes, all characters of its extent have. -/
theorem governs_listSpans (nodes : List Node) (chain : List Attribute) (offset : Nat) :
    ∀ s ∈ (Node.listSpans registry logUnknown chain offset nodes).value, ∀ before a,
      before ++ [a] <+: s.attributes → chain.length ≤ before.length →
      ∀ index, a.extent.contains index = true → before ++ [a] <+: Span.innermost index chain
        (Node.listSpans registry logUnknown chain offset nodes).value := by
  induction nodes using Node.listInduction generalizing chain offset with
  | nil => intro s hs; exact absurd hs List.not_mem_nil
  | text content rest ih =>
    rw [value_listSpans_text]
    exact ih chain _
  | element tag attributes children rest ihChildren ihRest =>
    rw [value_listSpans_element chain offset tag attributes children rest rfl]
    generalize he : (⟨tag, attributes, offset, children⟩ : Element) = e
    have hoffset : offset = e.offset := by rw [← he]
    have hchildren : children = e.children := by rw [← he]
    subst hoffset hchildren
    intro s hs before a hbegins hlength index hindex
    rcases List.mem_append.mp hs with hfirst | hothers
    · have hchain : chain ++ e.contribution registry chain <+: s.attributes := by
        rcases mem_withOwn hfirst with hinner | ⟨rfl, -⟩
        · exact (prefix_listSpans _ _ _ s hinner).1
        · exact List.prefix_refl _
      by_cases hown : (chain ++ e.contribution registry chain).length ≤ before.length
      · -- The attribute comes from an element in this one.
        rcases mem_withOwn hfirst with hinner | ⟨rfl, -⟩
        · have hinnermost := ihChildren _ _ s hinner before a hbegins hown index hindex
          have hcontains : e.extent.contains index = true := by
            by_contra hout
            rw [Span.innermost_of_not_contains fun s' hs' hcontains => hout ?_] at hinnermost
            · have hle := hinnermost.length_le
              rw [List.length_append, List.length_singleton] at hle
              omega
            · have hencloses := encloses_of_mem_listSpans hs'
              rw [Extent.contains_iff] at *
              rw [Extent.encloses_iff] at hencloses
              omega
          rwa [innermost_element hcontains]
        · have hle : (before ++ [a]).length ≤ (chain ++ e.contribution registry chain).length :=
            hbegins.length_le
          rw [List.length_append, List.length_singleton] at hle
          omega
      · have hstarts : before ++ [a] <+: chain ++ e.contribution registry chain := by
          refine List.prefix_of_prefix_length_le hbegins hchain ?_
          rw [List.length_append, List.length_singleton]
          omega
        have hextent := extent_of_mem_contribution (mem_of_prefix_append hstarts hlength)
        rw [hextent] at hindex
        rw [innermost_element hindex]
        exact hstarts.trans (prefix_innermost _ _ _ _)
    · have hinnermost := ihRest _ _ s hothers before a hbegins hlength index hindex
      rwa [innermost_rest fun heq => ?_]
      rw [heq] at hinnermost
      have hle := hinnermost.length_le
      rw [List.length_append, List.length_singleton] at hle
      omega

theorem governed_parse (registry : Registry) (options : ParseOptions) (source : String) :
    (parse registry options source).value.Governed := by
  rw [value_parse]
  refine ⟨wellNested_flatten _, fun s hs before a hbegins index hindex => ?_⟩
  rw [AttributedText.attributesAt_eq_innermost (spans_flatten _) (nests_listSpans _ [] 0)]
  exact governs_listSpans _ [] 0 s (mem_listSpans hs) before a hbegins (Nat.zero_le _) index
    hindex

end Markup

end KineticText
