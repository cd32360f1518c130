import KineticText.Markup.Flatten
import KineticText.Proofs.AttributedText.Spans

/-! Attributed text means what its tree means.  The elements around a character are read off the
tree, and each adds to the attributes of those around it.  The spans of a tree come inner ones
first, and of two that share characters the later encloses the earlier, so the first span over a
character is the innermost and still is the shortest when the spans are put in order.  Main
statement: `attributesAt` of the flat text gives what the elements around the character add. -/

namespace KineticText

namespace Markup

/-- An element of a tree, whose text starts at `offset`. -/
structure Element where
  tag : String
  attributes : List (String × String)
  offset : Nat
  children : List Node

/-- The characters under an element. -/
def Element.extent (e : Element) : Extent := ⟨e.offset, e.offset + Node.listLength e.children⟩

mutual

/-- The elements that have a character under them, the outermost first, in a node whose text starts
at `offset`. -/
def Node.elementsAt (index offset : Nat) : Node → List Element
  | .text _ => []
  | .element tag attributes children =>
    let e : Element := ⟨tag, attributes, offset, children⟩
    if e.extent.contains index then e :: Node.listElementsAt index offset children else []

/-- The elements that have a character under them, the outermost first, in a list of nodes whose
text starts at `offset`. -/
def Node.listElementsAt (index offset : Nat) : List Node → List Element
  | [] => []
  | node :: rest =>
    node.elementsAt index offset ++ Node.listElementsAt index (offset + node.length) rest

end

/-- What an element adds to the attributes of the elements around it: what its tag's resolver gives
for them, over the element's characters, and nothing when the tag is unknown. -/
def Element.contribution (registry : Registry) (chain : List Attribute) (e : Element) :
    List Attribute :=
  match (registry.resolve e.tag (Params.ofTexts e.attributes) chain).value with
  | some own => own.map fun a => { a with extent := e.extent }
  | none => []

/-- The attributes of elements that lie in each other, after those of `chain`. -/
def chainOf (registry : Registry) (chain : List Attribute) (elements : List Element) :
    List Attribute :=
  elements.foldl (fun chain e => chain ++ e.contribution registry chain) chain

/-- Induction on trees: the nodes of a list come one by one, an element after its children. -/
theorem Node.listInduction {P : List Node → Prop} (nil : P [])
    (text : ∀ content rest, P rest → P (.text content :: rest))
    (element : ∀ tag attributes children rest, P children → P rest →
      P (.element tag attributes children :: rest)) : ∀ nodes, P nodes
  | [] => nil
  | .text content :: rest => text content rest (listInduction nil text element rest)
  | .element tag attributes children :: rest =>
    element tag attributes children rest (listInduction nil text element children)
      (listInduction nil text element rest)

variable {registry : Registry} {logUnknown : Bool}

/-! ### The spans of an element -/

theorem value_ownAttributes (chain : List Attribute) (e : Element) :
    (ownAttributes registry logUnknown chain e.tag e.attributes e.extent).value =
      e.contribution registry chain := by
  simp only [ownAttributes, Element.contribution, Logged.value_bind]
  cases (registry.resolve e.tag (Params.ofTexts e.attributes) chain).value <;> rfl

/-- The spans of an element whose children have the spans `inner`. -/
def withOwn (registry : Registry) (chain : List Attribute) (e : Element) (inner : List Span) :
    List Span :=
  if (e.contribution registry chain).isEmpty || e.extent.length == 0 then inner
  else inner ++ [⟨e.extent, chain ++ e.contribution registry chain⟩]

theorem value_listSpans_text (chain : List Attribute) (offset : Nat) (content : String)
    (rest : List Node) :
    (Node.listSpans registry logUnknown chain offset (.text content :: rest)).value =
      (Node.listSpans registry logUnknown chain (offset + content.length) rest).value := by
  rw [Node.listSpans, Node.spans]
  rfl

theorem value_listSpans_element (chain : List Attribute) (offset : Nat) (tag : String)
    (attributes : List (String × String)) (children rest : List Node) {e : Element}
    (he : e = ⟨tag, attributes, offset, children⟩) :
    (Node.listSpans registry logUnknown chain offset
        (.element tag attributes children :: rest)).value =
      withOwn registry chain e (Node.listSpans registry logUnknown
        (chain ++ e.contribution registry chain) offset children).value ++
      (Node.listSpans registry logUnknown chain e.extent.stop rest).value := by
  subst he
  have hown : (ownAttributes registry logUnknown chain tag attributes
      ⟨offset, offset + Node.listLength children⟩).value =
      Element.contribution registry chain ⟨tag, attributes, offset, children⟩ :=
    value_ownAttributes chain ⟨tag, attributes, offset, children⟩
  rw [Node.listSpans, Node.spans]
  simp only [Logged.value_bind, Logged.value_pure, hown]
  rfl

theorem mem_withOwn {chain : List Attribute} {e : Element} {inner : List Span} {s : Span}
    (hs : s ∈ withOwn registry chain e inner) :
    s ∈ inner ∨ s = ⟨e.extent, chain ++ e.contribution registry chain⟩ ∧
      e.contribution registry chain ≠ [] ∧ 0 < e.extent.length := by
  unfold withOwn at hs
  split at hs
  · exact .inl hs
  · rename_i h
    rcases List.mem_append.mp hs with hinner | hown
    · exact .inl hinner
    · have hlength : e.extent.length ≠ 0 := by simpa using fun heq => h (by simp [heq])
      exact .inr ⟨List.mem_singleton.mp hown, fun heq => h (by simp [heq]), by omega⟩

/-- The spans of nodes are not empty and lie under the nodes. -/
theorem within_listSpans (nodes : List Node) (chain : List Attribute) (offset : Nat) :
    ∀ s ∈ (Node.listSpans registry logUnknown chain offset nodes).value,
      offset ≤ s.extent.start ∧ s.extent.start < s.extent.stop ∧
        s.extent.stop ≤ offset + Node.listLength nodes := by
  induction nodes using Node.listInduction generalizing chain offset with
  | nil => intro s hs; exact absurd hs List.not_mem_nil
  | text content rest ih =>
    rw [value_listSpans_text]
    intro s hs
    obtain ⟨hstart, hlt, hstop⟩ := ih chain (offset + content.length) s hs
    rw [Node.listLength, Node.length]
    omega
  | element tag attributes children rest ihChildren ihRest =>
    rw [value_listSpans_element chain offset tag attributes children rest rfl]
    intro s hs
    rw [Node.listLength, Node.length]
    rcases List.mem_append.mp hs with hfirst | hothers
    · rcases mem_withOwn hfirst with hinner | ⟨rfl, -, hlength⟩
      · obtain ⟨hstart, hlt, hstop⟩ := ihChildren _ _ s hinner
        omega
      · simp only [Element.extent, Extent.length] at *
        omega
    · obtain ⟨hstart, hlt, hstop⟩ := ihRest _ _ s hothers
      simp only [Element.extent] at *
      omega

/-! ### Nesting -/

/-- A relation holds between the spans of nodes and later ones when it holds between spans that are
apart, and between the spans in an element and the element's own. -/
theorem pairwise_listSpans {R : Span → Span → Prop}
    (happart : ∀ a b : Span, a.extent.stop ≤ b.extent.start → R a b)
    (hown : ∀ chain (e : Element), ∀ s ∈ (Node.listSpans registry logUnknown
        (chain ++ e.contribution registry chain) e.offset e.children).value,
      e.contribution registry chain ≠ [] → R s ⟨e.extent, chain ++ e.contribution registry chain⟩)
    (nodes : List Node) (chain : List Attribute) (offset : Nat) :
    (Node.listSpans registry logUnknown chain offset nodes).value.Pairwise R := by
  induction nodes using Node.listInduction generalizing chain offset with
  | nil => exact List.Pairwise.nil
  | text content rest ih =>
    rw [value_listSpans_text]
    exact ih chain _
  | element tag attributes children rest ihChildren ihRest =>
    rw [value_listSpans_element chain offset tag attributes children rest rfl]
    refine List.pairwise_append.mpr ⟨?_, ihRest _ _, fun a ha b hb => happart a b ?_⟩
    · unfold withOwn
      split
      · exact ihChildren _ _
      · rename_i h
        refine List.pairwise_append.mpr ⟨ihChildren _ _, List.pairwise_singleton _ _,
          fun a ha b hb => ?_⟩
        rw [List.mem_singleton.mp hb]
        exact hown chain ⟨tag, attributes, offset, children⟩ a ha fun heq => h (by simp [heq])
    · obtain ⟨hstart, -, -⟩ := within_listSpans rest _ _ b hb
      rcases mem_withOwn ha with hinner | ⟨rfl, -⟩
      · obtain ⟨-, -, hstop⟩ := within_listSpans children _ _ a hinner
        exact Nat.le_trans hstop hstart
      · exact hstart

theorem encloses_of_mem_listSpans {e : Element} {chain : List Attribute} {s : Span}
    (hs : s ∈ (Node.listSpans registry logUnknown chain e.offset e.children).value) :
    e.extent.encloses s.extent = true := by
  obtain ⟨hstart, -, hstop⟩ := within_listSpans e.children chain e.offset s hs
  exact Extent.encloses_iff.mpr ⟨hstart, hstop⟩

/-- Of two spans that share characters, the later encloses the earlier. -/
theorem nests_listSpans (nodes : List Node) (chain : List Attribute) (offset : Nat) :
    (Node.listSpans registry logUnknown chain offset nodes).value.Pairwise Span.Nests :=
  pairwise_listSpans (fun _ _ => .inl)
    (fun _ _ _ hs _ => .inr (encloses_of_mem_listSpans hs)) nodes chain offset

/-! ### The innermost span -/

theorem innermost_withOwn {index : Nat} {chain : List Attribute} {e : Element} {inner : List Span}
    (hindex : e.extent.contains index = true) :
    Span.innermost index chain (withOwn registry chain e inner) =
      Span.innermost index (chain ++ e.contribution registry chain) inner := by
  have hlength : e.extent.length ≠ 0 := by
    rw [Extent.contains_iff] at hindex
    unfold Extent.length
    omega
  unfold withOwn
  split
  · rename_i h
    have hempty : e.contribution registry chain = [] := by simpa [hlength] using h
    rw [hempty, List.append_nil]
  · rw [Span.innermost_append]
    simp only [Span.innermost, List.find?_cons, hindex, Option.map_some, Option.getD_some]

theorem listElementsAt_eq_nil {index : Nat} (nodes : List Node) (offset : Nat)
    (h : index < offset) : Node.listElementsAt index offset nodes = [] := by
  induction nodes generalizing offset with
  | nil => rfl
  | cons node rest ih =>
    rw [Node.listElementsAt, ih (offset + node.length) (by omega), List.append_nil]
    cases node with
    | text content => rfl
    | element tag attributes children =>
      refine if_neg fun hindex => ?_
      obtain ⟨hstart, -⟩ := Extent.contains_iff.mp hindex
      exact absurd h (Nat.not_lt.mpr hstart)

/-- The first span over a character has the attributes of all elements around it. -/
theorem innermost_listSpans (index : Nat) (nodes : List Node) (chain : List Attribute)
    (offset : Nat) :
    Span.innermost index chain (Node.listSpans registry logUnknown chain offset nodes).value =
      chainOf registry chain (Node.listElementsAt index offset nodes) := by
  induction nodes using Node.listInduction generalizing chain offset with
  | nil => rfl
  | text content rest ih =>
    rw [value_listSpans_text, Node.listElementsAt, Node.elementsAt, Node.length, List.nil_append]
    exact ih chain _
  | element tag attributes children rest ihChildren ihRest =>
    rw [value_listSpans_element chain offset tag attributes children rest rfl,
      Span.innermost_append, ihRest, Node.listElementsAt, Node.elementsAt, Node.length]
    by_cases hindex : (⟨tag, attributes, offset, children⟩ : Element).extent.contains index = true
    · have hafter : Node.listElementsAt index (offset + Node.listLength children) rest = [] :=
        listElementsAt_eq_nil rest _ (Extent.contains_iff.mp hindex).2
      have hstop : (⟨tag, attributes, offset, children⟩ : Element).extent.stop =
          offset + Node.listLength children := rfl
      have hchain : chainOf registry chain [] = chain := rfl
      simp only [hstop, hafter, hchain, if_pos hindex, List.append_nil, innermost_withOwn hindex]
      exact ihChildren _ offset
    · simp only [if_neg hindex, List.nil_append]
      refine Span.innermost_of_not_contains fun s hs hcontains => hindex ?_
      rw [Extent.contains_iff] at *
      rcases mem_withOwn hs with hinner | ⟨rfl, -⟩
      · obtain ⟨hstart, -, hstop⟩ := within_listSpans children _ _ s hinner
        exact ⟨Nat.le_trans hstart hcontains.1, Nat.lt_of_lt_of_le hcontains.2 hstop⟩
      · exact hcontains

/-! ### The flat text -/

theorem rawText_text (content : String) (rest : List Node) :
    Node.rawText (.text content :: rest) = content ++ Node.rawText rest := by
  simp [Node.rawText, Node.listTexts, Node.texts]

theorem rawText_element (tag : String) (attributes : List (String × String))
    (children rest : List Node) :
    Node.rawText (.element tag attributes children :: rest) =
      Node.rawText children ++ Node.rawText rest := by
  simp [Node.rawText, Node.listTexts, Node.texts]

theorem length_rawText (nodes : List Node) :
    (Node.rawText nodes).length = Node.listLength nodes := by
  induction nodes using Node.listInduction with
  | nil => rfl
  | text content rest ih =>
    rw [rawText_text, String.length_append, ih]
    rfl
  | element tag attributes children rest ihChildren ihRest =>
    rw [rawText_element, String.length_append, ihChildren, ihRest]
    rfl

/-- The extent of an element cuts the element's text out of the text around it. -/
theorem cut_listElementsAt (index : Nat) (nodes : List Node) (before after : List Char) :
    ∀ e ∈ Node.listElementsAt index before.length nodes,
      ((before ++ (Node.rawText nodes).toList ++ after).drop e.extent.start).take
        e.extent.length = (Node.rawText e.children).toList := by
  induction nodes using Node.listInduction generalizing before after with
  | nil => intro e he; exact absurd he List.not_mem_nil
  | text content rest ih =>
    have hrest := ih (before ++ content.toList) after
    rw [List.length_append, String.length_toList] at hrest
    rw [Node.listElementsAt, Node.elementsAt, List.nil_append, Node.length, rawText_text,
      String.toList_append]
    simpa only [List.append_assoc] using hrest
  | element tag attributes children rest ihChildren ihRest =>
    have hchildren := ihChildren before ((Node.rawText rest).toList ++ after)
    have hrest := ihRest (before ++ (Node.rawText children).toList) after
    rw [List.length_append, String.length_toList, length_rawText] at hrest
    rw [rawText_element, String.toList_append]
    simp only [List.append_assoc] at hchildren hrest ⊢
    intro e he
    rw [Node.listElementsAt, Node.length] at he
    rcases List.mem_append.mp he with hfirst | hothers
    · rw [Node.elementsAt] at hfirst
      split at hfirst
      · rcases List.mem_cons.mp hfirst with rfl | hinner
        · simp only [Element.extent, Extent.length, Nat.add_sub_cancel_left, List.drop_left]
          rw [← length_rawText, ← String.length_toList, List.take_left]
        · exact hchildren e hinner
      · exact absurd hfirst List.not_mem_nil
    · exact hrest e hothers

/-- The spans of the flat text are those of the tree, in order and each over other characters. -/
theorem spans_flatten (nodes : List Node) :
    (flatten registry logUnknown nodes).value.spans = Span.dropRepeats
      ((Node.listSpans registry logUnknown [] 0 nodes).value.mergeSort Span.inOrder) := by
  refine AttributedText.spans_ofSpans ?_ fun s hs => ?_
  · exact (Span.pairwise_precedes _).imp Span.Precedes.inOrder
  · obtain ⟨-, hlt, hstop⟩ := within_listSpans nodes _ _ s (Span.mem_of_mem_dropRepeats hs)
    rw [length_rawText]
    exact ⟨hlt, by omega⟩

theorem mem_listSpans {nodes : List Node} {s : Span}
    (hs : s ∈ (flatten registry logUnknown nodes).value.spans) :
    s ∈ (Node.listSpans registry logUnknown [] 0 nodes).value := by
  rw [spans_flatten] at hs
  exact Span.mem_of_mem_dropRepeats hs

/-- The attributes at a character are those of the elements around it. -/
theorem attributesAt_eq_chainOf (nodes : List Node) (index : Nat) :
    (flatten registry logUnknown nodes).value.attributesAt index =
      chainOf registry [] (Node.listElementsAt index 0 nodes) := by
  rw [AttributedText.attributesAt_eq_innermost (spans_flatten nodes) (nests_listSpans nodes [] 0)]
  exact innermost_listSpans index nodes [] 0

/-- A character of the flat text is governed by what the elements around it contribute, the
outermost first, and the extent of each of them covers that element's text. -/
theorem attributesAt_flatten (registry : Registry) (logUnknown : Bool) (nodes : List Node)
    (index : Nat) :
    (flatten registry logUnknown nodes).value.attributesAt index =
        chainOf registry [] (Node.listElementsAt index 0 nodes) ∧
      ∀ e ∈ Node.listElementsAt index 0 nodes,
        ((flatten registry logUnknown nodes).value.raw.toList.drop e.extent.start).take
          e.extent.length = (Node.rawText e.children).toList := by
  refine ⟨attributesAt_eq_chainOf nodes index, ?_⟩
  have hcut := cut_listElementsAt index nodes [] []
  rwa [List.append_nil] at hcut

end Markup

end KineticText
