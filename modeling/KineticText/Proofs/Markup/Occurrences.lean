import Mathlib.Data.List.Infix
import Mathlib.Data.List.Nodup
import KineticText.Proofs.Markup.Nesting

/-! Where attributes occur in a tree.  An attribute at a character is one of those that an element
around the character adds.  The elements down to one of them are the same around all characters
under it, and no element is in itself.  Main statement: an attribute of an element occurs once
around a character under the element, after the same attributes everywhere. -/

namespace KineticText.Markup

/-- One of the attributes that an element adds, by its place among them. -/
structure Occurrence where
  element : Element
  place : Nat

/-- The attributes that an element adds to a chain, each with where it occurs. -/
def Element.labels (registry : Registry) (chain : List Attribute) (e : Element) :
    List (Occurrence × Attribute) :=
  (e.contribution registry chain).zipIdx.map fun a => (⟨e, a.2⟩, a.1)

/-- The attributes of elements that lie in each other, after those of `chain`, each with where it
occurs. -/
def labelsOf (registry : Registry) : List Attribute → List Element → List (Occurrence × Attribute)
  | _, [] => []
  | chain, e :: rest =>
    e.labels registry chain ++ labelsOf registry (chain ++ e.contribution registry chain) rest

variable {registry : Registry}

/-! ### The elements around a character -/

theorem listElementsAt_element {index offset : Nat} {tag : String}
    {attributes : List (String × String)} {children rest : List Node} {e : Element}
    (he : e = ⟨tag, attributes, offset, children⟩) :
    Node.listElementsAt index offset (.element tag attributes children :: rest) =
      if e.extent.contains index then e :: Node.listElementsAt index offset children
      else Node.listElementsAt index (offset + Node.listLength children) rest := by
  subst he
  rw [Node.listElementsAt, Node.elementsAt, Node.length]
  split
  · rename_i hcontains
    have hafter : Node.listElementsAt index (offset + Node.listLength children) rest = [] :=
      listElementsAt_eq_nil rest _ (Extent.contains_iff.mp hcontains).2
    rw [hafter, List.append_nil]
  · rfl

theorem within_listElementsAt {index : Nat} (nodes : List Node) (offset : Nat) :
    ∀ e ∈ Node.listElementsAt index offset nodes,
      e.extent.contains index = true ∧ offset ≤ e.extent.start ∧
        e.extent.stop ≤ offset + Node.listLength nodes ∧
        Node.listDepth e.children < Node.listDepth nodes := by
  induction nodes using Node.listInduction generalizing offset with
  | nil => intro e he; exact absurd he List.not_mem_nil
  | text content rest ih =>
    intro e he
    obtain ⟨hcontains, hstart, hstop, hdepth⟩ := ih (offset + content.length) e he
    simp only [Node.listLength, Node.length, Node.listDepth, Node.depth]
    exact ⟨hcontains, by omega, by omega, by omega⟩
  | element tag attributes children rest ihChildren ihRest =>
    intro e he
    simp only [Node.listLength, Node.length, Node.listDepth, Node.depth]
    rw [listElementsAt_element rfl] at he
    split at he
    · rename_i hcontains
      rcases List.mem_cons.mp he with rfl | hinner
      · exact ⟨hcontains, Nat.le_refl _, by simp only [Element.extent]; omega, by simp only; omega⟩
      · obtain ⟨hcontains, hstart, hstop, hdepth⟩ := ihChildren offset e hinner
        exact ⟨hcontains, hstart, by omega, by omega⟩
    · obtain ⟨hcontains, hstart, hstop, hdepth⟩ := ihRest _ e he
      exact ⟨hcontains, by omega, by omega, by omega⟩

/-- Elements that lie in each other have less and less depth under them. -/
theorem nodup_listElementsAt (index : Nat) (nodes : List Node) (offset : Nat) :
    (Node.listElementsAt index offset nodes).Nodup := by
  induction nodes using Node.listInduction generalizing offset with
  | nil => exact List.nodup_nil
  | text content rest ih => exact ih _
  | element tag attributes children rest ihChildren ihRest =>
    rw [listElementsAt_element rfl]
    split
    · refine List.nodup_cons.mpr ⟨fun hself => ?_, ihChildren _⟩
      exact Nat.lt_irrefl _ (within_listElementsAt children offset _ hself).2.2.2
    · exact ihRest _

/-- The elements from the outermost down to one are around all characters under that one. -/
theorem prefix_listElementsAt {index index' : Nat} (nodes : List Node) (offset : Nat)
    {before : List Element} {e : Element}
    (h : before ++ [e] <+: Node.listElementsAt index offset nodes)
    (hcontains : e.extent.contains index' = true) :
    before ++ [e] <+: Node.listElementsAt index' offset nodes := by
  induction nodes using Node.listInduction generalizing before offset with
  | nil => exact absurd (List.prefix_nil.mp h) (by simp)
  | text content rest ih => exact ih _ h
  | element tag attributes children rest ihChildren ihRest =>
    have hin := Extent.contains_iff.mp hcontains
    generalize houter : (⟨tag, attributes, offset, children⟩ : Element) = outer
    have hextent : outer.extent = ⟨offset, offset + Node.listLength children⟩ := by
      rw [← houter]
      rfl
    rw [listElementsAt_element houter.symm] at h ⊢
    split at h
    · cases before with
      | nil =>
        obtain ⟨rfl, -⟩ := List.cons_prefix_cons.mp h
        rw [if_pos hcontains]
        exact List.cons_prefix_cons.mpr ⟨rfl, List.nil_prefix⟩
      | cons first before =>
        obtain ⟨rfl, hinner⟩ := List.cons_prefix_cons.mp h
        -- The other character is under the inner element, so it is under this one.
        obtain ⟨-, hstart, hstop, -⟩ := within_listElementsAt children offset e
          (hinner.subset (by simp))
        have houter : first.extent.contains index' = true := by
          rw [Extent.contains_iff, hextent]
          exact ⟨Nat.le_trans hstart hin.1, Nat.lt_of_lt_of_le hin.2 hstop⟩
        rw [if_pos houter]
        exact List.cons_prefix_cons.mpr ⟨rfl, ihChildren _ hinner⟩
    · obtain ⟨-, hstart, -, -⟩ := within_listElementsAt rest _ e (h.subset (by simp))
      have houter : ¬ outer.extent.contains index' = true := by
        rw [Extent.contains_iff, hextent]
        simp only
        omega
      rw [if_neg houter]
      exact ihRest _ h

/-! ### The attributes that they add -/

theorem map_snd_labels (chain : List Attribute) (e : Element) :
    (e.labels registry chain).map Prod.snd = e.contribution registry chain := by
  rw [Element.labels, List.map_map]
  exact List.zipIdx_map_fst 0 _

theorem of_mem_labels {chain : List Attribute} {e : Element} {label : Occurrence × Attribute}
    (h : label ∈ e.labels registry chain) : label.1.element = e ∧ label.2.extent = e.extent := by
  obtain ⟨a, ha, rfl⟩ := List.mem_map.mp h
  exact ⟨rfl, extent_of_mem_contribution (List.fst_mem_of_mem_zipIdx ha)⟩

theorem nodup_labels (chain : List Attribute) (e : Element) :
    ((e.labels registry chain).map Prod.fst).Nodup := by
  have hplaces : (e.labels registry chain).map Prod.fst =
      ((e.contribution registry chain).zipIdx.map Prod.snd).map (Occurrence.mk e) := by
    rw [Element.labels, List.map_map, List.map_map]
    rfl
  rw [hplaces, List.zipIdx_map_snd]
  exact List.Nodup.map (fun place place' heq => (Occurrence.mk.inj heq).2) List.nodup_range'

/-- With where they occur left out, these are the attributes of the elements. -/
theorem map_snd_labelsOf (chain : List Attribute) (elements : List Element) :
    chain ++ (labelsOf registry chain elements).map Prod.snd =
      chainOf registry chain elements := by
  induction elements generalizing chain with
  | nil => exact List.append_nil chain
  | cons e rest ih =>
    rw [labelsOf, List.map_append, map_snd_labels, ← List.append_assoc, ih]
    rfl

theorem labelsOf_prefix (chain : List Attribute) {elements elements' : List Element}
    (h : elements <+: elements') :
    labelsOf registry chain elements <+: labelsOf registry chain elements' := by
  induction elements generalizing chain elements' with
  | nil => exact List.nil_prefix
  | cons e rest ih =>
    cases elements' with
    | nil => exact absurd (List.prefix_nil.mp h) (List.cons_ne_nil _ _)
    | cons e' rest' =>
      obtain ⟨rfl, hrest⟩ := List.cons_prefix_cons.mp h
      exact (List.prefix_append_right_inj _).mpr (ih _ hrest)

theorem labelsOf_append (chain : List Attribute) (elements elements' : List Element) :
    labelsOf registry chain (elements ++ elements') =
      labelsOf registry chain elements ++
        labelsOf registry (chainOf registry chain elements) elements' := by
  induction elements generalizing chain with
  | nil => rfl
  | cons e rest ih =>
    rw [List.cons_append, labelsOf, labelsOf, ih, List.append_assoc]
    rfl

/-- An attribute comes from an element, and from the elements down to that one. -/
theorem exists_element_of_mem_labelsOf {chain : List Attribute} {elements : List Element}
    {label : Occurrence × Attribute} (h : label ∈ labelsOf registry chain elements) :
    label.2.extent = label.1.element.extent ∧ ∃ before, before ++ [label.1.element] <+: elements ∧
      label ∈ labelsOf registry chain (before ++ [label.1.element]) := by
  induction elements generalizing chain with
  | nil => exact absurd h List.not_mem_nil
  | cons e rest ih =>
    rcases List.mem_append.mp h with hown | hrest
    · obtain ⟨helement, hextent⟩ := of_mem_labels hown
      rw [helement]
      exact ⟨hextent, [], List.cons_prefix_cons.mpr ⟨rfl, List.nil_prefix⟩,
        List.mem_append_left _ hown⟩
    · obtain ⟨hextent, before, hbegins, hmem⟩ := ih hrest
      exact ⟨hextent, e :: before, List.cons_prefix_cons.mpr ⟨rfl, hbegins⟩,
        List.mem_append_right _ hmem⟩

theorem nodup_labelsOf (chain : List Attribute) {elements : List Element} (h : elements.Nodup) :
    ((labelsOf registry chain elements).map Prod.fst).Nodup := by
  induction elements generalizing chain with
  | nil => exact List.nodup_nil
  | cons e rest ih =>
    obtain ⟨hnew, hrest⟩ := List.nodup_cons.mp h
    rw [labelsOf, List.map_append]
    refine List.Nodup.append (nodup_labels chain e) (ih _ hrest) fun o hown hother => hnew ?_
    obtain ⟨label, hlabel, rfl⟩ := List.mem_map.mp hown
    obtain ⟨label', hlabel', heq⟩ := List.mem_map.mp hother
    obtain ⟨-, before, hbegins, -⟩ := exists_element_of_mem_labelsOf hlabel'
    rw [heq, (of_mem_labels hlabel).1] at hbegins
    exact hbegins.subset (by simp)

/-! ### Attributes at characters -/

/-- The attributes at a character, each with where it occurs. -/
def labelsAt (registry : Registry) (nodes : List Node) (index : Nat) :
    List (Occurrence × Attribute) :=
  labelsOf registry [] (Node.listElementsAt index 0 nodes)

theorem map_snd_labelsAt (logUnknown : Bool) (nodes : List Node) (index : Nat) :
    (labelsAt registry nodes index).map Prod.snd =
      (flatten registry logUnknown nodes).value.attributesAt index := by
  rw [attributesAt_eq_chainOf, ← map_snd_labelsOf, List.nil_append]
  rfl

theorem nodup_labelsAt (nodes : List Node) (index : Nat) :
    ((labelsAt registry nodes index).map Prod.fst).Nodup :=
  nodup_labelsOf [] (nodup_listElementsAt index nodes 0)

/-- An attribute has the extent of its element, which is over the character. -/
theorem extent_of_mem_labelsAt {nodes : List Node} {index : Nat} {label : Occurrence × Attribute}
    (h : label ∈ labelsAt registry nodes index) :
    label.2.extent = label.1.element.extent ∧ label.2.extent.contains index = true := by
  obtain ⟨hextent, before, hbegins, -⟩ := exists_element_of_mem_labelsOf h
  rw [hextent]
  exact ⟨rfl, (within_listElementsAt nodes 0 _ (hbegins.subset (by simp))).1⟩

/-- Up to one of them the attributes at two characters that it is over are the same. -/
theorem exists_common_labels {nodes : List Node} {index index' : Nat}
    {label : Occurrence × Attribute} (h : label ∈ labelsAt registry nodes index)
    (hcontains : label.2.extent.contains index' = true) :
    ∃ common, label ∈ common ∧ common <+: labelsAt registry nodes index ∧
      common <+: labelsAt registry nodes index' := by
  obtain ⟨hextent, before, hbegins, hmem⟩ := exists_element_of_mem_labelsOf h
  rw [hextent] at hcontains
  exact ⟨_, hmem, labelsOf_prefix [] hbegins,
    labelsOf_prefix [] (prefix_listElementsAt nodes 0 hbegins hcontains)⟩

/-- The attributes of an element come after the same attributes at all characters under it. -/
theorem exists_labels_before {nodes : List Node} {index : Nat} {e : Element}
    (he : e ∈ Node.listElementsAt index 0 nodes) :
    ∃ before, ∀ index', e.extent.contains index' = true →
      before ++ e.labels registry (before.map Prod.snd) <+: labelsAt registry nodes index' := by
  obtain ⟨around, inside, hsplit⟩ := List.append_of_mem he
  have hbegins : around ++ [e] <+: Node.listElementsAt index 0 nodes := by
    rw [hsplit, List.append_cons around e inside]
    exact List.prefix_append _ _
  have hchain : (labelsOf registry [] around).map Prod.snd = chainOf registry [] around := by
    rw [← map_snd_labelsOf, List.nil_append]
  refine ⟨labelsOf registry [] around, fun index' hindex' => ?_⟩
  have hlabels : labelsOf registry [] (around ++ [e]) <+: labelsAt registry nodes index' :=
    labelsOf_prefix [] (prefix_listElementsAt nodes 0 hbegins hindex')
  rw [labelsOf_append, ← hchain, labelsOf, labelsOf, List.append_nil] at hlabels
  exact hlabels

/-! ### Parsed texts -/

/-- The tree of a source. -/
def treeOf (options : ParseOptions) (source : String) : List Node :=
  (Node.ofTokens (tokenize (truncate options.maxLength source).value) options.maxDepth
    options.logDepthSkips).value

theorem value_parse_treeOf (registry : Registry) (options : ParseOptions) (source : String) :
    (parse registry options source).value =
      (flatten registry options.logUnknownTags (treeOf options source)).value := rfl

end KineticText.Markup
