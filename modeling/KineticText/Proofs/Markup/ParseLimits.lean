import KineticText.Proofs.Markup.Nesting
import KineticText.Proofs.Markup.RoundTrip

/-! Which limits of parsing can be told apart.  A source with one character more than a length limit
shows the limit, and so does a source with one element more inside each other than a limit on
nesting, if the length limit leaves room for its tags and a character.  With less room the tags that
reach the limit leave no text, so nothing shows.  Main statement: two pairs of limits read every
source alike exactly when they satisfy `LimitsAgree`. -/

namespace KineticText.Markup

/-- The text of a source read with a length limit and a limit on nesting. -/
def textWithin (registry : Registry) (maxLength maxDepth : Nat) (source : String) :
    AttributedText :=
  (parse registry { maxLength, maxDepth } source).value

/-- The limits on length are equal, and so are those on nesting, unless `maxLength` characters are
too few for a text inside more elements than the lower one lets through. -/
def LimitsAgree (maxLength maxDepth maxLength' maxDepth' : Nat) : Prop :=
  maxLength = maxLength' ∧ (maxDepth = maxDepth' ∨ maxLength ≤ 3 * min maxDepth maxDepth' + 3)

variable {registry : Registry} {maxLength maxDepth maxDepth' : Nat}

/-! ### Limits that agree -/

theorem textWithin_eq (source : String) : textWithin registry maxLength maxDepth source =
    (flatten registry false (Node.ofTokens (tokenize (truncate maxLength source).value) maxDepth
      true).value).value := rfl

/-- Nodes without text say nothing. -/
theorem value_flatten_of_listLength_eq_zero {nodes : List Node} (h : Node.listLength nodes = 0) :
    (flatten registry false nodes).value = .plain "" := by
  have hraw : Node.rawText nodes = "" := by
    rw [← String.length_eq_zero_iff, length_rawText, h]
  have hspans : (Node.listSpans registry false [] 0 nodes).value = [] := by
    refine List.eq_nil_iff_forall_not_mem.mpr fun s hs => ?_
    obtain ⟨-, hlt, hstop⟩ := within_listSpans nodes [] 0 s hs
    omega
  have hflat : (flatten registry false nodes).value.spans = [] := by
    rw [spans_flatten, hspans, List.mergeSort_nil, Span.dropRepeats]
    simp
  have hplain : ∀ t : AttributedText, t.raw = "" → t.spans = [] → t = .plain "" := by
    rintro ⟨raw, spans⟩ rfl rfl
    rfl
  exact hplain _ hraw hflat

theorem textWithin_eq_of_depth (hroom : maxLength ≤ 3 * min maxDepth maxDepth' + 3)
    (source : String) :
    textWithin registry maxLength maxDepth source =
      textWithin registry maxLength maxDepth' source := by
  have hlength := length_truncate maxLength source
  rw [textWithin_eq, textWithin_eq]
  generalize (truncate maxLength source).value = source at hlength ⊢
  have hcost := totalCost_tokenize_le source
  rw [totalCost_eq] at hcost
  by_cases hopens : (tokenize source).countP Token.opens ≤ min maxDepth maxDepth'
  · rw [ofTokens_eq_ofTokensFreely (Nat.le_trans hopens (Nat.min_le_left _ _)),
      ofTokens_eq_ofTokensFreely (Nat.le_trans hopens (Nat.min_le_right _ _))]
  · -- So many tags leave no character for a text.
    have hempty : ∀ maxDepth,
        Node.listLength (Node.ofTokens (tokenize source) maxDepth true).value = 0 := by
      intro maxDepth
      have hle : Node.listLength (Node.ofTokens (tokenize source) maxDepth true).value ≤ _ :=
        listLength_ofTokens_le (tokenize source)
      omega
    rw [value_flatten_of_listLength_eq_zero (hempty maxDepth),
      value_flatten_of_listLength_eq_zero (hempty maxDepth')]

/-! ### Limits on length that differ -/

theorem rawText_finish_addText (s : String) :
    Node.rawText (({} : OpenTree).addText s).finish = s := by
  by_cases hs : s = ""
  · rw [hs]
    rfl
  · rw [OpenTree.addText_of_not_text rfl hs]
    exact (rawText_text s []).trans (String.append_empty)

theorem spelled_self {cs : List Char} (h : ∀ c ∈ cs, c ≠ '<' ∧ c ≠ '\\' ∧ c ≠ '&') :
    Spelled cs cs := by
  induction cs with
  | nil => exact .nil
  | cons c cs ih =>
    obtain ⟨⟨hless, hback, hand⟩, hrest⟩ := List.forall_mem_cons.mp h
    exact .cons (.itself hless hback hand) (ih hrest)

/-- Plain characters are read as they are, up to the limit. -/
theorem raw_textWithin {cs : List Char} (h : ∀ c ∈ cs, c ≠ '<' ∧ c ≠ '\\' ∧ c ≠ '&') :
    (textWithin registry maxLength maxDepth (String.ofList cs)).raw =
      String.ofList (cs.take maxLength) := by
  have hcut :
      (truncate maxLength (String.ofList cs)).value = String.ofList (cs.take maxLength) := by
    simp only [truncate, String.length_ofList]
    split
    · simp
    · rw [List.take_of_length_le (by omega)]
      rfl
  have hread : Reads maxDepth true (String.ofList (cs.take maxLength)).toList {}
      (({} : OpenTree).addText (String.ofList (cs.take maxLength))) := by
    rw [String.toList_ofList]
    exact (spelled_self fun c hc => h c (List.mem_of_mem_take hc)).reads maxDepth true {}
  rw [textWithin_eq, hcut, hread.ofTokens_tokenize]
  exact rawText_finish_addText _

/-! ### Limits on nesting that differ -/

/-- The registry in which the tag `b` adds one attribute, and no other tag is known. -/
def oneTag : Registry := { resolvers := [("b", fun _ _ => pure [{ id := "b" }])] }

theorem givesOne_oneTag : oneTag.GivesOne :=
  List.forall_mem_singleton.mpr fun _ _ => Nat.le_refl 1

theorem length_contribution {e : Element} (h : e.tag = "b") (chain : List Attribute) :
    (e.contribution oneTag chain).length = 1 := by
  have hfold : Text.fold "b" = "b" := by
    rw [Text.fold, ← String.toList_inj, String.toList_map]
    decide
  simp [Element.contribution, Registry.resolve, Registry.canonical?, oneTag, h, hfold]

theorem length_chainOf (chain : List Attribute) {elements : List Element}
    (h : ∀ e ∈ elements, e.tag = "b") :
    (chainOf oneTag chain elements).length = chain.length + elements.length := by
  induction elements generalizing chain with
  | nil => rfl
  | cons e elements ih =>
    obtain ⟨he, hrest⟩ := List.forall_mem_cons.mp h
    have hlength := ih (chain ++ e.contribution oneTag chain) hrest
    rw [List.length_append, length_contribution he] at hlength
    rw [List.length_cons]
    exact hlength.trans (by omega)

/-- `n` elements inside each other around a character. -/
def nested : Nat → List Node
  | 0 => [.text "x"]
  | n + 1 => [.element "b" [] (nested n)]

theorem listLength_nested (n : Nat) : Node.listLength (nested n) = 1 := by
  induction n with
  | zero => rfl
  | succ n ih => rw [nested, Node.listLength, Node.length, ih, Node.listLength]

theorem listElementsAt_nested (n : Nat) :
    (Node.listElementsAt 0 0 (nested n)).length = n ∧
      ∀ e ∈ Node.listElementsAt 0 0 (nested n), e.tag = "b" := by
  induction n with
  | zero => exact ⟨rfl, fun e he => absurd he List.not_mem_nil⟩
  | succ n ih =>
    obtain ⟨hlength, htags⟩ := ih
    have hcontains : (⟨"b", [], 0, nested n⟩ : Element).extent.contains 0 = true := by
      rw [Extent.contains_iff, Element.extent, listLength_nested]
      exact ⟨Nat.le_refl 0, Nat.zero_lt_one⟩
    rw [nested, Node.listElementsAt, Node.elementsAt, if_pos hcontains, Node.listElementsAt,
      List.append_nil]
    exact ⟨congrArg (· + 1) hlength, List.forall_mem_cons.mpr ⟨rfl, htags⟩⟩

/-- The tags that open the elements of `nested n`. -/
def openings : Nat → List Char
  | 0 => []
  | n + 1 => bracket ['b'] ++ openings n

/-- The source of `nested n` without closing tags. -/
def nestedSource (n : Nat) : String := String.ofList (openings n ++ ['x'])

theorem length_nestedSource (n : Nat) : (nestedSource n).length = 3 * n + 1 := by
  have hopenings : (openings n).length = 3 * n := by
    induction n with
    | zero => rfl
    | succ n ih =>
      have hbracket : (bracket ['b']).length = 3 := rfl
      rw [openings, List.length_append, ih, hbracket]
      omega
  rw [nestedSource, String.length_ofList, List.length_append, hopenings]
  rfl

/-- The element of an opening tag of `nested`, while it is open. -/
def openedTag : OpenElement := ⟨"b", [], []⟩

theorem reads_openings (n k : Nat) (h : k + n ≤ maxDepth) :
    Reads maxDepth true (openings n) ⟨List.replicate k openedTag, [], {}⟩
      ⟨List.replicate (k + n) openedTag, [], {}⟩ := by
  have htag : IsWritableTag "b" [] := ⟨⟨rfl, List.all_eq_true.mp rfl⟩, by simp, by simp⟩
  induction n generalizing k with
  | zero => exact Reads.refl _
  | succ n ih =>
    have hdepth : (List.replicate k openedTag).length < maxDepth := by
      rw [List.length_replicate]
      omega
    have hfirst : Reads maxDepth true (bracket ['b']) ⟨List.replicate k openedTag, [], {}⟩
        ⟨List.replicate (k + 1) openedTag, [], {}⟩ := htag.reads_opening .nil hdepth []
    have hrest := ih (k + 1) (by omega)
    rw [Nat.add_right_comm] at hrest
    exact hfirst.trans hrest

theorem closeElements_nested (n k : Nat) :
    (OpenTree.closeElements ⟨List.replicate n openedTag, nested k, {}⟩ n).nodes =
      nested (n + k) := by
  induction n generalizing k with
  | zero => rw [Nat.zero_add]; rfl
  | succ n ih =>
    have hreverse : (nested k).reverse = nested k := by cases k <;> rfl
    have hclose : OpenTree.closeInnermost ⟨List.replicate (n + 1) openedTag, nested k, {}⟩ =
        ⟨List.replicate n openedTag, nested (k + 1), {}⟩ := by
      simp only [OpenTree.closeInnermost, List.replicate_succ, hreverse, openedTag, nested]
    rw [OpenTree.closeElements, hclose, ih, Nat.add_right_comm, Nat.add_assoc]

theorem ofTokens_nestedSource {n : Nat} (h : n ≤ maxDepth) :
    Node.ofTokens (tokenize (nestedSource n)) maxDepth true = pure (nested n) := by
  have hopen : Reads maxDepth true (openings n) {} ⟨List.replicate n openedTag, [], {}⟩ := by
    have hreads := reads_openings n 0 (by omega : 0 + n ≤ maxDepth)
    rwa [Nat.zero_add] at hreads
  have hchar : Reads maxDepth true ['x'] ⟨List.replicate n openedTag, [], {}⟩
      ⟨List.replicate n openedTag, nested 0, {}⟩ := by
    have hspelled : Spelled ['x'] ['x'] :=
      .cons (.itself (by decide) (by decide) (by decide)) .nil
    exact hspelled.reads maxDepth true _
  have hread : Reads maxDepth true (nestedSource n).toList {}
      ⟨List.replicate n openedTag, nested 0, {}⟩ := by
    rw [nestedSource, String.toList_ofList]
    exact hopen.trans hchar
  have hreverse : (nested n).reverse = nested n := by cases n <;> rfl
  rw [hread.ofTokens_tokenize, OpenTree.finish, OpenTree.depth, List.length_replicate,
    closeElements_nested, Nat.add_zero, hreverse]

theorem length_attributesAt_nested {n : Nat} (h : n ≤ maxDepth) (hroom : 3 * n + 1 ≤ maxLength) :
    ((textWithin oneTag maxLength maxDepth (nestedSource n)).attributesAt 0).length = n := by
  have hcut : (truncate maxLength (nestedSource n)).value = nestedSource n := by
    rw [← length_nestedSource] at hroom
    simp only [truncate, if_neg (Nat.not_lt.mpr hroom)]
    rfl
  obtain ⟨hlength, htags⟩ := listElementsAt_nested n
  rw [textWithin_eq, hcut, ofTokens_nestedSource h, attributesAt_eq_chainOf]
  exact (length_chainOf [] htags).trans (by rw [List.length_nil, Nat.zero_add]; exact hlength)

theorem length_attributesAt_le (source : String) (index : Nat) :
    ((textWithin oneTag maxLength maxDepth source).attributesAt index).length ≤ maxDepth := by
  rcases (textWithin oneTag maxLength maxDepth source).attributesAt_eq_nil_or index with
    hnone | ⟨s, hs, hspan⟩
  · rw [hnone]
    exact Nat.zero_le _
  · rw [hspan]
    rw [textWithin_eq] at hs
    exact Nat.le_trans (length_attributes_flatten_le givesOne_oneTag _ s hs)
      (listDepth_ofTokens_le _)

theorem textWithin_ne {maxDepth maxDepth' : Nat} (h : maxDepth < maxDepth')
    (hroom : 3 * maxDepth + 3 < maxLength) :
    textWithin oneTag maxLength maxDepth (nestedSource (maxDepth + 1)) ≠
      textWithin oneTag maxLength maxDepth' (nestedSource (maxDepth + 1)) := by
  intro heq
  have hle : ((textWithin oneTag maxLength maxDepth
      (nestedSource (maxDepth + 1))).attributesAt 0).length ≤ maxDepth :=
    length_attributesAt_le _ 0
  rw [heq, length_attributesAt_nested h (by omega)] at hle
  exact Nat.not_succ_le_self maxDepth hle

/-- Two pairs of limits read every source alike exactly when they agree. -/
theorem textWithin_eq_iff {maxLength' : Nat} :
    (∀ registry source, textWithin registry maxLength maxDepth source =
      textWithin registry maxLength' maxDepth' source) ↔
      LimitsAgree maxLength maxDepth maxLength' maxDepth' := by
  constructor
  · intro h
    have hlength : maxLength = maxLength' := by
      have hplain : ∀ c ∈ List.replicate (max maxLength maxLength') 'a',
          c ≠ '<' ∧ c ≠ '\\' ∧ c ≠ '&' := by
        intro c hc
        rw [List.eq_of_mem_replicate hc]
        decide
      have hraw := congrArg (·.raw.length)
        (h {} (String.ofList (List.replicate (max maxLength maxLength') 'a')))
      simp only [raw_textWithin hplain, String.length_ofList, List.length_take,
        List.length_replicate] at hraw
      omega
    subst hlength
    refine ⟨rfl, ?_⟩
    by_cases hroom : maxLength ≤ 3 * min maxDepth maxDepth' + 3
    · exact .inr hroom
    · rcases Nat.lt_trichotomy maxDepth maxDepth' with hlt | heq | hgt
      · exact absurd (h oneTag _) (textWithin_ne hlt (by omega))
      · exact .inl heq
      · exact absurd (h oneTag _).symm (textWithin_ne hgt (by omega))
  · rintro ⟨rfl, rfl | hroom⟩ registry source
    · rfl
    · exact textWithin_eq_of_depth hroom source

end KineticText.Markup
