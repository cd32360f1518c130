import KineticText.Proofs.AttributedText.Runs
import KineticText.Proofs.Markup.ParseLimits

/-! How many runs a source can have.  A run begins and ends where a text of the tree does, so there
are no more runs than texts.  Two texts next to each other are kept apart by a tag of at least three
characters, so a text after another one costs four characters at least.  The account of that is kept
by a credit: three characters are paid ahead for the next text while the last node is none.  Main
statement: a text with `n` runs comes from a source of at least `4 * n - 3` characters. -/

namespace KineticText.Markup

variable {maxDepth : Nat} {logSkips : Bool}

/-- Every tag costs three characters at least. -/
def TagsCost (tokens : List Token) : Prop := ∀ tag, .tag tag ∈ tokens → 3 ≤ (Token.tag tag).cost

/-! ### Texts of a tree -/

theorem Node.listTexts_append (xs ys : List Node) :
    listTexts (xs ++ ys) = listTexts xs ++ listTexts ys := by
  induction xs with
  | nil => rfl
  | cons x xs ih => rw [List.cons_append, listTexts, listTexts, ih, List.append_assoc]

theorem Node.length_listTexts_reverse (xs : List Node) :
    (listTexts xs.reverse).length = (listTexts xs).length := by
  induction xs with
  | nil => rfl
  | cons x xs ih =>
    rw [List.reverse_cons, listTexts_append, List.length_append, ih]
    simp only [listTexts, List.length_append, List.length_nil]
    omega

namespace OpenTree

/-- The number of texts in a tree. -/
def textCount (t : OpenTree) : Nat :=
  (Node.listTexts t.nodes).length + (t.enclosing.map fun e => (Node.listTexts e.before).length).sum

/-- What is paid ahead for the next text. -/
def credit (t : OpenTree) : Nat :=
  match t.nodes with
  | .text _ :: _ => 0
  | _ => 3

theorem credit_le (t : OpenTree) : t.credit ≤ 3 := by
  unfold credit
  split <;> omega

/-- A text after a tag is a text more, and any other text grows the one before it. -/
theorem textCount_addText_le (t : OpenTree) (s : String) :
    4 * (t.addText s).textCount + (t.addText s).credit ≤ 4 * t.textCount + t.credit + s.length := by
  unfold addText
  by_cases hs : s.isEmpty = true
  · rw [if_pos hs]
    omega
  · rw [if_neg hs]
    have hpos : s.length ≠ 0 := fun h =>
      hs (String.isEmpty_iff.mpr (String.length_eq_zero_iff.mp h))
    obtain ⟨enclosing, nodes, skipped⟩ := t
    -- A new text costs the credit and its first character; one that grows costs nothing.
    match nodes with
    | [] | .element .. :: _ =>
      simp only [textCount, credit, Node.listTexts, Node.texts, List.length_append,
        List.length_cons, List.length_nil]
      omega
    | .text before :: _ =>
      simp only [textCount, credit, Node.listTexts, Node.texts, List.length_append,
        List.length_cons, List.length_nil]
      omega

theorem textCount_closeElements (t : OpenTree) (n : Nat) :
    (t.closeElements n).textCount = t.textCount := by
  refine closeElements_keeps (P := fun t' => t'.textCount = t.textCount) ?_ rfl n
  rintro ⟨enclosing, nodes, skipped⟩ h
  cases enclosing with
  | nil => exact h
  | cons e enclosing =>
    simp only [closeInnermost, textCount, Node.listTexts, Node.texts, List.length_append,
      Node.length_listTexts_reverse, List.map_cons, List.sum_cons] at *
    omega

/-- Every tag pays for the credit that it leaves. -/
theorem Step.textCount_le {t t' : OpenTree} {token : Token} (h : Step maxDepth t token t')
    (htag : ∀ tag, token = .tag tag → 3 ≤ token.cost) :
    4 * t'.textCount + t'.credit ≤ 4 * t.textCount + t.credit + token.cost := by
  -- A tag that does not stay as text adds none, and its three characters pay for any credit.
  have hcredit := t'.credit_le
  cases h with
  | text s => exact t.textCount_addText_le s
  | literal hkind =>
    have hcost := htag _ rfl
    rw [Token.cost, Token.literalLength, if_pos hkind] at *
    exact Nat.le_trans (t.textCount_addText_le _) (by omega)
  | @opening tag =>
    have hcost := htag tag rfl
    have hcount : (t.openElement tag).textCount = t.textCount := by
      simp [openElement, textCount, Node.listTexts]
    omega
  | @selfClosing tag =>
    have hcost := htag tag rfl
    have hcount : (t.push (.element tag.name tag.attributes [])).textCount = t.textCount := by
      simp [push, textCount, Node.listTexts, Node.texts]
    omega
  | close tag n =>
    have hcost := htag _ rfl
    have hcount := t.textCount_closeElements n
    omega
  | skip tag skipped =>
    show 4 * t.textCount + t.credit ≤ _
    omega

theorem textCount_fold_le {tokens : List Token} (htags : TagsCost tokens) (t : OpenTree) :
    4 * (Logged.fold (OpenTree.add maxDepth logSkips) t tokens).value.textCount ≤
      4 * t.textCount + t.credit + totalCost tokens := by
  refine Nat.le_trans (Nat.le_add_right _ _)
    (fold_measure_le (m := fun t => 4 * t.textCount + t.credit) ?_ t)
  rintro t token htoken t' hstep
  exact hstep.textCount_le fun tag htag => by
    subst htag
    exact htags tag htoken

end OpenTree

/-- Texts are paid for by the tokens between them. -/
theorem length_listTexts_ofTokens_le {tokens : List Token} (htags : TagsCost tokens) :
    4 * (Node.listTexts (Node.ofTokens tokens maxDepth logSkips).value).length ≤
      totalCost tokens + 3 := by
  have h : 4 * (Logged.fold (OpenTree.add maxDepth logSkips) {} tokens).value.textCount ≤ _ :=
    OpenTree.textCount_fold_le htags {}
  rw [Node.ofTokens, Logged.value_map, OpenTree.finish, Node.length_listTexts_reverse]
  generalize (Logged.fold (OpenTree.add maxDepth logSkips) {} tokens).value = t at h ⊢
  have hclosed := t.textCount_closeElements t.depth
  have hcount : OpenTree.textCount {} = 0 := rfl
  have hcredit : OpenTree.credit {} = 3 := rfl
  rw [OpenTree.textCount] at hclosed
  omega

/-! ### Tags of a source -/

theorem three_le_cost_of_piece {c : Char} {closing : Option Nat} {rest : List Marked} {tag : Tag}
    (h : (piece c closing rest).1 = .tag tag) : 3 ≤ (Token.tag tag).cost := by
  unfold piece at h
  split at h
  case h_6 n =>
    unfold bracketed at h
    simp only at h
    split at h
    · rename_i tag' hparse
      cases h
      obtain ⟨hsource, hbody⟩ := parse?_eq_some hparse
      have hpos := List.length_pos_iff.mpr hbody
      by_cases hkind : tag.kind = .closing
      · rw [Token.cost, Token.literalLength, if_pos hkind, hsource, String.length_ofList,
          List.length_cons, List.length_append, List.length_singleton]
        omega
      · have hopens : (Token.tag tag).opens = true := bne_iff_ne.mpr hkind
        rw [Token.cost, if_pos hopens]
        exact Nat.le_add_left 3 _
    · cases h
  all_goals cases h

namespace Reading

theorem tagsCost_flush {r : Reading} (h : TagsCost r.tokens.toList) :
    TagsCost r.flush.toList := by
  unfold flush
  split
  · exact h
  · intro tag htag
    rw [Array.toList_push] at htag
    rcases List.mem_append.mp htag with hbefore | htext
    · exact h tag hbefore
    · cases List.mem_singleton.mp htext

theorem tagsCost_addAll {r : Reading} {source : List Marked} (h : TagsCost r.tokens.toList) :
    TagsCost (r.addAll source).tokens.toList := by
  fun_induction Reading.addAll r source with
  | case1 => exact h
  | case2 r c closing rest ih =>
    refine ih ?_
    cases hpiece : (piece c closing rest).1 with
    | char | literal => exact h
    | tag tag' =>
      intro tag htag
      change _ ∈ (r.flush.push (.tag tag')).toList at htag
      rw [Array.toList_push] at htag
      rcases List.mem_append.mp htag with hbefore | hnew
      · exact tagsCost_flush h tag hbefore
      · cases List.mem_singleton.mp hnew
        exact three_le_cost_of_piece hpiece

end Reading

theorem tagsCost_tokenize (source : String) : TagsCost (tokenize source) :=
  Reading.tagsCost_flush (Reading.tagsCost_addAll fun _ h => absurd h List.not_mem_nil)

/-! ### Runs -/

/-- The places where texts one after the other begin and end. -/
def cuts (offset : Nat) : List String → List Nat
  | [] => [offset]
  | s :: rest => offset :: cuts (offset + s.length) rest

theorem length_cuts (offset : Nat) (texts : List String) :
    (cuts offset texts).length = texts.length + 1 := by
  induction texts generalizing offset with
  | nil => rfl
  | cons s rest ih => rw [cuts, List.length_cons, List.length_cons, ih]

theorem offset_mem_cuts (offset : Nat) (texts : List String) : offset ∈ cuts offset texts := by
  cases texts with
  | nil => exact List.mem_cons_self
  | cons s rest => exact List.mem_cons_self

theorem mem_cuts_append (texts texts' : List String) (offset place : Nat) :
    place ∈ cuts offset (texts ++ texts') ↔
      place ∈ cuts offset texts ∨ place ∈ cuts (offset + (texts.map String.length).sum) texts' := by
  induction texts generalizing offset with
  | nil =>
    have hfirst := offset_mem_cuts offset texts'
    rw [List.nil_append, List.map_nil, List.sum_nil, Nat.add_zero, cuts, List.mem_singleton]
    constructor
    · exact .inr
    · rintro (rfl | h)
      · exact hfirst
      · exact h
  | cons s rest ih =>
    rw [List.cons_append, cuts, cuts, List.mem_cons, List.mem_cons, ih, List.map_cons,
      List.sum_cons, Nat.add_assoc, or_assoc]

theorem Node.sum_length_listTexts (nodes : List Node) :
    ((listTexts nodes).map String.length).sum = listLength nodes := by
  induction nodes using Node.listInduction with
  | nil => rfl
  | text content rest ih => simp [listTexts, texts, listLength, length, ih]
  | element tag attributes children rest ihChildren ihRest =>
    simp [listTexts, texts, listLength, length, ihChildren, ihRest]

theorem mem_cuts_end (offset : Nat) (nodes : List Node) :
    offset + Node.listLength nodes ∈ cuts offset (Node.listTexts nodes) := by
  have h := (mem_cuts_append (Node.listTexts nodes) [] offset _).mpr (.inr (offset_mem_cuts _ _))
  rwa [List.append_nil, Node.sum_length_listTexts] at h

variable {registry : Registry} {logUnknown : Bool}

/-- Spans begin and end where texts do. -/
theorem mem_cuts_listSpans (nodes : List Node) (chain : List Attribute) (offset : Nat) :
    ∀ s ∈ (Node.listSpans registry logUnknown chain offset nodes).value,
      s.extent.start ∈ cuts offset (Node.listTexts nodes) ∧
        s.extent.stop ∈ cuts offset (Node.listTexts nodes) := by
  induction nodes using Node.listInduction generalizing chain offset with
  | nil => intro s hs; exact absurd hs List.not_mem_nil
  | text content rest ih =>
    rw [value_listSpans_text]
    intro s hs
    obtain ⟨hstart, hstop⟩ := ih chain (offset + content.length) s hs
    exact ⟨List.mem_cons_of_mem _ hstart, List.mem_cons_of_mem _ hstop⟩
  | element tag attributes children rest ihChildren ihRest =>
    rw [value_listSpans_element chain offset tag attributes children rest rfl]
    intro s hs
    simp only [Node.listTexts, Node.texts, mem_cuts_append, Node.sum_length_listTexts]
    rcases List.mem_append.mp hs with hfirst | hothers
    · rcases mem_withOwn hfirst with hinner | ⟨rfl, -⟩
      · obtain ⟨hstart, hstop⟩ := ihChildren _ _ s hinner
        exact ⟨.inl hstart, .inl hstop⟩
      · exact ⟨.inl (offset_mem_cuts _ _), .inl (mem_cuts_end offset children)⟩
    · obtain ⟨hstart, hstop⟩ := ihRest _ _ s hothers
      exact ⟨.inr hstart, .inr hstop⟩

/-- A flat text has no more runs than its tree has texts. -/
theorem length_runs_flatten_le (nodes : List Node) :
    (flatten registry logUnknown nodes).value.runs.length ≤ (Node.listTexts nodes).length := by
  obtain ⟨rest, hbounds, hsorted, hmem⟩ :=
    (flatten registry logUnknown nodes).value.boundaries_eq
  have hsubset : 0 :: rest ⊆ cuts 0 (Node.listTexts nodes) := by
    intro place hplace
    rcases (hmem place).mp hplace with rfl | rfl | ⟨s, hs, hplace⟩
    · exact offset_mem_cuts 0 _
    · have hend := mem_cuts_end 0 nodes
      rwa [Nat.zero_add, ← length_rawText] at hend
    · obtain ⟨hstart, hstop⟩ := mem_cuts_listSpans nodes [] 0 s (mem_listSpans hs)
      rcases hplace with rfl | rfl
      · exact hstart
      · exact hstop
  have hnodup : (0 :: rest).Nodup := hsorted.imp Nat.ne_of_lt
  have hlength := hnodup.length_le_of_subset hsubset
  have hruns := (flatten registry logUnknown nodes).value.length_runs_lt
  rw [length_cuts] at hlength
  rw [hbounds] at hruns
  omega

/-- A text with `n` runs comes from a source of at least `4 * n - 3` characters. -/
theorem length_runs_le_length (source : String) :
    4 * (flatten registry logUnknown
      (Node.ofTokens (tokenize source) maxDepth logSkips).value).value.runs.length ≤
        source.length + 3 := by
  have hruns : (flatten registry logUnknown
      (Node.ofTokens (tokenize source) maxDepth logSkips).value).value.runs.length ≤ _ :=
    length_runs_flatten_le _
  have htexts : 4 * (Node.listTexts
      (Node.ofTokens (tokenize source) maxDepth logSkips).value).length ≤ _ :=
    length_listTexts_ofTokens_le (tagsCost_tokenize source)
  have hcost := totalCost_tokenize_le source
  omega

theorem length_runs_parse_le (registry : Registry) (options : ParseOptions) (source : String) :
    4 * (parse registry options source).value.runs.length ≤ options.maxLength + 3 := by
  rw [value_parse]
  refine Nat.le_trans (length_runs_le_length _) ?_
  have htruncate := length_truncate options.maxLength source
  omega

end KineticText.Markup
