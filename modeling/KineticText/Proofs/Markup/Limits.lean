import Mathlib.Algebra.Ring.Nat
import KineticText.Markup.Token
import KineticText.Proofs.Markup.NormalForm

/-! Limits of trees.  No element of a tree stands deeper than the limit, a limit that the tags
cannot reach changes nothing, and the text of a tree comes from the characters that are not part of
its tags. -/

namespace KineticText.Markup

variable {maxDepth : Nat} {logSkips : Bool}

namespace Node

theorem listLength_append (xs ys : List Node) :
    listLength (xs ++ ys) = listLength xs + listLength ys := by
  induction xs with
  | nil => simp [listLength]
  | cons x xs ih =>
    rw [List.cons_append, listLength, listLength, ih]
    omega

theorem listLength_reverse (xs : List Node) : listLength xs.reverse = listLength xs := by
  induction xs with
  | nil => rfl
  | cons x xs ih =>
    rw [List.reverse_cons, listLength_append, ih]
    simp only [listLength]
    omega

theorem listDepth_append (xs ys : List Node) :
    listDepth (xs ++ ys) = max (listDepth xs) (listDepth ys) := by
  induction xs with
  | nil => simp [listDepth]
  | cons x xs ih =>
    rw [List.cons_append, listDepth, listDepth, ih]
    omega

theorem listDepth_reverse (xs : List Node) : listDepth xs.reverse = listDepth xs := by
  induction xs with
  | nil => rfl
  | cons x xs ih =>
    rw [List.reverse_cons, listDepth_append, ih]
    simp only [listDepth]
    omega

end Node

namespace OpenTree

/-- What placing a token can do to a tree. -/
inductive Step (maxDepth : Nat) (t : OpenTree) : Token → OpenTree → Prop
  | text (s : String) : Step maxDepth t (.text s) (t.addText s)
  | opening {tag : Tag} (h : t.depth < maxDepth) (hkind : tag.kind ≠ .closing) :
    Step maxDepth t (.tag tag) (t.openElement tag)
  | selfClosing {tag : Tag} (h : t.depth < maxDepth) :
    Step maxDepth t (.tag tag) (t.push (.element tag.name tag.attributes []))
  | close (tag : Tag) (n : Nat) : Step maxDepth t (.tag tag) (t.closeElements n)
  | literal {tag : Tag} (hkind : tag.kind = .closing) :
    Step maxDepth t (.tag tag) (t.addText tag.source)
  | skip (tag : Tag) (skipped : SkippedTags) : Step maxDepth t (.tag tag) { t with skipped }

theorem step_add (t : OpenTree) (token : Token) :
    Step maxDepth t token (t.add maxDepth logSkips token).value := by
  cases token with
  | text s => exact .text s
  | tag tag =>
    show Step maxDepth t (.tag tag) (t.addTag maxDepth logSkips tag).value
    unfold addTag
    split
    · rename_i hkind
      unfold close?
      split
      · exact .skip tag _
      · cases t.enclosing.findIdx? (·.tag == tag.name) with
        | none => exact .literal hkind
        | some i => exact .close tag (i + 1)
    · rename_i hkind
      split
      · rename_i hdepth
        exact .opening hdepth (by rw [hkind]; decide)
      · exact .skip tag _
    · split
      · rename_i hdepth
        exact .selfClosing hdepth
      · exact .skip tag t.skipped

/-! ### Runs -/

theorem closeElements_keeps {P : OpenTree → Prop} (hclose : ∀ t, P t → P t.closeInnermost)
    {t : OpenTree} (h : P t) (n : Nat) : P (t.closeElements n) := by
  induction n generalizing t with
  | zero => exact h
  | succ n ih => exact ih (hclose t h)

/-- What every step keeps is so after all tokens. -/
theorem fold_keeps {P : OpenTree → Prop}
    (hstep : ∀ t token t', Step maxDepth t token t' → P t → P t') {t : OpenTree} (h : P t)
    (tokens : List Token) : P (Logged.fold (OpenTree.add maxDepth logSkips) t tokens).value := by
  rw [Logged.value_fold]
  induction tokens generalizing t with
  | nil => exact h
  | cons token tokens ih => exact ih (hstep t token _ (t.step_add token) h)

/-- What every token adds to a measure at most, all of them add. -/
theorem fold_measure_le {m : OpenTree → Nat} {cost : Token → Nat} {tokens : List Token}
    (hstep : ∀ t, ∀ token ∈ tokens, ∀ t', Step maxDepth t token t' → m t' ≤ m t + cost token)
    (t : OpenTree) : m (Logged.fold (OpenTree.add maxDepth logSkips) t tokens).value ≤
      m t + (tokens.map cost).sum := by
  rw [Logged.value_fold]
  induction tokens generalizing t with
  | nil => exact Nat.le_refl _
  | cons token tokens ih =>
    have hfirst : m (t.add maxDepth logSkips token).value ≤ m t + cost token :=
      hstep t token List.mem_cons_self _ (t.step_add token)
    have hrest := ih (fun t token htoken => hstep t token (List.mem_cons_of_mem _ htoken))
      (t.add maxDepth logSkips token).value
    rw [List.foldl_cons, List.map_cons, List.sum_cons]
    omega

/-- A tree of tokens comes from an open tree that has what every step and every end of an element
keeps. -/
theorem ofTokens_keeps {P : OpenTree → Prop} (hempty : P {})
    (hstep : ∀ t token t', Step maxDepth t token t' → P t → P t')
    (hclose : ∀ t, P t → P t.closeInnermost) (tokens : List Token) :
    ∃ t : OpenTree, P t ∧ (Node.ofTokens tokens maxDepth logSkips).value = t.nodes.reverse := by
  rw [Node.ofTokens, Logged.value_map]
  exact ⟨_, closeElements_keeps hclose (fold_keeps hstep hempty tokens) _, rfl⟩

/-! ### Depth -/

/-- The siblings before open elements stand within the limit. -/
def Shallow (maxDepth : Nat) : List OpenElement → Prop
  | [] => True
  | e :: enclosing =>
    Node.listDepth e.before + enclosing.length ≤ maxDepth ∧ Shallow maxDepth enclosing

/-- All elements of the tree stand within the limit. -/
structure Within (maxDepth : Nat) (t : OpenTree) : Prop where
  nodes : Node.listDepth t.nodes + t.depth ≤ maxDepth
  enclosing : Shallow maxDepth t.enclosing

theorem listDepth_addText (t : OpenTree) (s : String) :
    Node.listDepth (t.addText s).nodes = Node.listDepth t.nodes := by
  unfold addText
  split
  · rfl
  · split <;> simp [Node.listDepth, Node.depth]

theorem enclosing_addText (t : OpenTree) (s : String) :
    (t.addText s).enclosing = t.enclosing := by
  unfold addText
  split
  · rfl
  · split <;> rfl

namespace Within

variable {t : OpenTree}

theorem addText (h : Within maxDepth t) (s : String) : Within maxDepth (t.addText s) := by
  refine ⟨?_, ?_⟩
  · rw [listDepth_addText, depth, enclosing_addText]
    exact h.nodes
  · rw [enclosing_addText]
    exact h.enclosing

theorem closeInnermost (h : Within maxDepth t) : Within maxDepth t.closeInnermost := by
  obtain ⟨enclosing, nodes, skipped⟩ := t
  cases enclosing with
  | nil => exact h
  | cons e enclosing =>
    obtain ⟨hnodes, hbefore, henclosing⟩ := h
    refine ⟨?_, henclosing⟩
    simp only [OpenTree.closeInnermost, depth, List.length_cons, Node.listDepth, Node.depth,
      Node.listDepth_reverse] at *
    omega

theorem closeElements (h : Within maxDepth t) (n : Nat) : Within maxDepth (t.closeElements n) :=
  closeElements_keeps (P := Within maxDepth) (fun _ => closeInnermost) h n

theorem step {token : Token} {t' : OpenTree} (h : Within maxDepth t)
    (hstep : Step maxDepth t token t') : Within maxDepth t' := by
  cases hstep with
  | text s => exact h.addText s
  | opening hdepth hkind =>
    refine ⟨?_, h.nodes, h.enclosing⟩
    simp only [openElement, depth, List.length_cons, Node.listDepth] at *
    omega
  | selfClosing hdepth =>
    refine ⟨?_, h.enclosing⟩
    have hnodes := h.nodes
    simp only [push, depth, Node.listDepth, Node.depth] at *
    omega
  | close tag n => exact h.closeElements n
  | literal => exact h.addText _
  | skip tag skipped => exact ⟨h.nodes, h.enclosing⟩

end Within

end OpenTree

/-- No element stands deeper than the limit. -/
theorem listDepth_ofTokens_le (tokens : List Token) :
    Node.listDepth (Node.ofTokens tokens maxDepth logSkips).value ≤ maxDepth := by
  have hempty : OpenTree.Within maxDepth {} := ⟨by simp [Node.listDepth, OpenTree.depth], trivial⟩
  obtain ⟨t, h, hnodes⟩ := OpenTree.ofTokens_keeps hempty (fun _ _ _ hstep h => h.step hstep)
    (fun _ => OpenTree.Within.closeInnermost) tokens
  rw [hnodes, Node.listDepth_reverse]
  exact Nat.le_trans (Nat.le_add_right _ _) h.nodes

/-! ### Limits that are not reached -/

/-- Whether a token opens an element. -/
def Token.opens : Token → Bool
  | .text _ => false
  | .tag t => t.kind != .closing

/-- Places a token, with no limit on how many elements may be open. -/
def OpenTree.addFreely (t : OpenTree) : Token → OpenTree
  | .text s => t.addText s
  | .tag tag =>
    match tag.kind with
    | .opening => t.openElement tag
    | .selfClosing => t.push (.element tag.name tag.attributes [])
    | .closing => (t.close? tag.name).getD (t.addText tag.source)

/-- The tree of a list of tokens, with no limit on how many elements stand inside each other. -/
def Node.ofTokensFreely (tokens : List Token) : List Node :=
  (tokens.foldl OpenTree.addFreely {}).finish

namespace OpenTree

theorem enclosing_closeElements (t : OpenTree) (n : Nat) :
    (t.closeElements n).enclosing = t.enclosing.drop n := by
  induction n generalizing t with
  | zero => rfl
  | succ n ih =>
    obtain ⟨enclosing, nodes, skipped⟩ := t
    rw [closeElements, ih]
    cases enclosing with
    | nil => simp [closeInnermost]
    | cons e enclosing => rfl

theorem depth_closeElements_le (t : OpenTree) (n : Nat) : (t.closeElements n).depth ≤ t.depth := by
  rw [depth, enclosing_closeElements, List.length_drop]
  exact Nat.sub_le _ _

/-- Only a token that opens an element makes the tree deeper. -/
theorem Step.depth_le {t t' : OpenTree} {token : Token} (h : Step maxDepth t token t') :
    t'.depth ≤ t.depth + (if token.opens then 1 else 0) := by
  have haddText : ∀ s, (t.addText s).depth = t.depth := fun s => by
    rw [depth, enclosing_addText, depth]
  cases h with
  | opening _ hkind =>
    simp only [Token.opens, bne_iff_ne, ne_eq, hkind, not_false_eq_true, if_true]
    exact Nat.le_refl _
  | text s => exact Nat.le_trans (Nat.le_of_eq (haddText s)) (Nat.le_add_right _ _)
  | literal => exact Nat.le_trans (Nat.le_of_eq (haddText _)) (Nat.le_add_right _ _)
  | close tag n => exact Nat.le_trans (t.depth_closeElements_le n) (Nat.le_add_right _ _)
  | selfClosing | skip => exact Nat.le_add_right _ _

theorem add_eq_addFreely {t : OpenTree} {token : Token}
    (h : t.depth + (if token.opens then 1 else 0) ≤ maxDepth) :
    (t.add maxDepth logSkips token).value = t.addFreely token := by
  cases token with
  | text s => rfl
  | tag tag =>
    obtain ⟨kind, name, attributes, source⟩ := tag
    cases kind with
    | closing => rfl
    | opening | selfClosing =>
      have hroom : t.depth < maxDepth := h
      simp only [add, addTag, addFreely, if_pos hroom, Logged.value_pure]

theorem fold_eq_foldl_addFreely (tokens : List Token) {t : OpenTree}
    (h : t.depth + tokens.countP Token.opens ≤ maxDepth) :
    (Logged.fold (OpenTree.add maxDepth logSkips) t tokens).value = tokens.foldl addFreely t := by
  rw [Logged.value_fold]
  induction tokens generalizing t with
  | nil => rfl
  | cons token tokens ih =>
    rw [List.countP_cons] at h
    have hdepth : (t.add maxDepth logSkips token).value.depth ≤ _ := (t.step_add token).depth_le
    have hstep : (t.add maxDepth logSkips token).value = t.addFreely token :=
      add_eq_addFreely (by omega)
    rw [List.foldl_cons, List.foldl_cons, ← hstep]
    exact ih (by omega)

end OpenTree

/-- A limit that the tags cannot reach is none. -/
theorem ofTokens_eq_ofTokensFreely {tokens : List Token}
    (h : tokens.countP Token.opens ≤ maxDepth) :
    (Node.ofTokens tokens maxDepth logSkips).value = Node.ofTokensFreely tokens := by
  have hempty : OpenTree.depth {} + tokens.countP Token.opens ≤ maxDepth := by
    rwa [show OpenTree.depth {} = 0 from rfl, Nat.zero_add]
  rw [Node.ofTokens, Logged.value_map, OpenTree.fold_eq_foldl_addFreely tokens hempty,
    Node.ofTokensFreely]

/-! ### Text -/

/-- How many characters a token can add to the text of a tree. -/
def Token.literalLength : Token → Nat
  | .text s => s.length
  | .tag t => if t.kind = .closing then t.source.length else 0

namespace OpenTree

/-- The number of characters of text in a tree. -/
def textLength (t : OpenTree) : Nat :=
  Node.listLength t.nodes + (t.enclosing.map fun e => Node.listLength e.before).sum

theorem textLength_addText (t : OpenTree) (s : String) :
    (t.addText s).textLength = t.textLength + s.length := by
  unfold addText
  split
  · rename_i h
    rw [String.isEmpty_iff.mp h]
    rfl
  · split <;>
      simp only [textLength, Node.listLength, Node.length, String.length_append] <;> omega

theorem textLength_closeElements (t : OpenTree) (n : Nat) :
    (t.closeElements n).textLength = t.textLength := by
  refine closeElements_keeps (P := fun t' => t'.textLength = t.textLength) ?_ rfl n
  rintro ⟨enclosing, nodes, skipped⟩ h
  cases enclosing with
  | nil => exact h
  | cons e enclosing =>
    simp only [closeInnermost, textLength, Node.listLength, Node.length, Node.listLength_reverse,
      List.map_cons, List.sum_cons] at *
    omega

theorem Step.textLength_le {t t' : OpenTree} {token : Token} (h : Step maxDepth t token t') :
    t'.textLength ≤ t.textLength + token.literalLength := by
  cases h with
  | text s => exact Nat.le_of_eq (t.textLength_addText s)
  | literal hkind =>
    rw [Token.literalLength, if_pos hkind]
    exact Nat.le_of_eq (t.textLength_addText _)
  | close tag n =>
    exact Nat.le_trans (Nat.le_of_eq (t.textLength_closeElements n)) (Nat.le_add_right _ _)
  | opening =>
    refine Nat.le_trans (Nat.le_of_eq ?_) (Nat.le_add_right _ _)
    simp [openElement, textLength, Node.listLength]
  | selfClosing =>
    refine Nat.le_trans (Nat.le_of_eq ?_) (Nat.le_add_right _ _)
    simp [push, textLength, Node.listLength, Node.length]
  | skip => exact Nat.le_add_right _ _

theorem textLength_fold_le (tokens : List Token) (t : OpenTree) :
    (Logged.fold (OpenTree.add maxDepth logSkips) t tokens).value.textLength ≤
      t.textLength + (tokens.map Token.literalLength).sum :=
  fold_measure_le (fun _ _ _ _ hstep => hstep.textLength_le) t

end OpenTree

/-- The text of a tree is no longer than the literal tokens. -/
theorem listLength_ofTokens_le (tokens : List Token) :
    Node.listLength (Node.ofTokens tokens maxDepth logSkips).value ≤
      (tokens.map Token.literalLength).sum := by
  have h : (Logged.fold (OpenTree.add maxDepth logSkips) {} tokens).value.textLength ≤ _ :=
    OpenTree.textLength_fold_le tokens {}
  rw [Node.ofTokens, Logged.value_map, OpenTree.finish, Node.listLength_reverse]
  generalize (Logged.fold (OpenTree.add maxDepth logSkips) {} tokens).value = t at h ⊢
  have hclosed := t.textLength_closeElements t.depth
  have hempty : OpenTree.textLength {} = 0 := rfl
  rw [OpenTree.textLength] at hclosed
  omega

end KineticText.Markup
