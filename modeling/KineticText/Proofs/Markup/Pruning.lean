import Mathlib.Data.List.Chain
import KineticText.Proofs.Markup.OpenTags
import KineticText.Proofs.Markup.Texts

/-! What the limit on nesting does to a tree.  Pruning a tree puts the children of every element
that stands too deep in its place, and brings texts together that have come to meet.  Of the outline
it drops where such elements begin and end.  The signs that tokens add under a limit are those
without one, less the same signs, so the outlines agree, and in normal form the trees do.  Main
statement: a limit on nesting prunes the tree that there is without it. -/

namespace KineticText.Markup

/-! ### Pruning -/

namespace Node

mutual

/-- The node, or its children when it is an element that stands deeper than the limit; the same is
done inside it. -/
def unwrap (limit : Nat) : Node → List Node
  | text content => [text content]
  | element tag attributes children =>
    match limit with
    | 0 => listUnwrap 0 children
    | limit + 1 => [element tag attributes (listUnwrap limit children)]

/-- The nodes, with every element that stands deeper than the limit replaced by its children. -/
def listUnwrap (limit : Nat) : List Node → List Node
  | [] => []
  | node :: rest => node.unwrap limit ++ listUnwrap limit rest

end

/-- Puts a node before others, a text as part of the text that it meets. -/
def meet : Node → List Node → List Node
  | text content, text other :: rest => text (content ++ other) :: rest
  | node, rest => node :: rest

mutual

/-- The node with neighbouring texts inside it brought together. -/
def mergeTexts : Node → Node
  | text content => text content
  | element tag attributes children => element tag attributes (listMergeTexts children)

/-- The nodes with neighbouring texts brought together, at every level. -/
def listMergeTexts : List Node → List Node
  | [] => []
  | node :: rest => meet node.mergeTexts (listMergeTexts rest)

end

/-- The tree without the elements that stand deeper than the limit. -/
def prune (limit : Nat) (nodes : List Node) : List Node := listMergeTexts (listUnwrap limit nodes)

/-! ### The outline of a pruned tree -/

end Node

/-- The signs without those of elements that stand deeper than the limit, where `depth` elements are
open before them. -/
def signsWithin (limit depth : Nat) : List Sign → List Sign
  | [] => []
  | .char c :: rest => .char c :: signsWithin limit depth rest
  | .opening tag attributes :: rest =>
    if depth < limit then .opening tag attributes :: signsWithin limit (depth + 1) rest
    else signsWithin limit (depth + 1) rest
  | .closing :: rest =>
    if depth ≤ limit then .closing :: signsWithin limit (depth - 1) rest
    else signsWithin limit (depth - 1) rest

theorem signsWithin_signsOf (limit depth : Nat) (s : String) (rest : List Sign) :
    signsWithin limit depth (signsOf s ++ rest) = signsOf s ++ signsWithin limit depth rest := by
  unfold signsOf
  induction s.toList with
  | nil => rfl
  | cons c cs ih => rw [List.map_cons, List.cons_append, signsWithin, ih, List.cons_append]

namespace Node

theorem signsWithin_listOutline (limit depth : Nat) (nodes : List Node) (rest : List Sign) :
    signsWithin limit depth (listOutline nodes ++ rest) =
      listOutline (listUnwrap (limit - depth) nodes) ++ signsWithin limit depth rest := by
  induction nodes using listInduction generalizing depth rest with
  | nil => rfl
  | text content others ih =>
    rw [listOutline_text, List.append_assoc, signsWithin_signsOf, ih, listUnwrap, unwrap,
      List.singleton_append, listOutline_text, List.append_assoc]
  | element tag attributes children others ihChildren ihRest =>
    have hback : depth + 1 - 1 = depth := rfl
    rw [listOutline_element, List.cons_append, List.append_assoc, List.cons_append, signsWithin,
      ihChildren, signsWithin, hback, ihRest, listUnwrap]
    by_cases hdepth : depth < limit
    · obtain ⟨more, hmore⟩ : ∃ more, limit - depth = more + 1 := ⟨limit - depth - 1, by omega⟩
      have hinner : limit - (depth + 1) = more := by omega
      rw [if_pos hdepth, if_pos (Nat.succ_le_of_lt hdepth), hmore, hinner, unwrap]
      simp only [List.cons_append, List.nil_append, listOutline_element, List.append_assoc]
    · have hnone : limit - depth = 0 := by omega
      have hinner : limit - (depth + 1) = 0 := by omega
      rw [if_neg hdepth, if_neg (by omega), hnone, hinner, unwrap]
      simp only [listOutline_append, List.append_assoc]

theorem listOutline_meet (node : Node) (rest : List Node) :
    listOutline (meet node rest) = node.outline ++ listOutline rest := by
  unfold meet
  split
  · rw [listOutline_text, listOutline_text, outline, signsOf_append, List.append_assoc]
  · rw [listOutline]

theorem listOutline_listMergeTexts (nodes : List Node) :
    listOutline (listMergeTexts nodes) = listOutline nodes := by
  induction nodes using listInduction with
  | nil => rfl
  | text content rest ih =>
    rw [listMergeTexts, mergeTexts, listOutline_meet, ih, listOutline]
  | element tag attributes children rest ihChildren ihRest =>
    rw [listMergeTexts, mergeTexts, listOutline_meet, ihRest, outline, ihChildren, listOutline,
      outline]

/-- Pruning drops the signs of the elements that stand too deep. -/
theorem listOutline_prune (limit : Nat) (nodes : List Node) :
    listOutline (prune limit nodes) = signsWithin limit 0 (listOutline nodes) := by
  have hwithin := signsWithin_listOutline limit 0 nodes []
  rw [List.append_nil, signsWithin, List.append_nil, Nat.sub_zero] at hwithin
  rw [prune, listOutline_listMergeTexts, hwithin]

/-! ### Normal form -/

theorem listTexts_listUnwrap (limit : Nat) (nodes : List Node) :
    listTexts (listUnwrap limit nodes) = listTexts nodes := by
  induction nodes using listInduction generalizing limit with
  | nil => rfl
  | text content rest ih =>
    rw [listUnwrap, unwrap, List.singleton_append, listTexts, ih, listTexts]
  | element tag attributes children rest ihChildren ihRest =>
    rw [listUnwrap, listTexts_append, ihRest, listTexts, texts]
    cases limit with
    | zero => rw [unwrap, ihChildren]
    | succ limit => simp [unwrap, listTexts, texts, ihChildren]

theorem ne_empty_of_listNormal {nodes : List Node} (h : ListNormal nodes) :
    ∀ s ∈ listTexts nodes, s ≠ "" := by
  induction nodes using listInduction with
  | nil => intro s hs; exact absurd hs List.not_mem_nil
  | text content rest ih =>
    obtain ⟨hcontent, -, hrest⟩ := h
    exact List.forall_mem_cons.mpr ⟨hcontent, ih hrest⟩
  | element tag attributes children rest ihChildren ihRest =>
    obtain ⟨hchildren, -, hrest⟩ := h
    exact List.forall_mem_append.mpr ⟨ihChildren hchildren, ihRest hrest⟩

theorem listNormal_meet {node : Node} (hnode : node.Normal) {rest : List Node}
    (hrest : ListNormal rest) : ListNormal (meet node rest) := by
  match node, rest with
  | .text content, .text other :: others =>
    obtain ⟨-, hneighbour, hothers⟩ := hrest
    exact ⟨fun hempty => hnode (String.append_eq_empty_iff.mp hempty).1, hneighbour, hothers⟩
  | .text content, [] => exact ⟨hnode, fun _ => rfl, hrest⟩
  | .text content, .element .. :: others => exact ⟨hnode, fun _ => rfl, hrest⟩
  | .element .., rest => exact ⟨hnode, fun htext => absurd htext Bool.false_ne_true, hrest⟩

/-- Without empty texts, bringing neighbours together gives the normal form. -/
theorem listNormal_listMergeTexts {nodes : List Node} (h : ∀ s ∈ listTexts nodes, s ≠ "") :
    ListNormal (listMergeTexts nodes) := by
  induction nodes using listInduction with
  | nil => trivial
  | text content rest ih =>
    obtain ⟨hcontent, hrest⟩ := List.forall_mem_cons.mp h
    have htext : (Node.text content).Normal := hcontent
    exact listNormal_meet htext (ih hrest)
  | element tag attributes children rest ihChildren ihRest =>
    obtain ⟨hchildren, hrest⟩ := List.forall_mem_append.mp h
    have helement : (Node.element tag attributes (listMergeTexts children)).Normal :=
      ihChildren hchildren
    exact listNormal_meet helement (ihRest hrest)

theorem listNormal_prune (limit : Nat) {nodes : List Node} (h : ListNormal nodes) :
    ListNormal (prune limit nodes) := by
  refine listNormal_listMergeTexts ?_
  rw [listTexts_listUnwrap]
  exact ne_empty_of_listNormal h

/-! ### Normal form of read trees -/

/-- Whether two nodes may be neighbours in normal form. -/
def MayMeet (a b : Node) : Prop := a.isText = true → b.isText = false

theorem listNormal_iff {nodes : List Node} :
    ListNormal nodes ↔ (∀ node ∈ nodes, node.Normal) ∧ nodes.IsChain MayMeet := by
  induction nodes with
  | nil => simp [ListNormal]
  | cons node rest ih =>
    rw [ListNormal, ih, List.forall_mem_cons]
    cases rest with
    | nil => simp [startsWithText]
    | cons next others =>
      rw [List.isChain_cons_cons, startsWithText, MayMeet]
      constructor
      · rintro ⟨hnode, hmeet, hothers, hchain⟩
        exact ⟨⟨hnode, hothers⟩, hmeet, hchain⟩
      · rintro ⟨⟨hnode, hothers⟩, hmeet, hchain⟩
        exact ⟨hnode, hmeet, hothers, hchain⟩

theorem listNormal_reverse {nodes : List Node} (h : ListNormal nodes) :
    ListNormal nodes.reverse := by
  rw [listNormal_iff] at *
  refine ⟨fun node hnode => h.1 node (List.mem_reverse.mp hnode), List.isChain_reverse.mpr ?_⟩
  refine h.2.imp fun a b hmay htext => ?_
  cases ha : a.isText with
  | false => rfl
  | true => rw [hmay ha] at htext; cases htext

end Node

namespace OpenTree

variable {maxDepth : Nat} {logSkips : Bool}

/-- All siblings in the tree are in normal form. -/
structure Tidy (t : OpenTree) : Prop where
  nodes : Node.ListNormal t.nodes
  enclosing : ∀ e ∈ t.enclosing, Node.ListNormal e.before

namespace Tidy

variable {t : OpenTree}

theorem addText (h : Tidy t) (s : String) : Tidy (t.addText s) := by
  refine ⟨?_, by rw [enclosing_addText]; exact h.enclosing⟩
  obtain ⟨enclosing, nodes, skipped⟩ := t
  by_cases hs : s = ""
  · rw [hs, addText_empty]
    exact h.nodes
  · match nodes, h.nodes with
    | .text before :: others, ⟨hbefore, hneighbour, hothers⟩ =>
      rw [addText_append_text]
      exact ⟨fun hempty => hs (String.append_eq_empty_iff.mp hempty).2, hneighbour, hothers⟩
    | [], hnodes =>
      rw [addText_of_not_text rfl hs]
      exact ⟨hs, fun _ => rfl, hnodes⟩
    | .element .. :: others, hnodes =>
      rw [addText_of_not_text rfl hs]
      exact ⟨hs, fun _ => rfl, hnodes⟩

theorem closeInnermost (h : Tidy t) : Tidy t.closeInnermost := by
  obtain ⟨enclosing, nodes, skipped⟩ := t
  cases enclosing with
  | nil => exact h
  | cons e enclosing =>
    obtain ⟨hbefore, henclosing⟩ := List.forall_mem_cons.mp h.enclosing
    exact ⟨⟨Node.listNormal_reverse h.nodes, fun htext => absurd htext Bool.false_ne_true, hbefore⟩,
      henclosing⟩

theorem closeElements (h : Tidy t) (n : Nat) : Tidy (t.closeElements n) :=
  closeElements_keeps (P := Tidy) (fun _ => closeInnermost) h n

theorem step {token : Token} {t' : OpenTree} (h : Tidy t) (hstep : Step maxDepth t token t') :
    Tidy t' := by
  cases hstep with
  | text s => exact h.addText s
  | opening => exact ⟨trivial, List.forall_mem_cons.mpr ⟨h.nodes, h.enclosing⟩⟩
  | selfClosing =>
    exact ⟨⟨trivial, fun htext => absurd htext Bool.false_ne_true, h.nodes⟩, h.enclosing⟩
  | close tag n => exact h.closeElements n
  | literal => exact h.addText _
  | skip tag skipped => exact ⟨h.nodes, h.enclosing⟩

end Tidy

end OpenTree

theorem listNormal_ofTokens (tokens : List Token) (maxDepth : Nat) (logSkips : Bool) :
    Node.ListNormal (Node.ofTokens tokens maxDepth logSkips).value := by
  have hempty : OpenTree.Tidy {} := ⟨trivial, List.forall_mem_nil _⟩
  obtain ⟨t, h, hnodes⟩ := OpenTree.ofTokens_keeps hempty (fun _ _ _ hstep h => h.step hstep)
    (fun _ => OpenTree.Tidy.closeInnermost) tokens
  rw [hnodes]
  exact Node.listNormal_reverse h.nodes

/-! ### Two limits -/

theorem signsWithin_replicate (limit : Nat) {depth n : Nat} (h : n ≤ depth) (rest : List Sign) :
    signsWithin limit depth (List.replicate n .closing ++ rest) =
      List.replicate (min limit depth - min limit (depth - n)) .closing ++
        signsWithin limit (depth - n) rest := by
  induction n generalizing depth with
  | zero => simp
  | succ n ih =>
    have hnext : depth - 1 - n = depth - (n + 1) := by omega
    rw [List.replicate_succ, List.cons_append, signsWithin, ih (Nat.le_sub_one_of_lt h), hnext]
    by_cases hdepth : depth ≤ limit
    · have hcount : min limit depth - min limit (depth - (n + 1)) =
          min limit (depth - 1) - min limit (depth - (n + 1)) + 1 := by omega
      rw [if_pos hdepth, hcount, List.replicate_succ, List.cons_append]
    · have hcount : min limit depth = min limit (depth - 1) := by omega
      rw [if_neg hdepth, hcount]

theorem length_closeNearest_le (name : String) (names : List String) :
    (closeNearest name names).length ≤ names.length := by
  rw [closeNearest_eq_drop, List.length_drop]
  omega

/-- Under the lower of two limits a token adds the signs that it adds under one, less those beyond
the other. -/
theorem Token.signsWithin_signs (limit maxDepth : Nat) (names : List String) (token : Token)
    (rest : List Sign) :
    signsWithin limit (min maxDepth names.length) (token.signs maxDepth names ++ rest) =
      token.signs (min limit maxDepth) names ++
        signsWithin limit (min maxDepth (token.openAfter names).length) rest := by
  cases token with
  | text s => exact signsWithin_signsOf limit _ s rest
  | tag tag =>
    obtain ⟨kind, name, attributes, source⟩ := tag
    -- An element opens under both limits, or under one alone, and then it is beyond the other.
    have hboth : names.length < min limit maxDepth ↔
        names.length < maxDepth ∧ names.length < limit := by omega
    cases kind with
    | opening =>
      simp only [signs, openAfter, List.length_cons, hboth]
      by_cases hlt : names.length < maxDepth
      · have hdepth : min maxDepth names.length = names.length := by omega
        have hnext : min maxDepth (names.length + 1) = names.length + 1 := by omega
        simp only [hlt, true_and, if_true, List.singleton_append, signsWithin, hdepth, hnext]
        split <;> rfl
      · have hnext : min maxDepth (names.length + 1) = min maxDepth names.length := by omega
        simp only [hlt, false_and, if_false, List.nil_append, hnext]
    | selfClosing =>
      simp only [signs, openAfter, hboth]
      by_cases hlt : names.length < maxDepth
      · have hdepth : min maxDepth names.length = names.length := by omega
        simp only [hlt, true_and, if_true, List.cons_append, List.nil_append, signsWithin, hdepth,
          Nat.succ_le_iff, Nat.add_sub_cancel]
        split <;> rfl
      · simp only [hlt, false_and, if_false, List.nil_append]
    | closing =>
      by_cases hmem : name ∈ names
      · have hle := length_closeNearest_le name names
        have hback : min maxDepth names.length -
            (min maxDepth names.length - min maxDepth (closeNearest name names).length) =
            min maxDepth (closeNearest name names).length := by omega
        simp only [signs, openAfter, if_pos hmem]
        rw [signsWithin_replicate limit (Nat.sub_le _ _), hback, Nat.min_assoc, Nat.min_assoc]
      · simp only [signs, openAfter, if_neg hmem]
        exact signsWithin_signsOf limit _ source rest

theorem signsWithin_signsFrom (limit maxDepth : Nat) (names : List String) (tokens : List Token) :
    signsWithin limit (min maxDepth names.length) (signsFrom maxDepth names tokens) =
      signsFrom (min limit maxDepth) names tokens := by
  induction tokens generalizing names with
  | nil =>
    have hends := signsWithin_replicate limit (Nat.le_refl (min maxDepth names.length)) []
    rw [List.append_nil, Nat.sub_self, signsWithin, List.append_nil, Nat.min_zero, Nat.sub_zero,
      ← Nat.min_assoc] at hends
    exact hends
  | cons token tokens ih => rw [signsFrom, token.signsWithin_signs, ih, signsFrom]

/-- The tree under the lower of two limits is the tree under one, pruned by the other. -/
theorem prune_ofTokens (limit maxDepth : Nat) (logSkips : Bool) (tokens : List Token) :
    Node.prune limit (Node.ofTokens tokens maxDepth logSkips).value =
      (Node.ofTokens tokens (min limit maxDepth) logSkips).value := by
  refine Node.eq_of_listOutline_eq (Node.listNormal_prune limit (listNormal_ofTokens ..))
    (listNormal_ofTokens ..) ?_
  rw [Node.listOutline_prune, listOutline_ofTokens, listOutline_ofTokens]
  have hwithin := signsWithin_signsFrom limit maxDepth [] tokens
  rwa [List.length_nil, Nat.min_zero] at hwithin

/-! ### The limit -/

/-- A limit on nesting prunes the tree that there is without one.  What is left is in normal form
and within the limit, and its text does not depend on the limit. -/
theorem ofTokens_eq_prune (tokens : List Token) (maxDepth : Nat) (logSkips : Bool) :
    (Node.ofTokens tokens maxDepth logSkips).value =
        Node.prune maxDepth (Node.ofTokensFreely tokens) ∧
      Node.listDepth (Node.ofTokens tokens maxDepth logSkips).value ≤ maxDepth ∧
      Node.ListNormal (Node.ofTokens tokens maxDepth logSkips).value ∧
      ∀ other, Node.rawText (Node.ofTokens tokens maxDepth logSkips).value =
        Node.rawText (Node.ofTokens tokens other logSkips).value := by
  refine ⟨?_, listDepth_ofTokens_le tokens, listNormal_ofTokens .., fun other => ?_⟩
  · have hpruned := prune_ofTokens maxDepth (max maxDepth (tokens.countP Token.opens)) logSkips tokens
    rw [ofTokens_eq_ofTokensFreely (Nat.le_max_right _ _),
      Nat.min_eq_left (Nat.le_max_left _ _)] at hpruned
    exact hpruned.symm
  · rw [rawText_ofTokens, rawText_ofTokens]

end KineticText.Markup
