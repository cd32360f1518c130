import KineticText.Markup.Node
import KineticText.Proofs.Markup.Brackets
import KineticText.Proofs.Markup.NormalForm

/-! Reading a source into a tree, piece by piece.  The tokens of a source and the tree of its tokens
are one walk over its pieces: the tree of what has been read so far, the pending text included,
takes in each piece by itself. -/

namespace KineticText

namespace Logged

variable {α σ : Type}

theorem fold_append (step : σ → α → Logged σ) (start : σ) (xs ys : List α) :
    fold step start (xs ++ ys) = fold step start xs >>= fun s => fold step s ys := by
  have h : ∀ (zs : List α) (acc : Logged σ),
      zs.foldl (fun acc x => acc >>= fun s => step s x) acc =
        acc >>= fun s => fold step s zs := by
    intro zs
    induction zs with
    | nil => intro acc; exact (bind_pure acc).symm
    | cons z zs ih =>
      intro acc
      simp only [List.foldl_cons, fold]
      rw [ih, bind_assoc]
      congr 1
      funext s
      rw [pure_bind, ih]
  simp only [fold, List.foldl_append]
  exact h ys _

theorem fold_singleton (step : σ → α → Logged σ) (start : σ) (x : α) :
    fold step start [x] = step start x := by
  simp only [fold, List.foldl_cons, List.foldl_nil, pure_bind]

end Logged

namespace Markup

namespace OpenTree

@[simp] theorem addText_empty (t : OpenTree) : t.addText "" = t := rfl

theorem addText_append_text (enclosing : List OpenElement) (before : String) (nodes : List Node)
    (skipped : SkippedTags) (s : String) :
    (⟨enclosing, .text before :: nodes, skipped⟩ : OpenTree).addText s =
      ⟨enclosing, .text (before ++ s) :: nodes, skipped⟩ := by
  unfold addText
  split
  · rename_i h
    rw [String.isEmpty_iff.mp h, String.append_empty]
  · rfl

theorem addText_of_not_text {t : OpenTree} (ht : Node.startsWithText t.nodes = false) {s : String}
    (hs : s ≠ "") : t.addText s = { t with nodes := .text s :: t.nodes } := by
  unfold addText
  rw [if_neg (by simpa using hs)]
  split
  · simp [Node.startsWithText, Node.isText] at ht
  · rfl

/-- Texts that come one after the other come as one. -/
theorem addText_addText (t : OpenTree) (s u : String) :
    (t.addText s).addText u = t.addText (s ++ u) := by
  by_cases hs : s = ""
  · rw [hs, addText_empty, String.empty_append]
  · obtain ⟨enclosing, nodes, skipped⟩ := t
    by_cases ht : Node.startsWithText nodes = false
    · have hsu : s ++ u ≠ "" := by simp [hs]
      rw [addText_of_not_text ht hs, addText_of_not_text ht hsu, addText_append_text]
    · match nodes, ht with
      | .text before :: nodes, _ =>
        rw [addText_append_text, addText_append_text, addText_append_text, String.append_assoc]
      | .element _ _ _ :: _, ht => exact absurd rfl ht
      | [], ht => exact absurd rfl ht

/-- Places a piece. -/
def addPiece (maxDepth : Nat) (logSkips : Bool) (t : OpenTree) : Piece → Logged OpenTree
  | .char c => pure (t.addText (String.singleton c))
  | .literal source => pure (t.addText source)
  | .tag tag => t.addTag maxDepth logSkips tag

end OpenTree

variable {maxDepth : Nat} {logSkips : Bool}

/-- The tree of what has been read. -/
def Reading.tree (maxDepth : Nat) (logSkips : Bool) (r : Reading) : Logged OpenTree :=
  (·.addText r.text) <$> Logged.fold (OpenTree.add maxDepth logSkips) {} r.tokens.toList

theorem Reading.fold_flush (r : Reading) :
    Logged.fold (OpenTree.add maxDepth logSkips) {} r.flush.toList = r.tree maxDepth logSkips := by
  unfold flush tree
  split
  · rename_i h
    rw [String.isEmpty_iff.mp h]
    exact (id_map _).symm
  · rw [Array.toList_push, Logged.fold_append]
    simp only [Logged.fold_singleton, OpenTree.add]
    exact bind_pure_comp _ _

/-- The tree takes in each piece by itself. -/
theorem Reading.tree_add (r : Reading) (p : Piece) :
    (r.add p).tree maxDepth logSkips =
      r.tree maxDepth logSkips >>= (·.addPiece maxDepth logSkips p) := by
  cases p with
  | char c =>
    simp only [add, tree, OpenTree.addPiece, bind_pure_comp, Functor.map_map,
      OpenTree.addText_addText]
    rfl
  | literal source =>
    simp only [add, tree, OpenTree.addPiece, bind_pure_comp, Functor.map_map,
      OpenTree.addText_addText]
  | tag tag =>
    have h : Logged.fold (OpenTree.add maxDepth logSkips) {} r.flush.toList =
        r.tree maxDepth logSkips := r.fold_flush
    simp only [add, OpenTree.addPiece, ← h]
    rw [tree, Array.toList_push, Logged.fold_append]
    simp only [Logged.fold_singleton, OpenTree.add, OpenTree.addText_empty]
    exact id_map _

theorem Reading.ofTokens_flush (r : Reading) :
    Node.ofTokens r.flush.toList maxDepth logSkips =
      OpenTree.finish <$> r.tree maxDepth logSkips := by
  rw [Node.ofTokens, fold_flush]

/-! ### Pieces of a source -/

theorem Reading.addAll_cons (r : Reading) (c : Char) (cs : List Char) :
    r.addAll (withClosing (c :: cs)) =
      (r.add (piece c (Closing.of cs).outside (withClosing cs)).1).addAll
        (piece c (Closing.of cs).outside (withClosing cs)).2 := by
  rw [withClosing_cons, addAll]

theorem withClosing_append (xs ys : List Char) :
    ∃ marked, withClosing (xs ++ ys) = marked ++ withClosing ys ∧ marked.map Prod.fst = xs := by
  induction xs with
  | nil => exact ⟨[], rfl, rfl⟩
  | cons x xs ih =>
    obtain ⟨marked, happend, hmap⟩ := ih
    exact ⟨(x, (Closing.of (xs ++ ys)).outside) :: marked, by
      rw [List.cons_append, withClosing_cons, happend, List.cons_append], by
      rw [List.map_cons, hmap]⟩

theorem Reading.addAll_tag (r : Reading) {body : List Char} (hbody : Balanced body) {tag : Tag}
    (htag : Tag.parse? body (String.ofList ('<' :: (body ++ ['>']))) = some tag)
    (after : List Char) :
    r.addAll (withClosing ('<' :: (body ++ '>' :: after))) =
      (r.add (.tag tag)).addAll (withClosing after) := by
  obtain ⟨marked, happend, hmap⟩ := withClosing_append body ('>' :: after)
  have hlength : marked.length = body.length := by rw [← hmap, List.length_map]
  have htake : ((withClosing (body ++ '>' :: after)).take body.length).map Prod.fst = body := by
    rw [happend, ← hlength, List.take_left, hmap]
  have hdrop : (withClosing (body ++ '>' :: after)).drop (body.length + 1) =
      withClosing after := by
    rw [happend, withClosing_cons, ← hlength, ← List.drop_drop, List.drop_left]
    rfl
  have hpiece : piece '<' (Closing.of (body ++ '>' :: after)).outside
      (withClosing (body ++ '>' :: after)) = (.tag tag, withClosing after) := by
    rw [hbody.outside_closing]
    simp only [piece, bracketed, htake, htag, hdrop]
  rw [addAll_cons, hpiece]

/-- Reading `cs` leads from the tree `t` to the tree `t'`, whatever comes after. -/
def Reads (maxDepth : Nat) (logSkips : Bool) (cs : List Char) (t t' : OpenTree) : Prop :=
  ∀ (r : Reading) (after : List Char), r.tree maxDepth logSkips = pure t →
    ∃ r' : Reading, r'.tree maxDepth logSkips = pure t' ∧
      r.addAll (withClosing (cs ++ after)) = r'.addAll (withClosing after)

theorem Reads.refl (t : OpenTree) : Reads maxDepth logSkips [] t t :=
  fun r _ h => ⟨r, h, rfl⟩

theorem Reads.trans {xs ys : List Char} {t t' t'' : OpenTree}
    (h : Reads maxDepth logSkips xs t t') (h' : Reads maxDepth logSkips ys t' t'') :
    Reads maxDepth logSkips (xs ++ ys) t t'' := by
  intro r after hr
  obtain ⟨r', hr', heq⟩ := h r (ys ++ after) hr
  obtain ⟨r'', hr'', heq'⟩ := h' r' after hr'
  exact ⟨r'', hr'', by rw [List.append_assoc, heq, heq']⟩

theorem Reads.of_piece {cs : List Char} {p : Piece} {t t' : OpenTree}
    (hread : ∀ (r : Reading) (after : List Char),
      r.addAll (withClosing (cs ++ after)) = (r.add p).addAll (withClosing after))
    (hplace : t.addPiece maxDepth logSkips p = pure t') :
    Reads maxDepth logSkips cs t t' := by
  intro r after hr
  refine ⟨r.add p, ?_, hread r after⟩
  rw [Reading.tree_add, hr, pure_bind, hplace]

theorem Reads.tag {body : List Char} (hbody : Balanced body) {tag : Tag}
    (htag : Tag.parse? body (String.ofList ('<' :: (body ++ ['>']))) = some tag)
    {t t' : OpenTree} (hplace : t.addTag maxDepth logSkips tag = pure t') :
    Reads maxDepth logSkips ('<' :: (body ++ ['>'])) t t' := by
  refine Reads.of_piece (p := .tag tag) (fun r after => ?_) hplace
  have := r.addAll_tag hbody htag after
  simpa using this

/-- A source that reads to `t` from an empty tree has the nodes of `t`. -/
theorem Reads.ofTokens_tokenize {source : String} {t : OpenTree}
    (h : Reads maxDepth logSkips source.toList {} t) :
    Node.ofTokens (tokenize source) maxDepth logSkips = pure t.finish := by
  obtain ⟨r, hr, heq⟩ := h {} [] rfl
  rw [List.append_nil] at heq
  rw [tokenize, heq, show withClosing [] = [] from rfl, Reading.addAll, Reading.ofTokens_flush, hr,
    map_pure]

end Markup

end KineticText
