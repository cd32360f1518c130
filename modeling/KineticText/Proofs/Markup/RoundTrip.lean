import KineticText.Proofs.Markup.Reading
import KineticText.Proofs.Markup.WrittenTag

/-! Trees survive being written.  A written form is read node by node: the text before a tag is
complete when the tag comes, because neighbouring texts are one in normal form, and a closing tag
finds its own element innermost.  Main statement: every tree in normal form that can be written and
is not too deep is what any of its written forms is read as. -/

namespace KineticText.Markup

variable {maxDepth : Nat} {logSkips : Bool}

/-! ### Texts -/

theorem SpelledChar.addAll {c : Char} {spelling : List Char} (h : SpelledChar c spelling)
    (r : Reading) (after : List Char) :
    r.addAll (withClosing (spelling ++ after)) = (r.add (.char c)).addAll (withClosing after) := by
  cases h with
  | lessEscaped | lessEntity | backslash | ampersand | greaterEntity =>
    rw [List.cons_append, Reading.addAll_cons]
    simp only [List.cons_append, List.nil_append, withClosing_cons, piece]
  | itself less backslash ampersand =>
    have hpiece : piece c (Closing.of after).outside (withClosing after) =
        (.char c, withClosing after) := by
      unfold piece
      split <;> first | rfl | contradiction
    rw [List.cons_append, List.nil_append, Reading.addAll_cons, hpiece]

theorem Spelled.reads (maxDepth : Nat) (logSkips : Bool) {content spelling : List Char}
    (h : Spelled content spelling) (t : OpenTree) :
    Reads maxDepth logSkips spelling t (t.addText (String.ofList content)) := by
  induction h generalizing t with
  | nil => exact Reads.refl t
  | @cons c content spelling rest first others ih =>
    have hfirst : Reads maxDepth logSkips spelling t (t.addText (String.singleton c)) :=
      Reads.of_piece first.addAll rfl
    have hrest := ih (t.addText (String.singleton c))
    rw [OpenTree.addText_addText] at hrest
    have hcons : String.singleton c ++ String.ofList content = String.ofList (c :: content) := by
      simp
    rw [hcons] at hrest
    exact hfirst.trans hrest

/-! ### Elements -/

namespace IsWritableTag

variable {name : String} {attributes : List (String × String)} {written : List Char}
  (htag : IsWritableTag name attributes) (hwritten : WrittenAttributes attributes written)
  {enclosing : List OpenElement} (hdepth : enclosing.length < maxDepth) (before : List Node)
include htag hwritten hdepth

theorem reads_opening :
    Reads maxDepth logSkips (bracket (name.toList ++ written)) ⟨enclosing, before, {}⟩
      ⟨⟨name, attributes, before⟩ :: enclosing, [], {}⟩ := by
  refine Reads.tag (htag.balanced_body hwritten) (htag.parse?_opening hwritten _) ?_
  exact if_pos hdepth

theorem reads_selfClosing :
    Reads maxDepth logSkips (bracket (name.toList ++ written ++ ['/'])) ⟨enclosing, before, {}⟩
      ⟨enclosing, .element name attributes [] :: before, {}⟩ := by
  have hslash : Balanced ['/'] := balanced_singleton (by decide) (by decide)
  refine Reads.tag ((htag.balanced_body hwritten).append hslash)
    (htag.parse?_selfClosing hwritten _) ?_
  exact if_pos hdepth

end IsWritableTag

/-- A closing tag ends the innermost element, which has its name. -/
theorem IsWritableTag.reads_closing {name : String} {attributes : List (String × String)}
    (htag : IsWritableTag name attributes) (enclosing : List OpenElement)
    (before children : List Node) :
    Reads maxDepth logSkips (bracket ('/' :: name.toList))
      ⟨⟨name, attributes, before⟩ :: enclosing, children.reverse, {}⟩
      ⟨enclosing, .element name attributes children :: before, {}⟩ := by
  have hslash : Balanced ['/'] := balanced_singleton (by decide) (by decide)
  refine Reads.tag (hslash.append htag.name.isPlain.balanced) (htag.parse?_closing _) ?_
  have hfind : (⟨name, attributes, before⟩ :: enclosing : List OpenElement).findIdx?
      (·.tag == name) = some 0 := by simp [List.findIdx?_cons]
  have hclose : OpenTree.close? ⟨⟨name, attributes, before⟩ :: enclosing, children.reverse, {}⟩
      name = some ⟨enclosing, .element name attributes children :: before, {}⟩ := by
    simp only [OpenTree.close?, hfind]
    simp [OpenTree.closeElements, OpenTree.closeInnermost, SkippedTags.contains]
  simp only [OpenTree.addTag, hclose, Option.getD_some]

/-! ### Trees -/

/-- A written list of nodes is read behind the siblings that are there, unless a text would meet a
text. -/
theorem Written.reads {nodes : List Node} {written : List Char} (h : Written nodes written)
    (hnormal : Node.ListNormal nodes) (hwritable : Node.ListWritable nodes)
    (enclosing : List OpenElement) (before : List Node)
    (hdepth : enclosing.length + Node.listDepth nodes ≤ maxDepth)
    (hmeet : Node.startsWithText nodes = true → Node.startsWithText before = false) :
    Reads maxDepth logSkips written ⟨enclosing, before, {}⟩
      ⟨enclosing, nodes.reverse ++ before, {}⟩ := by
  -- Induction on the written form; the siblings and the open elements vary, because the children
  -- of an element are read with no siblings yet and with one more element open.
  induction h generalizing enclosing before with
  | nil => exact Reads.refl _
  | @text content spelling after rest spelled others ih =>
    obtain ⟨hcontent, hneighbour, hrest⟩ := hnormal
    rw [Node.listDepth] at hdepth
    have htext : Reads maxDepth logSkips spelling ⟨enclosing, before, {}⟩
        ⟨enclosing, .text content :: before, {}⟩ := by
      have := spelled.reads maxDepth logSkips ⟨enclosing, before, {}⟩
      rwa [String.ofList_toList, OpenTree.addText_of_not_text (hmeet rfl) hcontent] at this
    have hothers := ih hrest hwritable.2 enclosing (.text content :: before) (by omega)
      fun hstarts => absurd hstarts (by rw [hneighbour rfl]; decide)
    rw [List.reverse_cons, List.append_assoc]
    exact htext.trans hothers
  | @element tag attributes children rest written inside after attributes_written inner others
      ihInner ihOthers =>
    obtain ⟨hchildren, -, hrest⟩ := hnormal
    obtain ⟨⟨htag, hwritableChildren⟩, hwritableRest⟩ := hwritable
    rw [Node.listDepth, Node.depth] at hdepth
    have hopen : enclosing.length < maxDepth := by omega
    have hinner := ihInner hchildren hwritableChildren (⟨tag, attributes, before⟩ :: enclosing) []
      (by rw [List.length_cons]; omega) fun _ => rfl
    rw [List.append_nil] at hinner
    have hothers := ihOthers hrest hwritableRest enclosing
      (.element tag attributes children :: before) (by omega) fun _ => rfl
    rw [List.reverse_cons, List.append_assoc]
    exact (htag.reads_opening attributes_written hopen before).trans
      (hinner.trans ((htag.reads_closing enclosing before children).trans hothers))
  | @selfClosing tag attributes rest written after attributes_written others ih =>
    obtain ⟨-, -, hrest⟩ := hnormal
    obtain ⟨⟨htag, -⟩, hwritableRest⟩ := hwritable
    rw [Node.listDepth, Node.depth] at hdepth
    have hopen : enclosing.length < maxDepth := by omega
    have hothers := ih hrest hwritableRest enclosing (.element tag attributes [] :: before)
      (by omega) fun _ => rfl
    rw [List.reverse_cons, List.append_assoc rest.reverse]
    exact (htag.reads_selfClosing attributes_written hopen before).trans hothers

/-- A tree in normal form that can be written and is not too deep has a written form, and each of
its written forms is read as the tree, with nothing skipped. -/
theorem ofTokens_tokenize_of_written {nodes : List Node} (hnormal : Node.ListNormal nodes)
    (hwritable : Node.ListWritable nodes) (hdepth : Node.listDepth nodes ≤ maxDepth) :
    (∃ source : String, Written nodes source.toList) ∧
      ∀ source : String, Written nodes source.toList →
        Node.ofTokens (tokenize source) maxDepth logSkips = pure nodes := by
  constructor
  · obtain ⟨written, hwritten⟩ := exists_written nodes hwritable
    exact ⟨String.ofList written, by rwa [String.toList_ofList]⟩
  · intro source hwritten
    have hread : Reads maxDepth logSkips source.toList {} ⟨[], nodes.reverse ++ [], {}⟩ :=
      hwritten.reads hnormal hwritable [] [] (by simpa using hdepth) fun _ => rfl
    rw [hread.ofTokens_tokenize]
    simp [OpenTree.finish, OpenTree.depth, OpenTree.closeElements]

/-- A tree with what could go wrong: brackets and quotes in values, a text of an entity, and texts
that meet only in the source. -/
def hazards : List Node :=
  [.text "<&", .element "fx:a" [("k", "it's > &lt;")] [.element "b" [] [], .text ">"], .text "\\"]

/-- One of the written forms of `hazards` is read back. -/
theorem ofTokens_tokenize_hazards :
    Node.ListNormal hazards ∧ Node.ListWritable hazards ∧ Node.listDepth hazards ≤ 2 ∧
      Written hazards "\\<&amp;<fx:a k=\"it's > &amp;lt;\"><b/>&gt;</fx:a>\\\\".toList ∧
      Node.ofTokens (tokenize "\\<&amp;<fx:a k=\"it's > &amp;lt;\"><b/>&gt;</fx:a>\\\\") 2 true =
        pure hazards := by
  have hnormal : Node.ListNormal hazards := by
    simp [hazards, Node.ListNormal, Node.Normal, Node.isText, Node.startsWithText]
  have houter : IsWritableTag "fx:a" [("k", "it's > &lt;")] := by
    refine ⟨⟨rfl, List.all_eq_true.mp rfl⟩, fun a ha => ?_, fun a ha => ?_⟩ <;>
      rw [List.mem_singleton.mp ha]
    · refine ⟨by decide, fun c hc => ?_, fun c hc => ?_, fun c hc => ?_⟩ <;>
        rw [List.mem_singleton.mp (show c ∈ ['k'] from hc)] <;> decide
    · exact ⟨'"', rfl, by decide⟩
  have hinner : IsWritableTag "b" [] := ⟨⟨rfl, List.all_eq_true.mp rfl⟩, by simp, by simp⟩
  have hwritable : Node.ListWritable hazards :=
    ⟨trivial, ⟨houter, ⟨hinner, trivial⟩, trivial, trivial⟩, trivial, trivial⟩
  have hless : Spelled ['<', '&'] ['\\', '<', '&', 'a', 'm', 'p', ';'] :=
    .cons .lessEscaped (.cons .ampersand .nil)
  have hgreater : Spelled ['>'] ['&', 'g', 't', ';'] := .cons .greaterEntity .nil
  have hback : Spelled ['\\'] ['\\', '\\'] := .cons .backslash .nil
  have hvalue : WrittenAttributes [("k", "it's > &lt;")] _ := .cons (q := '"') rfl (by decide) .nil
  have hwritten : Written hazards _ :=
    @Written.text "<&" _ _ _ hless <|
      .element hvalue (.selfClosing .nil (@Written.text ">" _ _ _ hgreater .nil))
        (@Written.text "\\" _ _ _ hback .nil)
  have hdepth : Node.listDepth hazards ≤ 2 := by decide
  exact ⟨hnormal, hwritable, hdepth, hwritten,
    (ofTokens_tokenize_of_written hnormal hwritable hdepth).2 _ hwritten⟩

end KineticText.Markup
