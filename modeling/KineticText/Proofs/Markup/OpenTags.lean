import Mathlib.Data.List.TakeWhile
import KineticText.Proofs.Markup.Limits
import KineticText.Proofs.Markup.Outline

/-! Which tags are open.  A tag that is skipped is open like one that makes an element, so the open
tags are told by the tokens alone and the limit on nesting has no say in them.  The limit decides
which of them are elements: the outermost ones, as many as it allows.  With the open tags at hand,
each token adds signs to the outline of the tree that can be read off the token.  Main statement:
the text of a tree is what the tokens have of text, with the closing tags that close nothing. -/

namespace KineticText.Markup

/-! ### What tokens say -/

/-- The names of the open tags once the nearest one of a name is closed, with every tag since. -/
def closeNearest (name : String) (names : List String) : List String :=
  (names.dropWhile (· != name)).drop 1

/-- The names of the open tags after a token, the last opened first.  A closing tag that finds none
of its name closes nothing. -/
def Token.openAfter (names : List String) : Token → List String
  | .text _ => names
  | .tag t =>
    match t.kind with
    | .opening => t.name :: names
    | .selfClosing => names
    | .closing => if t.name ∈ names then closeNearest t.name names else names

/-- What stays of a token as text when tags of these names are open. -/
def Token.literal (names : List String) : Token → String
  | .text s => s
  | .tag t => if t.kind = .closing ∧ t.name ∉ names then t.source else ""

/-- What stays of tokens as text, token by token. -/
def literals (names : List String) : List Token → List String
  | [] => []
  | token :: rest => token.literal names :: literals (token.openAfter names) rest

/-- The signs that a token adds to an outline in which tags of these names are open. -/
def Token.signs (maxDepth : Nat) (names : List String) : Token → List Sign
  | .text s => signsOf s
  | .tag t =>
    match t.kind with
    | .opening => if names.length < maxDepth then [.opening t.name t.attributes] else []
    | .selfClosing =>
      if names.length < maxDepth then [.opening t.name t.attributes, .closing] else []
    | .closing =>
      if t.name ∈ names then
        -- Among the tags that are closed here, only the outermost ones are elements.
        List.replicate (min maxDepth names.length -
          min maxDepth (closeNearest t.name names).length) .closing
      else signsOf t.source

/-- The signs that tokens add, and the ends of what is open after them. -/
def signsFrom (maxDepth : Nat) (names : List String) : List Token → List Sign
  | [] => List.replicate (min maxDepth names.length) .closing
  | token :: rest => token.signs maxDepth names ++ signsFrom maxDepth (token.openAfter names) rest

/-! ### Closing tags -/

theorem closeNearest_append_of_mem {name : String} {names : List String} (h : name ∈ names)
    (others : List String) :
    closeNearest name (names ++ others) = closeNearest name names ++ others := by
  have hne : names.dropWhile (· != name) ≠ [] := by
    intro hnil
    rw [List.dropWhile_eq_nil_iff] at hnil
    exact absurd (hnil name h) (by simp)
  rw [closeNearest, closeNearest, List.dropWhile_append, if_neg (by simpa using hne),
    List.drop_append_of_le_length (List.length_pos_iff.mpr hne)]

theorem closeNearest_append_of_not_mem {name : String} {names : List String} (h : name ∉ names)
    (others : List String) : closeNearest name (names ++ others) = closeNearest name others := by
  have hall : names.dropWhile (· != name) = [] := by
    rw [List.dropWhile_eq_nil_iff]
    intro other hother
    rw [bne_iff_ne]
    rintro rfl
    exact h hother
  rw [closeNearest, List.dropWhile_append, if_pos (by rw [hall]; rfl), closeNearest]

theorem closeNearest_eq_drop (name : String) (names : List String) :
    closeNearest name names = names.drop (names.findIdx (· == name) + 1) := by
  have hnot : (fun other => !(other != name)) = (· == name) := by
    funext other
    rw [bne, Bool.not_not]
  rw [closeNearest, List.dropWhile_eq_drop_findIdx_not, List.drop_drop, hnot]

/-! ### Trees that are open -/

namespace OpenTree

variable {maxDepth : Nat} {logSkips : Bool}

/-- The names of the open tags, the last opened first. -/
def openTags (t : OpenTree) : List String := t.skipped.tags ++ t.enclosing.map (·.tag)

/-- The outline down to where the children of the innermost open element begin. -/
def outlineBefore : List OpenElement → List Sign
  | [] => []
  | e :: enclosing =>
    outlineBefore enclosing ++ (Node.listOutline e.before.reverse ++ [.opening e.tag e.attributes])

/-- The outline of what stands in the tree so far. -/
def outline (t : OpenTree) : List Sign :=
  outlineBefore t.enclosing ++ Node.listOutline t.nodes.reverse

/-- The tree has these open tags and this outline; as many of the tags are elements as may be. -/
structure Stands (maxDepth : Nat) (names : List String) (signs : List Sign) (t : OpenTree) :
    Prop where
  openTags : t.openTags = names
  depth : t.depth = min maxDepth names.length
  outline : t.outline = signs

theorem skipped_addText (t : OpenTree) (s : String) : (t.addText s).skipped = t.skipped := by
  unfold addText
  split
  · rfl
  · split <;> rfl

theorem outline_addText (t : OpenTree) (s : String) :
    (t.addText s).outline = t.outline ++ signsOf s := by
  unfold addText
  split
  · rename_i hempty
    rw [String.isEmpty_iff.mp hempty]
    simp [signsOf]
  · split
    · simp [outline, Node.listOutline_append, Node.listOutline, Node.outline, signsOf_append]
    · simp [outline, Node.listOutline_append, Node.listOutline, Node.outline]

theorem outline_closeElements (t : OpenTree) {n : Nat} (h : n ≤ t.depth) :
    (t.closeElements n).outline = t.outline ++ List.replicate n .closing := by
  induction n generalizing t with
  | zero => rw [List.replicate_zero, List.append_nil, closeElements]
  | succ n ih =>
    obtain ⟨enclosing, nodes, skipped⟩ := t
    cases enclosing with
    | nil => exact absurd h (Nat.not_succ_le_zero n)
    | cons e enclosing =>
      have hclose : outline ⟨enclosing, .element e.tag e.attributes nodes.reverse :: e.before, {}⟩ =
          outline ⟨e :: enclosing, nodes, skipped⟩ ++ [.closing] := by
        simp [outline, outlineBefore, Node.listOutline_append, Node.listOutline, Node.outline]
      have hrest : n ≤ depth ⟨enclosing, .element e.tag e.attributes nodes.reverse :: e.before, {}⟩ :=
        Nat.le_of_succ_le_succ h
      rw [closeElements, closeInnermost, ih _ hrest, hclose, List.append_assoc,
        List.replicate_succ, List.singleton_append]

theorem skipped_closeElements (t : OpenTree) {n : Nat} (h : n + 1 ≤ t.depth) :
    (t.closeElements (n + 1)).skipped.tags = [] := by
  induction n generalizing t with
  | zero =>
    obtain ⟨enclosing, nodes, skipped⟩ := t
    cases enclosing with
    | nil => exact absurd h (Nat.not_succ_le_zero 0)
    | cons e enclosing => rfl
  | succ n ih =>
    obtain ⟨enclosing, nodes, skipped⟩ := t
    cases enclosing with
    | nil => exact absurd h (Nat.not_succ_le_zero _)
    | cons e enclosing => exact ih _ (Nat.le_of_succ_le_succ h)

namespace Stands

variable {names : List String} {signs : List Sign} {t : OpenTree}

theorem addText (h : Stands maxDepth names signs t) (s : String) :
    Stands maxDepth names (signs ++ signsOf s) (t.addText s) := by
  refine ⟨?_, ?_, ?_⟩
  · rw [OpenTree.openTags, skipped_addText, enclosing_addText]
    exact h.openTags
  · rw [OpenTree.depth, enclosing_addText]
    exact h.depth
  · rw [outline_addText, h.outline]

/-- A skipped tag stands inside as many elements as may be open. -/
theorem maxDepth_le (h : Stands maxDepth names signs t) (hskipped : t.skipped.tags ≠ []) :
    maxDepth ≤ t.depth := by
  have hdepth := h.depth
  have hpos := List.length_pos_iff.mpr hskipped
  rw [← h.openTags, OpenTree.openTags, List.length_append, List.length_map] at hdepth
  rw [OpenTree.depth] at *
  omega

theorem closeSkipped (h : Stands maxDepth names signs t) {name : String}
    (hname : name ∈ t.skipped.tags) :
    Stands maxDepth (closeNearest name names)
      (signs ++ List.replicate (min maxDepth names.length -
        min maxDepth (closeNearest name names).length) .closing)
      { t with skipped := t.skipped.close name } := by
  have htags : closeNearest name names = (t.skipped.close name).tags ++ t.enclosing.map (·.tag) := by
    rw [← h.openTags, OpenTree.openTags, closeNearest_append_of_mem hname]
    rfl
  have hmax := h.maxDepth_le (List.ne_nil_of_mem hname)
  have hdepth := h.depth
  -- What is closed stands beyond the limit, so no element ends.
  have hlength : (closeNearest name names).length = (t.skipped.close name).tags.length + t.depth := by
    rw [htags, List.length_append, List.length_map, OpenTree.depth]
  have hnone : min maxDepth names.length - min maxDepth (closeNearest name names).length = 0 := by
    omega
  refine ⟨htags.symm, ?_, ?_⟩
  · show t.depth = _
    omega
  · rw [hnone, List.replicate_zero, List.append_nil]
    exact h.outline

theorem closeElements (h : Stands maxDepth names signs t) {name : String} {i : Nat}
    (hname : name ∉ t.skipped.tags)
    (hfind : t.enclosing.findIdx? (·.tag == name) = some i) :
    name ∈ names ∧ Stands maxDepth (closeNearest name names)
      (signs ++ List.replicate (min maxDepth names.length -
        min maxDepth (closeNearest name names).length) .closing)
      (t.closeElements (i + 1)) := by
  obtain ⟨hlt, hindex⟩ := List.findIdx?_eq_some_iff_findIdx_eq.mp hfind
  have hle : i + 1 ≤ t.depth := hlt
  have htags : closeNearest name names = (t.enclosing.drop (i + 1)).map (·.tag) := by
    rw [← h.openTags, OpenTree.openTags, closeNearest_append_of_not_mem hname,
      closeNearest_eq_drop, List.findIdx_map, List.map_drop, ← hindex]
    rfl
  have hdepth := h.depth
  have hlength : (closeNearest name names).length = t.depth - (i + 1) := by
    rw [htags, List.length_map, List.length_drop, OpenTree.depth]
  have hends : min maxDepth names.length - min maxDepth (closeNearest name names).length = i + 1 := by
    omega
  refine ⟨?_, ?_, ?_, ?_⟩
  · rw [← h.openTags, OpenTree.openTags]
    obtain ⟨e, he, hname⟩ := List.findIdx_lt_length.mp (hindex ▸ hlt)
    exact List.mem_append_right _ (List.mem_map.mpr ⟨e, he, eq_of_beq hname⟩)
  · rw [OpenTree.openTags, skipped_closeElements t hle, enclosing_closeElements, htags,
      List.nil_append]
  · rw [OpenTree.depth, enclosing_closeElements, List.length_drop, hlength]
    rw [OpenTree.depth] at *
    omega
  · rw [outline_closeElements t hle, hends, h.outline]

/-- A closing tag closes the nearest tag of its name, or it is text. -/
theorem closeTag (h : Stands maxDepth names signs t) (name source : String) :
    Stands maxDepth (if name ∈ names then closeNearest name names else names)
      (signs ++ if name ∈ names then List.replicate (min maxDepth names.length -
        min maxDepth (closeNearest name names).length) .closing else signsOf source)
      ((t.close? name).getD (t.addText source)) := by
  unfold close?
  by_cases hskipped : name ∈ t.skipped.tags
  · have hmem : name ∈ names := by
      rw [← h.openTags, OpenTree.openTags]
      exact List.mem_append_left _ hskipped
    simp only [if_pos hmem, if_pos ((SkippedTags.contains_iff _ _).mpr hskipped)]
    exact h.closeSkipped hskipped
  · simp only [if_neg fun hcontains => hskipped ((SkippedTags.contains_iff _ _).mp hcontains)]
    cases hfind : t.enclosing.findIdx? (·.tag == name) with
    | none =>
      have hmem : name ∉ names := by
        rw [← h.openTags, OpenTree.openTags, List.mem_append, List.mem_map]
        rintro (hmem | ⟨e, he, hname⟩)
        · exact hskipped hmem
        · exact absurd (List.findIdx?_eq_none_iff.mp hfind e he) (by simp [hname])
      simp only [if_neg hmem]
      exact h.addText source
    | some i =>
      obtain ⟨hmem, hclosed⟩ := h.closeElements hskipped hfind
      simp only [if_pos hmem]
      exact hclosed

theorem openElement (h : Stands maxDepth names signs t) (tag : Tag)
    (hlt : names.length < maxDepth) :
    Stands maxDepth (tag.name :: names) (signs ++ [.opening tag.name tag.attributes])
      (t.openElement tag) := by
  have hdepth := h.depth
  have hempty : t.skipped.tags = [] := by
    by_contra hskipped
    have hmax := h.maxDepth_le hskipped
    omega
  have htags := h.openTags
  rw [OpenTree.openTags, hempty, List.nil_append] at htags
  refine ⟨?_, ?_, ?_⟩
  · show t.skipped.tags ++ tag.name :: t.enclosing.map (·.tag) = _
    rw [hempty, htags, List.nil_append]
  · show t.depth + 1 = min maxDepth (names.length + 1)
    omega
  · rw [← h.outline]
    simp [OpenTree.outline, OpenTree.openElement, outlineBefore, Node.listOutline]

theorem skipTag (h : Stands maxDepth names signs t) (name : String)
    (hge : ¬ names.length < maxDepth) :
    Stands maxDepth (name :: names) signs { t with skipped := t.skipped.push name } := by
  have hdepth := h.depth
  refine ⟨congrArg (name :: ·) h.openTags, ?_, h.outline⟩
  show t.depth = min maxDepth (names.length + 1)
  omega

theorem pushElement (h : Stands maxDepth names signs t) (tag : String)
    (attributes : List (String × String)) :
    Stands maxDepth names (signs ++ [.opening tag attributes, .closing])
      (t.push (.element tag attributes [])) := by
  refine ⟨h.openTags, h.depth, ?_⟩
  rw [← h.outline]
  simp [OpenTree.outline, push, Node.listOutline_append, Node.listOutline, Node.outline]

/-- A token changes the open tags as it says and adds the signs that it has. -/
theorem add (h : Stands maxDepth names signs t) (token : Token) :
    Stands maxDepth (token.openAfter names) (signs ++ token.signs maxDepth names)
      (t.add maxDepth logSkips token).value := by
  have hroom : t.depth < maxDepth ↔ names.length < maxDepth := by
    have hdepth := h.depth
    omega
  cases token with
  | text s => exact h.addText s
  | tag tag =>
    obtain ⟨kind, name, attributes, source⟩ := tag
    cases kind with
    | closing => exact h.closeTag name source
    | opening =>
      simp only [OpenTree.add, addTag, Token.openAfter, Token.signs, hroom]
      split
      · rename_i hlt
        exact h.openElement ⟨.opening, name, attributes, source⟩ hlt
      · rename_i hge
        rw [List.append_nil]
        exact h.skipTag name hge
    | selfClosing =>
      simp only [OpenTree.add, addTag, Token.openAfter, Token.signs, hroom]
      split
      · exact h.pushElement name attributes
      · rw [List.append_nil]
        exact h

theorem fold (h : Stands maxDepth names signs t) (tokens : List Token) :
    Node.listOutline (Logged.fold (OpenTree.add maxDepth logSkips) t tokens).value.finish =
      signs ++ signsFrom maxDepth names tokens := by
  rw [Logged.value_fold]
  induction tokens generalizing t names signs with
  | nil =>
    have hclosed := t.outline_closeElements (Nat.le_refl t.depth)
    have hopen : (t.closeElements t.depth).enclosing = [] := by
      rw [enclosing_closeElements, List.drop_eq_nil_iff]
      exact Nat.le_refl _
    rw [OpenTree.outline, hopen, h.outline, h.depth] at hclosed
    rw [signsFrom, ← hclosed, ← h.depth]
    rfl
  | cons token tokens ih =>
    rw [List.foldl_cons, signsFrom, ← List.append_assoc]
    exact ih (h.add token)

end Stands

end OpenTree

section

variable (maxDepth : Nat) (logSkips : Bool)

/-- The outline of a tree can be read off its tokens. -/
theorem listOutline_ofTokens (tokens : List Token) :
    Node.listOutline (Node.ofTokens tokens maxDepth logSkips).value =
      signsFrom maxDepth [] tokens := by
  have hempty : OpenTree.Stands maxDepth [] [] {} := ⟨rfl, (Nat.min_zero maxDepth).symm, rfl⟩
  rw [Node.ofTokens, Logged.value_map]
  exact hempty.fold tokens

/-! ### Text -/

theorem filterMap_replicate_closing (n : Nat) :
    (List.replicate n Sign.closing).filterMap Sign.char? = [] :=
  List.filterMap_replicate_of_none rfl

theorem Token.filterMap_signs (token : Token) (names : List String) :
    (token.signs maxDepth names).filterMap Sign.char? = (token.literal names).toList := by
  cases token with
  | text s => exact filterMap_signsOf s
  | tag tag =>
    obtain ⟨kind, name, attributes, source⟩ := tag
    cases kind with
    | opening | selfClosing =>
      by_cases hlt : names.length < maxDepth <;> simp [signs, literal, hlt, Sign.char?]
    | closing =>
      by_cases hmem : name ∈ names
      · simp [signs, literal, hmem, Sign.char?]
      · simp [signs, literal, hmem, filterMap_signsOf]

theorem filterMap_signsFrom (tokens : List Token) (names : List String) :
    (signsFrom maxDepth names tokens).filterMap Sign.char? =
      (String.join (literals names tokens)).toList := by
  induction tokens generalizing names with
  | nil => exact filterMap_replicate_closing _
  | cons token tokens ih =>
    rw [signsFrom, List.filterMap_append, token.filterMap_signs, ih, literals, String.join_cons,
      String.toList_append]

/-- The text of a tree is what stays of its tokens as text, whatever the limit on nesting. -/
theorem rawText_ofTokens (tokens : List Token) :
    Node.rawText (Node.ofTokens tokens maxDepth logSkips).value =
      String.join (literals [] tokens) := by
  rw [← String.toList_inj, ← Node.filterMap_listOutline, listOutline_ofTokens, filterMap_signsFrom]

/-- Flattening the tree of tokens keeps, in the order of the tokens, every text and every closing
tag that closes nothing, and no other character. -/
theorem raw_flatten_ofTokens (registry : Registry) (logUnknown : Bool) (tokens : List Token) :
    (flatten registry logUnknown (Node.ofTokens tokens maxDepth logSkips).value).value.raw =
      String.join (literals [] tokens) :=
  rawText_ofTokens maxDepth logSkips tokens

end

end KineticText.Markup
