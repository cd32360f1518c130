import KineticText.Proofs.Markup.Flattening
import KineticText.Proofs.Markup.NormalForm

/-! The outline of a tree: its characters from left to right, with a sign wherever an element begins
or ends.  The text of a tree is what its outline has of characters.  An outline does not tell where
one text ends and the next begins, which in normal form cannot be asked.  Main statement: trees in
normal form that have one outline are one tree. -/

namespace KineticText.Markup

/-- What a reader passes on the way through a tree. -/
inductive Sign
  | char (c : Char)
  | opening (tag : String) (attributes : List (String × String))
  | closing

/-- The character of a sign that is one. -/
def Sign.char? : Sign → Option Char
  | char c => some c
  | opening .. | closing => none

/-- The signs of a text. -/
def signsOf (s : String) : List Sign := s.toList.map .char

theorem signsOf_append (s u : String) : signsOf (s ++ u) = signsOf s ++ signsOf u := by
  simp [signsOf]

theorem filterMap_signsOf (s : String) : (signsOf s).filterMap Sign.char? = s.toList := by
  simp [signsOf, List.filterMap_map, Function.comp_def, Sign.char?]

namespace Node

mutual

/-- The outline of a node. -/
def outline : Node → List Sign
  | text content => signsOf content
  | element tag attributes children => .opening tag attributes :: (listOutline children ++ [.closing])

/-- The outline of a list of nodes. -/
def listOutline : List Node → List Sign
  | [] => []
  | node :: rest => node.outline ++ listOutline rest

end

theorem listOutline_text (content : String) (rest : List Node) :
    listOutline (.text content :: rest) = signsOf content ++ listOutline rest := by
  rw [listOutline, outline]

theorem listOutline_element (tag : String) (attributes : List (String × String))
    (children rest : List Node) :
    listOutline (.element tag attributes children :: rest) =
      .opening tag attributes :: (listOutline children ++ .closing :: listOutline rest) := by
  rw [listOutline, outline, List.cons_append, List.append_assoc, List.singleton_append]

theorem listOutline_append (xs ys : List Node) :
    listOutline (xs ++ ys) = listOutline xs ++ listOutline ys := by
  induction xs with
  | nil => rfl
  | cons x xs ih => rw [List.cons_append, listOutline, listOutline, ih, List.append_assoc]

/-- The text of a tree is what its outline has of characters. -/
theorem filterMap_listOutline (nodes : List Node) :
    (listOutline nodes).filterMap Sign.char? = (rawText nodes).toList := by
  induction nodes using listInduction with
  | nil => rfl
  | text content rest ih =>
    rw [listOutline_text, List.filterMap_append, filterMap_signsOf, ih, rawText_text,
      String.toList_append]
  | element tag attributes children rest ihChildren ihRest =>
    rw [listOutline_element, rawText_element, String.toList_append, ← ihChildren, ← ihRest]
    rw [List.filterMap_cons_none rfl, List.filterMap_append, List.filterMap_cons_none rfl]

/-! ### Trees that have one outline -/

/-- Whether a character comes first. -/
def startsWithChar : List Sign → Bool
  | .char _ :: _ => true
  | _ => false

/-- What can come after siblings: nothing, or the end of the element around them. -/
inductive AfterSiblings : List Sign → Prop
  | nothing : AfterSiblings []
  | closing (rest : List Sign) : AfterSiblings (.closing :: rest)

theorem startsWithChar_text {content : String} (h : content ≠ "") (rest : List Sign) :
    startsWithChar (signsOf content ++ rest) = true := by
  obtain ⟨c, cs, hcontent⟩ := List.exists_cons_of_ne_nil fun hnil => h (String.toList_eq_nil_iff.mp hnil)
  rw [signsOf, hcontent]
  rfl

theorem startsWithChar_eq_false {nodes : List Node} (hnodes : startsWithText nodes = false)
    {rest : List Sign} (hrest : AfterSiblings rest) :
    startsWithChar (listOutline nodes ++ rest) = false := by
  match nodes, hnodes with
  | [], _ => cases hrest <;> rfl
  | .element .. :: _, _ => rw [listOutline_element]; rfl

/-- Two texts before something else are told apart. -/
theorem signsOf_append_inj {s u : String} {xs ys : List Sign} (hxs : startsWithChar xs = false)
    (hys : startsWithChar ys = false) (h : signsOf s ++ xs = signsOf u ++ ys) :
    s = u ∧ xs = ys := by
  suffices hchars : ∀ cs ds : List Char,
      cs.map Sign.char ++ xs = ds.map Sign.char ++ ys → cs = ds ∧ xs = ys by
    obtain ⟨hlist, hrest⟩ := hchars s.toList u.toList h
    exact ⟨String.toList_inj.mp hlist, hrest⟩
  intro cs
  induction cs with
  | nil =>
    intro ds heq
    cases ds with
    | nil => exact ⟨rfl, heq⟩
    | cons d ds => rw [List.map_nil, List.nil_append] at heq; subst heq; cases hxs
  | cons c cs ih =>
    intro ds heq
    cases ds with
    | nil => rw [List.map_nil, List.nil_append] at heq; subst heq; cases hys
    | cons d ds =>
      obtain ⟨hhead, htail⟩ := List.cons.inj heq
      obtain ⟨rfl, hrest⟩ := ih ds htail
      exact ⟨congrArg (· :: cs) (Sign.char.inj hhead), hrest⟩

/-- Siblings in normal form are told apart, whatever comes after them. -/
theorem listOutline_append_inj {xs ys : List Node} (hxs : ListNormal xs) (hys : ListNormal ys)
    {rest rest' : List Sign} (hrest : AfterSiblings rest) (hrest' : AfterSiblings rest')
    (h : listOutline xs ++ rest = listOutline ys ++ rest') : xs = ys ∧ rest = rest' := by
  -- The first sign tells what the first node is, so the two lists begin alike.
  induction xs using listInduction generalizing ys rest rest' with
  | nil =>
    match ys, hys with
    | [], _ => exact ⟨rfl, h⟩
    | .text content :: ys, hys =>
      rw [listOutline_text, List.append_assoc] at h
      have hchar := startsWithChar_text hys.1 (listOutline ys ++ rest')
      rw [← h, startsWithChar_eq_false rfl hrest] at hchar
      cases hchar
    | .element .. :: ys, _ =>
      rw [listOutline_element] at h
      cases hrest <;> cases h
  | text content others ih =>
    obtain ⟨hcontent, hneighbour, hothers⟩ := hxs
    rw [listOutline_text, List.append_assoc] at h
    have hchar := startsWithChar_text hcontent (listOutline others ++ rest)
    match ys, hys with
    | [], _ =>
      rw [h, startsWithChar_eq_false rfl hrest'] at hchar
      cases hchar
    | .text content' :: ys, hys =>
      obtain ⟨-, hneighbour', hys⟩ := hys
      rw [listOutline_text, List.append_assoc] at h
      obtain ⟨rfl, htail⟩ := signsOf_append_inj
        (startsWithChar_eq_false (hneighbour rfl) hrest)
        (startsWithChar_eq_false (hneighbour' rfl) hrest') h
      obtain ⟨rfl, hafter⟩ := ih hothers hys hrest hrest' htail
      exact ⟨rfl, hafter⟩
    | .element .. :: ys, _ =>
      rw [h, listOutline_element] at hchar
      cases hchar
  | element tag attributes children others ihChildren ihRest =>
    obtain ⟨hchildren, -, hothers⟩ := hxs
    rw [listOutline_element] at h
    match ys, hys with
    | [], _ => cases hrest' <;> cases h
    | .text content :: ys, hys =>
      rw [listOutline_text, List.append_assoc] at h
      have hchar := startsWithChar_text hys.1 (listOutline ys ++ rest')
      rw [← h] at hchar
      cases hchar
    | .element tag' attributes' children' :: ys, hys =>
      obtain ⟨hchildren', -, hys⟩ := hys
      rw [listOutline_element] at h
      simp only [List.cons_append, List.append_assoc, List.cons.injEq, Sign.opening.injEq] at h
      obtain ⟨⟨rfl, rfl⟩, hinner⟩ := h
      obtain ⟨rfl, houter⟩ := ihChildren hchildren hchildren' (.closing _) (.closing _) hinner
      obtain ⟨rfl, hafter⟩ := ihRest hothers hys hrest hrest' (List.cons.inj houter).2
      exact ⟨rfl, hafter⟩

/-- A tree in normal form is told by its outline. -/
theorem eq_of_listOutline_eq {xs ys : List Node} (hxs : ListNormal xs) (hys : ListNormal ys)
    (h : listOutline xs = listOutline ys) : xs = ys :=
  (listOutline_append_inj hxs hys .nothing .nothing (by rw [h])).1

end Node

end KineticText.Markup
