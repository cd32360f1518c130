import KineticText.Logged
import KineticText.Markup.Token

/-! Trees of elements.  Tokens are placed one by one in a tree whose last branch is still open.  A
closing tag closes the nearest open element of its name and everything opened since; without one it
stays in the text as written, and the end closes what is open.  Tags that would nest too deep are
skipped while their content stays, and a skipped tag is closed like an element. -/

namespace KineticText.Markup

/-- A text or an element. -/
inductive Node
  | text (content : String)
  | element (tag : String) (attributes : List (String × String)) (children : List Node)

namespace Node

mutual

/-- The number of characters of text under a node. -/
def length : Node → Nat
  | text content => content.length
  | element _ _ children => listLength children

/-- The number of characters of text under a list of nodes. -/
def listLength : List Node → Nat
  | [] => 0
  | node :: rest => node.length + listLength rest

end

mutual

/-- The texts under a node in document order. -/
def texts : Node → List String
  | text content => [content]
  | element _ _ children => listTexts children

/-- The texts under a list of nodes in document order. -/
def listTexts : List Node → List String
  | [] => []
  | node :: rest => node.texts ++ listTexts rest

end

/-- The text under a list of nodes, without any markup. -/
def rawText (nodes : List Node) : String := String.join (listTexts nodes)

end Node

/-- An element that is not closed yet, and the siblings before it, the last one first. -/
structure OpenElement where
  tag : String
  attributes : List (String × String)
  before : List Node

theorem SkippedTags.mem_names_nil : ∀ tag ∈ ([] : List String), tag ∈ ([] : List String) :=
  fun _ h => h

/-- Open tags that were skipped.  A list of all names that occur among them tells quickly that a
name is not one of them. -/
structure SkippedTags where
  /-- The names of the tags, the last one first. -/
  tags : List String := []
  names : List String := []
  mem_names : ∀ tag ∈ tags, tag ∈ names := by exact SkippedTags.mem_names_nil

namespace SkippedTags

/-- Adds a tag. -/
def push (s : SkippedTags) (tag : String) : SkippedTags where
  tags := tag :: s.tags
  names := s.names.insert tag
  mem_names := by
    intro other h
    rw [List.mem_insert_iff]
    exact (List.mem_cons.mp h).imp_right (s.mem_names other)

/-- Whether a tag of the name was skipped. -/
def contains (s : SkippedTags) (name : String) : Bool :=
  s.names.contains name && s.tags.contains name

/-- What is left once the last tag of the name is closed, and every tag after it. -/
def close (s : SkippedTags) (name : String) : SkippedTags where
  tags := (s.tags.dropWhile (· != name)).drop 1
  names := s.names
  mem_names tag h := s.mem_names tag
    ((List.dropWhile_sublist _).subset (List.mem_of_mem_drop h))

@[simp] theorem tags_push (s : SkippedTags) (tag : String) : (s.push tag).tags = tag :: s.tags :=
  rfl

@[simp] theorem contains_iff (s : SkippedTags) (name : String) :
    s.contains name = true ↔ name ∈ s.tags := by
  simp only [contains, Bool.and_eq_true, List.contains_iff_mem]
  exact and_iff_right_of_imp (s.mem_names name)

end SkippedTags

/-- A tree whose last branch is open. -/
structure OpenTree where
  /-- The open elements, the innermost first. -/
  enclosing : List OpenElement := []
  /-- The children so far of the innermost open element, the last one first. -/
  nodes : List Node := []
  /-- The open tags that were skipped.  They stand inside every open element, because a tag is
  skipped only when no more elements may open. -/
  skipped : SkippedTags := {}

namespace OpenTree

/-- How many elements are open. -/
def depth (t : OpenTree) : Nat := t.enclosing.length

/-- Adds a node. -/
def push (t : OpenTree) (node : Node) : OpenTree := { t with nodes := node :: t.nodes }

/-- Adds text, as part of the text before it if there is one. -/
def addText (t : OpenTree) (s : String) : OpenTree :=
  if s.isEmpty then t
  else
    match t with
    | ⟨enclosing, .text before :: nodes, skipped⟩ =>
      ⟨enclosing, .text (before ++ s) :: nodes, skipped⟩
    | ⟨enclosing, nodes, skipped⟩ => ⟨enclosing, .text s :: nodes, skipped⟩

/-- Opens an element. -/
def openElement (t : OpenTree) (tag : Tag) : OpenTree :=
  { t with enclosing := ⟨tag.name, tag.attributes, t.nodes⟩ :: t.enclosing, nodes := [] }

/-- Closes the innermost element, and with it every skipped tag, because those stand inside it. -/
def closeInnermost (t : OpenTree) : OpenTree :=
  match t.enclosing with
  | [] => t
  | e :: enclosing =>
    { enclosing, nodes := .element e.tag e.attributes t.nodes.reverse :: e.before, skipped := {} }

/-- Closes the innermost `n` elements. -/
def closeElements (t : OpenTree) : Nat → OpenTree
  | 0 => t
  | n + 1 => t.closeInnermost.closeElements n

/-- Closes what is open since the nearest tag of a name, that one included; `none` when no open tag
has the name. -/
def close? (t : OpenTree) (name : String) : Option OpenTree :=
  if t.skipped.contains name then some { t with skipped := t.skipped.close name }
  else
    (t.enclosing.findIdx? (·.tag == name)).map fun i => t.closeElements (i + 1)

/-- Places a tag, when at most `maxDepth` elements may be open. -/
def addTag (maxDepth : Nat) (logSkips : Bool) (t : OpenTree) (tag : Tag) : Logged OpenTree :=
  match tag.kind with
  | .closing => pure ((t.close? tag.name).getD (t.addText tag.source))
  | .opening =>
    if t.depth < maxDepth then pure (t.openElement tag)
    else do
      Logged.emitIf logSkips (.nestingTooDeep tag.name t.depth maxDepth)
      return { t with skipped := t.skipped.push tag.name }
  | .selfClosing =>
    if t.depth < maxDepth then pure (t.push (.element tag.name tag.attributes []))
    else do
      Logged.emitIf logSkips (.nestingTooDeep tag.name t.depth maxDepth)
      return t

/-- Places a token. -/
def add (maxDepth : Nat) (logSkips : Bool) (t : OpenTree) : Token → Logged OpenTree
  | .text s => pure (t.addText s)
  | .tag tag => t.addTag maxDepth logSkips tag

/-- Closes everything and gives the nodes. -/
def finish (t : OpenTree) : List Node := (t.closeElements t.depth).nodes.reverse

end OpenTree

/-- The tree of a list of tokens, with at most `maxDepth` elements inside each other. -/
def Node.ofTokens (tokens : List Token) (maxDepth : Nat) (logSkips : Bool) : Logged (List Node) :=
  OpenTree.finish <$> Logged.fold (OpenTree.add maxDepth logSkips) {} tokens

end KineticText.Markup
