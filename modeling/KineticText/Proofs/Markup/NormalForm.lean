import KineticText.Markup.Node

/-! The shape of trees: how deep their elements stand inside each other, and the normal form in
which no text is empty and no two texts are neighbours, so that a tree is told by what it shows. -/

namespace KineticText.Markup.Node

/-- Whether a node is a text. -/
def isText : Node → Bool
  | text _ => true
  | element _ _ _ => false

/-- Whether a list of nodes starts with a text. -/
def startsWithText : List Node → Bool
  | [] => false
  | node :: _ => node.isText

mutual

/-- How many elements stand inside each other in a node. -/
def depth : Node → Nat
  | text _ => 0
  | element _ _ children => listDepth children + 1

/-- How many elements stand inside each other in a list of nodes. -/
def listDepth : List Node → Nat
  | [] => 0
  | node :: rest => max node.depth (listDepth rest)

end

mutual

/-- A node without empty texts and without neighbouring ones. -/
def Normal : Node → Prop
  | text content => content ≠ ""
  | element _ _ children => ListNormal children

/-- A list of nodes without empty texts and without neighbouring ones. -/
def ListNormal : List Node → Prop
  | [] => True
  | node :: rest =>
    node.Normal ∧ (node.isText = true → startsWithText rest = false) ∧ ListNormal rest

end

end KineticText.Markup.Node
