import KineticText.AttributedText
import KineticText.Markup.Node
import KineticText.Registry

/-! From trees to attributed text.  Every element is resolved with the attributes of the elements
around it.  One that adds attributes and has text becomes a span with all attributes down to its
own; elements over the same characters are one span, that of the innermost. -/

namespace KineticText.Markup

/-- The attributes that an element over `extent` adds to its chain. -/
def ownAttributes (registry : Registry) (logUnknown : Bool) (chain : List Attribute)
    (tag : String) (attributes : List (String × String)) (extent : Extent) :
    Logged (List Attribute) := do
  match ← registry.resolve tag (Params.ofTexts attributes) chain with
  | some own => return own.map fun a => { a with extent }
  | none =>
    Logged.emitIf logUnknown (.unknownTag tag)
    return []

mutual

/-- The spans of a node whose text starts at `offset`, inner ones before outer ones. -/
def Node.spans (registry : Registry) (logUnknown : Bool) (chain : List Attribute) (offset : Nat) :
    Node → Logged (List Span)
  | .text _ => pure []
  | .element tag attributes children => do
    let extent : Extent := ⟨offset, offset + Node.listLength children⟩
    let own ← ownAttributes registry logUnknown chain tag attributes extent
    let inner ← Node.listSpans registry logUnknown (chain ++ own) offset children
    return if own.isEmpty || extent.length == 0 then inner else inner ++ [⟨extent, chain ++ own⟩]

/-- The spans of a list of nodes whose text starts at `offset`. -/
def Node.listSpans (registry : Registry) (logUnknown : Bool) (chain : List Attribute)
    (offset : Nat) : List Node → Logged (List Span)
  | [] => pure []
  | node :: rest => do
    let first ← Node.spans registry logUnknown chain offset node
    let others ← Node.listSpans registry logUnknown chain (offset + node.length) rest
    return first ++ others

end

/-- The attributed text of a tree. -/
def flatten (registry : Registry) (logUnknown : Bool) (nodes : List Node) :
    Logged AttributedText := do
  let spans ← Node.listSpans registry logUnknown [] 0 nodes
  return .ofSpans (Node.rawText nodes) (Span.dropRepeats (spans.mergeSort Span.inOrder))

end KineticText.Markup
