import KineticText.Attribute

/-! Attributed text: characters, and spans of them with the attributes that govern them.  A span's
chain already holds the attributes of everything around it, so the shortest span over a character
tells all about it. -/

namespace KineticText

/-- A range of characters with the attributes that govern it, the outermost first. -/
structure Span where
  extent : Extent
  attributes : List Attribute
  deriving DecidableEq

namespace Span

/-- The order of spans in a text: by start, and then by end. -/
def inOrder (a b : Span) : Bool :=
  a.extent.start < b.extent.start ||
    (a.extent.start == b.extent.start && a.extent.stop ≤ b.extent.stop)

/-- The part of a span within the first `length` characters. -/
def clamp (length : Nat) (s : Span) : Span :=
  let stop := Nat.min s.extent.stop length
  { s with extent := ⟨Nat.min s.extent.start stop, stop⟩ }

/-- Whether the span governs no character. -/
def isEmpty (s : Span) : Bool := s.extent.start == s.extent.stop

/-- Keeps the first of neighbours over the same characters. -/
def dropRepeats : List Span → List Span
  | a :: b :: rest =>
    if a.extent = b.extent then dropRepeats (a :: rest) else a :: dropRepeats (b :: rest)
  | short => short
termination_by spans => spans.length

end Span

/-- A text and its spans in order. -/
structure AttributedText where
  raw : String
  spans : List Span := []
  deriving DecidableEq

namespace AttributedText

/-- A text without spans. -/
def plain (raw : String) : AttributedText := { raw }

/-- A text with spans, which are cut to the text, put in order and dropped when nothing is left of
them. -/
def ofSpans (raw : String) (spans : List Span) : AttributedText :=
  { raw
    spans := ((spans.map (Span.clamp raw.length)).filter (!·.isEmpty)).mergeSort Span.inOrder }

/-- The number of characters. -/
def length (t : AttributedText) : Nat := t.raw.length

def isEmpty (t : AttributedText) : Bool := t.length == 0

/-- Whether no span governs any character. -/
def isPlain (t : AttributedText) : Bool := t.spans.isEmpty

/-- The place of the shortest span over a character among the spans from `place` on, or the `best`
place and length so far; of two equally short ones the first. -/
def shortestFrom (index place : Nat) (best : Option (Nat × Nat)) : List Span → Option Nat
  | [] => best.map Prod.fst
  | s :: rest =>
    if s.extent.contains index && best.all (s.extent.length < ·.2) then
      shortestFrom index (place + 1) (some (place, s.extent.length)) rest
    else shortestFrom index (place + 1) best rest

/-- The place of the span that governs a character. -/
def spanIndexAt? (t : AttributedText) (index : Nat) : Option Nat :=
  shortestFrom index 0 none t.spans

/-- The attributes that the span at a place has; none without a span. -/
def attributesOf (t : AttributedText) (place : Option Nat) : List Attribute :=
  ((place.bind (t.spans[·]?)).map Span.attributes).getD []

/-- The attributes that govern a character. -/
def attributesAt (t : AttributedText) (index : Nat) : List Attribute :=
  t.attributesOf (t.spanIndexAt? index)

end AttributedText

end KineticText
