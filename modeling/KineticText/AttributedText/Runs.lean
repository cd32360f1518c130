import KineticText.AttributedText.Owners

/-! Runs: an attributed text cut where its governing span changes. -/

namespace KineticText

/-- Characters next to each other that one span governs, or none. -/
structure Run where
  extent : Extent
  text : String
  /-- The governing attributes, the outermost first. -/
  attributes : List Attribute

namespace AttributedText

/-- The places where a span may begin or end, and the ends of the text, in order. -/
def boundaries (t : AttributedText) : List Nat :=
  ((0 :: t.length :: t.spans.flatMap fun s => [s.extent.start, s.extent.stop]).mergeSort
    (decide <| · ≤ ·)).eraseReps

/-- Unites neighbours with the same owner. -/
def joinOwned (done : List (Extent × Option Nat)) :
    List (Extent × Option Nat) → List (Extent × Option Nat)
  | [] => done.reverse
  | (extent, owner) :: rest =>
    match done with
    | (before, owner') :: done' =>
      if owner = owner' then joinOwned ((⟨before.start, extent.stop⟩, owner') :: done') rest
      else joinOwned ((extent, owner) :: done) rest
    | [] => joinOwned [(extent, owner)] rest

/-- The longest ranges with one governing span, with the place of that span. -/
def ownedRanges (t : AttributedText) : List (Extent × Option Nat) :=
  if t.isEmpty then []
  else
    let bounds := t.boundaries
    let owners := t.owners
    joinOwned [] ((bounds.zip bounds.tail).map fun (start, stop) =>
      (⟨start, stop⟩, t.owner owners start))

/-- Cuts characters into runs; `chains` holds the attributes of each span. -/
def cut (chains : Array (List Attribute)) (cs : List Char) : List (Extent × Option Nat) → List Run
  | [] => []
  | (extent, owner) :: rest =>
    ⟨extent, String.ofList (cs.take extent.length), (owner.bind (chains[·]?)).getD []⟩ ::
      cut chains (cs.drop extent.length) rest

/-- The longest runs of characters with one governing span, in order. -/
def runs (t : AttributedText) : List Run :=
  cut (t.spans.map Span.attributes).toArray t.raw.toList t.ownedRanges

end AttributedText

end KineticText
