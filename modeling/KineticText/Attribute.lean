import KineticText.Params

/-! Attributes: what a tag means for the characters under its element. -/

namespace KineticText

/-- A range of characters, from `start` up to but not including `stop`. -/
structure Extent where
  start : Nat := 0
  stop : Nat := 0
  deriving DecidableEq

namespace Extent

def length (e : Extent) : Nat := e.stop - e.start

def contains (e : Extent) (index : Nat) : Bool := e.start ≤ index && index < e.stop

/-- Whether every character of `inner` lies in `e`. -/
def encloses (e inner : Extent) : Bool := e.start ≤ inner.start && inner.stop ≤ e.stop

/-- The place of a character within the range. -/
def localIndex (e : Extent) (index : Nat) : Nat := index - e.start

end Extent

/-- An effect named by a tag, with its parameters and the characters under the tag's element. -/
structure Attribute where
  id : String
  params : Params := {}
  extent : Extent := {}
  deriving DecidableEq

end KineticText
