import KineticText.Text.Blank
import KineticText.Text.Caseless

/-! Choices: the small sets of named alternatives that effects offer.  Each has its alternatives in
a fixed order, which is also the order of their codes in transport, a name for each, and one that is
taken when none is named. -/

namespace KineticText

/-- A set of named alternatives. -/
class Choice (α : Type) extends Inhabited α where
  /-- The alternatives, in the order of their codes. -/
  all : List α
  /-- The name of an alternative, in small letters. -/
  name : α → String

namespace Choice

variable {α : Type} [Choice α]

/-- The alternative with a name, in any case and with blanks around it. -/
def read? (s : String) : Option α :=
  let word := String.ofList (Text.trim s.toList)
  all.find? fun a => Text.sameName word (name a)

/-- The code of an alternative. -/
def code [BEq α] (a : α) : UInt8 := UInt8.ofNat (all.idxOf a)

/-- The alternative with a code. -/
def ofCode? (code : UInt8) : Option α := all[code.toNat]?

end Choice

/-- When scrambled characters show their filler. -/
inductive ScrambleMode
  /-- Always. -/
  | constant
  /-- Until they are revealed, in order. -/
  | reveal
  /-- From when they are hidden, in order. -/
  | hide
  /-- While they belong to a drifting random subset. -/
  | random
  deriving DecidableEq

instance : Choice ScrambleMode where
  default := .constant
  all := [.constant, .reveal, .hide, .random]
  name
    | .constant => "constant"
    | .reveal => "reveal"
    | .hide => "hide"
    | .random => "random"

/-- The order in which characters are revealed or hidden. -/
inductive Direction
  /-- First to last. -/
  | left
  /-- Last to first. -/
  | right
  /-- From the middle outward, the left one of a pair first. -/
  | center
  /-- From both ends inward, the left one of a pair first. -/
  | edges
  /-- A seeded shuffle. -/
  | random
  deriving DecidableEq

instance : Choice Direction where
  default := .left
  all := [.left, .right, .center, .edges, .random]
  name
    | .left => "left"
    | .right => "right"
    | .center => "center"
    | .edges => "edges"
    | .random => "random"

/-- Where the filler of scrambled characters comes from. -/
inductive Alphabet
  /-- Any printable character of ASCII. -/
  | glyphset
  /-- Letters and digits of ASCII. -/
  | readable
  deriving DecidableEq

instance : Choice Alphabet where
  default := .glyphset
  all := [.glyphset, .readable]
  name
    | .glyphset => "glyphset"
    | .readable => "readable"

/-- How characters move. -/
inductive Motion
  /-- Up and down on a sine. -/
  | wave
  /-- Around a circle. -/
  | circle
  /-- To random places. -/
  | random
  deriving DecidableEq

instance : Choice Motion where
  default := .random
  all := [.wave, .circle, .random]
  name
    | .wave => "wave"
    | .circle => "circle"
    | .random => "random"

end KineticText
