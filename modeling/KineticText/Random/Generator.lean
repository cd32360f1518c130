import KineticText.Random.Mixing

/-! A seeded generator of 64-bit words by three shifts.  Equal seeds give equal sequences, so an
effect that looks random draws the same frame twice.  The state is never zero, which is the only
state the shifts would not leave. -/

namespace KineticText.Random

/-- The generator, given by its current state. -/
structure Generator where
  state : UInt64
  deriving DecidableEq

namespace Generator

/-- The generator with a seed. -/
def ofSeed (seed : UInt64) : Generator :=
  let state := mix seed 0
  ⟨if state == 0 then goldenGamma else state⟩

/-- The state after one draw. -/
def shift (x : UInt64) : UInt64 :=
  let x := x ^^^ (x <<< 13)
  let x := x ^^^ (x >>> 7)
  x ^^^ (x <<< 17)

/-- Draws a word. -/
def next (g : Generator) : UInt64 × Generator :=
  let state := shift g.state
  (state, ⟨state⟩)

/-- Draws a word below `bound`; nothing is drawn when that is zero, and the word is zero. -/
def below (g : Generator) (bound : UInt64) : UInt64 × Generator :=
  if bound == 0 then (0, g)
  else
    let (x, g) := g.next
    (x % bound, g)

/-- Draws an index of a sequence of `length` elements. -/
def index (g : Generator) (length : Nat) : Nat × Generator :=
  let (x, g) := g.below (UInt64.ofNat length)
  (x.toNat, g)

/-- Draws a word from `lo` to `hi`, both included; nothing is drawn when `hi` is not above `lo`, and
the word is `lo`. -/
def between (g : Generator) (lo hi : UInt64) : UInt64 × Generator :=
  if hi ≤ lo then (lo, g)
  else if hi - lo + 1 == 0 then g.next
  else
    let (x, g) := g.below (hi - lo + 1)
    (lo + x, g)

/-- Draws a float from 0 on and below 1. -/
def unit (g : Generator) : Float × Generator :=
  let (x, g) := g.next
  ((x >>> 11).toFloat / 9007199254740992.0, g)

/-- Draws a float from -1 on and below 1. -/
def signedUnit (g : Generator) : Float × Generator :=
  let (x, g) := g.unit
  (x * 2.0 - 1.0, g)

end Generator

end KineticText.Random
