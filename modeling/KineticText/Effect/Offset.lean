import KineticText.Effect
import KineticText.Random.Generator

/-! How far a shaken character is from its place.  The offset depends on the ticks, the character's
place in its element and a seed alone, so a frame can be drawn again. -/

namespace KineticText.Shake

/-- The phase that a tick adds at speed 1. -/
def phasePerTick : Float := 0.05

/-- The phase between neighbours. -/
def phasePerCharacter : Float := 0.1

/-- A full turn in radians. -/
def fullTurn : Float := 6.283185307179586

/-- The angle of the character at `index`, in radians. -/
def angle (s : Shake) (ticks : Float) (index : Nat) : Float :=
  (ticks * phasePerTick * s.speed + Double.ofNat index * phasePerCharacter) * fullTurn /
    s.wavelength

/-- The generator for the character at `index`, which changes with every whole tick at speed 1. -/
def generator (s : Shake) (ticks : Float) (index : Nat) (seed : UInt64) : Random.Generator :=
  let bucket := (Double.floor (ticks * s.speed)).toUInt64
  .ofSeed (Random.mix (seed ^^^ bucket) (UInt64.ofNat index))

/-- The offset of the character at `index`, to the right and downward in pixels. -/
def offset (s : Shake) (ticks : Float) (index : Nat) (seed : UInt64) : Float × Float :=
  let angle := s.angle ticks index
  match s.motion with
  | .wave => (0.0, angle.sin * s.amplitude)
  | .circle => (angle.cos * s.amplitude, angle.sin * s.amplitude)
  | .random =>
    let (x, g) := (s.generator ticks index seed).signedUnit
    let (y, _) := g.signedUnit
    (x * s.amplitude, y * s.amplitude)

end KineticText.Shake
