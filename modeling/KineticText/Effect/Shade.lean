import KineticText.Effect

/-! The colors along a text.  Stops lie at the whole positions from 0, and between two of them
colors blend.  A repeating row of stops goes on from the last to the first, any other ends at both
sides. -/

namespace KineticText

/-- The color at a position between the stops of a row; none without stops. -/
def shade (stops : Array Color) (position : Float) (repeating : Bool) : Option Color :=
  let n := stops.size
  if n < 2 then stops[0]?
  else
    let position := if position.isFinite then position else 0.0
    let p :=
      if repeating then Double.modulo position (Double.ofNat n)
      else Double.clamp 0.0 (Double.ofNat (n - 1)) position
    let k := min (Double.toNat (Double.floor p)) (if repeating then n - 1 else n - 2)
    return Color.lerp (← stops[k]?) (← stops[(k + 1) % n]?) (p - Double.ofNat k)

/-- The position of the character at `index` among `length` ones.  Without a spread, the stops of a
row that ends stretch over the element. -/
def Gradient.position (g : Gradient) (index length : Nat) (ticks : Float) : Float :=
  let travel := Double.ofNat index + ticks * g.flow
  let stops := g.stops.length
  match g.spread with
  | some spread => travel / spread
  | none =>
    if g.repeating || stops < 2 || length < 2 then travel
    else travel * Double.ofNat (stops - 1) / Double.ofNat (length - 1)

/-- The degrees of hue that a tick adds at speed 1. -/
def Rainbow.huePerTick : Float := 3.6

/-- The color of the character at `index`. -/
def Rainbow.color (r : Rainbow) (index : Nat) (ticks : Float) : Color :=
  let hue := Double.ofNat index * 360.0 / r.spread + ticks * r.speed * huePerTick
  .ofHsv hue r.saturation r.brightness

end KineticText
