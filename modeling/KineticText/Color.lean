import KineticText.Number.Double

/-! Colors with an alpha channel, packed into 32 bits.  Blending works on each channel in whole
numbers with a weight in 256ths, so the ends of a blend are met exactly. -/

namespace KineticText

/-- A color, as `0xAARRGGBB`. -/
structure Color where
  argb : UInt32
  deriving DecidableEq

namespace Color

/-- The color with the given alpha, red, green and blue. -/
def ofChannels (a r g b : UInt8) : Color :=
  ⟨(a.toUInt32 <<< 24) ||| (r.toUInt32 <<< 16) ||| (g.toUInt32 <<< 8) ||| b.toUInt32⟩

/-- The color with the given red, green and blue that hides what is behind it. -/
def opaqueOf (r g b : UInt8) : Color := ofChannels 255 r g b

/-- Opaque white. -/
def white : Color := ⟨0xFFFFFFFF⟩

/-- The channel that starts at bit `shift`. -/
def channel (c : Color) (shift : UInt32) : UInt8 := (c.argb >>> shift).toUInt8

def alpha (c : Color) : UInt8 := c.channel 24

def red (c : Color) : UInt8 := c.channel 16

def green (c : Color) : UInt8 := c.channel 8

def blue (c : Color) : UInt8 := c.channel 0

/-- The color with its alpha replaced. -/
def withAlpha (c : Color) (a : UInt8) : Color :=
  ⟨(a.toUInt32 <<< 24) ||| (c.argb &&& (0x00FFFFFF : UInt32))⟩

/-- A channel `weight / 256` of the way from `a` to `b`, rounded down. -/
def blendChannel (a b : UInt8) (weight : Nat) : UInt8 :=
  let v : Int := a.toNat + (((b.toNat : Int) - a.toNat) * weight) / 256
  UInt8.ofNat v.toNat

/-- The color `weight / 256` of the way from `a` to `b`, channel by channel. -/
def blend (a b : Color) (weight : Nat) : Color :=
  ofChannels (blendChannel a.alpha b.alpha weight) (blendChannel a.red b.red weight)
    (blendChannel a.green b.green weight) (blendChannel a.blue b.blue weight)

/-- A float brought into 0 to 1, with 0 for NaN. -/
def unitClamp (t : Float) : Float := if t.isNaN then 0.0 else Double.clamp 0.0 1.0 t

/-- The share `t`, brought into 0 to 1, in 256ths. -/
def weight (t : Float) : Nat := Nat.min 256 (Double.toNat (Double.round (unitClamp t * 256.0)))

/-- The color a share `t` of the way from `a` to `b`. -/
def lerp (a b : Color) (t : Float) : Color := blend a b (weight t)

/-- The color with its red, green and blue multiplied by `factor`, brought into 0 to 1. -/
def scaled (c : Color) (factor : Float) : Color :=
  let scale (v : UInt8) : UInt8 := (v.toFloat * unitClamp factor).toUInt8
  ofChannels c.alpha (scale c.red) (scale c.green) (scale c.blue)

/-- The opaque color with a hue in degrees, and with saturation and value in 0 to 1. -/
def ofHsv (hue saturation value : Float) : Color :=
  let h := if hue.isFinite then Double.modulo hue 360.0 else 0.0
  let s := Double.clamp 0.0 1.0 saturation
  let v := Double.clamp 0.0 1.0 value
  let c := v * s
  let x := c * (1.0 - (Double.remainder (h / 60.0) 2.0 - 1.0).abs)
  let m := v - c
  let (r, g, b) := match Double.toNat (h / 60.0) with
    | 0 => (c, x, 0.0)
    | 1 => (x, c, 0.0)
    | 2 => (0.0, c, x)
    | 3 => (0.0, x, c)
    | 4 => (x, 0.0, c)
    | _ => (c, 0.0, x)
  let level (t : Float) : UInt8 := (Double.round ((t + m) * 255.0)).toUInt8
  opaqueOf (level r) (level g) (level b)

/-- Hue in degrees, saturation and value. -/
def toHsv (c : Color) : Float × Float × Float :=
  let r := c.red.toFloat / 255.0
  let g := c.green.toFloat / 255.0
  let b := c.blue.toFloat / 255.0
  let high := Double.max (Double.max r g) b
  let low := Double.min (Double.min r g) b
  let delta := high - low
  let hue :=
    if delta == 0.0 then 0.0
    else if high == r then 60.0 * Double.modulo ((g - b) / delta) 6.0
    else if high == g then 60.0 * ((b - r) / delta + 2.0)
    else 60.0 * ((r - g) / delta + 4.0)
  (hue, if high == 0.0 then 0.0 else delta / high, high)

end Color

end KineticText
