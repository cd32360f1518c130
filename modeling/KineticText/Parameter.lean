import KineticText.Logged
import KineticText.Params

/-! Declared parameters: numbers with a default and a range.  Reading one never fails.  An absent or
unreadable number is the default, and a number outside the range is the nearest bound, which is
logged.  `clamp` is the same without the log. -/

namespace KineticText

/-- A declared number. -/
structure Parameter where
  name : String
  /-- Other names under which it may be written. -/
  aliases : List String := []
  default : Float
  min : Float
  max : Float

namespace Parameter

/-- The number as written, under the name or the first alias that has one. -/
def lookup? (p : Parameter) (params : Params) : Option Float :=
  params.number? p.name <|> p.aliases.findSome? params.number?

/-- Whether the parameter is written at all, readable or not. -/
def isPresent (p : Parameter) (params : Params) : Bool :=
  params.contains p.name || p.aliases.any params.contains

/-- The number in the range nearest to `value`, and the default for NaN. -/
def clamp (p : Parameter) (value : Float) : Float :=
  if value.isNaN then p.default else Double.clamp p.min p.max value

/-- The number that `params` give to an effect. -/
def read (p : Parameter) (effect : String) (params : Params) : Logged Float := do
  match p.lookup? params with
  | none => return p.default
  | some value =>
    let clamped := p.clamp value
    let bound := if value < p.min then p.min else p.max
    Logged.emitIf (clamped != value) (.parameterClamped effect p.name value bound)
    return clamped

/-- Like `read`, but nothing when no number is written. -/
def read? (p : Parameter) (effect : String) (params : Params) : Logged (Option Float) :=
  match p.lookup? params with
  | none => pure none
  | some _ => some <$> p.read effect params

/-- Like `read`, without the log. -/
def quiet (p : Parameter) (params : Params) : Float :=
  match p.lookup? params with
  | none => p.default
  | some value => p.clamp value

end Parameter

/-! ### The parameters of the effects -/

namespace Parameter

/-- Characters revealed per tick. -/
def typewriterSpeed : Parameter := ⟨"speed", [], 1.0, 0.01, 100.0⟩

/-- Ticks before the first character appears. -/
def typewriterDelay : Parameter := ⟨"delay", [], 0.0, 0.0, 10000.0⟩

/-- Milliseconds per step of a reveal order. -/
def scrambleSpeed : Parameter := ⟨"speed", [], 100.0, 1.0, 60000.0⟩

/-- The farthest offset, in pixels. -/
def shakeAmplitude : Parameter := ⟨"amplitude", ["a", "amp"], 1.0, 0.0, 64.0⟩

/-- A factor on time. -/
def shakeSpeed : Parameter := ⟨"speed", ["s"], 1.0, 0.0, 100.0⟩

/-- Phase per cycle. -/
def shakeWavelength : Parameter := ⟨"wavelength", ["w"], 1.0, 0.01, 1000.0⟩

/-- Positions that the colors move per tick. -/
def gradientFlow : Parameter := ⟨"flow", [], 0.0, -100.0, 100.0⟩

/-- Characters per stop. -/
def gradientSpread : Parameter := ⟨"spread", [], 1.0, 0.01, 1000.0⟩

/-- Cycles of hue per hundred ticks. -/
def rainbowSpeed : Parameter := ⟨"speed", [], 1.0, -100.0, 100.0⟩

def rainbowSaturation : Parameter := ⟨"saturation", [], 1.0, 0.0, 1.0⟩

def rainbowBrightness : Parameter := ⟨"brightness", [], 1.0, 0.0, 1.0⟩

/-- Characters per cycle of hue. -/
def rainbowSpread : Parameter := ⟨"spread", [], 16.0, 0.01, 1000.0⟩

end Parameter

end KineticText
