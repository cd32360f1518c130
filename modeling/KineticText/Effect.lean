import KineticText.Attribute
import KineticText.Color.Notation
import KineticText.Effect.Choice
import KineticText.Parameter
import KineticText.Style
import KineticText.Text.Words

/-! Effects: attributes whose parameters have been read.  Reading is total and silent, since the
parameters have been normalized when their tag was resolved: what is out of range is clamped, and
what is unreadable is the default.  `Style.ofAttributes` folds the effects that only set style. -/

namespace KineticText

/-- A progressive reveal. -/
structure Typewriter where
  /-- Characters per tick. -/
  speed : Float
  /-- Ticks before the first character. -/
  delay : Float
  /-- Whether the visible part keeps to the middle. -/
  center : Bool

/-- Scrambling of glyphs. -/
structure Scramble where
  mode : ScrambleMode
  /-- Milliseconds per step. -/
  speed : Float
  direction : Direction
  alphabet : Alphabet
  /-- The seed of a random order, unless it comes from the track. -/
  seed : Option UInt64

/-- Motion of single characters. -/
structure Shake where
  motion : Motion
  /-- Pixels. -/
  amplitude : Float
  /-- A factor on time. -/
  speed : Float
  /-- Phase per cycle. -/
  wavelength : Float

/-- Color stops along the text. -/
structure Gradient where
  /-- The stops; one that could not be read is drawn in the base color. -/
  stops : List (Option Color)
  /-- Positions per tick. -/
  flow : Float
  /-- Characters per stop; without it the stops stretch over the element. -/
  spread : Option Float
  /-- Whether the last stop is followed by the first. -/
  repeating : Bool

/-- Hues that wander along the text. -/
structure Rainbow where
  /-- Cycles per hundred ticks. -/
  speed : Float
  saturation : Float
  brightness : Float
  /-- Characters per cycle. -/
  spread : Float

/-- A setting of static style. -/
inductive Toggle
  | bold
  | italic
  | underline
  | strikethrough
  /-- A color, or the base color when it could not be read. -/
  | color (color : Option Color)
  | font (id : String)
  deriving DecidableEq

/-- The name of the attribute that makes the setting. -/
def Toggle.name : Toggle → String
  | bold => "bold"
  | italic => "italic"
  | underline => "underline"
  | strikethrough => "strikethrough"
  | color _ => "color"
  | font _ => "font"

/-- What an attribute does. -/
inductive Effect
  | typewriter (effect : Typewriter)
  | scramble (effect : Scramble)
  | shake (effect : Shake)
  | gradient (effect : Gradient)
  | rainbow (effect : Rainbow)
  | style (toggle : Toggle)

/-- The shake without parameters. -/
def Shake.standard : Shake where
  motion := default
  amplitude := Parameter.shakeAmplitude.default
  speed := Parameter.shakeSpeed.default
  wavelength := Parameter.shakeWavelength.default

namespace Gradient

/-- The most stops that a gradient keeps. -/
def maxStops : Nat := 256

/-- Reads colors set apart by commas and blanks; one that cannot be read keeps its place. -/
def readStops (list : String) : List (Option Color) :=
  (Text.words (fun c => c == ',' || Text.isBlank c) list.toList).map fun word =>
    Color.read? (String.ofList word)

/-- The word written for a stop that could not be read.  It names no color. -/
def unreadableStop : String := "default"

/-- Writes stops so that `readStops` gives them back. -/
def writeStops (stops : List (Option Color)) : String :=
  ",".intercalate (stops.map fun stop => (stop.map Color.hex).getD unreadableStop)

/-- The first stops that are kept, and an unreadable one when there is none. -/
def keepStops (stops : List (Option Color)) : List (Option Color) :=
  match stops.take maxStops with
  | [] => [none]
  | kept => kept

/-- The colors of the stops, over a base color. -/
def colors (g : Gradient) (base : Color) : List Color := g.stops.map (·.getD base)

end Gradient

/-- The alternative that a parameter names, or the default one. -/
def Choice.ofParams {α : Type} [Choice α] (params : Params) (key : String) : α :=
  ((params.text? key).bind Choice.read?).getD default

namespace Effect

/-- Reads the effect of an attribute; `none` for an attribute that is no effect. -/
def ofAttribute? (a : Attribute) : Option Effect :=
  let p := a.params
  match a.id with
  | "bold" => some (.style .bold)
  | "italic" => some (.style .italic)
  | "underline" => some (.style .underline)
  | "strikethrough" => some (.style .strikethrough)
  | "color" => some (.style (.color ((p.text? "value").bind Color.read?)))
  | "font" => (p.text? "value").map fun id => .style (.font id)
  | "typewriter" => some (.typewriter {
      speed := Parameter.typewriterSpeed.quiet p
      delay := Parameter.typewriterDelay.quiet p
      center := (p.flag? "center").getD false })
  | "obfuscate" => some (.scramble {
      mode := Choice.ofParams p "mode"
      speed := Parameter.scrambleSpeed.quiet p
      direction := Choice.ofParams p "direction"
      alphabet := Choice.ofParams p "alphabet"
      seed := (p.number? "seed").map fun n => n.abs.toUInt64 })
  | "shake" => some (.shake {
      motion := Choice.ofParams p "type"
      amplitude := Parameter.shakeAmplitude.quiet p
      speed := Parameter.shakeSpeed.quiet p
      wavelength := Parameter.shakeWavelength.quiet p })
  | "gradient" => some (.gradient {
      stops := Gradient.keepStops (((p.text? "colors").map Gradient.readStops).getD [])
      flow := Parameter.gradientFlow.quiet p
      spread := (Parameter.gradientSpread.lookup? p).map Parameter.gradientSpread.clamp
      repeating := (p.flag? "repeating").getD false })
  | "rainbow" => some (.rainbow {
      speed := Parameter.rainbowSpeed.quiet p
      saturation := Parameter.rainbowSaturation.quiet p
      brightness := Parameter.rainbowBrightness.quiet p
      spread := Parameter.rainbowSpread.quiet p })
  | _ => none

/-- Whether the effect changes with time. -/
def isAnimated : Effect → Bool
  | typewriter _ | scramble _ | shake _ | rainbow _ => true
  | gradient g => g.flow != 0.0
  | style _ => false

/-- The name of the effect's kind. -/
def family : Effect → String
  | typewriter _ => "typewriter"
  | scramble _ => "obfuscate"
  | shake _ => "shake"
  | gradient _ => "gradient"
  | rainbow _ => "rainbow"
  | style _ => "style"

/-- Whether the effect only sets style. -/
def isStatic : Effect → Bool
  | style _ => true
  | _ => false

end Effect

/-- The style with a setting made. -/
def Style.toggle (s : Style) : Toggle → Style
  | .bold => s.withFlags .bold
  | .italic => s.withFlags .italic
  | .underline => s.withFlags .underline
  | .strikethrough => s.withFlags .strikethrough
  | .color color => { s with color }
  | .font id => s.withFont id

/-- The style that the attributes of a chain set, the outermost first. -/
def Style.ofAttributes (chain : List Attribute) : Style :=
  (chain.filterMap Effect.ofAttribute?).foldl (fun s e =>
    match e with
    | .style toggle => s.toggle toggle
    | _ => s) {}

end KineticText
