import KineticText.Effect
import KineticText.Registry

/-! The tags that every registry of effects starts with.  Their resolvers normalize what is written:
numbers are brought into range, names of alternatives are spelled out, and unreadable colors are
marked as such, so that an attribute resolves to itself. -/

namespace KineticText.Registry

/-- The alternative that a parameter names, or the default one; a name that is none is logged. -/
def readChoice {α : Type} [Choice α] (effect key : String) (params : Params) : Logged α := do
  match params.text? key with
  | none => return default
  | some word =>
    match Choice.read? word with
    | some a => return a
    | none =>
      Logged.emit (.unknownOption effect key word)
      return default

/-- A tag that sets one style flag. -/
def plainTag (id : String) : Resolver := fun _ _ => pure [{ id }]

/-- A tag that groups its children and does nothing else. -/
def groupTag : Resolver := fun _ _ => pure []

/-- The tag of a color. -/
def colorTag : Resolver := fun params _ => do
  let written := params.text? "value" <|> params.text? "color"
  match written.bind Color.read? with
  | some color =>
    return [{ id := "color", params := .ofList [("value", .text color.hex)] }]
  | none =>
    Logged.emit (.unreadableColor (written.getD ""))
    return [{ id := "color" }]

/-- The tag of a font. -/
def fontTag : Resolver := fun params _ =>
  match params.text? "value" <|> params.text? "id" with
  | some font =>
    pure (if font.isEmpty then []
      else [{ id := "font", params := .ofList [("value", .text font)] }])
  | none => pure []

/-- The tag of a typewriter.  A parameter that is not written comes from the nearest typewriter
around it. -/
def typewriterTag : Resolver := fun params enclosing => do
  let parent := enclosing.reverse.find? (·.id == "typewriter")
  let inherited (p : Parameter) : Logged Float :=
    if p.isPresent params then p.read "typewriter" params
    else pure ((parent.bind (·.params.number? p.name)).getD p.default)
  let speed ← inherited .typewriterSpeed
  let delay ← inherited .typewriterDelay
  let center := (params.flag? "center").getD false
  return [{
    id := "typewriter"
    params := .ofList [("speed", .number speed), ("delay", .number delay),
      ("center", .flag center)] }]

/-- The tag of scrambled text. -/
def scrambleTag : Resolver := fun params _ => do
  let effect := "obfuscate"
  let mode : ScrambleMode ← readChoice effect "mode" params
  let direction : Direction ← readChoice effect "direction" params
  let alphabet : Alphabet ← readChoice effect "alphabet" params
  let speed ← Parameter.scrambleSpeed.read effect params
  let seed := match params.number? "seed" with
    | none => []
    | some n => [("seed", Value.number (Double.truncate n.abs))]
  return [{
    id := effect
    params := .ofList ([("mode", .text (Choice.name mode)), ("speed", .number speed),
      ("direction", .text (Choice.name direction)),
      ("alphabet", .text (Choice.name alphabet))] ++ seed) }]

/-- The tag of moving text, with the motion fixed or named by a parameter. -/
def shakeTag (preset : Option Motion) : Resolver := fun params _ => do
  let effect := "shake"
  let motion ← match preset with
    | some motion => pure motion
    | none => readChoice effect "type" params
  let amplitude ← Parameter.shakeAmplitude.read effect params
  let speed ← Parameter.shakeSpeed.read effect params
  let wavelength ← Parameter.shakeWavelength.read effect params
  return [{
    id := effect
    params := .ofList [("type", .text (Choice.name motion)), ("amplitude", .number amplitude),
      ("speed", .number speed), ("wavelength", .number wavelength)] }]

/-- The stops that a gradient's parameters write. -/
def writtenStops (params : Params) : List (Option Color) :=
  match params.text? "colors" <|> params.text? "value" with
  | some list => Gradient.readStops list
  | none => ([params.text? "from", params.text? "to"].filterMap id).map Color.read?

/-- The tag of a gradient. -/
def gradientTag : Resolver := fun params _ => do
  let effect := "gradient"
  let written := writtenStops params
  Logged.emitIf (Gradient.maxStops < written.length)
    (.stopsTruncated effect "colors" written.length Gradient.maxStops)
  let stops := Gradient.keepStops written
  Logged.emitIf (stops.contains none) (.unreadableStops effect)
  let flow ← Parameter.gradientFlow.read effect params
  let repeating := (params.flag? "repeating").getD false
  let spread ← Parameter.gradientSpread.read? effect params
  let spread := match spread with
    | none => []
    | some spread => [("spread", Value.number spread)]
  return [{
    id := effect
    params := .ofList ([("colors", .text (Gradient.writeStops stops)), ("flow", .number flow),
      ("repeating", .flag repeating)] ++ spread) }]

/-- The tag of a rainbow. -/
def rainbowTag : Resolver := fun params _ => do
  let effect := "rainbow"
  let speed ← Parameter.rainbowSpeed.read effect params
  let saturation ← Parameter.rainbowSaturation.read effect params
  let brightness ← Parameter.rainbowBrightness.read effect params
  let spread ← Parameter.rainbowSpread.read effect params
  return [{
    id := effect
    params := .ofList [("speed", .number speed), ("saturation", .number saturation),
      ("brightness", .number brightness), ("spread", .number spread)] }]

/-- The built-in tags. -/
def builtinTags : List (String × Resolver) :=
  [("bold", plainTag "bold"), ("italic", plainTag "italic"), ("underline", plainTag "underline"),
    ("strikethrough", plainTag "strikethrough"), ("color", colorTag), ("font", fontTag),
    ("typewriter", typewriterTag), ("obfuscate", scrambleTag), ("shake", shakeTag none),
    ("wave", shakeTag (some .wave)), ("circle", shakeTag (some .circle)),
    ("jitter", shakeTag (some .random)), ("gradient", gradientTag), ("rainbow", rainbowTag),
    ("span", groupTag), ("group", groupTag)]

/-- Short names of built-in tags. -/
def builtinAliases : List (String × String) :=
  [("b", "bold"), ("i", "italic"), ("u", "underline"), ("strike", "strikethrough"),
    ("s", "strikethrough"), ("c", "color"), ("type", "typewriter"), ("tw", "typewriter"),
    ("obf", "obfuscate"), ("scramble", "obfuscate"), ("grad", "gradient")]

/-- The registry of the built-in tags. -/
def builtin : Registry :=
  builtinAliases.foldl (fun r a => (r.addAlias a.1 a.2).2)
    (builtinTags.foldl (fun r t => r.register t.1 t.2) {})

end KineticText.Registry
