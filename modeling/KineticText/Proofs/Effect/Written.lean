import KineticText.Proofs.Effect.Stops
import KineticText.Proofs.Number.Fields
import KineticText.Proofs.Parameter
import KineticText.Proofs.Params

/-! Attributes that are written for effects.  What parameters describe is always in range, and an
effect in range is what the parameters describe that are written for it.  So an effect is read back
from its attribute. -/

namespace KineticText

open Params

/-! ### Alternatives -/

namespace Choice

variable {α : Type} [Choice α]

/-- Every alternative is read by its name. -/
def Readable (α : Type) [Choice α] : Prop := ∀ a : α, read? (name a) = some a

theorem readable_scrambleMode : Readable ScrambleMode := by
  intro a
  cases a <;> decide +kernel

theorem readable_direction : Readable Direction := by
  intro a
  cases a <;> decide +kernel

theorem readable_alphabet : Readable Alphabet := by
  intro a
  cases a <;> decide +kernel

theorem readable_motion : Readable Motion := by
  intro a
  cases a <;> decide +kernel

theorem Readable.ofParams_eq (h : Readable α) {params : Params} {key : String} {a : α}
    (hget : params.get? key = some (.text (name a))) : ofParams params key = a := by
  rw [ofParams, text?_of_get? hget, Option.bind_some, h a, Option.getD_some]

end Choice

/-! ### Typewriters -/

namespace Typewriter

/-- The typewriter that parameters describe. -/
def ofParams (p : Params) : Typewriter where
  speed := Parameter.typewriterSpeed.quiet p
  delay := Parameter.typewriterDelay.quiet p
  center := (p.flag? "center").getD false

/-- The parameters that are written for a typewriter. -/
def entries (e : Typewriter) : List (String × Value) :=
  [("speed", .number e.speed), ("delay", .number e.delay), ("center", .flag e.center)]

structure InRange (e : Typewriter) : Prop where
  speed : Parameter.typewriterSpeed.Admits e.speed
  delay : Parameter.typewriterDelay.Admits e.delay

theorem get?_entries (e : Typewriter) {key : String} {value : Value}
    (h : (key, value) ∈ e.entries) : (Params.ofList e.entries).get? key = some value :=
  have hnames : Tidy ["speed", "delay", "center"] := ⟨by decide, by decide +kernel⟩
  Tidy.get?_of_mem hnames h

theorem ofParams_entries {e : Typewriter} (h : e.InRange) : ofParams (.ofList e.entries) = e := by
  have hspeed : Parameter.typewriterSpeed.quiet (.ofList e.entries) = e.speed :=
    h.speed.quiet_eq (e.get?_entries (.head _))
  have hdelay : Parameter.typewriterDelay.quiet (.ofList e.entries) = e.delay :=
    h.delay.quiet_eq (e.get?_entries (.tail _ (.head _)))
  have hcenter : (Params.ofList e.entries).flag? "center" = some e.center :=
    flag?_of_get? (e.get?_entries (.tail _ (.tail _ (.head _))))
  rw [ofParams, hspeed, hdelay, hcenter]
  rfl

end Typewriter

/-! ### Scrambles -/

namespace Scramble

/-- The scramble that parameters describe. -/
def ofParams (p : Params) : Scramble where
  mode := Choice.ofParams p "mode"
  speed := Parameter.scrambleSpeed.quiet p
  direction := Choice.ofParams p "direction"
  alphabet := Choice.ofParams p "alphabet"
  seed := (p.number? "seed").map fun n => n.abs.toUInt64

/-- The parameters that are written for a scramble, with the seed as a number. -/
def entries (e : Scramble) (seed : Option Float) : List (String × Value) :=
  [("mode", .text (Choice.name e.mode)), ("speed", .number e.speed),
    ("direction", .text (Choice.name e.direction)),
    ("alphabet", .text (Choice.name e.alphabet))] ++
    match seed with
    | none => []
    | some x => [("seed", .number x)]

/-- The seed is the word that the written number clamps to. -/
structure InRange (e : Scramble) (seed : Option Float) : Prop where
  speed : Parameter.scrambleSpeed.Admits e.speed
  seed : Option.Rel (fun x n => Double.IsWhole x ∧ Double.ClampsTo x n) seed e.seed

theorem tidy_entries (e : Scramble) (seed : Option Float) : Tidy ((e.entries seed).map Prod.fst) :=
  have hnone : Tidy ["mode", "speed", "direction", "alphabet"] := ⟨by decide, by decide +kernel⟩
  have hsome : Tidy ["mode", "speed", "direction", "alphabet", "seed"] :=
    ⟨by decide, by decide +kernel⟩
  match seed with
  | none => hnone
  | some _ => hsome

theorem number?_entries (e : Scramble) {seed : Option Float} (h : ∀ x ∈ seed, x.isNaN = false) :
    (Params.ofList (e.entries seed)).number? "seed" = seed := by
  cases seed with
  | none =>
    have hnone : (Params.ofList (e.entries none)).get? "seed" = none :=
      (e.tidy_entries none).get?_of_notMem (by decide +kernel) (by simp [entries])
    rw [number?, hnone]
    rfl
  | some x =>
    have hsome : (Params.ofList (e.entries (some x))).get? "seed" = some (.number x) :=
      (e.tidy_entries (some x)).get?_of_mem (by simp [entries])
    exact number?_of_get? hsome (h x rfl)

theorem ofParams_entries {e : Scramble} {seed : Option Float} (h : e.InRange seed) :
    ofParams (.ofList (e.entries seed)) = e := by
  have hget : ∀ {key value}, (key, value) ∈ e.entries seed →
      (Params.ofList (e.entries seed)).get? key = some value :=
    (e.tidy_entries seed).get?_of_mem
  have hmode : Choice.ofParams (.ofList (e.entries seed)) "mode" = e.mode :=
    Choice.readable_scrambleMode.ofParams_eq (hget (.head _))
  have hspeed : Parameter.scrambleSpeed.quiet (.ofList (e.entries seed)) = e.speed :=
    h.speed.quiet_eq (hget (.tail _ (.head _)))
  have hdirection : Choice.ofParams (.ofList (e.entries seed)) "direction" = e.direction :=
    Choice.readable_direction.ofParams_eq (hget (.tail _ (.tail _ (.head _))))
  have halphabet : Choice.ofParams (.ofList (e.entries seed)) "alphabet" = e.alphabet :=
    Choice.readable_alphabet.ofParams_eq (hget (.tail _ (.tail _ (.tail _ (.head _)))))
  have hseed : ((Params.ofList (e.entries seed)).number? "seed").map (fun n => n.abs.toUInt64) =
      e.seed := by
    have hrel := h.seed
    generalize e.seed = word at hrel
    cases hrel with
    | none => rw [e.number?_entries (by simp)]; rfl
    | some hword =>
      obtain ⟨hwhole, hclamps⟩ := hword
      rw [e.number?_entries (by simpa using hwhole.isNaN_eq), Option.map_some, hwhole.abs_eq,
        hwhole.clampsTo.unique hclamps]
  rw [ofParams, hmode, hspeed, hdirection, halphabet, hseed]

end Scramble

/-! ### Shakes -/

namespace Shake

/-- The shake that parameters describe. -/
def ofParams (p : Params) : Shake where
  motion := Choice.ofParams p "type"
  amplitude := Parameter.shakeAmplitude.quiet p
  speed := Parameter.shakeSpeed.quiet p
  wavelength := Parameter.shakeWavelength.quiet p

/-- The parameters that are written for a shake. -/
def entries (e : Shake) : List (String × Value) :=
  [("type", .text (Choice.name e.motion)), ("amplitude", .number e.amplitude),
    ("speed", .number e.speed), ("wavelength", .number e.wavelength)]

structure InRange (e : Shake) : Prop where
  amplitude : Parameter.shakeAmplitude.Admits e.amplitude
  speed : Parameter.shakeSpeed.Admits e.speed
  wavelength : Parameter.shakeWavelength.Admits e.wavelength

theorem inRange_ofParams (p : Params) : (ofParams p).InRange := by
  constructor <;> exact Parameter.admits_quiet (by simp [Parameter.declared]) p

theorem get?_entries (e : Shake) {key : String} {value : Value}
    (h : (key, value) ∈ e.entries) : (Params.ofList e.entries).get? key = some value :=
  have hnames : Tidy ["type", "amplitude", "speed", "wavelength"] :=
    ⟨by decide, by decide +kernel⟩
  Tidy.get?_of_mem hnames h

theorem ofParams_entries {e : Shake} (h : e.InRange) : ofParams (.ofList e.entries) = e := by
  have hmotion : Choice.ofParams (.ofList e.entries) "type" = e.motion :=
    Choice.readable_motion.ofParams_eq (e.get?_entries (.head _))
  have hamplitude : Parameter.shakeAmplitude.quiet (.ofList e.entries) = e.amplitude :=
    h.amplitude.quiet_eq (e.get?_entries (.tail _ (.head _)))
  have hspeed : Parameter.shakeSpeed.quiet (.ofList e.entries) = e.speed :=
    h.speed.quiet_eq (e.get?_entries (.tail _ (.tail _ (.head _))))
  have hwavelength : Parameter.shakeWavelength.quiet (.ofList e.entries) = e.wavelength :=
    h.wavelength.quiet_eq (e.get?_entries (.tail _ (.tail _ (.tail _ (.head _)))))
  rw [ofParams, hmotion, hamplitude, hspeed, hwavelength]

end Shake

/-! ### Gradients -/

namespace Gradient

/-- The gradient that parameters describe. -/
def ofParams (p : Params) : Gradient where
  stops := keepStops (((p.text? "colors").map readStops).getD [])
  flow := Parameter.gradientFlow.quiet p
  spread := (Parameter.gradientSpread.lookup? p).map Parameter.gradientSpread.clamp
  repeating := (p.flag? "repeating").getD false

/-- The parameters that are written for a gradient. -/
def entries (e : Gradient) : List (String × Value) :=
  [("colors", .text (writeStops e.stops)), ("flow", .number e.flow),
    ("repeating", .flag e.repeating)] ++
    match e.spread with
    | none => []
    | some spread => [("spread", .number spread)]

structure InRange (e : Gradient) : Prop where
  stops : keepStops e.stops = e.stops
  flow : Parameter.gradientFlow.Admits e.flow
  spread : ∀ spread ∈ e.spread, Parameter.gradientSpread.Admits spread

theorem inRange_ofParams (p : Params) : (ofParams p).InRange := by
  refine ⟨keepStops_keepStops _, Parameter.admits_quiet (by simp [Parameter.declared]) p,
    fun spread hspread => ?_⟩
  obtain ⟨x, -, rfl⟩ := Option.map_eq_some_iff.mp hspread
  exact Parameter.admits_clamp (by simp [Parameter.declared]) x

theorem tidy_entries (e : Gradient) : Tidy (e.entries.map Prod.fst) := by
  have hnone : Tidy ["colors", "flow", "repeating"] := ⟨by decide, by decide +kernel⟩
  have hsome : Tidy ["colors", "flow", "repeating", "spread"] := ⟨by decide, by decide +kernel⟩
  unfold entries
  cases e.spread with
  | none => exact hnone
  | some spread => exact hsome

theorem lookup?_entries {e : Gradient} (h : e.InRange) :
    Parameter.gradientSpread.lookup? (.ofList e.entries) = e.spread := by
  cases hspread : e.spread with
  | none =>
    have hnone : (Params.ofList e.entries).get? "spread" = none :=
      e.tidy_entries.get?_of_notMem (by decide +kernel) (by simp [entries, hspread])
    have hnumber : (Params.ofList e.entries).number? "spread" = none := by
      rw [number?, hnone]
      rfl
    rw [Parameter.lookup?]
    show ((Params.ofList e.entries).number? "spread" <|> none) = none
    rw [hnumber]
    rfl
  | some spread =>
    have hsome : (Params.ofList e.entries).get? "spread" = some (.number spread) :=
      e.tidy_entries.get?_of_mem (by simp [entries, hspread])
    exact Parameter.lookup?_of_get? hsome (h.spread spread hspread).1

theorem ofParams_entries {e : Gradient} (h : e.InRange) : ofParams (.ofList e.entries) = e := by
  have hget : ∀ {key value}, (key, value) ∈ e.entries →
      (Params.ofList e.entries).get? key = some value := e.tidy_entries.get?_of_mem
  have hcolors : (Params.ofList e.entries).text? "colors" = some (writeStops e.stops) :=
    text?_of_get? (hget (.head _))
  have hflow : Parameter.gradientFlow.quiet (.ofList e.entries) = e.flow :=
    h.flow.quiet_eq (hget (.tail _ (.head _)))
  have hrepeating : (Params.ofList e.entries).flag? "repeating" = some e.repeating :=
    flag?_of_get? (hget (.tail _ (.tail _ (.head _))))
  have hspread : e.spread.map Parameter.gradientSpread.clamp = e.spread := by
    have hinside := h.spread
    generalize e.spread = spread at hinside
    cases spread with
    | none => rfl
    | some spread => exact congrArg some (hinside spread rfl).clamp_eq
  rw [ofParams, hcolors, hflow, hrepeating, lookup?_entries h, hspread]
  simp [readStops_writeStops, h.stops]

end Gradient

/-! ### Rainbows -/

namespace Rainbow

/-- The rainbow that parameters describe. -/
def ofParams (p : Params) : Rainbow where
  speed := Parameter.rainbowSpeed.quiet p
  saturation := Parameter.rainbowSaturation.quiet p
  brightness := Parameter.rainbowBrightness.quiet p
  spread := Parameter.rainbowSpread.quiet p

/-- The parameters that are written for a rainbow. -/
def entries (e : Rainbow) : List (String × Value) :=
  [("speed", .number e.speed), ("saturation", .number e.saturation),
    ("brightness", .number e.brightness), ("spread", .number e.spread)]

structure InRange (e : Rainbow) : Prop where
  speed : Parameter.rainbowSpeed.Admits e.speed
  saturation : Parameter.rainbowSaturation.Admits e.saturation
  brightness : Parameter.rainbowBrightness.Admits e.brightness
  spread : Parameter.rainbowSpread.Admits e.spread

theorem inRange_ofParams (p : Params) : (ofParams p).InRange := by
  constructor <;> exact Parameter.admits_quiet (by simp [Parameter.declared]) p

theorem get?_entries (e : Rainbow) {key : String} {value : Value}
    (h : (key, value) ∈ e.entries) : (Params.ofList e.entries).get? key = some value :=
  have hnames : Tidy ["speed", "saturation", "brightness", "spread"] :=
    ⟨by decide, by decide +kernel⟩
  Tidy.get?_of_mem hnames h

theorem ofParams_entries {e : Rainbow} (h : e.InRange) : ofParams (.ofList e.entries) = e := by
  have hspeed : Parameter.rainbowSpeed.quiet (.ofList e.entries) = e.speed :=
    h.speed.quiet_eq (e.get?_entries (.head _))
  have hsaturation : Parameter.rainbowSaturation.quiet (.ofList e.entries) = e.saturation :=
    h.saturation.quiet_eq (e.get?_entries (.tail _ (.head _)))
  have hbrightness : Parameter.rainbowBrightness.quiet (.ofList e.entries) = e.brightness :=
    h.brightness.quiet_eq (e.get?_entries (.tail _ (.tail _ (.head _))))
  have hspread : Parameter.rainbowSpread.quiet (.ofList e.entries) = e.spread :=
    h.spread.quiet_eq (e.get?_entries (.tail _ (.tail _ (.tail _ (.head _)))))
  rw [ofParams, hspeed, hsaturation, hbrightness, hspread]

end Rainbow

/-! ### Attributes -/

theorem Params.text?_value (text : String) :
    (Params.ofList [("value", .text text)]).text? "value" = some text :=
  have hnames : Tidy ["value"] := ⟨by decide, by decide +kernel⟩
  text?_of_get? (Tidy.get?_of_mem hnames (.head _))

/-- The attribute is the one that is written for the effect, and the effect is in range. -/
inductive Effect.IsWritten : Effect → Attribute → Prop
  | flag {toggle : Toggle} (h : toggle ∈ [Toggle.bold, .italic, .underline, .strikethrough]) :
      IsWritten (.style toggle) { id := toggle.name }
  | color (color : Color) : IsWritten (.style (.color (some color)))
      { id := "color", params := .ofList [("value", .text color.hex)] }
  | noColor : IsWritten (.style (.color none)) { id := "color" }
  | font {font : String} (h : font.isEmpty = false) : IsWritten (.style (.font font))
      { id := "font", params := .ofList [("value", .text font)] }
  | typewriter {e : Typewriter} (h : e.InRange) :
      IsWritten (.typewriter e) { id := "typewriter", params := .ofList e.entries }
  | scramble {e : Scramble} {seed : Option Float} (h : e.InRange seed) :
      IsWritten (.scramble e) { id := "obfuscate", params := .ofList (e.entries seed) }
  | shake {e : Shake} (h : e.InRange) :
      IsWritten (.shake e) { id := "shake", params := .ofList e.entries }
  | gradient {e : Gradient} (h : e.InRange) :
      IsWritten (.gradient e) { id := "gradient", params := .ofList e.entries }
  | rainbow {e : Rainbow} (h : e.InRange) :
      IsWritten (.rainbow e) { id := "rainbow", params := .ofList e.entries }

/-- An effect is read back from the attribute that is written for it. -/
theorem Effect.IsWritten.ofAttribute?_eq {e : Effect} {a : Attribute} (h : e.IsWritten a) :
    ofAttribute? a = some e := by
  cases h with
  | flag h =>
    simp only [List.mem_cons, List.not_mem_nil, or_false] at h
    rcases h with rfl | rfl | rfl | rfl <;> rfl
  | color color =>
    show some (Effect.style (.color (((Params.ofList _).text? "value").bind Color.read?))) = _
    rw [text?_value, Option.bind_some, Color.read?_hex]
  | noColor => rfl
  | font h =>
    show ((Params.ofList _).text? "value").map (fun font => Effect.style (.font font)) = _
    rw [text?_value, Option.map_some]
  | typewriter h => exact congrArg (some ∘ Effect.typewriter) (Typewriter.ofParams_entries h)
  | scramble h => exact congrArg (some ∘ Effect.scramble) (Scramble.ofParams_entries h)
  | shake h => exact congrArg (some ∘ Effect.shake) (Shake.ofParams_entries h)
  | gradient h => exact congrArg (some ∘ Effect.gradient) (Gradient.ofParams_entries h)
  | rainbow h => exact congrArg (some ∘ Effect.rainbow) (Rainbow.ofParams_entries h)

end KineticText
