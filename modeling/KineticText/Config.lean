import KineticText.Clock
import KineticText.Random.Digest
import KineticText.Text.Quoted
import KineticText.Number.Shortest

/-! The configuration that parsing and animation read.  Its fingerprint is a digest of the settings
that change what a layout looks like, so stored layouts are dropped when it changes. -/

namespace KineticText

/-- How the typewriters of one text share what they reveal. -/
inductive Allocation
  /-- Each reveals at its own pace. -/
  | independent
  /-- One count of visible characters runs through all of them in document order. -/
  | container
  deriving DecidableEq

/-- When a typewriter starts over although it has not been idle. -/
inductive RestartPolicy
  | never
  /-- When its number of characters changes. -/
  | onTextChange
  /-- When the reported position decreases. -/
  | onRegression
  deriving DecidableEq

/-- The timing of random scrambling. -/
structure ScrambleTiming where
  /-- The shortest time that a character stays scrambled. -/
  minDeadline : Millis := 500
  /-- The longest time that a character stays scrambled. -/
  maxDeadline : Millis := 2000
  /-- Characters are added only while less than this share is scrambled. -/
  maxFraction : Float := 0.3
  /-- The least time between additions. -/
  pollInterval : Millis := 100
  /-- The fewest characters added at once. -/
  minBurst : UInt64 := 1
  /-- The most characters added at once. -/
  maxBurst : UInt64 := 3
  deriving BEq

/-- The configuration. -/
structure Config where
  /-- Without it, text shows plain. -/
  enabled : Bool := true
  /-- The deepest nesting of elements that is kept. -/
  maxNestingDepth : UInt64 := 16
  /-- The most characters that are parsed. -/
  maxParseLength : UInt64 := 16384
  /-- The most effects on one glyph. -/
  maxEffectsPerGlyph : UInt64 := 8
  /-- The most attributes taken from one chain. -/
  maxSpanDepth : UInt64 := 32
  /-- Screens on which text shows plain. -/
  excludedScreens : List String := []
  /-- Plugins whose text shows plain. -/
  excludedPlugins : List String := []
  allocation : Allocation := .independent
  restart : RestartPolicy := .onTextChange
  /-- The idle time after which a typewriter starts over. -/
  typewriterReset : Millis := 1000
  /-- The idle time after which scrambling starts over. -/
  scrambleReset : Millis := 1000
  timing : ScrambleTiming := {}
  /-- The most tracks of one family. -/
  trackCapacity : UInt64 := 512
  /-- The idle time after which a track is dropped. -/
  trackTimeout : Millis := 1000
  /-- The most layouts. -/
  layoutCapacity : UInt64 := 256
  deriving BEq

namespace Config

def excludesScreen (c : Config) (screen : String) : Bool := c.excludedScreens.contains screen

def excludesPlugin (c : Config) (plugin : String) : Bool := c.excludedPlugins.contains plugin

/-- The digest of the settings that layouts depend on. -/
def fingerprint (c : Config) : UInt64 :=
  let d : Random.Digest := {}
  let d := (((d.flag c.enabled).word c.maxEffectsPerGlyph).word c.maxSpanDepth).word
    c.maxNestingDepth
  ((d.texts c.excludedScreens).texts c.excludedPlugins).value

end Config

/-! ### The configuration in diagnostic texts -/

/-- A structure in diagnostic texts: its name and its fields. -/
def diagnosticFields (name : String) (fields : List (String × String)) : String :=
  name ++ " \x7b " ++ ", ".intercalate (fields.map fun f => f.1 ++ ": " ++ f.2) ++ " \x7d"

/-- A length of time in its largest unit, with the thousandths of a second that are needed. -/
def Millis.diagnostic (t : Millis) : String :=
  let seconds := t.toNat / 1000
  let rest := t.toNat % 1000
  if t == 0 then "0ns"
  else if seconds == 0 then toString rest ++ "ms"
  else if rest == 0 then toString seconds ++ "s"
  else
    let digits := (Nat.toDigits 10 (1000 + rest)).drop 1
    toString seconds ++ "." ++
      String.ofList (digits.reverse.dropWhile (· == '0')).reverse ++ "s"

def Allocation.diagnostic : Allocation → String
  | .independent => "Independent"
  | .container => "Container"

def RestartPolicy.diagnostic : RestartPolicy → String
  | .never => "Never"
  | .onTextChange => "OnTextChange"
  | .onRegression => "OnRegression"

def ScrambleTiming.diagnostic (t : ScrambleTiming) : String :=
  diagnosticFields "RandomObfuscation" [
    ("min_deadline_ms", toString t.minDeadline), ("max_deadline_ms", toString t.maxDeadline),
    ("max_fraction", Shortest.diagnostic t.maxFraction),
    ("poll_interval_ms", toString t.pollInterval), ("min_burst", toString t.minBurst),
    ("max_burst", toString t.maxBurst)]

def Config.diagnostic (c : Config) : String :=
  diagnosticFields "EffectConfig" [
    ("enabled", toString c.enabled), ("max_nesting_depth", toString c.maxNestingDepth),
    ("max_parse_length", toString c.maxParseLength),
    ("max_effects_per_glyph", toString c.maxEffectsPerGlyph),
    ("max_span_depth", toString c.maxSpanDepth),
    ("excluded_screens", Text.quotedList c.excludedScreens),
    ("excluded_plugins", Text.quotedList c.excludedPlugins),
    ("typewriter_allocation", c.allocation.diagnostic),
    ("typewriter_restart", c.restart.diagnostic),
    ("typewriter_reset_delay", c.typewriterReset.diagnostic),
    ("obfuscate_reset_delay", c.scrambleReset.diagnostic),
    ("random_obfuscation", c.timing.diagnostic), ("track_capacity", toString c.trackCapacity),
    ("track_idle_timeout", c.trackTimeout.diagnostic),
    ("layout_capacity", toString c.layoutCapacity)]

end KineticText
