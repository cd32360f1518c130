import KineticText.Clock
import KineticText.Effect.Error
import KineticText.Wire.Error

/-! Events: what happens on the side while a value is computed, for whoever keeps a log.  An event
has a level, a message and named data. -/

namespace KineticText

/-- How much an event matters. -/
inductive Level
  | trace
  | debug
  | info
  | warn
  deriving DecidableEq

/-- The level as logs name it. -/
def Level.name : Level → String
  | .trace => "TRACE"
  | .debug => "DEBUG"
  | .info => "INFO"
  | .warn => "WARN"

/-- The two kinds of animation track. -/
inductive Family
  | typewriter
  | obfuscate
  deriving DecidableEq

/-- The family as logs name it. -/
def Family.name : Family → String
  | .typewriter => "typewriter"
  | .obfuscate => "obfuscate"

/-- Why every layout is dropped. -/
inductive ClearCause
  | explicit
  | language
  | scale
  | configuration
  deriving DecidableEq

/-- The cause as logs name it. -/
def ClearCause.name : ClearCause → String
  | .explicit => "explicit"
  | .language => "language"
  | .scale => "scale"
  | .configuration => "config"

/-- A thing worth logging. -/
inductive Event
  | markupTruncated (length max : Nat)
  | nestingTooDeep (tag : String) (depth max : Nat)
  | unknownTag (tag : String)
  | reentrantParse
  | unreadableColor (value : String)
  | unreadableStops (effect : String)
  | parameterClamped (effect parameter : String) (value bound : Float)
  | unknownOption (effect parameter value : String)
  | stopsTruncated (effect parameter : String) (count max : Nat)
  | effectFailed (effect : String) (error : EffectError)
  | typewriterIdle (now last : Millis)
  | textChanged (previous total : Nat)
  | positionRegressed (position : Nat)
  | obfuscateIdle (now last : Millis)
  | trackCreated (family : Family) (key : UInt64)
  | trackExpired (family : Family) (key : UInt64)
  | tracksSwept (removed : Nat)
  | tracksEvicted (evicted remaining : Nat)
  | layoutHit (text : String)
  | layoutMiss (text : String)
  | layoutsCleared (cause : ClearCause) (dropped : Nat)
  | configurationApplied (fingerprint : UInt64) (enabled tracksRebuilt layoutsInvalidated : Bool)
  | spansRejected (error : DecodeError) (bytes : Nat)
  deriving DecidableEq

/-- One datum of an event. -/
inductive Datum
  | number (n : Float)
  | count (n : Nat)
  | flag (b : Bool)
  | text (s : String)

namespace Event

def level : Event → Level
  | reentrantParse | typewriterIdle .. | textChanged .. | positionRegressed .. | obfuscateIdle ..
  | trackCreated .. | trackExpired .. | tracksSwept .. | layoutHit .. | layoutMiss .. => .trace
  | markupTruncated .. | nestingTooDeep .. | unknownTag .. | unreadableColor ..
  | unreadableStops .. | tracksEvicted .. | layoutsCleared .. | spansRejected .. => .debug
  | configurationApplied .. => .info
  | parameterClamped .. | unknownOption .. | stopsTruncated .. | effectFailed .. => .warn

def message : Event → String
  | markupTruncated .. => "markup truncated"
  | nestingTooDeep .. => "nesting too deep, tag skipped"
  | unknownTag .. => "unknown tag, children kept unattached"
  | reentrantParse => "reentrant parse, returning plain text"
  | unreadableColor .. => "unreadable color, using base color"
  | unreadableStops .. => "unreadable color stops, using base color"
  | parameterClamped .. => "parameter out of range, clamped"
  | unknownOption .. => "unknown option, using default"
  | stopsTruncated .. => "too many color stops, truncated"
  | effectFailed .. => "effect failed, skipped"
  | typewriterIdle .. => "typewriter idle, restarting"
  | textChanged .. => "typewriter text changed, restarting"
  | positionRegressed .. => "typewriter position regressed, restarting"
  | obfuscateIdle .. => "obfuscate idle, resetting"
  | trackCreated family _ => family.name ++ " track created"
  | trackExpired family _ => family.name ++ " track expired"
  | tracksSwept .. => "idle tracks swept"
  | tracksEvicted .. => "idle tracks evicted"
  | layoutHit .. => "layout cache hit"
  | layoutMiss .. => "layout cache miss"
  | layoutsCleared .. => "layout cache cleared"
  | configurationApplied .. => "effect configuration applied"
  | spansRejected .. => "span list rejected"

/-- The data of an event with their names. -/
def data : Event → List (String × Datum)
  | markupTruncated length max => [("length", .count length), ("max_length", .count max)]
  | nestingTooDeep tag depth max =>
    [("tag", .text tag), ("depth", .count depth), ("max_depth", .count max)]
  | unknownTag tag => [("tag", .text tag)]
  | reentrantParse => []
  | unreadableColor value => [("value", .text value)]
  | unreadableStops effect => [("effect", .text effect)]
  | parameterClamped effect parameter value bound =>
    [("effect", .text effect), ("param", .text parameter), ("value", .number value),
      ("bound", .number bound)]
  | unknownOption effect parameter value =>
    [("effect", .text effect), ("param", .text parameter), ("value", .text value)]
  | stopsTruncated effect parameter count max =>
    [("effect", .text effect), ("param", .text parameter), ("value", .count count),
      ("bound", .count max)]
  | effectFailed effect error => [("effect", .text effect), ("error", .text error.message)]
  | typewriterIdle now last | obfuscateIdle now last => [("idle_ms", .count (now - last).toNat)]
  | textChanged previous total => [("previous", .count previous), ("total", .count total)]
  | positionRegressed position => [("position", .count position)]
  | trackCreated _ key | trackExpired _ key => [("key", .count key.toNat)]
  | tracksSwept removed => [("removed", .count removed)]
  | tracksEvicted evicted remaining =>
    [("evicted", .count evicted), ("remaining", .count remaining)]
  | layoutHit text | layoutMiss text => [("text", .text text)]
  | layoutsCleared cause dropped => [("cause", .text cause.name), ("dropped", .count dropped)]
  | configurationApplied fingerprint enabled tracksRebuilt layoutsInvalidated =>
    [("fingerprint", .count fingerprint.toNat), ("enabled", .flag enabled),
      ("tracks_rebuilt", .flag tracksRebuilt), ("layouts_invalidated", .flag layoutsInvalidated)]
  | spansRejected error bytes => [("error", .text error.message), ("bytes", .count bytes)]

/-- Whether a datum of the event is a difference below zero. -/
def overflows : Event → Bool
  | typewriterIdle now last | obfuscateIdle now last => now < last
  | _ => false

end Event

end KineticText
