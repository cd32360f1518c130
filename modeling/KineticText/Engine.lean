import KineticText.Layout
import KineticText.Layout.Cache
import KineticText.Markup.Parse
import KineticText.Registry.Builtin
import KineticText.Render
import KineticText.Wire.Message

/-! The engine: everything that outlives a frame.  It parses under the configured limits, lays texts
out with a cache, draws with a store of tracks, and packs texts for transport.  The host tells it
the time at each drawing, and what has changed around it. -/

namespace KineticText

/-- Why a text cannot be sent, or what was received cannot be read. -/
inductive EngineError
  | encode (error : EncodeError)
  | decode (error : DecodeError)
  deriving DecidableEq

namespace EngineError

/-- The inner reason in words. -/
def source : EngineError → String
  | encode error => error.message
  | decode error => error.message

/-- The reason in words. -/
def message : EngineError → String
  | encode error => "encode: " ++ error.message
  | decode error => "decode: " ++ error.message

end EngineError

/-- The state that outlives a frame. -/
structure Engine (ω σ : Type) where
  config : Config
  registry : Registry := .builtin
  renderer : Renderer
  tracks : TrackStore
  layouts : LayoutCache LayoutPlace
  shelf : Shelf ω σ := {}
  /-- The language of the display. -/
  language : String
  /-- The scale of the display. -/
  scale : Float

namespace Engine

variable {ω σ : Type}

/-- The language that an engine starts with. -/
def defaultLanguage : String := "en_us"

/-- The engine of a configuration. -/
def ofConfig (config : Config) : Engine ω σ where
  config
  renderer := ⟨config⟩
  tracks := .ofConfig config
  layouts := { LayoutCache.empty config.layoutCapacity.toNat with
    language := some defaultLanguage
    scaleBits := some (1.0 : Float).toBits
    fingerprint := some config.fingerprint }
  language := defaultLanguage
  scale := 1.0

/-- The engine with another registry. Layouts were parsed with the one before, so they are
dropped. -/
def withRegistry (e : Engine ω σ) (registry : Registry) : Logged (Engine ω σ) := do
  return { e with registry, layouts := ← e.layouts.clear }

/-! ### Texts and layouts -/

/-- The attributed text of a source. -/
def parse (e : Engine ω σ) (source : String) : Logged AttributedText :=
  Markup.parse e.registry (.ofConfig e.config) source

/-- The key of a layout in the current state. -/
def layoutKey (e : Engine ω σ) (source : String) (width : UInt32) (seed : UInt64) : LayoutKey where
  text := source
  width
  scaleBits := e.scale.toBits
  locale := e.language
  seed
  version := e.config.fingerprint

/-- The layout of a source, from the cache if it is there; `shape` says how a new one gets its
sequence. -/
def layoutWith (e : Engine ω σ) (source : String) (width : UInt32) (seed : UInt64)
    (shape : AttributedText → ω → Sequence ω σ × ω) (host : ω) :
    Logged (LayoutPlace × Engine ω σ × ω) := do
  let make (layouts : LayoutCache LayoutPlace) (state : Shelf ω σ × ω) := do
    let text ← e.parse source
    let (sequence, host) := shape text state.2
    let (place, shelf) := state.1.add ⟨text, sequence⟩
    return (place, layouts, shelf, host)
  let (place, layouts, shelf, host) ←
    e.layouts.getOrMake (e.layoutKey source width seed) make (e.shelf, host)
  return (place, { e with layouts, shelf }, host)

/-- The layout of a source, with a new one shaped at once. -/
def layout (e : Engine ω σ) (source : String) (width : UInt32) (seed : UInt64)
    (shape : AttributedText → ω → σ × ω) (host : ω) : Logged (LayoutPlace × Engine ω σ × ω) :=
  e.layoutWith source width seed (fun text host =>
    let (sequence, host) := shape text host
    (.made sequence, host)) host

/-- The layout of a source, with a new one shaped when its sequence is first asked for. -/
def layoutDeferred (e : Engine ω σ) (source : String) (width : UInt32) (seed : UInt64)
    (shape : ω → σ × ω) (host : ω) : Logged (LayoutPlace × Engine ω σ × ω) :=
  e.layoutWith source width seed (fun _ host => (.deferred shape, host)) host

/-- The sequence of a layout. -/
def sequence (e : Engine ω σ) (place : LayoutPlace) (host : ω) : Option σ × Engine ω σ × ω :=
  let (sequence, shelf, host) := e.shelf.sequence place host
  (sequence, { e with shelf }, host)

/-! ### Frames -/

/-- Drops the tracks that have been idle for too long. -/
def sweep (e : Engine ω σ) (now : Millis) : Logged (Engine ω σ) := do
  let (evicted, tracks) ← e.tracks.sweep now
  Logged.emitIf (evicted != 0) (.tracksEvicted evicted tracks.size)
  return { e with tracks }

/-- Draws a text. -/
def render (e : Engine ω σ) (text : AttributedText) (frame : Frame) (now : Millis) :
    Logged (Array Glyph × Engine ω σ) := do
  let e ← e.sweep now
  let (glyphs, tracks) ← e.renderer.render text frame now e.tracks
  return (glyphs, { e with tracks })

/-! ### What changes around the engine -/

/-- Whether tracks made under one configuration do not fit another one. -/
def tracksDiffer (a b : Config) : Bool :=
  a.trackCapacity != b.trackCapacity || a.trackTimeout != b.trackTimeout ||
    a.typewriterReset != b.typewriterReset || a.scrambleReset != b.scrambleReset

/-- Takes on a configuration. Gives whether layouts had to be dropped for it. -/
def applyConfig (e : Engine ω σ) (config : Config) : Logged (Bool × Engine ω σ) := do
  if config == e.config then return (false, e)
  else
    let rebuilt := tracksDiffer config e.config
    let (invalidated, layouts) ←
      (e.layouts.resize config.layoutCapacity.toNat).setFingerprint config.fingerprint
    Logged.emit (.configurationApplied config.fingerprint config.enabled rebuilt invalidated)
    return (invalidated, { e with
      config
      renderer := ⟨config⟩
      tracks := if rebuilt then .ofConfig config else e.tracks
      layouts })

/-- Reports the language of the display. Gives whether layouts had to be dropped for it. -/
def setLanguage (e : Engine ω σ) (language : String) : Logged (Bool × Engine ω σ) := do
  let (changed, layouts) ← e.layouts.setLanguage language
  return (changed, { e with language, layouts })

/-- Reports the scale of the display. Gives whether layouts had to be dropped for it. -/
def setScale (e : Engine ω σ) (scale : Float) : Logged (Bool × Engine ω σ) := do
  let (changed, layouts) ← e.layouts.setScale scale
  return (changed, { e with scale, layouts })

/-! ### Transport -/

/-- The bytes of a text. -/
def encode (_ : Engine ω σ) (text : AttributedText) : Except EngineError (List UInt8) :=
  (Wire.encode (Wire.spansOf text)).mapError .encode

/-- The spans that bytes stand for. -/
def decode (_ : Engine ω σ) (bytes : List UInt8) :
    Logged (Except EngineError (List Wire.Span)) :=
  (·.mapError .decode) <$> Wire.decode bytes

/-- The engine in diagnostic texts. -/
def diagnostic (e : Engine ω σ) : String :=
  diagnosticFields "TextEngine" [("config", e.config.diagnostic),
    ("tracks", toString e.tracks.size), ("layouts", toString e.layouts.size),
    ("language", Text.quoted e.language), ("scale", Shortest.diagnostic e.scale)]

end Engine

end KineticText
