import KineticText.Effect.Offset
import KineticText.Effect.Reveal
import KineticText.Effect.Shade
import KineticText.Frame
import KineticText.Glyph
import KineticText.Track.Store

/-! Applying an effect to a glyph.  The effect sees the frame, the configuration and the element
that declares it, and it may move the element's track on.  An effect that fails has no glyph to
give. -/

namespace KineticText

/-- What an effect sees besides the glyph. -/
structure Scope where
  frame : Frame
  config : Config
  now : Millis
  /-- The key of the text. -/
  text : TrackKey
  /-- The characters of the element that declares the effect. -/
  extent : Extent
  /-- How many characters each of the outermost typewriters shows, when they share a count. -/
  shares : List (Extent × Nat) := []

namespace Scope

/-- The key of the element. -/
def key (s : Scope) : TrackKey := s.text.element s.extent

/-- The number of characters in the element. -/
def length (s : Scope) : Nat := s.extent.length

/-- The place of a glyph in the element. -/
def place (s : Scope) (g : Glyph) : Nat := s.extent.localIndex g.index

end Scope

/-- The outcome of an effect, with the tracks after it. -/
abbrev Applied : Type := Logged (Except EffectError Glyph × TrackStore)

/-- Fails on the first of the named numbers that is not finite. -/
def requireFinite (effect : String) : List (String × Float) → Except EffectError Unit
  | [] => .ok ()
  | (name, x) :: rest =>
    if x.isFinite then requireFinite effect rest else .error (.notFinite effect name)

/-- The glyph of a typewriter that shows `shown` of `length` characters, at a place among them. -/
def Typewriter.reveal (e : Typewriter) (s : Scope) (place length shown : Nat) (g : Glyph) : Glyph :=
  if shown ≤ place then { g with visible := false }
  else if e.center then
    { g with offsetX := g.offsetX + Double.ofNat (length - shown) * s.frame.advance / 2.0 }
  else g

/-- How many characters of its element a typewriter shows by its own track. -/
def Typewriter.shown (e : Typewriter) (s : Scope) (tracks : TrackStore) :
    Logged (Nat × TrackStore) := do
  let (elapsed, tracks) ← tracks.askTypewriter s.now s.key fun track => do
    let track ← track.observeIf s.config.restart s.frame.progress
    track.elapsed s.now s.frame.ticks s.length s.config.restart
  return (visibleCount elapsed e.speed e.delay s.length, tracks)

def Typewriter.apply (e : Typewriter) (s : Scope) (tracks : TrackStore) (g : Glyph) : Applied := do
  match requireFinite "typewriter" [("ticks", s.frame.ticks)] with
  | .error error => return (.error error, tracks)
  | .ok () =>
    match s.config.allocation with
    | .independent =>
      let (shown, tracks) ← e.shown s tracks
      return (.ok (e.reveal s (s.place g) s.length shown g), tracks)
    | .container =>
      match s.shares.find? fun share => share.1.contains g.index with
      | none => return (.ok g, tracks)
      | some (extent, shown) =>
        return (.ok (e.reveal s (extent.localIndex g.index) extent.length shown g), tracks)

/-- Moves the track of the element on. -/
def Scramble.move (e : Scramble) (s : Scope) (track : ScrambleTrack) : Logged ScrambleTrack := do
  let track ← track.sync s.length e.direction (e.seed.getD s.key.word) s.now
  if e.mode = .random then track.stepRandom s.now s.config.timing else return track

def Scramble.apply (e : Scramble) (s : Scope) (tracks : TrackStore) (g : Glyph) : Applied := do
  match requireFinite "obfuscate" [("speed", e.speed)] with
  | .error error => return (.error error, tracks)
  | .ok () =>
    let (track, tracks) ← tracks.askScramble s.now s.key fun track => do
      let track ← e.move s track
      return (track, track)
    let place := s.place g
    let glyph := (track.isScrambled place e.mode e.speed s.now).map fun scrambled =>
      if scrambled then { g with character := track.filler place g.character e.alphabet s.now }
      else g
    return (glyph, tracks)

def Shake.apply (e : Shake) (s : Scope) (g : Glyph) : Except EffectError Glyph := do
  requireFinite "shake" [("ticks", s.frame.ticks), ("amplitude", e.amplitude), ("speed", e.speed),
    ("wavelength", e.wavelength)]
  let (x, y) := e.offset s.frame.ticks (s.place g) s.key.word
  return { g with offsetX := g.offsetX + x, offsetY := g.offsetY + y }

/-- The glyph in a color, as transparent as it was. -/
def Glyph.paint (g : Glyph) (color : Color) : Glyph :=
  { g with color := color.withAlpha g.color.alpha }

def Gradient.apply (e : Gradient) (s : Scope) (g : Glyph) : Except EffectError Glyph := do
  requireFinite "gradient" [("ticks", s.frame.ticks), ("flow", e.flow)]
  let position := e.position (s.place g) s.length s.frame.ticks
  match shade (e.colors s.frame.base).toArray position e.repeating with
  | none => throw .emptyGradient
  | some color => return g.paint color

def Rainbow.apply (e : Rainbow) (s : Scope) (g : Glyph) : Except EffectError Glyph := do
  requireFinite "rainbow" [("ticks", s.frame.ticks)]
  return g.paint (e.color (s.place g) s.frame.ticks)

/-- Applies an effect to a glyph; static style is no effect of its own on glyphs. -/
def Effect.apply (e : Effect) (s : Scope) (tracks : TrackStore) (g : Glyph) : Applied :=
  match e with
  | typewriter e => e.apply s tracks g
  | scramble e => e.apply s tracks g
  | shake e => pure (e.apply s g, tracks)
  | gradient e => pure (e.apply s g, tracks)
  | rainbow e => pure (e.apply s g, tracks)
  | style _ => pure (.ok g, tracks)

end KineticText
