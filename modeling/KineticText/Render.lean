import KineticText.AttributedText.Owners
import KineticText.Effect.Apply

/-! Drawing attributed text.  Every character becomes one glyph: it takes the static style of the
span that governs it, and then the effects of that span act on it, the outermost first.  An effect
that fails is passed over, and logged once in a frame.  The styled walk visits the characters with
their static style alone. -/

namespace KineticText

/-- How the characters of a span look. -/
structure Appearance where
  style : Style := {}
  /-- The effects that act on each glyph, each with the characters of its element. -/
  effects : List (Extent × Effect) := []

/-- The look that a configuration lets a span have: as many attributes and as many effects as it
allows, the outermost ones first. -/
def Config.appearance (c : Config) (s : Span) : Appearance :=
  let chain := s.attributes.take c.maxSpanDepth.toNat
  { style := .ofAttributes chain
    effects := (chain.filterMap fun a =>
      ((Effect.ofAttribute? a).filter (!·.isStatic)).map (a.extent, ·)).take
        c.maxEffectsPerGlyph.toNat }

/-! ### Typewriters that share a count -/

/-- The elements that no earlier one encloses. -/
def outermost {α : Type} : List (Extent × α) → List (Extent × α)
  | [] => []
  | e :: rest => e :: outermost (rest.filter fun other => !e.1.encloses other.1)
termination_by elements => elements.length
decreasing_by
  simp only [List.length_cons, List.unattach_filter, List.unattach_attach]
  exact Nat.lt_succ_of_le (List.length_filter_le _ _)

/-- The order of elements in a document: by start, the longer first. -/
def inDocumentOrder {α : Type} (a b : Extent × α) : Bool :=
  a.1.start < b.1.start || (a.1.start == b.1.start && b.1.stop ≤ a.1.stop)

/-- The outermost typewriters in document order. -/
def outerTypewriters (looks : List Appearance) : List (Extent × Typewriter) :=
  outermost <| ((looks.flatMap (·.effects)).filterMap fun
    | (extent, .typewriter e) => some (extent, e)
    | _ => none).mergeSort inDocumentOrder

/-- How many characters each outermost typewriter shows in a frame.  They share one count, which the
first of them paces. -/
def shareOut (config : Config) (frame : Frame) (now : Millis) (key : TrackKey)
    (outer : List (Extent × Typewriter)) (tracks : TrackStore) :
    Logged (List (Extent × Nat) × TrackStore) := do
  match outer with
  | [] => return ([], tracks)
  | (_, first) :: _ =>
    let lengths := outer.map fun e => e.1.length
    let total := totalLength lengths
    let (elapsed, tracks) ← tracks.askTypewriter now key fun track => do
      let track ← track.observeIf config.restart frame.progress
      track.elapsed now frame.ticks total config.restart
    let shown := visibleCount elapsed first.speed first.delay total
    return ((outer.map Prod.fst).zip (allot shown lengths), tracks)

/-! ### Glyphs -/

/-- The state of a frame while it is drawn. -/
structure Canvas where
  tracks : TrackStore
  /-- The effects that have failed, by their span and their place in it. -/
  failed : List (Nat × Nat) := []
  glyphs : Array Glyph := #[]

/-- Applies one effect of a span; `slot` is the place of the span and of the effect in it. -/
def Effect.act (e : Effect) (s : Scope) (slot : Nat × Nat) (canvas : Canvas) (g : Glyph) :
    Logged (Canvas × Glyph) := do
  let (outcome, tracks) ← e.apply s canvas.tracks g
  let canvas := { canvas with tracks }
  match outcome with
  | .ok g => return (canvas, g)
  | .error error =>
    if canvas.failed.contains slot then return (canvas, g)
    else
      Logged.emit (.effectFailed e.family error)
      return ({ canvas with failed := slot :: canvas.failed }, g)

/-- Applies the effects of a span to a glyph. -/
def Appearance.act (a : Appearance) (scopeOf : Extent → Scope) (place : Nat) (canvas : Canvas)
    (g : Glyph) : Logged (Canvas × Glyph) :=
  Logged.fold (fun state entry =>
      entry.1.2.act (scopeOf entry.1.1) (place, entry.2) state.1 state.2)
    (canvas, g) a.effects.zipIdx

/-- The glyph of a character with nothing done to it. -/
def Frame.blankGlyph (f : Frame) (index : Nat) (c : Char) : Glyph :=
  { index, character := c, color := f.base }

/-- The glyph of a character with its static style. -/
def Appearance.glyph (a : Appearance) (f : Frame) (index : Nat) (c : Char) : Glyph :=
  { f.blankGlyph index c with color := a.style.color.getD f.base, flags := a.style.flags }

/-- Draws characters by configuration. -/
structure Renderer where
  config : Config := {}

namespace Renderer

/-- Draws a character at its place in the text; `ownerOf` tells the place of its governing span. -/
def drawCharacter (looks : Array Appearance) (ownerOf : Nat → Option Nat) (frame : Frame)
    (scopeOf : Extent → Scope) (canvas : Canvas) (entry : Char × Nat) : Logged Canvas := do
  let (c, index) := entry
  let found : Option (Nat × Appearance) := do
    let place ← ownerOf index
    return (place, ← looks[place]?)
  match found with
  | none => return { canvas with glyphs := canvas.glyphs.push (frame.blankGlyph index c) }
  | some (place, look) =>
    let (canvas, g) ← look.act scopeOf place canvas (look.glyph frame index c)
    return { canvas with glyphs := canvas.glyphs.push g }

/-- Draws a text whose effects are on. -/
def draw (r : Renderer) (text : AttributedText) (frame : Frame) (now : Millis)
    (tracks : TrackStore) : Logged (Array Glyph × TrackStore) := do
  let looks := text.spans.map r.config.appearance
  let owners := text.owners
  let key := frame.key text.raw
  let (shares, tracks) ← match r.config.allocation with
    | .independent => pure ([], tracks)
    | .container => shareOut r.config frame now key.container (outerTypewriters looks) tracks
  let scopeOf (extent : Extent) : Scope :=
    { frame, config := r.config, now, text := key, extent, shares }
  let canvas ← Logged.fold (drawCharacter looks.toArray (text.owner owners) frame scopeOf)
    { tracks } text.raw.toList.zipIdx
  return (canvas.glyphs, canvas.tracks)

/-- Draws a text: one glyph for each character, in order. -/
def render (r : Renderer) (text : AttributedText) (frame : Frame) (now : Millis)
    (tracks : TrackStore) : Logged (Array Glyph × TrackStore) :=
  if r.config.suppresses frame then
    pure ((text.raw.toList.zipIdx.map fun (c, index) => frame.blankGlyph index c).toArray, tracks)
  else r.draw text frame now tracks

end Renderer

/-! ### The styled walk -/

/-- A character with its static style. -/
structure StyledCharacter where
  /-- The place of the character in the text. -/
  index : Nat
  character : Char
  style : Style

/-- Shows a sink the elements of a list until it is done. Gives also whether it was. -/
def visit {α σ : Type} (sink : σ → α → ForInStep σ) (state : σ) : List α → σ × Bool
  | [] => (state, false)
  | a :: rest =>
    match sink state a with
    | .done state => (state, true)
    | .yield state => visit sink state rest

namespace Renderer

/-- Every character with its static style, in order. -/
def styled (r : Renderer) (text : AttributedText) (frame : Frame) : List StyledCharacter :=
  let styles : Array Style :=
    if r.config.suppresses frame then #[]
    else (text.spans.map fun s => (r.config.appearance s).style).toArray
  let owners := text.owners
  text.raw.toList.zipIdx.map fun (character, index) =>
    { index, character, style := ((text.owner owners index).bind (styles[·]?)).getD {} }

/-- Shows a sink the characters with their static style until it is done. -/
def walk {σ : Type} (r : Renderer) (text : AttributedText) (frame : Frame)
    (sink : σ → StyledCharacter → ForInStep σ) (state : σ) : σ × Bool :=
  visit sink state (r.styled text frame)

end Renderer

end KineticText
