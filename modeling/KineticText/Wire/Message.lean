import KineticText.AttributedText.Runs
import KineticText.Effect
import KineticText.Wire.Span

/-! Messages: lists of spans, and how attributed text becomes one.  A run of text is one span with
the style that its attributes set and the parameters of its effects; every attribute's name is one
of its tags. -/

namespace KineticText.Wire

/-- The most spans of a message. -/
def maxSpans : Nat := 4096

/-- A message. -/
def message : Field (List Span) := .list "spans" maxSpans span

/-- Reads a value that takes all of the bytes. -/
def Field.decode {α : Type} (f : Field α) (bytes : List UInt8) : Except DecodeError α :=
  match (do let a ← f.read; finish; return a : Reader α) bytes with
  | .ok a _ => .ok a
  | .error e _ => .error e

/-- Writes a message. -/
def encode (spans : List Span) : Written := message.write spans

/-- Reads a message; bytes that are none are logged. -/
def decode (bytes : List UInt8) : Logged (Except DecodeError (List Span)) :=
  match message.decode bytes with
  | .ok spans => pure (.ok spans)
  | .error e => do
    Logged.emit (.spansRejected e bytes.length)
    return .error e

namespace SpanOf

/-- The span with an effect's parameters. -/
def withEffect (s : Span) : Effect → Span
  | .typewriter e => { s with typewriter := some ⟨.ofFloat e.speed, e.center⟩ }
  | .shake e => { s with
      charShake := some ⟨e.motion, .ofFloat e.amplitude, .ofFloat e.speed,
        .ofFloat e.wavelength⟩ }
  | .scramble e => { s with scramble := some ⟨e.mode, .ofFloat e.speed⟩ }
  | .gradient e =>
    let stops := e.stops.filterMap id
    { s with gradient := if stops.isEmpty then none else some stops }
  | .rainbow _ | .style _ => s

/-- The span with one more attribute. -/
def withAttribute (s : Span) (a : Attribute) : Span :=
  let s := if s.tags.contains a.id then s else { s with tags := s.tags ++ [a.id] }
  match Effect.ofAttribute? a with
  | some e => s.withEffect e
  | none => s

/-- The span of a run. -/
def ofRun (r : Run) : Span :=
  let style := Style.ofAttributes r.attributes
  r.attributes.foldl withAttribute {
    content := r.text
    style := if style.flags.isEmpty then none else some style.flags
    color := style.color
    font := style.font }

end SpanOf

/-- The spans of a text, one for each run. -/
def spansOf (t : AttributedText) : List Span := t.runs.map SpanOf.ofRun

end KineticText.Wire
