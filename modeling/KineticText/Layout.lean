import KineticText.AttributedText
import KineticText.Config

/-! Layouts: attributed text with what the host shapes it into.  Shaping is the host's work and may
change the host's own state; it happens at once, or when the sequence is first asked for, and
never again.  Layouts stand on a shelf and are known by their place there, so whoever holds a
place sees a sequence that has been made since. -/

namespace KineticText

variable {ω σ : Type}

/-- What the host shapes a text into, with the host's state in `ω`. -/
inductive Sequence (ω σ : Type)
  | made (sequence : σ)
  /-- To be made when it is first asked for. -/
  | deferred (make : ω → σ × ω)

/-- The sequence, if it has been made. -/
def Sequence.made? : Sequence ω σ → Option σ
  | made sequence => some sequence
  | deferred _ => none

/-- A text with its sequence. -/
structure Layout (ω σ : Type) where
  text : AttributedText
  sequence : Sequence ω σ

/-- A text without spans in diagnostic texts, where spans show as their ranges. -/
def AttributedText.diagnostic (t : AttributedText) : String :=
  diagnosticFields "AttributedText" [("raw", Text.quoted t.raw),
    ("char_len", toString t.length),
    ("spans", "[" ++ ", ".intercalate (t.spans.map fun s =>
      toString s.extent.start ++ ".." ++ toString s.extent.stop) ++ "]")]

/-- The layout in diagnostic texts. -/
def Layout.diagnostic (l : Layout ω String) : String :=
  diagnosticFields "CachedLayout" [("spans", l.text.diagnostic),
    ("sequence", match l.sequence.made? with
      | none => "None"
      | some sequence => "Some(" ++ Text.quoted sequence ++ ")")]

/-- The place of a layout on its shelf. -/
structure LayoutPlace where
  index : Nat
  deriving DecidableEq

/-- The layouts that have been made. -/
structure Shelf (ω σ : Type) where
  layouts : Array (Layout ω σ) := #[]

namespace Shelf

/-- The layout at a place. -/
def get? (s : Shelf ω σ) (place : LayoutPlace) : Option (Layout ω σ) := s.layouts[place.index]?

/-- Puts a layout at the next place. -/
def add (s : Shelf ω σ) (layout : Layout ω σ) : LayoutPlace × Shelf ω σ :=
  (⟨s.layouts.size⟩, ⟨s.layouts.push layout⟩)

/-- The sequence of the layout at a place, which is made if it has not been. -/
def sequence (s : Shelf ω σ) (place : LayoutPlace) (host : ω) : Option σ × Shelf ω σ × ω :=
  match s.get? place with
  | none => (none, s, host)
  | some ⟨_, .made sequence⟩ => (some sequence, s, host)
  | some ⟨text, .deferred make⟩ =>
    let (sequence, host) := make host
    (some sequence, ⟨s.layouts.setIfInBounds place.index ⟨text, .made sequence⟩⟩, host)

end Shelf

end KineticText
