import KineticText.Markup.Bracket
import KineticText.Markup.Tag

/-! Tokens: a source text cut into literal text and tags.  Reading goes piece by piece.  An escape
or an entity stands for one character, a `<` whose bracket closes is a tag or, when its body is
malformed, literal text with its brackets, and every other character stands for itself.  Literal
pieces next to each other are one token, and no decoded character is decoded again. -/

namespace KineticText.Markup

/-- One lexical unit of a source. -/
inductive Token
  | text (content : String)
  | tag (tag : Tag)
  deriving DecidableEq

/-- What one step of reading finds. -/
inductive Piece
  | char (c : Char)
  | literal (source : String)
  | tag (tag : Tag)
  deriving DecidableEq

/-- The text and tag written from a `<` to the bracket after `n` more characters, and the rest. -/
def bracketed (n : Nat) (rest : List Marked) : Piece × List Marked :=
  let body := (rest.take n).map Prod.fst
  let source := String.ofList ('<' :: (body ++ ['>']))
  match Tag.parse? body source with
  | some tag => (.tag tag, rest.drop (n + 1))
  | none => (.literal source, rest.drop (n + 1))

/-- Reads the piece that starts with the marked character `c` and gives the rest. -/
def piece (c : Char) (closing : Option Nat) (rest : List Marked) : Piece × List Marked :=
  match c, closing, rest with
  | '\\', _, ('<', _) :: rest => (.char '<', rest)
  | '\\', _, ('\\', _) :: rest => (.char '\\', rest)
  | '&', _, ('l', _) :: ('t', _) :: (';', _) :: rest => (.char '<', rest)
  | '&', _, ('g', _) :: ('t', _) :: (';', _) :: rest => (.char '>', rest)
  | '&', _, ('a', _) :: ('m', _) :: ('p', _) :: (';', _) :: rest => (.char '&', rest)
  | '<', some n, rest => bracketed n rest
  | c, _, rest => (.char c, rest)

theorem bracketed_length_le (n : Nat) (rest : List Marked) :
    (bracketed n rest).2.length ≤ rest.length := by
  simp only [bracketed]
  split <;> simp only [List.length_drop] <;> omega

theorem piece_length_le (c : Char) (closing : Option Nat) (rest : List Marked) :
    (piece c closing rest).2.length ≤ rest.length := by
  unfold piece
  split
  case h_6 => exact bracketed_length_le _ _
  all_goals grind

/-- The tokens read so far, with the literal text that may still grow at the end. -/
structure Reading where
  tokens : Array Token := #[]
  text : String := ""

/-- Ends the literal text that is being read. -/
def Reading.flush (r : Reading) : Array Token :=
  if r.text.isEmpty then r.tokens else r.tokens.push (.text r.text)

/-- Adds a piece to what has been read. -/
def Reading.add (r : Reading) : Piece → Reading
  | .char c => { r with text := r.text.push c }
  | .literal source => { r with text := r.text ++ source }
  | .tag tag => { tokens := r.flush.push (.tag tag) }

/-- Reads every piece of a marked source. -/
def Reading.addAll (r : Reading) (source : List Marked) : Reading :=
  match source with
  | [] => r
  | (c, closing) :: rest => (r.add (piece c closing rest).1).addAll (piece c closing rest).2
termination_by source.length
decreasing_by
  have := piece_length_le c closing rest
  simp only [List.length_cons]
  omega

/-- Cuts a source text into tokens. -/
def tokenize (source : String) : List Token :=
  (Reading.addAll {} (withClosing source.toList)).flush.toList

end KineticText.Markup
