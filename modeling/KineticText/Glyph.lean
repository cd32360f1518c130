import KineticText.Style

/-! Glyphs: the characters of a frame after every effect. -/

namespace KineticText

/-- A character as it is drawn. -/
structure Glyph where
  /-- The place of the character in the text. -/
  index : Nat
  /-- The character to draw. -/
  character : Char
  color : Color
  /-- Pixels to the right. -/
  offsetX : Float := 0.0
  /-- Pixels downward. -/
  offsetY : Float := 0.0
  /-- Whether the character is drawn at all. -/
  visible : Bool := true
  /-- The share of the cell above which nothing is drawn. -/
  maskTop : Float := 0.0
  /-- The share of the cell below which nothing is drawn. -/
  maskBottom : Float := 1.0
  flags : StyleFlags := .none
  deriving DecidableEq

/-- Whether an effect has moved the glyph. -/
def Glyph.isDisplaced (g : Glyph) : Bool := g.offsetX != 0.0 || g.offsetY != 0.0

end KineticText
