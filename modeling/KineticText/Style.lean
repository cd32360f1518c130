import KineticText.Color

/-! Static style: what a character looks like before anything moves.  Layering an inner style over
an outer one unites their flags and lets the inner color and font win. -/

namespace KineticText

/-- Style flags, one bit each. -/
structure StyleFlags where
  bits : UInt8
  deriving DecidableEq

namespace StyleFlags

def none : StyleFlags := ⟨0⟩

def bold : StyleFlags := ⟨1⟩

def italic : StyleFlags := ⟨2⟩

def underline : StyleFlags := ⟨4⟩

def strikethrough : StyleFlags := ⟨8⟩

/-- Text that the host scrambles by itself. -/
def scrambled : StyleFlags := ⟨16⟩

/-- Every flag there is. -/
def all : StyleFlags := ⟨0x1F⟩

/-- The flags of either side. -/
def union (a b : StyleFlags) : StyleFlags := ⟨a.bits ||| b.bits⟩

/-- Whether every flag of `b` is one of `a`. -/
def contains (a b : StyleFlags) : Bool := a.bits &&& b.bits == b.bits

def isEmpty (a : StyleFlags) : Bool := a.bits == 0

/-- The flags among arbitrary bits. -/
def ofBits (bits : UInt8) : StyleFlags := ⟨bits &&& all.bits⟩

end StyleFlags

/-- The static style of a character; what is not set comes from the host. -/
structure Style where
  color : Option Color := .none
  flags : StyleFlags := .none
  font : Option String := .none
  deriving DecidableEq

namespace Style

/-- The style with more flags. -/
def withFlags (s : Style) (flags : StyleFlags) : Style := { s with flags := s.flags.union flags }

def withColor (s : Style) (color : Color) : Style := { s with color := some color }

def withFont (s : Style) (font : String) : Style := { s with font := some font }

/-- Whether nothing is set. -/
def isEmpty (s : Style) : Bool := s.color.isNone && s.flags.isEmpty && s.font.isNone

/-- The style of `inner` text inside text of style `outer`. -/
def layer (outer inner : Style) : Style where
  color := inner.color <|> outer.color
  flags := outer.flags.union inner.flags
  font := inner.font <|> outer.font

end Style

end KineticText
