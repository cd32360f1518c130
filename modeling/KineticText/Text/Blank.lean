/-! Blank characters: the characters with the Unicode property White_Space, and what is left of a
run of characters once the blanks at its ends are removed.  The table holds all 25 code points of
the property, so it is wider than `Char.isWhitespace`, which knows ASCII only. -/

namespace KineticText.Text

/-- The code points with the property White_Space, as closed ranges in ascending order. -/
def blankRanges : List (UInt32 × UInt32) :=
  [(0x09, 0x0D), (0x20, 0x20), (0x85, 0x85), (0xA0, 0xA0), (0x1680, 0x1680), (0x2000, 0x200A),
    (0x2028, 0x2029), (0x202F, 0x202F), (0x205F, 0x205F), (0x3000, 0x3000)]

/-- Whether `c` is a blank. -/
def isBlank (c : Char) : Bool :=
  blankRanges.any fun range => range.1 ≤ c.val && c.val ≤ range.2

/-- Removes the blanks at the front. -/
def trimStart (cs : List Char) : List Char := cs.dropWhile isBlank

/-- Removes the blanks at the back. -/
def trimEnd (cs : List Char) : List Char := (cs.reverse.dropWhile isBlank).reverse

/-- Removes the blanks at both ends. -/
def trim (cs : List Char) : List Char := trimEnd (trimStart cs)

end KineticText.Text
