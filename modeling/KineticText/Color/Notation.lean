import KineticText.Color
import KineticText.Text.Blank
import KineticText.Text.Caseless

/-! Colors in text.  A color is written as a name or in hexadecimal digits: three or six for an
opaque color, eight with alpha first, all with an optional mark in front.  `hex` writes the eight
digits. -/

namespace KineticText.Color

/-- The value of a hexadecimal digit. -/
def hexDigit? (c : Char) : Option Nat :=
  if c.isDigit then some (c.toNat - '0'.toNat)
  else if 'a' ≤ c && c ≤ 'f' then some (c.toNat - 'a'.toNat + 10)
  else if 'A' ≤ c && c ≤ 'F' then some (c.toNat - 'A'.toNat + 10)
  else none

/-- The number that hexadecimal digits write. -/
def ofHexDigits (digits : List Nat) : Nat := digits.foldl (fun n d => 16 * n + d) 0

/-- Drops one mark of hexadecimal notation, a number sign or `0x`. -/
def dropMark : List Char → List Char
  | '#' :: rest => rest
  | '0' :: 'x' :: rest => rest
  | '0' :: 'X' :: rest => rest
  | rest => rest

/-- Reads hexadecimal notation. -/
def ofHex? (s : String) : Option Color := do
  let digits ← (dropMark (Text.trim s.toList)).mapM hexDigit?
  let twice (digit : Nat) := UInt8.ofNat (17 * digit)
  match digits with
  | [r, g, b] => some (opaqueOf (twice r) (twice g) (twice b))
  | [_, _, _, _, _, _] => some ⟨0xFF000000 ||| UInt32.ofNat (ofHexDigits digits)⟩
  | [_, _, _, _, _, _, _, _] => some ⟨UInt32.ofNat (ofHexDigits digits)⟩
  | _ => none

/-- The sixteen named colors, in the order of their one-character codes `0` to `9` and `a` to
`f`. -/
def named : List (String × UInt32) :=
  [("black", 0xFF000000), ("dark_blue", 0xFF0000AA), ("dark_green", 0xFF00AA00),
    ("dark_aqua", 0xFF00AAAA), ("dark_red", 0xFFAA0000), ("dark_purple", 0xFFAA00AA),
    ("gold", 0xFFFFAA00), ("gray", 0xFFAAAAAA), ("dark_gray", 0xFF555555), ("blue", 0xFF5555FF),
    ("green", 0xFF55FF55), ("aqua", 0xFF55FFFF), ("red", 0xFFFF5555),
    ("light_purple", 0xFFFF55FF), ("yellow", 0xFFFFFF55), ("white", 0xFFFFFFFF)]

/-- Second spellings of names. -/
def respelled : List (String × String) := [("grey", "gray"), ("dark_grey", "dark_gray")]

/-- Reads a name, in any case and with blanks around it. -/
def ofName? (s : String) : Option Color :=
  let name := Text.fold (String.ofList (Text.trim s.toList))
  (named.lookup ((respelled.lookup name).getD name)).map Color.mk

/-- The color with a one-character code. -/
def ofCode? (c : Char) : Option Color := do
  let code ← hexDigit? c
  let (_, argb) ← named[code]?
  return ⟨argb⟩

/-- Reads a name or hexadecimal notation. -/
def read? (s : String) : Option Color := ofName? s <|> ofHex? s

/-- A hexadecimal digit in capitals. -/
def hexChar (n : UInt32) : Char :=
  let n := (n &&& 0xF).toNat
  if n < 10 then Char.ofNat ('0'.toNat + n) else Char.ofNat ('A'.toNat + n - 10)

/-- The eight hexadecimal digits of the color, alpha first, after a number sign. -/
def hex (c : Color) : String :=
  String.ofList ('#' ::
    ([28, 24, 20, 16, 12, 8, 4, 0] : List UInt32).map fun shift => hexChar (c.argb >>> shift))

/-- The color in diagnostic texts. -/
def diagnostic (c : Color) : String := "Argb(" ++ c.hex ++ ")"

end KineticText.Color
