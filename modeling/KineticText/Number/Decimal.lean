import KineticText.Text.Blank

/-! Reading numbers from text.  A number is an optional sign and then digits with at most one point
among or around them and an optional exponent, or one of the words `inf`, `infinity` and `nan` in
any case.  The value is the float nearest to the digits scaled by the exponent, where an exponent
grows no more once it has reached 65536. -/

namespace KineticText.Decimal

/-- The value of a decimal digit. -/
def digit (c : Char) : Nat := c.toNat - '0'.toNat

/-- The number that decimal digits write after `n`. -/
def appendDigits (n : Nat) (digits : List Char) : Nat :=
  digits.foldl (fun n c => 10 * n + digit c) n

/-- The number that decimal digits write. -/
def ofDigits (digits : List Char) : Nat := appendDigits 0 digits

/-- The exponent that decimal digits write after `n`.  Once it has reached 65536 it grows no more:
the digits after that have no effect. -/
def appendExponent (n : Nat) (digits : List Char) : Nat :=
  digits.foldl (fun n c => if n < 65536 then 10 * n + digit c else n) n

/-- The exponent that decimal digits write. -/
def exponentOfDigits (digits : List Char) : Nat := appendExponent 0 digits

theorem le_appendDigits (n : Nat) (digits : List Char) : n ≤ appendDigits n digits := by
  induction digits generalizing n with
  | nil => exact Nat.le_refl n
  | cons c rest ih => exact Nat.le_trans (by omega) (ih (10 * n + digit c))

theorem appendExponent_eq {n : Nat} {digits : List Char} (h : appendDigits n digits < 655360) :
    appendExponent n digits = appendDigits n digits := by
  induction digits generalizing n with
  | nil => rfl
  | cons c rest ih =>
    have hn : n < 65536 := by
      have := le_appendDigits (10 * n + digit c) rest
      change appendDigits (10 * n + digit c) rest < 655360 at h
      omega
    change appendExponent (if n < 65536 then 10 * n + digit c else n) rest = _
    rw [if_pos hn]
    exact ih h

/-- An exponent below 655360 is read in full. -/
theorem exponentOfDigits_eq {digits : List Char} (h : ofDigits digits < 655360) :
    exponentOfDigits digits = ofDigits digits :=
  appendExponent_eq h

/-- Reads an exponent: an optional sign and at least one digit, up to the end. -/
def exponent? (cs : List Char) : Option Int :=
  let (negative, digits) := match cs with
    | '-' :: rest => (true, rest)
    | '+' :: rest => (false, rest)
    | rest => (false, rest)
  if digits.isEmpty || !digits.all Char.isDigit then none
  else if negative then some (-(exponentOfDigits digits : Int))
  else some (exponentOfDigits digits)

/-- How many digits of a number count with their values.  A float, and the middle between two
neighbouring floats, has at most 768 of them, so of the digits after these it only matters whether
one is not zero. -/
def significantDigits : Nat := 768

/-- The number that decimal digits write, as far as rounding it to a float can tell, and by how many
places it is shorter than the digits: when digits are left out, one more digit says whether any of
them is not zero. -/
def shorten (digits : List Char) : Nat × Nat :=
  match digits.drop significantDigits with
  | [] => (ofDigits digits, 0)
  | _ :: rest =>
    let kept := ofDigits (digits.take significantDigits)
    let more := (digits.drop significantDigits).any (· != '0')
    (10 * kept + (if more then 1 else 0), rest.length)

/-- The float nearest to the number that digits write times `10^e`.  Beyond `10^400` every float has
overflowed, and below `10^-400` the nearest one is zero. -/
def nearest (digits : List Char) (e : Int) : Float :=
  let digits := digits.dropWhile (· == '0')
  let size := digits.length + e
  if digits.isEmpty || size < -400 then 0.0
  else if 400 < size then 1.0 / 0.0
  else
    let (m, places) := shorten digits
    let e := e + places
    Float.ofScientific m (e < 0) e.natAbs

/-- Reads a number without a sign. -/
def unsigned? (cs : List Char) : Option Float :=
  let word := String.ofList (cs.map Char.toLower)
  if word == "inf" || word == "infinity" then some (1.0 / 0.0)
  else if word == "nan" then some (0.0 / 0.0)
  else
    let whole := cs.takeWhile Char.isDigit
    let (fraction, rest) := match cs.dropWhile Char.isDigit with
      | '.' :: rest => (rest.takeWhile Char.isDigit, rest.dropWhile Char.isDigit)
      | rest => ([], rest)
    if whole.isEmpty && fraction.isEmpty then none
    else
      let value (e : Int) := nearest (whole ++ fraction) (e - fraction.length)
      match rest with
      | [] => some (value 0)
      | 'e' :: rest | 'E' :: rest => (exponent? rest).map value
      | _ => none

/-- Reads a number. -/
def read? (cs : List Char) : Option Float :=
  match cs with
  | '-' :: rest => (unsigned? rest).map (- ·)
  | '+' :: rest => unsigned? rest
  | _ => unsigned? cs

/-- Reads a number with blanks around it. -/
def readTrimmed? (s : String) : Option Float := read? (Text.trim s.toList)

end KineticText.Decimal
