import KineticText.Number.Double

/-! The shortest decimal that reads back as a given float.  The reals that round to a float form an
interval around it.  `shortest` looks for a point of that interval on the grids of one digit, two
digits and so on, and takes the first it finds; on each grid only the two neighbours of the float
can be nearest to it.  Seventeen digits always suffice. -/

namespace KineticText.Shortest

/-- A decimal `digits * 10^exponent` whose last digit is not zero. -/
structure Decimal where
  digits : Nat
  exponent : Int
  deriving DecidableEq

/-- The reals that round to one float, in units of `2^scale / 4`: from `low` to `high` around
`middle`, ends included or not. -/
structure Interval where
  low : Nat
  middle : Nat
  high : Nat
  closed : Bool
  scale : Int

/-- The interval of a positive finite float. -/
def interval (x : Float) : Interval :=
  let e := Double.exponentField x
  let f := Double.fractionField x
  let m := if e == 0 then f else Double.hiddenBit + f
  let below := if f == 0 && 1 < e then 1 else 2
  ⟨4 * m - below, 4 * m, 4 * m + 2, m % 2 == 0, (Nat.max e 1 : Nat) - 1075⟩

/-- Numerator and denominator that bring units of `2^scale / 4` to units of `10^k`. -/
def ratio (scale k : Int) : Nat × Nat :=
  let two := scale - 2
  (Nat.pow 2 two.toNat * Nat.pow 10 (-k).toNat, Nat.pow 2 (-two).toNat * Nat.pow 10 k.toNat)

/-- Whether `d * 10^k` lies in the interval. -/
def Interval.contains (i : Interval) (d : Nat) (k : Int) : Bool :=
  let (p, q) := ratio i.scale k
  if i.closed then i.low * p ≤ d * q && d * q ≤ i.high * p
  else i.low * p < d * q && d * q < i.high * p

/-- The neighbour of the middle on the grid of multiples of `10^k` that lies in the interval and is
nearest to the middle; the upper one when both are equally near. -/
def Interval.onGrid? (i : Interval) (k : Int) : Option Nat :=
  let (p, q) := ratio i.scale k
  let d := i.middle * p / q
  let upperNearer := 2 * (i.middle * p % q) ≥ q
  match d != 0 && i.contains d k, i.contains (d + 1) k with
  | true, true => some (if upperNearer then d + 1 else d)
  | true, false => some d
  | false, true => some (d + 1)
  | false, false => none

/-- Moves the zeros at the end of `digits` into the exponent. -/
def strip (digits : Nat) (exponent : Int) : Nat → Decimal
  | 0 => ⟨digits, exponent⟩
  | n + 1 =>
    if digits % 10 == 0 then strip (digits / 10) (exponent + 1) n else ⟨digits, exponent⟩

/-- The power of ten of the first digit of the interval's middle. -/
def Interval.leading (i : Interval) : Int :=
  let (p, q) := ratio i.scale 0
  let n := i.middle * p
  if q ≤ n then ((Nat.toDigits 10 (n / q)).length : Int) - 1
  else -((Nat.toDigits 10 ((q - 1) / n)).length : Int)

/-- The shortest decimal in the interval of a positive finite float. -/
def shortest (x : Float) : Decimal :=
  let i := interval x
  let grid (n : Nat) : Option Decimal :=
    (i.onGrid? (i.leading - n)).map fun d => strip d (i.leading - n) 20
  ((List.range 17).findSome? grid).getD ⟨0, 0⟩

/-- The digits of `d` with a point where its exponent puts it and no exponent. -/
def Decimal.positional (d : Decimal) : String :=
  let digits := Nat.toDigits 10 d.digits
  if 0 ≤ d.exponent then String.ofList (digits ++ List.replicate d.exponent.toNat '0')
  else
    let places := (-d.exponent).toNat
    if places < digits.length then
      String.ofList (digits.take (digits.length - places) ++ '.' ::
        digits.drop (digits.length - places))
    else String.ofList ('0' :: '.' :: (List.replicate (places - digits.length) '0' ++ digits))

/-- The digits of `d` with a point after the first and an exponent. -/
def Decimal.scientific (d : Decimal) : String :=
  let digits := Nat.toDigits 10 d.digits
  let mantissa := match digits with
    | first :: second :: rest => String.ofList (first :: '.' :: second :: rest)
    | short => String.ofList short
  mantissa ++ "e" ++ toString (d.exponent + digits.length - 1)

/-- The text of `x` with `body` for its absolute value when that is positive and finite, and with
`zero` for a zero. -/
def signed (zero : String) (body : Decimal → String) (x : Float) : String :=
  if x.isNaN then "NaN"
  else
    (if Double.isNegative x then "-" else "") ++
      (if !x.isFinite then "inf"
      else if Double.magnitude x == 0 then zero
      else body (shortest x.abs))

/-- The number in plain notation: the fewest digits that read back, and never an exponent. -/
def plain (x : Float) : String := signed "0" Decimal.positional x

/-- The number in diagnostic notation: like `plain`, but always with a point or an exponent, and
with an exponent below `10^-4` and from `10^16` on. -/
def diagnostic (x : Float) : String :=
  signed "0.0" (fun d =>
    if x.abs < 1e-4 || 1e16 ≤ x.abs then d.scientific
    else if 0 ≤ d.exponent then d.positional ++ ".0" else d.positional) x

end KineticText.Shortest
