/-! Exact operations on 64-bit floats.  Every finite float is a whole multiple of the least positive
one, `2^-1074`, so its `magnitude` is a natural number, and remainders are remainders of natural
numbers.  Rounding to whole numbers works on the bits of the significand that lie below the point.
None of these operations rounds its result. -/

namespace KineticText.Double

/-- The exponent field, from 0 for subnormal numbers to 2047 for infinities and NaN. -/
def exponentField (x : Float) : Nat := (x.toBits >>> 52).toNat % 2048

/-- The fraction field, below `2^52`. -/
def fractionField (x : Float) : Nat := (x.toBits &&& 0xFFFFFFFFFFFFF).toNat

/-- The bit above the fraction field: normal numbers have it, but it is not stored. -/
def hiddenBit : Nat := 0x10000000000000

/-- Whether the sign bit is set. -/
def isNegative (x : Float) : Bool := x.toBits >>> 63 == 1

/-- The absolute value of a finite float in units of `2^-1074`. -/
def magnitude (x : Float) : Nat :=
  match exponentField x with
  | 0 => fractionField x
  | e + 1 => (hiddenBit + fractionField x) <<< e

/-- The float with the given sign whose magnitude is `n`, for an `n` that some float has. -/
def ofMagnitude (negative : Bool) (n : Nat) : Float :=
  let sign : UInt64 := if negative then 0x8000000000000000 else 0
  if n < hiddenBit then Float.ofBits (sign ||| UInt64.ofNat n)
  else
    let e := n.log2 - 52
    Float.ofBits (sign ||| (UInt64.ofNat (e + 1) <<< 52) |||
      UInt64.ofNat ((n >>> e) - hiddenBit))

/-- Drops the part of `x` after the point. -/
def truncate (x : Float) : Float :=
  let e := exponentField x
  if e < 1023 then Float.ofBits (x.toBits &&& 0x8000000000000000)
  else if e < 1075 then Float.ofBits ((x.toBits >>> UInt64.ofNat (1075 - e)) <<<
    UInt64.ofNat (1075 - e))
  else x

/-- The largest whole number that is at most `x`. -/
def floor (x : Float) : Float :=
  if x < truncate x then truncate x - 1.0 else truncate x

/-- The whole number nearest to `x`; of two equally near ones, the one farther from zero. -/
def round (x : Float) : Float :=
  if 0.5 ≤ (x - truncate x).abs then
    if isNegative x then truncate x - 1.0 else truncate x + 1.0
  else truncate x

/-- The remainder of `x` by `y` with the sign of `x`; NaN unless both are finite and `y` is not
zero. -/
def remainder (x y : Float) : Float :=
  if x.isFinite && y.isFinite && magnitude y != 0 then
    ofMagnitude (isNegative x) (magnitude x % magnitude y)
  else 0.0 / 0.0

/-- The remainder of `x` by `y` moved up by `|y|` when it is below zero. -/
def modulo (x y : Float) : Float :=
  let r := remainder x y
  if r < 0.0 then r + y.abs else r

/-- The value in `lo` to `hi` nearest to `x`.  NaN stays NaN, and a zero keeps its sign. -/
def clamp (lo hi x : Float) : Float :=
  if x < lo then lo else if hi < x then hi else x

/-- The greater of two floats, or the other one when one of them is NaN. -/
def max (x y : Float) : Float :=
  if x.isNaN then y else if y.isNaN then x else if x < y then y else x

/-- The smaller of two floats, or the other one when one of them is NaN. -/
def min (x y : Float) : Float :=
  if x.isNaN then y else if y.isNaN then x else if y < x then y else x

/-- The natural number nearest to zero from `x`, and at most the largest 64-bit word; NaN counts as
zero. -/
def toNat (x : Float) : Nat := x.toUInt64.toNat

/-- The float nearest to `n`, for an `n` that fits in a 64-bit word. -/
def ofNat (n : Nat) : Float := (UInt64.ofNat n).toFloat

end KineticText.Double
