/-! Mixing of 64-bit words.  `mix a b` scatters the pair over all words, so neighbouring pairs give
unrelated seeds and keys.  Each of its steps is invertible: an exclusive or with a shifted copy, a
product with an odd number, a rotation or a sum. -/

namespace KineticText.Random

/-- The odd word nearest to `2^64` divided by the golden ratio. -/
def goldenGamma : UInt64 := 0x9E3779B97F4A7C15

/-- Moves the bits of `x` up by `n`, with the ones that fall out entering below. -/
def rotateLeft (x n : UInt64) : UInt64 := (x <<< n) ||| (x >>> (64 - n))

/-- The final steps of the mixing function, on the combined word. -/
def scatter (z : UInt64) : UInt64 :=
  let z := (z ^^^ (z >>> 30)) * 0xBF58476D1CE4E5B9
  let z := (z ^^^ (z >>> 27)) * 0x94D049BB133111EB
  z ^^^ (z >>> 31)

/-- Mixes two words into one. -/
def mix (a b : UInt64) : UInt64 :=
  scatter ((a ^^^ rotateLeft (b * goldenGamma) 31) + goldenGamma)

end KineticText.Random
