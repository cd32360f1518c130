import KineticText.Random.Mixing
import KineticText.Text.Utf8

/-! Digests of words and texts.  A digest adds each word to its state and multiplies the sum by an
odd number, so with everything else fixed a different word gives a different digest.  A text enters
as the hash of its UTF-8 bytes and an end mark. -/

namespace KineticText.Random

/-- The low half of the 128-bit product of two words, with the high half folded onto it. -/
def foldedProduct (x y : UInt64) : UInt64 :=
  let product := x.toNat * y.toNat
  UInt64.ofNat product ^^^ UInt64.ofNat (product >>> 64)

/-- The word that bytes write, the least significant byte first. -/
def littleEndian (bytes : List UInt8) : UInt64 :=
  bytes.foldr (fun b word => (word <<< 8) ||| b.toUInt64) 0

/-- Folds the bytes sixteen at a time into two lanes, while more than sixteen are left. -/
def absorb (lanes : UInt64 × UInt64) (bytes : List UInt8) : UInt64 × UInt64 :=
  if (bytes.drop 16).isEmpty then lanes
  else
    let x := littleEndian (bytes.take 8)
    let y := littleEndian ((bytes.drop 8).take 8)
    absorb (lanes.2, foldedProduct (lanes.1 ^^^ x) (0xA4093822299F31D0 ^^^ y)) (bytes.drop 16)
termination_by bytes.length
decreasing_by
  simp only [List.isEmpty_iff, List.drop_eq_nil_iff] at *
  simp only [List.length_drop]
  omega

/-- The two words that stand for the ends of the bytes: their first and last eight, four or one of
them, by how many there are, and for a long text the last sixteen. -/
def ends (bytes : List UInt8) : UInt64 × UInt64 :=
  let n := bytes.length
  if 16 < n then
    (littleEndian ((bytes.drop (n - 16)).take 8), littleEndian (bytes.drop (n - 8)))
  else if 8 ≤ n then (littleEndian (bytes.take 8), littleEndian (bytes.drop (n - 8)))
  else if 4 ≤ n then (littleEndian (bytes.take 4), littleEndian (bytes.drop (n - 4)))
  else
    ((bytes.getD 0 0).toUInt64,
      ((bytes.getD (n - 1) 0).toUInt64 <<< 8) ||| (bytes.getD (n / 2) 0).toUInt64)

/-- The hash of a sequence of bytes. -/
def hashBytes (bytes : List UInt8) : UInt64 :=
  let lanes := absorb (0x243F6A8885A308D3, 0x13198A2E03707344) bytes
  let tail := if bytes.isEmpty then (0, 0) else ends bytes
  foldedProduct (lanes.1 ^^^ tail.1) (lanes.2 ^^^ tail.2) ^^^ UInt64.ofNat bytes.length

/-- The state of a digest. -/
structure Digest where
  state : UInt64 := 0
  deriving DecidableEq

namespace Digest

/-- Adds a word. -/
def word (d : Digest) (w : UInt64) : Digest := ⟨(d.state + w) * 0xF1357AEA2E62A9C5⟩

/-- Adds a truth value, as 1 or 0. -/
def flag (d : Digest) (b : Bool) : Digest := d.word (if b then 1 else 0)

/-- Adds a text and its end mark. -/
def text (d : Digest) (s : String) : Digest :=
  (d.word (hashBytes (Text.utf8 s))).word 0xFF

/-- Adds a list of texts, their number first. -/
def texts (d : Digest) (ss : List String) : Digest :=
  ss.foldl Digest.text (d.word (UInt64.ofNat ss.length))

/-- The word that the digest comes to. -/
def value (d : Digest) : UInt64 := rotateLeft d.state 26

end Digest

/-- The digest of one text. -/
def hashText (s : String) : UInt64 := (({} : Digest).text s).value

end KineticText.Random
