/-! The 32-bit floats that travel between peers.  They are kept as their bits, because only their
order and their finiteness matter on the way: finite ones are ordered by `rank`, in which both
zeros have rank 0. -/

namespace KineticText

/-- A 32-bit float, given by its bits. -/
structure Single where
  bits : UInt32
  deriving DecidableEq

namespace Single

/-- Whether the float is neither infinite nor NaN. -/
def isFinite (x : Single) : Bool := x.bits &&& 0x7F800000 != 0x7F800000

/-- Whether the float is NaN. -/
def isNaN (x : Single) : Bool := 0x7F800000 < x.bits &&& 0x7FFFFFFF

/-- The place of a finite float in the order of the numbers. -/
def rank (x : Single) : Int :=
  let size : Int := (x.bits &&& 0x7FFFFFFF).toNat
  if x.bits &&& 0x80000000 == 0 then size else -size

/-- Whether a finite float lies from `lo` to `hi`. -/
def between (x lo hi : Single) : Bool := lo.rank ≤ x.rank && x.rank ≤ hi.rank

/-- The float in `lo` to `hi` nearest to a finite `x`; `lo` when `x` is not finite. -/
def clamp (x lo hi : Single) : Single :=
  if !x.isFinite then lo
  else if x.rank < lo.rank then lo
  else if hi.rank < x.rank then hi
  else x

/-- The 32-bit float nearest to a 64-bit one. -/
def ofFloat (x : Float) : Single := ⟨x.toFloat32.toBits⟩

/-- Clamping ends in the range, and changes nothing that is there already. -/
theorem clamp_eq_self {lo hi x : Single} (hx : x.isFinite = true) (h : x.between lo hi = true) :
    x.clamp lo hi = x := by
  simp only [between, Bool.and_eq_true, decide_eq_true_eq] at h
  simp [clamp, hx, Int.not_lt.mpr h.1, Int.not_lt.mpr h.2]

theorem between_clamp {lo hi : Single} (h : lo.rank ≤ hi.rank) (x : Single) :
    (x.clamp lo hi).between lo hi = true := by
  simp only [between, clamp]
  grind

end Single

end KineticText
