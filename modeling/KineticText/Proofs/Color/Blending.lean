import Mathlib.Algebra.Ring.Nat
import KineticText.Color

/-! Blends of colors.  Each channel has a byte of the word for itself, so packing and unpacking undo
each other and the channels of a blend are the blended channels.  The product of a difference and a
weight is signed and its 256th is rounded down, yet it stays between zero and the difference.  Main
statement: every channel of a blend lies between those of its colors, which are met at the ends. -/

namespace KineticText.Color

variable {w : Nat}

/-! ### Packing -/

theorem toNat_ofChannels (a r g b : UInt8) :
    (ofChannels a r g b).argb.toNat =
      a.toNat * 2 ^ 24 + (r.toNat * 2 ^ 16 + (g.toNat * 2 ^ 8 + b.toNat)) := by
  have ha := a.toNat_lt
  have hr := r.toNat_lt
  have hg := g.toNat_lt
  have hb := b.toNat_lt
  simp only [ofChannels, UInt32.toNat_or, UInt32.toNat_shiftLeft, UInt8.toNat_toUInt32,
    UInt32.reduceToNat, Nat.reduceMod, Nat.or_assoc]
  rw [Nat.mod_eq_of_lt (by omega), Nat.mod_eq_of_lt (by omega), Nat.mod_eq_of_lt (by omega),
    ← Nat.shiftLeft_add_eq_or_of_lt (i := 8) hb, ← Nat.shiftLeft_add_eq_or_of_lt (i := 16) (by omega),
    ← Nat.shiftLeft_add_eq_or_of_lt (i := 24) (by omega)]
  simp only [Nat.shiftLeft_eq]

theorem toNat_channel (c : Color) (place : UInt32) :
    (c.channel place).toNat = c.argb.toNat / 2 ^ (place.toNat % 32) % 256 := by
  rw [channel, UInt32.toNat_toUInt8, UInt32.toNat_shiftRight, Nat.shiftRight_eq_div_pow]

/-- The channels of a color, alpha first. -/
def channels (c : Color) : List UInt8 := [c.alpha, c.red, c.green, c.blue]

theorem channels_ofChannels (a r g b : UInt8) : (ofChannels a r g b).channels = [a, r, g, b] := by
  have ha := a.toNat_lt
  have hr := r.toNat_lt
  have hg := g.toNat_lt
  have hb := b.toNat_lt
  simp only [channels, alpha, red, green, blue, List.cons.injEq, and_true, ← UInt8.toNat_inj,
    toNat_channel, toNat_ofChannels, UInt32.reduceToNat, Nat.reduceMod]
  omega

theorem ofChannels_channels (c : Color) : ofChannels c.alpha c.red c.green c.blue = c := by
  have hc := c.argb.toNat_lt
  have hargb : (ofChannels c.alpha c.red c.green c.blue).argb = c.argb := by
    apply UInt32.toNat_inj.mp
    simp only [alpha, red, green, blue, toNat_ofChannels, toNat_channel, UInt32.reduceToNat,
      Nat.reduceMod]
    omega
  cases c
  exact congrArg mk hargb

/-! ### Blending -/

/-- A 256th of a difference times a weight lies between zero and the difference. -/
theorem difference_between (d : Int) (h : w ≤ 256) :
    min 0 d ≤ d * w / 256 ∧ d * w / 256 ≤ max 0 d := by
  have hw : (w : Int) ≤ 256 := by omega
  by_cases hd : 0 ≤ d
  · have hlow := Int.mul_nonneg hd (Int.natCast_nonneg w)
    have hhigh := Int.mul_le_mul_of_nonneg_left hw hd
    omega
  · have hneg : d ≤ 0 := by omega
    have hlow := Int.mul_le_mul_of_nonpos_left hneg hw
    have hhigh := Int.mul_nonpos_of_nonpos_of_nonneg hneg (Int.natCast_nonneg w)
    omega

/-- The level `y` lies between the levels `x` and `z`, whichever of them is the greater. -/
def Between (x y z : UInt8) : Prop :=
  min x.toNat z.toNat ≤ y.toNat ∧ y.toNat ≤ max x.toNat z.toNat

/-- A blended channel is the exact one, shifted down arithmetically: it is never cut off. -/
theorem toNat_blendChannel (x z : UInt8) (h : w ≤ 256) :
    ((blendChannel x z w).toNat : Int) = x.toNat + (((z.toNat : Int) - x.toNat) * w) >>> (8 : Nat) := by
  have hx := x.toNat_lt
  have hz := z.toNat_lt
  have hbetween := difference_between ((z.toNat : Int) - x.toNat) h
  rw [Int.shiftRight_eq_div_pow, blendChannel, UInt8.toNat_ofNat']
  omega

theorem between_blendChannel (x z : UInt8) (h : w ≤ 256) :
    Between x (blendChannel x z w) z := by
  have hbetween := difference_between ((z.toNat : Int) - x.toNat) h
  have hexact := toNat_blendChannel x z h
  rw [Int.shiftRight_eq_div_pow] at hexact
  unfold Between
  omega

theorem blendChannel_zero (x z : UInt8) : blendChannel x z 0 = x := by
  simp [blendChannel]

theorem blendChannel_full (x z : UInt8) : blendChannel x z 256 = z := by
  have hexact := toNat_blendChannel x z (Nat.le_refl 256)
  rw [Int.shiftRight_eq_div_pow] at hexact
  apply UInt8.toNat_inj.mp
  omega

/-- Every channel of `c` lies between the same channels of `a` and `b`. -/
structure LiesBetween (c a b : Color) : Prop where
  alpha : Between a.alpha c.alpha b.alpha
  red : Between a.red c.red b.red
  green : Between a.green c.green b.green
  blue : Between a.blue c.blue b.blue

theorem blend_liesBetween (a b : Color) (h : w ≤ 256) : (blend a b w).LiesBetween a b := by
  have hchannels := channels_ofChannels (blendChannel a.alpha b.alpha w)
    (blendChannel a.red b.red w) (blendChannel a.green b.green w) (blendChannel a.blue b.blue w)
  simp only [channels, List.cons.injEq, and_true] at hchannels
  obtain ⟨halpha, hred, hgreen, hblue⟩ := hchannels
  unfold blend
  constructor
  · rw [halpha]
    exact between_blendChannel _ _ h
  · rw [hred]
    exact between_blendChannel _ _ h
  · rw [hgreen]
    exact between_blendChannel _ _ h
  · rw [hblue]
    exact between_blendChannel _ _ h

theorem blend_zero (a b : Color) : blend a b 0 = a := by
  simp only [blend, blendChannel_zero, ofChannels_channels]

theorem blend_full (a b : Color) : blend a b 256 = b := by
  simp only [blend, blendChannel_full, ofChannels_channels]

theorem weight_le (t : Float) : weight t ≤ 256 := Nat.min_le_left _ _

end KineticText.Color
