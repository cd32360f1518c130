import Mathlib.Algebra.Ring.Nat
import Mathlib.Logic.Function.Basic
import KineticText.Random.Mixing

/-! Mixing loses nothing.  Every step of `mix` can be undone: an exclusive or with a shifted copy of
the word, a product with a number that has an inverse modulo `2^64`, a rotation, and a sum.  So with
either word fixed, different other words are mixed into different ones. -/

namespace KineticText.Random

open Function

theorem xor_eq_xor_of_eq {a b c d : UInt64} (h : a ^^^ b = c ^^^ d) : a ^^^ c = b ^^^ d := by
  calc
    a ^^^ c = a ^^^ b ^^^ (b ^^^ c) := by
      rw [← UInt64.xor_assoc, UInt64.xor_assoc a b b, UInt64.xor_self, UInt64.xor_zero]
    _ = c ^^^ d ^^^ (b ^^^ c) := by rw [h]
    _ = b ^^^ d := by
      rw [UInt64.xor_comm c d, UInt64.xor_comm b c, ← UInt64.xor_assoc, UInt64.xor_assoc d c c,
        UInt64.xor_self, UInt64.xor_zero, UInt64.xor_comm]

theorem xorShift_injective {n : UInt64} (hn : 0 < n.toNat % 64) :
    Injective fun x : UInt64 => x ^^^ (x >>> n) := by
  intro x y h
  -- The difference of the words is that difference moved down, so it has no highest bit.
  have hdiff : x ^^^ y = (x ^^^ y) >>> n := by
    rw [UInt64.shiftRight_xor]
    exact xor_eq_xor_of_eq h
  have hzero : (x ^^^ y).toNat = 0 := by
    have hnat := congrArg UInt64.toNat hdiff
    rw [UInt64.toNat_shiftRight, Nat.shiftRight_eq_div_pow] at hnat
    by_contra hne
    have hlt := Nat.div_lt_self (Nat.pos_of_ne_zero hne) (Nat.one_lt_two_pow (Nat.ne_of_gt hn))
    omega
  exact UInt64.xor_eq_zero_iff.mp (UInt64.toNat_inj.mp hzero)

theorem xorShiftLeft_injective {n : UInt64} (hn : 0 < n.toNat % 64) :
    Injective fun x : UInt64 => x ^^^ (x <<< n) := by
  intro x y h
  -- The difference of the words is that difference moved up, so an odd multiple of it is zero.
  have hdiff : x ^^^ y = (x ^^^ y) <<< n := by
    rw [UInt64.shiftLeft_xor]
    exact xor_eq_xor_of_eq h
  have hzero : (x ^^^ y).toNat = 0 := by
    have hnat := congrArg UInt64.toNat hdiff
    obtain ⟨m, hm⟩ : ∃ m, n.toNat % 64 = m + 1 := ⟨_, (Nat.sub_add_cancel hn).symm⟩
    rw [UInt64.toNat_shiftLeft, Nat.shiftLeft_eq, hm] at hnat
    have hodd : 2 ^ (m + 1) - 1 = 2 * (2 ^ m - 1) + 1 := by
      have hpos := Nat.two_pow_pos m
      omega
    have hcoprime : Nat.Coprime (2 ^ 64) (2 ^ (m + 1) - 1) := by
      rw [hodd]
      exact Nat.Coprime.pow_left 64 (by simp [Nat.Coprime])
    have hdvd := Nat.dvd_sub_mod (n := 2 ^ 64) ((x ^^^ y).toNat * 2 ^ (m + 1))
    rw [← hnat, ← Nat.mul_sub_one] at hdvd
    exact Nat.eq_zero_of_dvd_of_lt (hcoprime.dvd_of_dvd_mul_right hdvd) (x ^^^ y).toNat_lt
  exact UInt64.xor_eq_zero_iff.mp (UInt64.toNat_inj.mp hzero)

theorem mul_injective {c d : UInt64} (h : c * d = 1) : Injective (· * c) := by
  refine LeftInverse.injective (g := (· * d)) fun x => ?_
  show x * c * d = x
  rw [UInt64.mul_assoc, h, UInt64.mul_one]

/-- The upper part of a word comes out below its lower part. -/
theorem toNat_rotateLeft (x : UInt64) {n : UInt64} (hpos : 0 < n.toNat) (hlt : n.toNat < 64) :
    (rotateLeft x n).toNat =
      x.toNat % 2 ^ (64 - n.toNat) * 2 ^ n.toNat + x.toNat / 2 ^ (64 - n.toNat) := by
  have hle : n.toNat ≤ 64 := Nat.le_of_lt hlt
  have hsplit : 2 ^ 64 = 2 ^ (64 - n.toNat) * 2 ^ n.toNat := by
    rw [← Nat.pow_add, Nat.sub_add_cancel hle]
  have hdown : (64 - n).toNat = 64 - n.toNat :=
    UInt64.toNat_sub_of_le _ _ (UInt64.le_iff_toNat_le.mpr hle)
  have hup : (x <<< n).toNat = (x.toNat % 2 ^ (64 - n.toNat)) <<< n.toNat := by
    rw [UInt64.toNat_shiftLeft, Nat.mod_eq_of_lt hlt, Nat.shiftLeft_eq, Nat.shiftLeft_eq, hsplit,
      Nat.mul_mod_mul_right]
  have hrest : (x >>> (64 - n)).toNat = x.toNat / 2 ^ (64 - n.toNat) := by
    rw [UInt64.toNat_shiftRight, hdown, Nat.mod_eq_of_lt (by omega), Nat.shiftRight_eq_div_pow]
  have hsmall : x.toNat / 2 ^ (64 - n.toNat) < 2 ^ n.toNat := by
    rw [Nat.div_lt_iff_lt_mul (Nat.two_pow_pos _), Nat.mul_comm, ← hsplit]
    exact x.toNat_lt
  rw [rotateLeft, UInt64.toNat_or, hup, hrest, ← Nat.shiftLeft_add_eq_or_of_lt hsmall,
    Nat.shiftLeft_eq]

/-- Rotating on to the full width gives the word back. -/
theorem rotateLeft_rotateLeft (x : UInt64) {n : UInt64} (hpos : 0 < n.toNat)
    (hlt : n.toNat < 64) : rotateLeft (rotateLeft x n) (64 - n) = x := by
  have hle : n.toNat ≤ 64 := Nat.le_of_lt hlt
  have hdown : (64 - n).toNat = 64 - n.toNat :=
    UInt64.toNat_sub_of_le _ _ (UInt64.le_iff_toNat_le.mpr hle)
  have hsmall : x.toNat / 2 ^ (64 - n.toNat) < 2 ^ n.toNat := by
    rw [Nat.div_lt_iff_lt_mul (Nat.two_pow_pos _), ← Nat.pow_add, Nat.add_sub_cancel' hle]
    exact x.toNat_lt
  apply UInt64.toNat_inj.mp
  rw [toNat_rotateLeft _ (by omega) (by omega), hdown, Nat.sub_sub_self hle,
    toNat_rotateLeft x hpos hlt, Nat.mul_comm _ (2 ^ n.toNat), Nat.mul_add_mod,
    Nat.mod_eq_of_lt hsmall, Nat.mul_add_div (Nat.two_pow_pos _), Nat.div_eq_of_lt hsmall,
    Nat.add_zero, Nat.div_add_mod']

theorem rotateLeft_injective {n : UInt64} (hpos : 0 < n.toNat) (hlt : n.toNat < 64) :
    Injective (rotateLeft · n) :=
  LeftInverse.injective (g := (rotateLeft · (64 - n))) fun x => rotateLeft_rotateLeft x hpos hlt

theorem scatter_injective : Injective scatter := by
  intro x y h
  have hlast := xorShift_injective (by decide) h
  have hsecond := xorShift_injective (by decide)
    (mul_injective (d := 0x319642B2D24D8EC3) (by decide) hlast)
  exact xorShift_injective (by decide) (mul_injective (d := 0x96DE1B173F119089) (by decide) hsecond)

theorem mix_injective_left (b : UInt64) : Injective (mix · b) := by
  intro a a' h
  have hsum := scatter_injective h
  exact (UInt64.xor_left_inj _).mp ((UInt64.add_left_inj _).mp hsum)

theorem mix_injective_right (a : UInt64) : Injective (mix a) := by
  intro b b' h
  have hsum := scatter_injective h
  have hrotated := (UInt64.xor_right_inj _).mp ((UInt64.add_left_inj _).mp hsum)
  exact mul_injective (d := 0xF1DE83E19937733D) (by decide)
    (rotateLeft_injective (by decide) (by decide) hrotated)

end KineticText.Random
