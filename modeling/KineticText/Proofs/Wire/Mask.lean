import Mathlib.Algebra.Ring.Nat
import KineticText.Wire.Span

/-! The mask of optional fields.  Bit `i` of a mask tells whether the field in place `i` is there,
and no bit stands above the last place. -/

namespace KineticText.Wire

theorem hasBit_eq_testBit (mask : UInt32) (i : Nat) (hi : i < 32) :
    hasBit mask (UInt32.ofNat i) = mask.toNat.testBit i := by
  have hshift : (UInt32.ofNat i).toNat % 32 = i := by
    rw [UInt32.toNat_ofNat']
    omega
  rw [hasBit, Nat.testBit_eq_decide_div_mod_eq, Bool.eq_iff_iff, beq_iff_eq, decide_eq_true_iff,
    ← UInt32.toNat_inj, UInt32.toNat_and, UInt32.toNat_shiftRight, hshift,
    Nat.shiftRight_eq_div_pow]
  simp

theorem toNat_maskOf_cons (b : Bool) (bs : List Bool) (h : (maskOf bs).toNat < 2 ^ 31) :
    (maskOf (b :: bs)).toNat = 2 * (maskOf bs).toNat + b.toNat := by
  have hshift : (maskOf bs <<< 1).toNat = (maskOf bs).toNat <<< 1 := by
    rw [UInt32.toNat_shiftLeft, Nat.shiftLeft_eq, Nat.shiftLeft_eq]
    have h1 : (1 : UInt32).toNat % 32 = 1 := by decide
    rw [h1]
    omega
  have hbit : (if b then 1 else 0 : UInt32).toNat = b.toNat := by cases b <;> rfl
  have hlt : b.toNat < 2 ^ 1 := Bool.toNat_lt b
  have hcons : maskOf (b :: bs) = (maskOf bs <<< 1) ||| (if b then 1 else 0) := rfl
  rw [hcons, UInt32.toNat_or, hshift, hbit, ← Nat.shiftLeft_add_eq_or_of_lt hlt, Nat.shiftLeft_eq]
  omega

theorem toNat_maskOf_lt (bs : List Bool) (h : bs.length ≤ 32) :
    (maskOf bs).toNat < 2 ^ bs.length := by
  induction bs with
  | nil => decide
  | cons b bs ih =>
    have hlen : bs.length ≤ 31 := Nat.le_of_succ_le_succ h
    have hrest := ih (by omega)
    have hpow : 2 ^ bs.length ≤ 2 ^ 31 := Nat.pow_le_pow_right (by decide) hlen
    have hb := Bool.toNat_lt b
    rw [toNat_maskOf_cons b bs (by omega), List.length_cons, Nat.pow_succ]
    omega

theorem testBit_maskOf (bs : List Bool) (h : bs.length ≤ 32) (i : Nat) (hi : i < bs.length) :
    (maskOf bs).toNat.testBit i = bs[i] := by
  induction bs generalizing i with
  | nil => exact absurd hi (by simp)
  | cons b bs ih =>
    have hlen : bs.length ≤ 31 := Nat.le_of_succ_le_succ h
    have hlt := toNat_maskOf_lt bs (by omega)
    have hpow : 2 ^ bs.length ≤ 2 ^ 31 := Nat.pow_le_pow_right (by decide) hlen
    rw [toNat_maskOf_cons b bs (by omega)]
    cases i with
    | zero => cases b <;> simp [Nat.testBit_zero]
    | succ i =>
      have hhalf : (2 * (maskOf bs).toNat + b.toNat) / 2 = (maskOf bs).toNat := by
        have := Bool.toNat_lt b
        omega
      rw [Nat.testBit_succ, hhalf]
      exact ih (by omega) i (by simpa using hi)

theorem hasBit_maskOf (bs : List Bool) (h : bs.length ≤ 32) (i : Nat) (hi : i < bs.length) :
    hasBit (maskOf bs) (UInt32.ofNat i) = bs[i] := by
  rw [hasBit_eq_testBit _ i (by omega), testBit_maskOf bs h i hi]

namespace SpanOf

variable {Switch : Type} (s : SpanOf Switch)

theorem length_present : s.present.length = 13 := rfl

theorem presence_lt : s.presence < 1 <<< optionalFields := by
  have hlt := toNat_maskOf_lt s.present (by rw [length_present]; decide)
  rw [length_present] at hlt
  have hbound : (1 <<< optionalFields : UInt32).toNat = 2 ^ 13 := by decide
  rw [UInt32.lt_iff_toNat_lt, hbound]
  exact hlt

theorem hasBit_presence (i : Nat) (hi : i < 13) :
    hasBit s.presence (UInt32.ofNat i) = s.present.get ⟨i, hi⟩ :=
  hasBit_maskOf s.present (by rw [length_present]; decide) i hi

end SpanOf

end KineticText.Wire
