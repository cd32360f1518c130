import Mathlib
import KineticText.Number.Double

/-! The fields of 64-bit floats.  The word of a number is its sign, its exponent field and its
fraction field, and a float that is read from such a word has that word again.  So taking the
absolute value changes the sign only, and dropping the part after the point clears the bits of the
fraction field that lie below it, which a second time changes nothing.  Main statement: a whole
number that is not negative is turned into the 64-bit word that it is, or into the greatest word
when it is beyond the words. -/

namespace KineticText.Double

open Float.Model Float.Model.UnpackedFloat

variable {x y : Float} {s : Sign} {e : BitVec 11} {m : BitVec 52}

/-! ### Words -/

theorem isNaNBits_packComponents :
    @isNaNBits .binary64 (packComponents .binary64 s e m) = true ↔ ¬ (e = -1#11 → m = 0#52) := by
  simp [isNaNBits]

theorem isNaN_eq_isNaNBits (x : Float) : x.isNaN = @isNaNBits .binary64 x.toBits.toBitVec := by
  rw [Bool.eq_iff_iff]
  refine (isNaN_unpack_iff_of_valid x.toModel.valid).trans ⟨fun h => ?_, fun h => ?_⟩
  · show @isNaNBits .binary64 x.toModel.toBits.toBitVec = true
    rw [h]
    exact isNaNBits_packedNaN
  · simp only [isNaNBits, decide_eq_true_eq] at h
    exact x.toModel.valid.eq_packedNaN h.1 h.2

theorem toNat_packComponents (s : Sign) (e : BitVec 11) (m : BitVec 52) :
    (packComponents .binary64 s e m).toNat =
      (s.toBitVec.toNat * 2048 + e.toNat) * 2 ^ 52 + m.toNat := by
  unfold packComponents
  rw [BitVec.toNat_append, BitVec.toNat_append, ← Nat.shiftLeft_add_eq_or_of_lt m.isLt,
    ← Nat.shiftLeft_add_eq_or_of_lt e.isLt, Nat.shiftLeft_eq, Nat.shiftLeft_eq]

/-- Shifting down and up again clears the lowest bits. -/
theorem toNat_shiftRight_shiftLeft (w : UInt64) {k : Nat} (hk : k < 64) :
    (w >>> UInt64.ofNat k <<< UInt64.ofNat k).toNat = w.toNat / 2 ^ k * 2 ^ k := by
  have hlt := w.toNat_lt
  have hle := Nat.div_mul_le_self w.toNat (2 ^ k)
  have hshift : (UInt64.ofNat k).toNat % 64 = k := by
    rw [UInt64.toNat_ofNat', Nat.mod_eq_of_lt (show k < 2 ^ 64 by omega), Nat.mod_eq_of_lt hk]
  rw [UInt64.toNat_shiftLeft, UInt64.toNat_shiftRight, hshift, Nat.shiftRight_eq_div_pow,
    Nat.shiftLeft_eq, Nat.mod_eq_of_lt (by omega)]

theorem add_div_mul {a b d : Nat} (n : Nat) (h : d ∣ b) (hd : 0 < d) :
    (a * b + n) / d * d = a * b + n / d * d := by
  obtain ⟨c, rfl⟩ := h
  have hdiv : (a * (d * c) + n) / d = a * c + n / d := by
    rw [show a * (d * c) = d * (a * c) by ring, Nat.mul_add_div hd]
  rw [hdiv]
  ring

/-! ### Numbers -/

/-- A number whose word has the given sign, exponent field and fraction field. -/
structure HasFields (x : Float) (s : Sign) (e : BitVec 11) (m : BitVec 52) : Prop where
  word : x.toBits.toBitVec = packComponents .binary64 s e m
  number : e = -1#11 → m = 0#52

theorem exists_hasFields (h : x.isNaN = false) : ∃ s e m, HasFields x s e m := by
  have hword := @packComponents_unpackSign_unpackExponent_unpackMantissa .binary64
    x.toBits.toBitVec
  refine ⟨_, _, _, hword.symm, ?_⟩
  rw [isNaN_eq_isNaNBits, ← hword, ← Bool.not_eq_true, isNaNBits_packComponents, not_not] at h
  exact h

namespace HasFields

theorem isNaN_eq (h : HasFields x s e m) : x.isNaN = false := by
  rw [isNaN_eq_isNaNBits, h.word, ← Bool.not_eq_true, isNaNBits_packComponents, not_not]
  exact h.number

theorem ofBits {w : UInt64} (hword : w.toBitVec = packComponents .binary64 s e m)
    (hnumber : e = -1#11 → m = 0#52) : HasFields (Float.ofBits w) s e m := by
  refine ⟨?_, hnumber⟩
  show UnpackedFloat.pack .binary64 (UnpackedFloat.unpack .binary64 w.toBitVec) = _
  rw [pack_unpack, hword, if_neg (by rwa [isNaNBits_packComponents, not_not])]

theorem unique (hx : HasFields x s e m) (hy : HasFields y s e m) : x = y :=
  Float.toBits_inj.mp (UInt64.toBitVec_inj.mp (hx.word.trans hy.word.symm))

theorem toNat_toBits (h : HasFields x s e m) :
    x.toBits.toNat = (s.toBitVec.toNat * 2048 + e.toNat) * 2 ^ 52 + m.toNat :=
  (congrArg BitVec.toNat h.word).trans (toNat_packComponents s e m)

theorem exponentField_eq (h : HasFields x s e m) : exponentField x = e.toNat := by
  have he := e.isLt
  have hm := m.isLt
  rw [exponentField, UInt64.toNat_shiftRight, h.toNat_toBits, Nat.shiftRight_eq_div_pow]
  show _ / 2 ^ 52 % 2048 = e.toNat
  omega

theorem fractionField_eq (h : HasFields x s e m) : fractionField x = m.toNat := by
  have hm := m.isLt
  rw [fractionField, UInt64.toNat_and, h.toNat_toBits]
  refine (Nat.and_two_pow_sub_one_eq_mod _ 52).trans ?_
  omega

theorem isNegative_eq (h : HasFields x .positive e m) : isNegative x = false := by
  have he := e.isLt
  have hm := m.isLt
  have hshift : (x.toBits >>> 63).toNat = 0 := by
    rw [UInt64.toNat_shiftRight, h.toNat_toBits, Nat.shiftRight_eq_div_pow]
    show ((0 * 2048 + e.toNat) * 2 ^ 52 + m.toNat) / 2 ^ 63 = 0
    omega
  rw [isNegative, beq_eq_false_iff_ne]
  intro heq
  rw [heq] at hshift
  cases hshift

theorem magnitude_eq (h : HasFields x s e m) :
    magnitude x = if e.toNat = 0 then m.toNat else (2 ^ 52 + m.toNat) * 2 ^ (e.toNat - 1) := by
  unfold magnitude
  rw [h.exponentField_eq, h.fractionField_eq]
  split
  · rename_i h0
    rw [if_pos h0]
  · rename_i n hn
    rw [if_neg (by omega), hn, Nat.shiftLeft_eq]
    rfl

theorem abs (h : HasFields x s e m) : HasFields x.abs .positive e m := by
  have habs : (UnpackedFloat.unpack .binary64 (packComponents .binary64 s e m)).abs =
      UnpackedFloat.unpack .binary64 (packComponents .binary64 .positive e m) := by
    unfold UnpackedFloat.unpack
    simp only [unpackMantissa_packComponents, unpackExponent_packComponents,
      unpackSign_packComponents, Sign.ofBitVec_toBitVec]
    split
    · split <;> rfl
    · split
      · split <;> rfl
      · rfl
  refine ⟨?_, h.number⟩
  show UnpackedFloat.pack .binary64 (UnpackedFloat.unpack .binary64 x.toBits.toBitVec).abs = _
  rw [h.word, habs, pack_unpack, if_neg (by rw [isNaNBits_packComponents, not_not]; exact h.number)]

end HasFields

/-! ### Whole numbers -/

/-- Exponent and fraction fields without what lies below the point. -/
def wholeFields (e : BitVec 11) (m : BitVec 52) : BitVec 11 × BitVec 52 :=
  if e.toNat < 1023 then (0#11, 0#52)
  else (e, .ofNat 52 (m.toNat / 2 ^ (1075 - e.toNat) * 2 ^ (1075 - e.toNat)))

theorem toNat_wholeFields (h : 1023 ≤ e.toNat) :
    (wholeFields e m).1 = e ∧
      (wholeFields e m).2.toNat = m.toNat / 2 ^ (1075 - e.toNat) * 2 ^ (1075 - e.toNat) := by
  have hm := m.isLt
  have hle := Nat.div_mul_le_self m.toNat (2 ^ (1075 - e.toNat))
  rw [wholeFields, if_neg (by omega)]
  exact ⟨rfl, Nat.mod_eq_of_lt (by omega)⟩

theorem wholeFields_wholeFields (e : BitVec 11) (m : BitVec 52) :
    wholeFields (wholeFields e m).1 (wholeFields e m).2 = wholeFields e m := by
  by_cases h : e.toNat < 1023
  · have hnone : wholeFields e m = (0#11, 0#52) := if_pos h
    rw [hnone]
    rfl
  · obtain ⟨he, hm⟩ := toNat_wholeFields (m := m) (Nat.le_of_not_lt h)
    refine Prod.ext_iff.mpr ⟨?_, ?_⟩
    · rw [he]
      exact (toNat_wholeFields (Nat.le_of_not_lt h)).1
    · rw [← BitVec.toNat_inj, he, (toNat_wholeFields (Nat.le_of_not_lt h)).2, hm,
        Nat.mul_div_cancel _ (Nat.two_pow_pos _)]

theorem HasFields.truncate (h : HasFields x s e m) :
    HasFields (Double.truncate x) s (wholeFields e m).1 (wholeFields e m).2 := by
  have hm := m.isLt
  have he := e.isLt
  have hword := h.toNat_toBits
  unfold Double.truncate
  simp only [h.exponentField_eq]
  split
  · -- Nothing is left but the sign.
    rename_i hlow
    have hnone : wholeFields e m = (0#11, 0#52) := if_pos hlow
    have hsign : ((s.toBitVec.toNat * 2048 + e.toNat) * 2 ^ 52 + m.toNat) / 2 ^ 63 % 2 =
        s.toBitVec.toNat := by
      have hs := s.toBitVec.isLt
      omega
    rw [hnone]
    refine .ofBits ?_ (by decide)
    rw [← BitVec.toNat_inj, toNat_packComponents, UInt64.toNat_toBitVec, UInt64.toNat_and]
    refine (Nat.and_two_pow x.toBits.toNat 63).trans ?_
    rw [Nat.testBit_eq_decide_div_mod_eq, hword, hsign]
    cases s <;> rfl
  · rename_i hlow
    obtain ⟨hexponent, hfraction⟩ := toNat_wholeFields (m := m) (Nat.le_of_not_lt hlow)
    split
    · rename_i hhigh
      have hdvd : 2 ^ (1075 - e.toNat) ∣ (2 : Nat) ^ 52 := Nat.pow_dvd_pow 2 (by omega)
      refine .ofBits ?_ ?_
      · rw [← BitVec.toNat_inj, toNat_packComponents, UInt64.toNat_toBitVec,
          toNat_shiftRight_shiftLeft _ (by omega), hword, hexponent, hfraction,
          add_div_mul _ hdvd (Nat.two_pow_pos _)]
      · rw [hexponent]
        rintro rfl
        exact absurd hhigh (by decide)
    · rename_i hhigh
      have hsame : (wholeFields e m).2 = m := by
        rw [← BitVec.toNat_inj, hfraction, Nat.sub_eq_zero_of_le (Nat.le_of_not_lt hhigh),
          Nat.pow_zero, Nat.div_one, Nat.mul_one]
      rw [hexponent, hsame]
      exact h

/-- The whole numbers that are not negative: no sign, and nothing below the point. -/
def IsWhole (x : Float) : Prop := ∃ e m, HasFields x .positive e m ∧ wholeFields e m = (e, m)

theorem isWhole_truncate_abs (h : x.isNaN = false) : IsWhole (truncate x.abs) := by
  obtain ⟨s, e, m, hfields⟩ := exists_hasFields h
  exact ⟨_, _, hfields.abs.truncate, wholeFields_wholeFields e m⟩

namespace IsWhole

theorem isNaN_eq (h : IsWhole x) : x.isNaN = false := by
  obtain ⟨e, m, hfields, -⟩ := h
  exact hfields.isNaN_eq

theorem truncate_abs (h : IsWhole x) : truncate x.abs = x := by
  obtain ⟨e, m, hfields, hwhole⟩ := h
  have hself : HasFields (truncate x.abs) .positive e m := by
    have htruncate := hfields.abs.truncate
    rwa [hwhole] at htruncate
  exact hself.unique hfields

theorem abs_eq (h : IsWhole x) : x.abs = x := by
  obtain ⟨e, m, hfields, -⟩ := h
  exact hfields.abs.unique hfields

end IsWhole

/-! ### Whole numbers as words -/

theorem mantissa_shiftRight (em : ExtendedMantissa) (n : Nat) :
    (em >>> n).mantissa = em.mantissa / 2 ^ n := by
  induction n with
  | zero => exact (Nat.div_one _).symm
  | succ n ih =>
    show (em >>> n).mantissa / 2 = _
    rw [ih, Nat.div_div_eq_div_mul, pow_succ]

theorem roundToInt_natCast (n k : Nat) : roundToInt .positive n k = (n * 2 ^ k : Nat) := by
  simp [roundToInt, decreaseExponent, shiftToExponent, mantissa_shiftRight, Sign.apply,
    ExtendedMantissa.ofMantissaAndAccuracy, Nat.shiftLeft_eq]

theorem roundToInt_neg (n k : Nat) : roundToInt .positive n (-k) = (n / 2 ^ k : Nat) := by
  simp [roundToInt, decreaseExponent, shiftToExponent, mantissa_shiftRight, Sign.apply,
    ExtendedMantissa.ofMantissaAndAccuracy, Nat.shiftLeft_eq]

/-- A finite whole number is a natural number, and its conversion to words starts from that. -/
theorem HasFields.toInt_unpack (h : HasFields x .positive e m) (hwhole : wholeFields e m = (e, m))
    (hfinite : e ≠ -1#11) : ∃ n : Nat, (∀ lo hi, x.toModel.unpack.toInt lo hi = n) ∧
      n * 2 ^ 1074 = magnitude x := by
  have hunpack : x.toModel.unpack =
      UnpackedFloat.unpack .binary64 (packComponents .binary64 .positive e m) :=
    congrArg (UnpackedFloat.unpack .binary64) h.word
  rw [hunpack, h.magnitude_eq]
  unfold UnpackedFloat.unpack
  simp only [unpackMantissa_packComponents, unpackExponent_packComponents,
    unpackSign_packComponents, Sign.ofBitVec_toBitVec, if_neg hfinite]
  by_cases hlow : e.toNat < 1023
  · obtain ⟨rfl, rfl⟩ := Prod.ext_iff.mp (hwhole.symm.trans (if_pos hlow))
    exact ⟨0, fun _ _ => rfl, (Nat.zero_mul _).trans (if_pos rfl).symm⟩
  · have hzero : e ≠ 0#11 := by
      rintro rfl
      exact hlow (by decide)
    have hmantissa : (1#1 ++ m).toNat = 2 ^ 52 + m.toNat := by
      rw [BitVec.toNat_append, ← Nat.shiftLeft_add_eq_or_of_lt m.isLt]
      rfl
    have hexponent : e.toNat ≠ 0 := by omega
    simp only [if_neg hzero, hmantissa, if_neg hexponent, toInt]
    by_cases hhigh : e.toNat < 1075
    · have hneg : (e.toNat : Int) - ((Format.exponentBias .binary64 : Nat) + (52 : Nat)) =
          -((1075 - e.toNat : Nat) : Int) := by
        show (e.toNat : Int) - ((1023 : Nat) + (52 : Nat)) = _
        omega
      have hfraction : 2 ^ (1075 - e.toNat) ∣ m.toNat := by
        have hclear := (toNat_wholeFields (m := m) (Nat.le_of_not_lt hlow)).2
        rw [hwhole] at hclear
        exact ⟨_, hclear.trans (Nat.mul_comm _ _)⟩
      have hdvd : 2 ^ (1075 - e.toNat) ∣ 2 ^ 52 + m.toNat :=
        dvd_add (Nat.pow_dvd_pow 2 (by omega)) hfraction
      have hpow : 1074 = (1075 - e.toNat) + (e.toNat - 1) := by omega
      refine ⟨(2 ^ 52 + m.toNat) / 2 ^ (1075 - e.toNat), fun lo hi => ?_, ?_⟩
      · rw [hneg, roundToInt_neg]
      · rw [hpow, pow_add, ← Nat.mul_assoc, Nat.div_mul_cancel hdvd]
    · have hpos : (e.toNat : Int) - ((Format.exponentBias .binary64 : Nat) + (52 : Nat)) =
          ((e.toNat - 1075 : Nat) : Int) := by
        show (e.toNat : Int) - ((1023 : Nat) + (52 : Nat)) = _
        omega
      refine ⟨(2 ^ 52 + m.toNat) * 2 ^ (e.toNat - 1075), fun lo hi => ?_, ?_⟩
      · rw [hpos, roundToInt_natCast]
      · rw [Nat.mul_assoc, ← pow_add, show e.toNat - 1075 + 1074 = e.toNat - 1 by omega]

theorem toNat_ofNatClamp (n : Nat) :
    n < 2 ^ 64 ∧ (UInt64.ofNatClamp n).toNat = n ∨
      2 ^ 64 ≤ n ∧ (UInt64.ofNatClamp n).toNat = 2 ^ 64 - 1 := by
  by_cases h : n < UInt64.size
  · refine .inl ⟨h, ?_⟩
    rw [UInt64.ofNatClamp, dif_pos h]
    exact UInt64.toNat_ofNatLT
  · refine .inr ⟨Nat.le_of_not_lt h, ?_⟩
    rw [UInt64.ofNatClamp, dif_neg h]
    exact UInt64.toNat_ofNatLT

/-- The word is the number, or the greatest word for a number that is beyond the words. -/
def ClampsTo (x : Float) (n : UInt64) : Prop :=
  isNegative x = false ∧ (n.toNat * 2 ^ 1074 = magnitude x ∨
    n.toNat = 2 ^ 64 - 1 ∧ 2 ^ 64 * 2 ^ 1074 ≤ magnitude x)

theorem ClampsTo.unique {n n' : UInt64} (h : ClampsTo x n) (h' : ClampsTo x n') : n = n' := by
  obtain ⟨-, h⟩ := h
  obtain ⟨-, h'⟩ := h'
  have hunit : ∀ k, 0 < 2 ^ k := Nat.two_pow_pos
  specialize hunit 1074
  generalize 2 ^ 1074 = unit at h h' hunit
  have hlt : ∀ w : UInt64, w.toNat * unit < 2 ^ 64 * unit :=
    fun w => Nat.mul_lt_mul_of_pos_right w.toNat_lt hunit
  rw [← UInt64.toNat_inj]
  -- A number beyond the words is no word, so exact and clamped do not meet.
  rcases h with hexact | ⟨hgreatest, hbeyond⟩
  · rcases h' with hexact' | ⟨-, hbeyond'⟩
    · exact Nat.eq_of_mul_eq_mul_right hunit (hexact.trans hexact'.symm)
    · exact absurd (hexact ▸ hbeyond') (Nat.not_le_of_lt (hlt n))
  · rcases h' with hexact' | ⟨hgreatest', -⟩
    · exact absurd (hexact' ▸ hbeyond) (Nat.not_le_of_lt (hlt n'))
    · exact hgreatest.trans hgreatest'.symm

theorem IsWhole.clampsTo (h : IsWhole x) : ClampsTo x x.toUInt64 := by
  obtain ⟨e, m, hfields, hwhole⟩ := h
  have hword : x.toUInt64 =
      UInt64.ofNatClamp (x.toModel.unpack.toInt 0 (UInt64.size - 1)).toNat := rfl
  refine ⟨hfields.isNegative_eq, ?_⟩
  rw [hword]
  by_cases hfinite : e = -1#11
  · obtain rfl : m = 0#52 := hfields.number hfinite
    subst hfinite
    have hunpack : x.toModel.unpack = .infinity .positive :=
      congrArg (UnpackedFloat.unpack .binary64) hfields.word
    have hpow : ∀ a b c d : Nat, a + b ≤ c + d → 2 ^ a * 2 ^ b ≤ 2 ^ c * 2 ^ d := by
      intro a b c d hle
      rw [← pow_add, ← pow_add]
      exact Nat.pow_le_pow_right (by decide) hle
    rw [hunpack, hfields.magnitude_eq, if_neg (by decide), show (-1#11).toNat = 2047 from rfl,
      show (0#52).toNat = 0 from rfl, Nat.add_zero]
    exact .inr ⟨rfl, hpow 64 1074 52 (2047 - 1) (by decide)⟩
  · obtain ⟨n, hn, hmagnitude⟩ := hfields.toInt_unpack hwhole hfinite
    rw [hn, ← hmagnitude, Int.toNat_natCast]
    rcases toNat_ofNatClamp n with ⟨-, hexact⟩ | ⟨hbeyond, hgreatest⟩
    · exact .inl (by rw [hexact])
    · exact .inr ⟨hgreatest, Nat.mul_le_mul_right _ hbeyond⟩

end KineticText.Double
