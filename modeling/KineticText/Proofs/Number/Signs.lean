import Mathlib
import KineticText.Effect
import KineticText.Effect.Reveal

/-! Signs of 64-bit floats.  Subtracting from zero what is not below zero gives nothing above zero,
and neither does multiplying that by what is not below zero; packing keeps the sign, so no rounding
can make the product positive.  A reveal that has just begun therefore shows nothing.  Main
statement: this holds at every pace that an attribute can set.  A natural number as a float keeps
its sign too, so it is zero or above it. -/

namespace KineticText.Double

open Float.Model Float.Model.UnpackedFloat

/-- The number is zero or above it, or no number. -/
def Unpacked.NotBelowZero : UnpackedFloat → Prop
  | .notANumber | .zero _ => True
  | .infinity s | .finite s _ _ _ => s = .positive

/-- The number is zero or below it, or no number. -/
def Unpacked.NotAboveZero : UnpackedFloat → Prop
  | .notANumber | .zero _ => True
  | .infinity s | .finite s _ _ _ => s = .negative

/-- The number has a positive sign. -/
def Unpacked.Unsigned : UnpackedFloat → Prop
  | .notANumber => False
  | .zero s | .infinity s | .finite s _ _ _ => s = .positive

namespace Unpacked

theorem ofBitVec_unpackSign_packComponents (s : Sign) (e : BitVec 11) (m : BitVec 52) :
    Sign.ofBitVec (unpackSign (packComponents .binary64 s e m)) = s := by
  rw [unpackSign_packComponents, Sign.ofBitVec_toBitVec]

theorem notAboveZero_unpack {b : BitVec 64}
    (h : Sign.ofBitVec (@unpackSign .binary64 b) = .negative) :
    NotAboveZero (unpack .binary64 b) := by
  unfold UnpackedFloat.unpack
  simp only [h]
  split
  · split
    · exact rfl
    · trivial
  · split
    · split
      · trivial
      · exact rfl
    · exact rfl

theorem NotAboveZero.unpack_pack {u : UnpackedFloat} (h : NotAboveZero u) :
    NotAboveZero (Float.Model.pack u).unpack := by
  cases u with
  | notANumber => exact trivial
  | zero s =>
    cases s with
    | negative => exact notAboveZero_unpack (ofBitVec_unpackSign_packComponents _ _ _)
    | positive => exact trivial
  | infinity s =>
    cases h
    exact notAboveZero_unpack (ofBitVec_unpackSign_packComponents _ _ _)
  | finite s m e hm =>
    cases h
    refine notAboveZero_unpack ?_
    show Sign.ofBitVec (unpackSign (UnpackedFloat.pack .binary64 (.finite .negative m e hm))) = _
    unfold UnpackedFloat.pack
    simp only
    split
    · exact ofBitVec_unpackSign_packComponents _ _ _
    · split <;> exact ofBitVec_unpackSign_packComponents _ _ _

theorem NotBelowZero.zero_sub {u : UnpackedFloat} (h : NotBelowZero u) :
    NotAboveZero (UnpackedFloat.sub .binary64 (.zero .positive) u) := by
  cases u with
  | notANumber => exact trivial
  | zero s => cases s <;> exact trivial
  | infinity s => cases h; exact rfl
  | finite s m e hm => cases h; exact rfl

theorem notAboveZero_roundWithAccuracy (m : Nat) (e : Int) (a : Accuracy) :
    NotAboveZero (roundWithAccuracy .binary64 .negative m e a) := by
  unfold roundWithAccuracy
  simp only
  split
  · trivial
  · exact rfl

theorem NotAboveZero.mul {u v : UnpackedFloat} (hu : NotAboveZero u) (hv : NotBelowZero v) :
    NotAboveZero (UnpackedFloat.mul .binary64 u v) := by
  cases u with
  | notANumber => exact trivial
  | zero s => cases v <;> exact trivial
  | infinity s =>
    cases hu
    cases v with
    | notANumber | zero => exact trivial
    | infinity | finite => cases hv; exact rfl
  | finite s m e hm =>
    cases hu
    cases v with
    | notANumber | zero => exact trivial
    | infinity => cases hv; exact rfl
    | finite => cases hv; exact notAboveZero_roundWithAccuracy _ _ _

theorem NotAboveZero.not_zero_lt {u : UnpackedFloat} (h : NotAboveZero u) :
    (UnpackedFloat.zero .positive).lt u = false := by
  cases u with
  | notANumber | zero => rfl
  | infinity s | finite s => cases h; rfl

theorem NotBelowZero.of_not_lt {u v : UnpackedFloat} (hv : NotBelowZero v)
    (hnumber : v ≠ .notANumber) (h : u.lt v = false) : NotBelowZero u := by
  cases u with
  | notANumber | zero => exact trivial
  | infinity s | finite s =>
    cases s with
    | positive => exact rfl
    | negative =>
      cases v with
      | notANumber => exact absurd rfl hnumber
      | zero => cases h
      | infinity | finite => cases hv; cases h

theorem sub_self {u : UnpackedFloat} (h : u.isFinite = true) :
    UnpackedFloat.sub .binary64 u u = .zero .positive := by
  cases u with
  | notANumber | infinity => cases h
  | zero s => cases s <;> rfl
  | finite s m e hm =>
    unfold UnpackedFloat.sub
    simp only [Int.sub_self]
    rfl

theorem lt_irrefl (u : UnpackedFloat) : u.lt u = false := by
  cases u with
  | notANumber => rfl
  | zero s => cases s <;> rfl
  | infinity s => cases s <;> rfl
  | finite s m e hm => cases s <;> simp [UnpackedFloat.lt, UnpackedFloat.compare]

theorem unsigned_unpack {e : BitVec 11} {m : BitVec 52} (h : e ≠ -1#11 ∨ m = 0#52) :
    Unsigned (unpack .binary64 (packComponents .binary64 .positive e m)) := by
  unfold UnpackedFloat.unpack
  simp only [unpackMantissa_packComponents, unpackExponent_packComponents,
    ofBitVec_unpackSign_packComponents]
  split
  · next hexponent =>
    rw [if_pos (h.resolve_left (not_not_intro hexponent))]
    exact rfl
  · split
    · split <;> exact rfl
    · exact rfl

theorem Unsigned.unpack_pack {u : UnpackedFloat} (h : Unsigned u) :
    Unsigned (Float.Model.pack u).unpack := by
  cases u with
  | notANumber => cases h
  | zero s | infinity s =>
    cases h
    exact unsigned_unpack (.inr rfl)
  | finite s m e hm =>
    cases h
    show Unsigned (unpack .binary64 (UnpackedFloat.pack .binary64 (.finite .positive m e hm)))
    unfold UnpackedFloat.pack
    simp only
    split
    · exact unsigned_unpack (.inr rfl)
    · next hfits =>
      split
      · -- an exponent that fits is not the one of infinity
        refine unsigned_unpack (.inl fun heq => hfits ?_)
        generalize (e + _ + _).toNat = exponent at *
        have hexponent : exponent % 2 ^ 11 = 2 ^ 11 - 1 := congrArg BitVec.toNat heq
        show 2 ^ 11 ≤ exponent + 1
        omega
      · exact unsigned_unpack (.inl (by decide))

theorem unsigned_ofNat (n : Nat) : Unsigned (UnpackedFloat.ofNat .binary64 n) := by
  unfold UnpackedFloat.ofNat UnpackedFloat.ofInt UnpackedFloat.normalize
  split
  · next h =>
    rw [Int.compare_eq_lt] at h
    omega
  · exact rfl
  · unfold UnpackedFloat.round roundWithAccuracy
    simp only
    split <;> exact rfl

theorem Unsigned.zero_le {u : UnpackedFloat} (h : Unsigned u) :
    (UnpackedFloat.zero .positive).le u = true := by
  cases u with
  | notANumber => cases h
  | zero s => rfl
  | infinity s | finite s => cases h; rfl

end Unpacked

/-- The number is zero or above it, or no number. -/
def NotBelowZero (x : Float) : Prop := Unpacked.NotBelowZero x.toModel.unpack

theorem sub_self {x : Float} (h : x.isFinite = true) : x - x = 0.0 := by
  show Float.ofModel (Float.Model.pack _) = _
  rw [Unpacked.sub_self h]
  rfl

theorem lt_iff {x y : Float} : x < y ↔ x.toModel.unpack.lt y.toModel.unpack = true :=
  decide_eq_true_iff

theorem le_iff {x y : Float} : x ≤ y ↔ x.toModel.unpack.le y.toModel.unpack = true :=
  decide_eq_true_iff

theorem lt_irrefl (x : Float) : ¬ x < x := by
  rw [lt_iff, Unpacked.lt_irrefl]
  exact Bool.false_ne_true

theorem zero_le_ofNat (n : Nat) : 0.0 ≤ ofNat n := by
  have h : Unpacked.Unsigned (ofNat n).toModel.unpack :=
    (Unpacked.unsigned_ofNat (UInt64.ofNat n).toNat).unpack_pack
  exact le_iff.mpr h.zero_le

theorem not_zero_lt_mul {x y : Float} (hx : NotBelowZero x) (hy : NotBelowZero y) :
    ¬ 0.0 < (0.0 - x) * y := by
  have hdifference : Unpacked.NotAboveZero (0.0 - x).toModel.unpack :=
    (Unpacked.NotBelowZero.zero_sub hx).unpack_pack
  have hproduct : Unpacked.NotAboveZero ((0.0 - x) * y).toModel.unpack :=
    (hdifference.mul hy).unpack_pack
  rw [lt_iff, Bool.not_eq_true]
  exact hproduct.not_zero_lt

theorem NotBelowZero.of_not_lt {x y : Float} (hy : NotBelowZero y) (hnumber : y.isNaN = false)
    (h : ¬ x < y) : NotBelowZero x := by
  rw [lt_iff, Bool.not_eq_true] at h
  refine Unpacked.NotBelowZero.of_not_lt hy (fun hnan => ?_) h
  have hmodel : y.toModel.unpack.isNaN = false := hnumber
  rw [hnan] at hmodel
  cases hmodel

theorem NotBelowZero.clamp {lo hi x : Float} (hlo : NotBelowZero lo) (hnumber : lo.isNaN = false)
    (hhi : NotBelowZero hi) : NotBelowZero (clamp lo hi x) := by
  unfold Double.clamp
  split
  · exact hlo
  · rename_i hlt
    split
    · exact hhi
    · exact hlo.of_not_lt hnumber hlt

end KineticText.Double

namespace KineticText

open Double

/-- A parameter whose range begins at zero or above it is read as no number below zero. -/
theorem Parameter.notBelowZero_quiet {p : Parameter} (hdefault : NotBelowZero p.default)
    (hmin : NotBelowZero p.min) (hnumber : p.min.isNaN = false) (hmax : NotBelowZero p.max)
    (params : Params) : NotBelowZero (p.quiet params) := by
  unfold quiet
  split
  · exact hdefault
  · unfold Parameter.clamp
    split
    · exact hdefault
    · exact hmin.clamp hnumber hmax

theorem notBelowZero_quiet_speed (params : Params) :
    NotBelowZero (Parameter.typewriterSpeed.quiet params) :=
  Parameter.notBelowZero_quiet (p := .typewriterSpeed) rfl rfl (by decide) rfl params

theorem notBelowZero_quiet_delay (params : Params) :
    NotBelowZero (Parameter.typewriterDelay.quiet params) :=
  Parameter.notBelowZero_quiet (p := .typewriterDelay) trivial trivial (by decide) rfl params

/-- A typewriter that neither runs backwards nor begins before its first tick. -/
structure Typewriter.Forward (e : Typewriter) : Prop where
  speed : NotBelowZero e.speed
  delay : NotBelowZero e.delay

theorem Typewriter.forward_of_attribute {a : Attribute} {e : Typewriter}
    (h : Effect.ofAttribute? a = some (.typewriter e)) : e.Forward := by
  unfold Effect.ofAttribute? at h
  simp only at h
  split at h
  case h_7 =>
    cases h
    exact ⟨notBelowZero_quiet_speed _, notBelowZero_quiet_delay _⟩
  case h_6 =>
    obtain ⟨id, -, heq⟩ := Option.map_eq_some_iff.mp h
    cases heq
  all_goals cases h

/-- A reveal that has just begun shows nothing. -/
theorem Typewriter.Forward.visibleCount_eq_zero {e : Typewriter} (h : e.Forward) {ticks : Float}
    (hticks : ticks.isFinite = true) (total : Nat) :
    visibleCount (ticks - ticks) e.speed e.delay total = 0 := by
  rw [Double.sub_self hticks, visibleCount]
  exact if_neg (not_zero_lt_mul h.delay h.speed)

end KineticText
