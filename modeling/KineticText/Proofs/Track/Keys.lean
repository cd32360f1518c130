import KineticText.Proofs.Random.Mixing
import KineticText.Track.Key

/-! Which tracks have one key.  Below `2^32` the two ends of a range are the halves of its packed
word, and mixing tells packed words apart.  Main statement: neither two elements of a text nor one
element in two occurrences of the text share a key. -/

namespace KineticText.TrackKey

/-- The start is the upper half of the packed word, the end the lower one. -/
theorem toNat_pack {e : Extent} (hstart : e.start < 2 ^ 32) (hstop : e.stop < 2 ^ 32) :
    (pack e).toNat = e.start * 2 ^ 32 + e.stop := by
  have hword : (pack e).toNat = (e.start <<< 32) ^^^ e.stop := by
    have h32 : (32 : UInt64).toNat % 64 = 32 := by decide
    rw [pack, UInt64.toNat_xor, UInt64.toNat_shiftLeft, h32, UInt64.toNat_ofNat', UInt64.toNat_ofNat',
      Nat.mod_eq_of_lt (a := e.start) (by omega), Nat.mod_eq_of_lt (a := e.stop) (by omega),
      Nat.mod_eq_of_lt]
    rw [Nat.shiftLeft_eq]
    omega
  have hupper : ((e.start <<< 32) ^^^ e.stop) / 2 ^ 32 = e.start := by
    rw [← Nat.shiftRight_eq_div_pow, Nat.shiftRight_xor_distrib, Nat.shiftLeft_shiftRight,
      Nat.shiftRight_eq_zero _ _ hstop, Nat.xor_zero]
  have hlower : ((e.start <<< 32) ^^^ e.stop) % 2 ^ 32 = e.stop := by
    rw [Nat.xor_mod_two_pow, Nat.shiftLeft_eq, Nat.mul_mod_left, Nat.zero_xor,
      Nat.mod_eq_of_lt hstop]
  rw [hword, ← Nat.div_add_mod' ((e.start <<< 32) ^^^ e.stop) (2 ^ 32), hupper, hlower]

theorem pack_inj {e e' : Extent} (hstart : e.start < 2 ^ 32) (hstop : e.stop < 2 ^ 32)
    (hstart' : e'.start < 2 ^ 32) (hstop' : e'.stop < 2 ^ 32) : pack e = pack e' ↔ e = e' := by
  refine ⟨fun h => ?_, fun h => congrArg pack h⟩
  have hnat := congrArg UInt64.toNat h
  rw [toNat_pack hstart hstop, toNat_pack hstart' hstop'] at hnat
  cases e
  cases e'
  simp only [Extent.mk.injEq] at *
  omega

theorem element_inj {key : TrackKey} {e e' : Extent} :
    key.element e = key.element e' ↔ pack e = pack e' := by
  rw [element, element, mk.injEq, (Random.mix_injective_right key.word).eq_iff]

theorem ofTextAt_element_inj {text : String} {id id' : UInt64} {e : Extent} :
    (ofTextAt text id).element e = (ofTextAt text id').element e ↔ id = id' := by
  rw [element, element, mk.injEq, (Random.mix_injective_left _).eq_iff, ofTextAt, ofTextAt,
    (Random.mix_injective_right _).eq_iff, ofOccurrence, ofOccurrence,
    (Random.mix_injective_left _).eq_iff]

/-- Mixing is one-to-one in each word, so that elements of one text have different keys, and so do
different occurrences of one element. -/
theorem mix_and_element_injective :
    (∀ b, Function.Injective (Random.mix · b)) ∧ (∀ a, Function.Injective (Random.mix a)) ∧
      (∀ (key : TrackKey) (e e' : Extent), e.start < 2 ^ 32 → e.stop < 2 ^ 32 →
        e'.start < 2 ^ 32 → e'.stop < 2 ^ 32 → e ≠ e' → key.element e ≠ key.element e') ∧
      ∀ (text : String) (e : Extent) (id id' : UInt64), id ≠ id' →
        (ofTextAt text id).element e ≠ (ofTextAt text id').element e := by
  refine ⟨Random.mix_injective_left, Random.mix_injective_right, ?_, ?_⟩
  · intro key e e' hstart hstop hstart' hstop' hne heq
    exact hne ((pack_inj hstart hstop hstart' hstop').mp (element_inj.mp heq))
  · intro text e id id' hne heq
    exact hne (ofTextAt_element_inj.mp heq)

/-- Two extents up to the last place there is, and two occurrences of one extent. -/
theorem element_ne_element_at_end :
    (ofText "ab").element ⟨0, 0xFFFFFFFF⟩ ≠ (ofText "ab").element ⟨0xFFFFFFFE, 0xFFFFFFFF⟩ ∧
      (ofTextAt "ab" 1).element ⟨0, 2⟩ ≠ (ofTextAt "ab" 2).element ⟨0, 2⟩ := by
  obtain ⟨-, -, hextent, hoccurrence⟩ := mix_and_element_injective
  exact ⟨hextent _ _ _ (by decide) (by decide) (by decide) (by decide) (by decide),
    hoccurrence _ _ _ _ (by decide)⟩

end KineticText.TrackKey
