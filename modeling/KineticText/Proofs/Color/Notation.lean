import KineticText.Color.Notation
import KineticText.Proofs.Markup.WrittenTag

/-! Colors as they are written.  The eight digits behind the number sign are no name, since no name
begins with that sign, and they are the digits of the color's word, so every color is read back. -/

namespace KineticText.Color

/-! ### Digits -/

theorem hexDigit?_hexChar (n : UInt32) : hexDigit? (hexChar n) = some (n.toNat % 16) := by
  have hdigits : ∀ d < 16, hexDigit? (if d < 10 then Char.ofNat ('0'.toNat + d)
      else Char.ofNat ('A'.toNat + d - 10)) = some d := by decide
  have hlow : (n &&& 0xF).toNat = n.toNat % 16 := by
    rw [UInt32.toNat_and]
    exact Nat.and_two_pow_sub_one_eq_mod n.toNat 4
  rw [hexChar, hlow]
  exact hdigits _ (Nat.mod_lt _ (by decide))

/-- A digit is a digit or a capital of ASCII. -/
theorem between_hexChar (n : UInt32) : 0x30 ≤ (hexChar n).toNat ∧ (hexChar n).toNat ≤ 0x46 := by
  have hdigits : ∀ d < 16, 0x30 ≤ (if d < 10 then Char.ofNat ('0'.toNat + d)
      else Char.ofNat ('A'.toNat + d - 10)).toNat ∧ (if d < 10 then Char.ofNat ('0'.toNat + d)
      else Char.ofNat ('A'.toNat + d - 10)).toNat ≤ 0x46 := by decide
  exact hdigits _ (Nat.lt_succ_of_le (by rw [UInt32.toNat_and]; exact Nat.and_le_right))

/-- The characters behind the number sign. -/
def hexDigits (c : Color) : List Char :=
  ([28, 24, 20, 16, 12, 8, 4, 0] : List UInt32).map fun shift => hexChar (c.argb >>> shift)

theorem toList_hex (c : Color) : c.hex.toList = '#' :: c.hexDigits := String.toList_ofList

/-- A color is written without blanks and commas. -/
theorem isBlank_of_mem_hex {c : Color} {d : Char} (h : d ∈ c.hex.toList) :
    Text.isBlank d = false ∧ d ≠ ',' := by
  have hbetween : 0x21 ≤ d.toNat ∧ d.toNat ≤ 0x7E ∧ d.toNat ≠ 0x2C := by
    rw [toList_hex] at h
    rcases List.mem_cons.mp h with rfl | h
    · decide
    · obtain ⟨shift, -, rfl⟩ := List.mem_map.mp h
      obtain ⟨hlow, hhigh⟩ := between_hexChar (c.argb >>> shift)
      omega
  refine ⟨Markup.isBlank_of_between hbetween.1 hbetween.2.1, ?_⟩
  rintro rfl
  exact hbetween.2.2 rfl

theorem trim_hex (c : Color) : Text.trim c.hex.toList = c.hex.toList := by
  have hkeep : ∀ {cs : List Char}, (∀ d ∈ cs, Text.isBlank d = false) →
      cs.dropWhile Text.isBlank = cs := by
    intro cs h
    cases cs with
    | nil => rfl
    | cons d cs => exact List.dropWhile_cons_of_neg (by simp [h d List.mem_cons_self])
  have hplain : ∀ d ∈ c.hex.toList, Text.isBlank d = false := fun d hd => (isBlank_of_mem_hex hd).1
  rw [Text.trim, Text.trimStart, hkeep hplain, Text.trimEnd,
    hkeep fun d hd => hplain d (List.mem_reverse.mp hd), List.reverse_reverse]

/-! ### Reading -/

theorem ofHex?_hex (c : Color) : ofHex? c.hex = some c := by
  have hmark : dropMark (Text.trim c.hex.toList) = c.hexDigits := by
    rw [trim_hex, toList_hex]
    rfl
  have hread : c.hexDigits.mapM hexDigit? =
      some (([28, 24, 20, 16, 12, 8, 4, 0] : List UInt32).map fun shift =>
        (c.argb >>> shift).toNat % 16) := by
    simp [hexDigits, hexDigit?_hexChar]
  have hword : ofHexDigits (([28, 24, 20, 16, 12, 8, 4, 0] : List UInt32).map fun shift =>
      (c.argb >>> shift).toNat % 16) = c.argb.toNat := by
    have hlt := c.argb.toNat_lt
    simp only [ofHexDigits, List.map_cons, List.map_nil, List.foldl_cons, List.foldl_nil,
      UInt32.toNat_shiftRight, UInt32.reduceToNat, Nat.reduceMod, Nat.shiftRight_eq_div_pow]
    omega
  rw [ofHex?, hmark, hread]
  show some (Color.mk (UInt32.ofNat _)) = some c
  rw [hword, UInt32.ofNat_toNat]

/-- No name of a color begins with a number sign. -/
theorem ofName?_hex (c : Color) : ofName? c.hex = none := by
  have hspelling :
      (Text.fold (String.ofList (Text.trim c.hex.toList))).toList.head? = some '#' := by
    rw [trim_hex, String.ofList_toList, Text.fold, String.toList_map, toList_hex]
    rfl
  have hnone : ∀ {α : Type} {entries : List (String × α)},
      (∀ entry ∈ entries, entry.1.toList.head? ≠ some '#') →
      entries.lookup (Text.fold (String.ofList (Text.trim c.hex.toList))) = none := by
    intro α entries h
    refine List.lookup_eq_none_iff.mpr fun entry hentry => ?_
    rw [bne_iff_ne]
    intro heq
    exact h entry hentry (heq ▸ hspelling)
  rw [ofName?, (hnone (by decide) : respelled.lookup _ = none), Option.getD_none, hnone (by decide)]
  rfl

theorem read?_hex (c : Color) : read? c.hex = some c := by
  rw [read?, ofName?_hex, ofHex?_hex]
  rfl

end KineticText.Color
