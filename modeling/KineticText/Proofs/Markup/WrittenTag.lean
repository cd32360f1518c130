import KineticText.Proofs.Markup.Written

/-! Written tags are read back.  Names and keys are the longest runs of their characters, a value
ends at its own quote, and since a body ends in a name or a quote, a slash behind it is the one of a
self-closing tag. -/

namespace KineticText.Markup

/-! ### Characters of names and keys -/

theorem isBlank_of_between {c : Char} (hlow : 0x21 ≤ c.toNat) (hhigh : c.toNat ≤ 0x7E) :
    Text.isBlank c = false := by
  have hval : c.val.toNat = c.toNat := rfl
  simp only [Text.isBlank, Text.blankRanges, List.any_cons, List.any_nil, Bool.or_false,
    Bool.or_eq_false_iff, Bool.and_eq_false_iff, decide_eq_false_iff_not, UInt32.not_le,
    UInt32.lt_iff_toNat_lt, UInt32.reduceToNat]
  omega

theorem isLower_iff {c : Char} : c.isLower = true ↔ 97 ≤ c.toNat ∧ c.toNat ≤ 122 := by
  show (decide ('a'.val ≤ c.val) && decide (c.val ≤ 'z'.val)) = true ↔ _
  rw [Bool.and_eq_true, decide_eq_true_iff, decide_eq_true_iff]
  exact and_congr UInt32.le_iff_toNat_le UInt32.le_iff_toNat_le

theorem isUpper_iff {c : Char} : c.isUpper = true ↔ 65 ≤ c.toNat ∧ c.toNat ≤ 90 := by
  show decide ('A'.val ≤ c.val ∧ c.val ≤ 'Z'.val) = true ↔ _
  rw [decide_eq_true_iff]
  exact and_congr UInt32.le_iff_toNat_le UInt32.le_iff_toNat_le

theorem isAlpha_of_isLower {c : Char} (h : c.isLower = true) : c.isAlpha = true := by
  show (c.isUpper || c.isLower) = true
  rw [h, Bool.or_true]

theorem isSmallNameChar_of_isLower {c : Char} (h : c.isLower = true) :
    isSmallNameChar c = true := by
  simp [isSmallNameChar, h]

/-- What the characters of a name have in common. -/
structure IsPlainChar (c : Char) : Prop where
  notBlank : Text.isBlank c = false
  notUpper : c.isUpper = false
  notMark : c ∉ ['=', '/', '"', '\'', '>']

theorem IsPlainChar.of_isSmallNameChar {c : Char} (h : isSmallNameChar c = true) :
    IsPlainChar c := by
  have hcode : (97 ≤ c.toNat ∧ c.toNat ≤ 122) ∨ (48 ≤ c.toNat ∧ c.toNat ≤ 57) ∨ c.toNat = 95 ∨
      c.toNat = 45 ∨ c.toNat = 58 ∨ c.toNat = 46 := by
    simp only [isSmallNameChar, Bool.or_eq_true, beq_iff_eq] at h
    rcases h with ((((h | h) | rfl) | rfl) | rfl) | rfl
    · exact .inl (isLower_iff.mp h)
    · exact .inr (.inl (Char.isDigit_iff_toNat.mp h))
    all_goals decide
  constructor
  · exact isBlank_of_between (by omega) (by omega)
  · refine Bool.eq_false_iff.mpr fun hupper => ?_
    have hrange := isUpper_iff.mp hupper
    omega
  · intro hmem
    simp only [List.mem_cons, List.not_mem_nil, or_false] at hmem
    rcases hmem with rfl | rfl | rfl | rfl | rfl <;> revert hcode <;> decide

namespace IsPlainChar

variable {c : Char} (h : IsPlainChar c)
include h

theorem isQuote : isQuote c = false := by
  have := h.notMark
  simp only [List.mem_cons, List.not_mem_nil, or_false, not_or] at this
  simp [Markup.isQuote, this]

theorem ne_slash : c ≠ '/' := by
  rintro rfl
  exact h.notMark (by decide)

theorem ne_greater : c ≠ '>' := by
  rintro rfl
  exact h.notMark (by decide)

theorem isNameChar : isNameChar c = true := by
  have hmark := h.notMark
  simp only [List.mem_cons, List.not_mem_nil, or_false, not_or] at hmark
  simp [Markup.isNameChar, Markup.isQuote, h.notBlank, hmark]

theorem toLower : c.toLower = c := dif_neg (of_decide_eq_false h.notUpper)

end IsPlainChar

/-- A run of characters as in a name. -/
def IsPlain (cs : List Char) : Prop := ∀ c ∈ cs, IsPlainChar c

theorem IsSmallName.isPlain {cs : List Char} (h : IsSmallName cs) : IsPlain cs := by
  cases cs with
  | nil => exact h.elim
  | cons c cs =>
    intro d hd
    rcases List.mem_cons.mp hd with rfl | hd
    · exact .of_isSmallNameChar (isSmallNameChar_of_isLower h.1)
    · exact .of_isSmallNameChar (h.2 d hd)

theorem IsSmallName.ne_nil {cs : List Char} (h : IsSmallName cs) : cs ≠ [] := by
  rintro rfl
  exact h

theorem IsSmallName.isTagName {cs : List Char} (h : IsSmallName cs) : isTagName cs = true := by
  cases cs with
  | nil => exact h.elim
  | cons c cs =>
    simp only [Markup.isTagName, Bool.and_eq_true, List.all_eq_true]
    refine ⟨isAlpha_of_isLower h.1, fun d hd => ?_⟩
    have hd := h.2 d hd
    simp only [isSmallNameChar, Bool.or_eq_true, Char.isAlphanum] at hd ⊢
    have halpha := @isAlpha_of_isLower d
    grind

theorem IsSmallKey.isPlain {key : List Char} (h : IsSmallKey key) : IsPlain key :=
  fun c hc => ⟨h.notBlank c hc, h.notUpper c hc, h.notMark c hc⟩

theorem IsPlain.smallLetters {s : String} (h : IsPlain s.toList) : smallLetters s.toList = s := by
  rw [Markup.smallLetters, List.map_congr_left fun c hc => (h c hc).toLower, List.map_id']
  exact String.ofList_toList

theorem IsPlain.balanced {cs : List Char} (h : IsPlain cs) : Balanced cs :=
  balanced_of_forall fun c hc => ⟨(h c hc).ne_greater, (h c hc).isQuote⟩

theorem IsPlain.trimStart_append {cs : List Char} (h : IsPlain cs) (hne : cs ≠ [])
    (rest : List Char) : Text.trimStart (cs ++ rest) = cs ++ rest := by
  cases cs with
  | nil => exact absurd rfl hne
  | cons c cs =>
    rw [Text.trimStart, List.cons_append, List.dropWhile_cons, if_neg]
    simp [(h c List.mem_cons_self).notBlank]

/-- A run of some class of characters goes as far as the class does. -/
theorem span_append {p : Char → Bool} {cs rest : List Char} (h : ∀ c ∈ cs, p c = true)
    (hrest : ∀ c ∈ rest.head?, p c = false) :
    (cs ++ rest).takeWhile p = cs ∧ (cs ++ rest).dropWhile p = rest := by
  rw [List.takeWhile_append_of_pos h, List.dropWhile_append_of_pos h]
  cases rest with
  | nil => exact ⟨List.append_nil cs, rfl⟩
  | cons c rest => simp [hrest c rfl]

theorem IsPlain.isNameChar {cs : List Char} (h : IsPlain cs) : ∀ c ∈ cs, isNameChar c = true :=
  fun c hc => (h c hc).isNameChar

/-! ### Values and attributes -/

theorem decodeEntities_cons {c : Char} (hc : c ≠ '&') (cs : List Char) :
    decodeEntities (c :: cs) = c :: decodeEntities cs := by
  rw [decodeEntities]
  all_goals
    intros
    contradiction

/-- What is written for a value is read as that value. -/
theorem decodeEntities_encodeValue (value : List Char) :
    decodeEntities (encodeValue value) = value := by
  induction value with
  | nil => rfl
  | cons c value ih =>
    rw [encodeValue, List.flatMap_cons]
    split
    · rename_i h
      rw [h]
      simp only [List.cons_append, List.nil_append, decodeEntities]
      exact congrArg _ ih
    · rename_i h
      rw [List.cons_append, List.nil_append, decodeEntities_cons h]
      exact congrArg _ ih

theorem not_mem_encodeValue {q : Char} (hq : isQuote q = true) {value : List Char}
    (h : q ∉ value) : q ∉ encodeValue value := by
  intro hmem
  obtain ⟨c, hc, hmem⟩ := List.mem_flatMap.mp hmem
  split at hmem
  · rcases isQuote_iff.mp hq with rfl | rfl <;> revert hmem <;> decide
  · rw [List.mem_singleton] at hmem
    exact h (hmem ▸ hc)

/-- A quoted value is read up to its own quote. -/
theorem value?_quotedValue {q : Char} (hq : isQuote q = true) {value : String}
    (h : q ∉ value.toList) (rest : List Char) :
    value? (quotedValue q value.toList ++ rest) = some (value, rest) := by
  have hne : ∀ c ∈ encodeValue value.toList, (c != q) = true := by
    intro c hc
    rw [bne_iff_ne]
    rintro rfl
    exact not_mem_encodeValue hq h hc
  have hstop : ∀ c ∈ (q :: rest).head?, (c != q) = false := by simp
  obtain ⟨htake, hdrop⟩ := span_append hne hstop
  rw [quotedValue, List.cons_append, List.append_assoc, List.singleton_append, value?, if_pos hq,
    hdrop]
  simp only [htake, decodeEntities_encodeValue, String.ofList_toList]

theorem attribute?_written {key value : String} {q : Char} (hkey : IsSmallKey key.toList)
    (hq : isQuote q = true) (h : q ∉ value.toList) (rest : List Char) :
    attribute? (key.toList ++ '=' :: (quotedValue q value.toList ++ rest)) =
      some ((key, value), rest) := by
  have hstop : ∀ c ∈ ('=' :: (quotedValue q value.toList ++ rest)).head?,
      isNameChar c = false := by simp [isNameChar]
  obtain ⟨htake, hdrop⟩ := span_append hkey.isPlain.isNameChar hstop
  have hne : key.toList.isEmpty = false := by simpa using hkey.ne_nil
  simp only [attribute?, htake, hdrop, hne, value?_quotedValue hq h, hkey.isPlain.smallLetters]
  rfl

theorem attributes?_written {attributes : List (String × String)} {written : List Char}
    (h : WrittenAttributes attributes written)
    (hkeys : ∀ a ∈ attributes, IsSmallKey a.1.toList) :
    attributes? written = some attributes := by
  induction h with
  | nil => rw [attributes?]
  | @cons key value q attributes rest quote avoids others ih =>
    have hkey : IsSmallKey key.toList := hkeys (key, value) List.mem_cons_self
    have hread := attribute?_written hkey quote avoids rest
    rw [attributes?, if_neg (by decide), hkey.isPlain.trimStart_append hkey.ne_nil, if_neg]
    · rw [hread]
      simp only [ih fun a ha => hkeys a (List.mem_cons_of_mem _ ha), Option.map_some]
    · simp [hkey.ne_nil]

/-! ### Bodies of tags -/

theorem WrittenAttributes.not_isNameChar {attributes : List (String × String)}
    {written : List Char} (h : WrittenAttributes attributes written) :
    ∀ c ∈ written.head?, isNameChar c = false := by
  rintro c hc
  cases h with
  | nil => cases hc
  | cons quote avoids others =>
    cases hc
    decide

theorem afterName?_written {attributes : List (String × String)} {written : List Char}
    (h : WrittenAttributes attributes written)
    (hkeys : ∀ a ∈ attributes, IsSmallKey a.1.toList) :
    afterName? written = some attributes := by
  have hread := attributes?_written h hkeys
  cases h with
  | nil => exact hread
  | cons quote avoids others => exact hread

/-- A run of characters that ends neither in a blank nor in a slash. -/
def EndsPlain (cs : List Char) : Prop :=
  ∃ front c, cs = front ++ [c] ∧ Text.isBlank c = false ∧ c ≠ '/'

theorem EndsPlain.append {cs : List Char} (h : EndsPlain cs) (front : List Char) :
    EndsPlain (front ++ cs) := by
  obtain ⟨middle, c, rfl, hblank, hslash⟩ := h
  exact ⟨front ++ middle, c, by rw [List.append_assoc], hblank, hslash⟩

theorem IsPlain.endsPlain {cs : List Char} (h : IsPlain cs) (hne : cs ≠ []) : EndsPlain cs := by
  have hc := h _ (List.getLast_mem hne)
  exact ⟨_, _, (List.dropLast_concat_getLast hne).symm, hc.notBlank, hc.ne_slash⟩

theorem trimEnd_append_singleton (front : List Char) {c : Char} (h : Text.isBlank c = false) :
    Text.trimEnd (front ++ [c]) = front ++ [c] := by
  rw [Text.trimEnd, List.reverse_append, List.reverse_singleton, List.singleton_append,
    List.dropWhile_cons_of_neg (by simp [h]), List.reverse_cons, List.reverse_reverse]

theorem EndsPlain.trimEnd {cs : List Char} (h : EndsPlain cs) : Text.trimEnd cs = cs := by
  obtain ⟨front, c, rfl, hblank, -⟩ := h
  exact trimEnd_append_singleton front hblank

theorem EndsPlain.splitSlash {cs : List Char} (h : EndsPlain cs) : splitSlash cs = (cs, false) := by
  obtain ⟨front, c, rfl, -, hslash⟩ := h
  unfold Markup.splitSlash
  rw [List.reverse_append, List.reverse_singleton, List.singleton_append]
  split
  · rename_i heq
    exact absurd (List.cons.inj heq).1 hslash
  · rfl

theorem EndsPlain.splitSlash_slash {cs : List Char} (h : EndsPlain cs) :
    Markup.splitSlash (cs ++ ['/']) = (cs, true) := by
  simp only [Markup.splitSlash, List.reverse_append, List.reverse_singleton, List.singleton_append,
    List.reverse_reverse, h.trimEnd]

theorem endsPlain_quotedValue {q : Char} (hq : isQuote q = true) (value : List Char) :
    EndsPlain (quotedValue q value) := by
  refine ⟨q :: encodeValue value, q, rfl, ?_, ?_⟩ <;>
    rcases isQuote_iff.mp hq with rfl | rfl <;> decide

theorem WrittenAttributes.endsPlain {attributes : List (String × String)} {written : List Char}
    (h : WrittenAttributes attributes written) : written = [] ∨ EndsPlain written := by
  induction h with
  | nil => exact .inl rfl
  | @cons key value q attributes rest quote avoids others ih =>
    right
    have hsplit : ' ' :: (key.toList ++ '=' :: (quotedValue q value.toList ++ rest)) =
        (' ' :: (key.toList ++ ['='])) ++ (quotedValue q value.toList ++ rest) := by simp
    rw [hsplit]
    refine EndsPlain.append ?_ _
    rcases ih with rfl | ih
    · rw [List.append_nil]
      exact endsPlain_quotedValue quote _
    · exact ih.append _

theorem WrittenAttributes.balanced {attributes : List (String × String)} {written : List Char}
    (h : WrittenAttributes attributes written)
    (hkeys : ∀ a ∈ attributes, IsSmallKey a.1.toList) : Balanced written := by
  induction h with
  | nil => exact balanced_nil
  | @cons key value q attributes rest quote avoids others ih =>
    have hkey : Balanced key.toList := (hkeys (key, value) List.mem_cons_self).isPlain.balanced
    have hvalue : Balanced (quotedValue q value.toList) :=
      balanced_quoted quote (not_mem_encodeValue quote avoids)
    have hrest := ih fun a ha => hkeys a (List.mem_cons_of_mem _ ha)
    have hblank : Balanced [' '] := balanced_singleton (by decide) (by decide)
    have hequals : Balanced ['='] := balanced_singleton (by decide) (by decide)
    exact hblank.append (hkey.append (hequals.append (hvalue.append hrest)))

theorem Tag.parse?_of_head_ne_slash {body : List Char} (h : body.head? ≠ some '/')
    (source : String) :
    Tag.parse? body source =
      if isTagName ((splitSlash (Text.trimEnd body)).1.takeWhile isNameChar) then
        (afterName? ((splitSlash (Text.trimEnd body)).1.dropWhile isNameChar)).map fun attributes =>
          ⟨if (splitSlash (Text.trimEnd body)).2 then .selfClosing else .opening,
            smallLetters ((splitSlash (Text.trimEnd body)).1.takeWhile isNameChar), attributes,
            source⟩
      else none := by
  unfold Tag.parse?
  split
  · exact absurd rfl h
  · rfl

namespace IsWritableTag

variable {name : String} {attributes : List (String × String)} {written : List Char}
  (htag : IsWritableTag name attributes) (hwritten : WrittenAttributes attributes written)
include htag

theorem head?_append (rest : List Char) : (name.toList ++ rest).head? ≠ some '/' := by
  cases hname : name.toList with
  | nil => exact absurd hname htag.name.ne_nil
  | cons c cs =>
    have hc : c ≠ '/' := (htag.name.isPlain c (hname ▸ List.mem_cons_self)).ne_slash
    simpa using hc

include hwritten

theorem endsPlain_body : EndsPlain (name.toList ++ written) := by
  rcases hwritten.endsPlain with rfl | h
  · rw [List.append_nil]
    exact htag.name.isPlain.endsPlain htag.name.ne_nil
  · exact h.append _

theorem balanced_body : Balanced (name.toList ++ written) :=
  htag.name.isPlain.balanced.append (hwritten.balanced htag.keys)

/-- The written form of an opening tag is read as that tag. -/
theorem parse?_opening (source : String) :
    Tag.parse? (name.toList ++ written) source = some ⟨.opening, name, attributes, source⟩ := by
  have hbody := htag.endsPlain_body hwritten
  obtain ⟨htake, hdrop⟩ := span_append htag.name.isPlain.isNameChar hwritten.not_isNameChar
  rw [Tag.parse?_of_head_ne_slash (htag.head?_append _), hbody.trimEnd, hbody.splitSlash]
  simp only [htake, hdrop, htag.name.isTagName, afterName?_written hwritten htag.keys,
    htag.name.isPlain.smallLetters]
  rfl

/-- The written form of a self-closing tag is read as that tag. -/
theorem parse?_selfClosing (source : String) :
    Tag.parse? (name.toList ++ written ++ ['/']) source =
      some ⟨.selfClosing, name, attributes, source⟩ := by
  have hbody := htag.endsPlain_body hwritten
  obtain ⟨htake, hdrop⟩ := span_append htag.name.isPlain.isNameChar hwritten.not_isNameChar
  have hhead : (name.toList ++ written ++ ['/']).head? ≠ some '/' := by
    rw [List.append_assoc]
    exact htag.head?_append _
  rw [Tag.parse?_of_head_ne_slash hhead, trimEnd_append_singleton _ (by decide),
    hbody.splitSlash_slash]
  simp only [htake, hdrop, htag.name.isTagName, afterName?_written hwritten htag.keys,
    htag.name.isPlain.smallLetters]
  rfl

omit hwritten in
/-- The written form of a closing tag is read as that tag. -/
theorem parse?_closing (source : String) :
    Tag.parse? ('/' :: name.toList) source = some ⟨.closing, name, [], source⟩ := by
  have hplain := htag.name.isPlain
  have htrim : Text.trim name.toList = name.toList := by
    have := hplain.trimStart_append htag.name.ne_nil []
    rw [List.append_nil] at this
    rw [Text.trim, this, (hplain.endsPlain htag.name.ne_nil).trimEnd]
  simp only [Tag.parse?, htrim, htag.name.isTagName, hplain.smallLetters]
  rfl

end IsWritableTag

end KineticText.Markup
