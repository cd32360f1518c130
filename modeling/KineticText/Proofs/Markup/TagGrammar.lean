import KineticText.Proofs.Markup.WrittenTag
import Mathlib.Data.List.TakeWhile

/-! The grammar of tags.  A name or key is followed by `=`, by a blank or by the end, and a value by
a blank or by the end, so each of them is as long as it can be, and a body has one reading at most.
Main statement: the bodies that are read as tags are those of the grammar, and what is read is what
the grammar says. -/

namespace KineticText.Markup

/-! ### The grammar -/

/-- A run of blanks, which may be empty. -/
def AllBlank (cs : List Char) : Prop := ∀ c ∈ cs, Text.isBlank c = true

/-- A name: an ASCII letter, then ASCII letters, digits and `_ - : .`. -/
def IsName : List Char → Prop
  | [] => False
  | c :: cs => c.isAlpha = true ∧ ∀ d ∈ cs, d.isAlphanum = true ∨ d ∈ ['_', '-', ':', '.']

/-- A key: not empty, without blanks, quotes, `=` and `/`. -/
structure IsKey (cs : List Char) : Prop where
  ne_nil : cs ≠ []
  notBlank : ∀ c ∈ cs, Text.isBlank c = false
  notMark : ∀ c ∈ cs, c ∉ ['=', '/', '"', '\'']

/-- The entities with their characters. -/
def entities : List (List Char × Char) :=
  [(['&', 'l', 't', ';'], '<'), (['&', 'g', 't', ';'], '>'), (['&', 'a', 'm', 'p', ';'], '&')]

/-- Characters, and what they are when each entity among them has been decoded once. -/
inductive Decodes : List Char → List Char → Prop
  | nil : Decodes [] []
  | entity {spelling cs decoded : List Char} {c : Char} (known : (spelling, c) ∈ entities)
      (rest : Decodes cs decoded) : Decodes (spelling ++ cs) (c :: decoded)
  | itself {c : Char} {cs decoded : List Char}
      (plain : ∀ e ∈ entities, ¬ e.1 <+: c :: cs) (rest : Decodes cs decoded) :
      Decodes (c :: cs) (c :: decoded)

/-- What is written for a value: the value in quotes, or a run without blanks that does not begin
with a quote and may be empty. -/
inductive ValueForm : List Char → String → Prop
  | quoted {q : Char} {content value : List Char} (quote : isQuote q = true)
      (avoids : q ∉ content) (decodes : Decodes content value) :
      ValueForm (q :: (content ++ [q])) (String.ofList value)
  | bare {content value : List Char} (unquoted : ∀ c ∈ content.head?, isQuote c = false)
      (notBlank : ∀ c ∈ content, Text.isBlank c = false) (decodes : Decodes content value) :
      ValueForm content (String.ofList value)

/-- What is written for an attribute: a key, or a key and a value. -/
inductive AttributeForm : List Char → String × String → Prop
  | bare {key : List Char} (isKey : IsKey key) : AttributeForm key (smallLetters key, "true")
  | valued {key written : List Char} {value : String} (isKey : IsKey key)
      (form : ValueForm written value) :
      AttributeForm (key ++ '=' :: written) (smallLetters key, value)

/-- What is written for attributes, each after one blank at least. -/
inductive AttributesForm : List Char → List (String × String) → Prop
  | nil : AttributesForm [] []
  | cons {blanks written rest : List Char} {a : String × String}
      {attributes : List (String × String)} (ne_nil : blanks ≠ []) (blank : AllBlank blanks)
      (first : AttributeForm written a) (others : AttributesForm rest attributes) :
      AttributesForm (blanks ++ (written ++ rest)) (a :: attributes)

/-- A name, which a value may follow, and attributes. -/
inductive InsideForm : List Char → String → List (String × String) → Prop
  | plain {name rest : List Char} {attributes : List (String × String)} (isName : IsName name)
      (others : AttributesForm rest attributes) :
      InsideForm (name ++ rest) (smallLetters name) attributes
  | shorthand {name written rest : List Char} {value : String}
      {attributes : List (String × String)} (isName : IsName name)
      (form : ValueForm written value) (others : AttributesForm rest attributes) :
      InsideForm (name ++ '=' :: (written ++ rest)) (smallLetters name)
        (("value", value) :: attributes)

/-- The bodies of tags.  A slash at the end is always the one of a self-closing tag. -/
inductive TagForm : List Char → Tag.Kind → String → List (String × String) → Prop
  | closing {before name after : List Char} (blankBefore : AllBlank before)
      (isName : IsName name) (blankAfter : AllBlank after) :
      TagForm ('/' :: (before ++ (name ++ after))) .closing (smallLetters name) []
  | opening {inside after : List Char} {name : String} {attributes : List (String × String)}
      (form : InsideForm inside name attributes) (noSlash : inside.getLast? ≠ some '/')
      (blankAfter : AllBlank after) :
      TagForm (inside ++ after) .opening name attributes
  | selfClosing {inside between after : List Char} {name : String}
      {attributes : List (String × String)} (form : InsideForm inside name attributes)
      (blankBetween : AllBlank between) (blankAfter : AllBlank after) :
      TagForm (inside ++ (between ++ '/' :: after)) .selfClosing name attributes

/-! ### Entities, names and keys -/

theorem mem_entities_iff {e : List Char × Char} : e ∈ entities ↔ e = (['&', 'l', 't', ';'], '<') ∨
    e = (['&', 'g', 't', ';'], '>') ∨ e = (['&', 'a', 'm', 'p', ';'], '&') := by
  simp [entities]

theorem less_mem_entities : (['&', 'l', 't', ';'], '<') ∈ entities :=
  mem_entities_iff.mpr (.inl rfl)

theorem greater_mem_entities : (['&', 'g', 't', ';'], '>') ∈ entities :=
  mem_entities_iff.mpr (.inr (.inl rfl))

theorem ampersand_mem_entities : (['&', 'a', 'm', 'p', ';'], '&') ∈ entities :=
  mem_entities_iff.mpr (.inr (.inr rfl))

theorem decodes_decodeEntities (cs : List Char) : Decodes cs (decodeEntities cs) := by
  fun_induction decodeEntities cs with
  | case1 rest ih =>
    have hdecodes := Decodes.entity less_mem_entities ih
    exact hdecodes
  | case2 rest ih =>
    have hdecodes := Decodes.entity greater_mem_entities ih
    exact hdecodes
  | case3 rest ih =>
    have hdecodes := Decodes.entity ampersand_mem_entities ih
    exact hdecodes
  | case4 c rest hnotLess hnotGreater hnotAmpersand ih =>
    refine .itself (fun e he hbegins => ?_) ih
    obtain ⟨after, hafter⟩ := hbegins
    rcases mem_entities_iff.mp he with rfl | rfl | rfl
    · cases hafter
      exact hnotLess after rfl rfl
    · cases hafter
      exact hnotGreater after rfl rfl
    · cases hafter
      exact hnotAmpersand after rfl rfl
  | case5 => exact .nil

theorem Decodes.eq {cs decoded : List Char} (h : Decodes cs decoded) :
    decodeEntities cs = decoded := by
  induction h with
  | nil => rfl
  | entity known rest ih =>
    rcases mem_entities_iff.mp known with heq | heq | heq <;> cases heq <;>
      simp [decodeEntities, ih]
  | @itself c cs decoded plain rest ih =>
    rw [decodeEntities, ih]
    · rintro after rfl rfl
      exact plain _ less_mem_entities ⟨after, rfl⟩
    · rintro after rfl rfl
      exact plain _ greater_mem_entities ⟨after, rfl⟩
    · rintro after rfl rfl
      exact plain _ ampersand_mem_entities ⟨after, rfl⟩

theorem isTagName_iff {cs : List Char} : isTagName cs = true ↔ IsName cs := by
  cases cs with
  | nil => simp [isTagName, IsName]
  | cons c cs => simp [isTagName, IsName, or_assoc]

theorem isNameChar_iff {c : Char} :
    isNameChar c = true ↔ Text.isBlank c = false ∧ c ∉ ['=', '/', '"', '\''] := by
  simp [isNameChar, isQuote, and_assoc]

theorem isNameChar_of_isAlphanum {c : Char} (h : c.isAlphanum = true) : isNameChar c = true := by
  have hclasses : (c.isUpper || c.isLower || c.isDigit) = true := h
  have hcode : (65 ≤ c.toNat ∧ c.toNat ≤ 90) ∨ (97 ≤ c.toNat ∧ c.toNat ≤ 122) ∨
      (48 ≤ c.toNat ∧ c.toNat ≤ 57) := by
    rwa [Bool.or_eq_true, Bool.or_eq_true, isUpper_iff, isLower_iff, Char.isDigit_iff_toNat,
      or_assoc] at hclasses
  refine isNameChar_iff.mpr ⟨isBlank_of_between (by omega) (by omega), fun hmem => ?_⟩
  simp only [List.mem_cons, List.not_mem_nil, or_false] at hmem
  rcases hmem with rfl | rfl | rfl | rfl <;> revert hcode <;> decide

theorem isKey_iff {cs : List Char} : IsKey cs ↔ cs ≠ [] ∧ ∀ c ∈ cs, isNameChar c = true := by
  constructor
  · intro h
    exact ⟨h.ne_nil, fun c hc => isNameChar_iff.mpr ⟨h.notBlank c hc, h.notMark c hc⟩⟩
  · rintro ⟨hne, h⟩
    exact ⟨hne, fun c hc => (isNameChar_iff.mp (h c hc)).1,
      fun c hc => (isNameChar_iff.mp (h c hc)).2⟩

theorem IsKey.isNameChar {cs : List Char} (h : IsKey cs) : ∀ c ∈ cs, isNameChar c = true :=
  (isKey_iff.mp h).2

theorem isKey_takeWhile {cs : List Char} (h : cs.takeWhile isNameChar ≠ []) :
    IsKey (cs.takeWhile isNameChar) :=
  isKey_iff.mpr ⟨h, List.all_eq_true.mp List.all_takeWhile⟩

theorem IsName.isKey {cs : List Char} (h : IsName cs) : IsKey cs := by
  cases cs with
  | nil => exact h.elim
  | cons c cs =>
    refine isKey_iff.mpr ⟨List.cons_ne_nil c cs,
      List.forall_mem_cons.mpr ⟨isNameChar_of_isAlphanum ?_, fun d hd => ?_⟩⟩
    · simp [Char.isAlphanum, h.1]
    · rcases h.2 d hd with halphanum | hmark
      · exact isNameChar_of_isAlphanum halphanum
      · simp only [List.mem_cons, List.not_mem_nil, or_false] at hmark
        rcases hmark with rfl | rfl | rfl | rfl <;> decide

/-! ### Values and attributes -/

/-- A run that is empty or begins with a blank. -/
def StartsBlank (cs : List Char) : Prop := ∀ c ∈ cs.head?, Text.isBlank c = true

theorem StartsBlank.not_isNameChar {cs : List Char} (h : StartsBlank cs) :
    ∀ c ∈ cs.head?, isNameChar c = false := by
  intro c hc
  simp [isNameChar, h c hc]

theorem not_isQuote_of_isBlank {c : Char} (h : Text.isBlank c = true) : isQuote c = false := by
  refine Bool.eq_false_iff.mpr fun hc => ?_
  rcases isQuote_iff.mp hc with rfl | rfl <;> revert h <;> decide

theorem ValueForm.value?_append {written rest : List Char} {value : String}
    (h : ValueForm written value) (hrest : StartsBlank rest) :
    value? (written ++ rest) = some (value, rest) := by
  cases h with
  | @quoted q content decoded quote avoids decodes =>
    have hne : ∀ c ∈ content, (c != q) = true := by
      intro c hc
      rw [bne_iff_ne]
      rintro rfl
      exact avoids hc
    have hstop : ∀ c ∈ (q :: rest).head?, (c != q) = false := by simp
    obtain ⟨htake, hdrop⟩ := span_append hne hstop
    rw [List.cons_append, List.append_assoc, List.singleton_append, value?, if_pos quote, hdrop]
    simp only [htake, decodes.eq]
  | @bare _ decoded unquoted notBlank decodes =>
    have hword : ∀ c ∈ written, (!Text.isBlank c) = true := fun c hc => by simp [notBlank c hc]
    have hstop : ∀ c ∈ rest.head?, (!Text.isBlank c) = false := fun c hc => by simp [hrest c hc]
    obtain ⟨htake, hdrop⟩ := span_append hword hstop
    cases hcs : written ++ rest with
    | nil =>
      obtain ⟨rfl, rfl⟩ := List.append_eq_nil_iff.mp hcs
      rw [value?, ← decodes.eq]
      rfl
    | cons c cs =>
      have hquote : isQuote c = false := by
        cases written with
        | nil => exact not_isQuote_of_isBlank (hrest c (by rw [← List.nil_append rest, hcs]; rfl))
        | cons d ds =>
          cases hcs
          exact unquoted _ rfl
      rw [value?, if_neg (by rw [hquote]; exact Bool.false_ne_true), ← hcs, htake, hdrop,
        decodes.eq]

theorem exists_valueForm {cs rest : List Char} {value : String}
    (h : value? cs = some (value, rest)) :
    ∃ written, cs = written ++ rest ∧ ValueForm written value := by
  cases cs with
  | nil =>
    rw [value?] at h
    cases h
    exact ⟨[], rfl, .bare (by simp) (by simp) .nil⟩
  | cons c cs =>
    rw [value?] at h
    split at h
    · rename_i hquote
      have havoids : c ∉ cs.takeWhile (· != c) := by
        intro hmem
        have hne := List.all_eq_true.mp (List.all_takeWhile (p := (· != c)) (l := cs)) c hmem
        simp at hne
      split at h
      · cases h
      · rename_i d after hdrop
        cases h
        obtain rfl : d = c := by
          have hstop := List.head?_dropWhile_not (· != c) cs
          simpa [hdrop] using hstop
        refine ⟨d :: (cs.takeWhile (· != d) ++ [d]), ?_,
          .quoted hquote havoids (decodes_decodeEntities _)⟩
        rw [List.cons_append, List.append_assoc, List.singleton_append, ← hdrop,
          List.takeWhile_append_dropWhile]
    · rename_i hquote
      cases h
      refine ⟨_, List.takeWhile_append_dropWhile.symm, .bare (fun d hd => ?_) (fun d hd => ?_)
        (decodes_decodeEntities _)⟩
      · rw [List.head?_takeWhile, List.head?_cons] at hd
        obtain ⟨hd, -⟩ := Option.filter_eq_some_iff.mp hd
        cases hd
        exact Bool.eq_false_iff.mpr hquote
      · have hblank := List.all_eq_true.mp List.all_takeWhile d hd
        simpa using hblank

theorem AttributeForm.attribute?_append {written rest : List Char} {a : String × String}
    (h : AttributeForm written a) (hrest : StartsBlank rest) :
    attribute? (written ++ rest) = some (a, rest) := by
  cases h with
  | bare isKey =>
    obtain ⟨htake, hdrop⟩ := span_append isKey.isNameChar hrest.not_isNameChar
    unfold attribute?
    rw [htake, hdrop, if_neg (by simp [isKey.ne_nil])]
    split
    · exact absurd (hrest '=' rfl) (by decide)
    · rfl
  | @valued key written value isKey form =>
    have hstop : ∀ c ∈ ('=' :: (written ++ rest)).head?, isNameChar c = false := by
      simp [isNameChar]
    obtain ⟨htake, hdrop⟩ := span_append isKey.isNameChar hstop
    rw [List.append_assoc, List.cons_append]
    unfold attribute?
    simp only [htake, hdrop, form.value?_append hrest]
    rw [if_neg (by simp [isKey.ne_nil])]
    rfl

theorem exists_attributeForm {cs rest : List Char} {a : String × String}
    (h : attribute? cs = some (a, rest)) :
    ∃ written, cs = written ++ rest ∧ AttributeForm written a := by
  unfold attribute? at h
  split at h
  · cases h
  · rename_i hne
    have hkey : IsKey (cs.takeWhile isNameChar) := isKey_takeWhile (by simpa using hne)
    have hcs := List.takeWhile_append_dropWhile (p := isNameChar) (l := cs)
    split at h
    · rename_i after hdrop
      obtain ⟨⟨value, rest'⟩, hvalue, heq⟩ := Option.map_eq_some_iff.mp h
      cases heq
      obtain ⟨written, rfl, hform⟩ := exists_valueForm hvalue
      refine ⟨_, ?_, .valued hkey hform⟩
      rw [List.append_assoc, List.cons_append, ← hdrop, hcs]
    · cases h
      exact ⟨_, hcs.symm, .bare hkey⟩

theorem AttributesForm.startsBlank {cs : List Char} {attributes : List (String × String)}
    (h : AttributesForm cs attributes) : StartsBlank cs := by
  cases h with
  | nil => simp [StartsBlank]
  | @cons blanks written rest a attributes ne_nil blank first others =>
    cases blanks with
    | nil => exact absurd rfl ne_nil
    | cons b blanks =>
      intro c hc
      cases hc
      exact blank _ List.mem_cons_self

theorem AttributeForm.exists_cons {written : List Char} {a : String × String}
    (h : AttributeForm written a) : ∃ c cs, written = c :: cs ∧ Text.isBlank c = false := by
  have hkey : ∀ {key rest : List Char}, IsKey key →
      ∃ c cs, key ++ rest = c :: cs ∧ Text.isBlank c = false := by
    intro key rest isKey
    cases key with
    | nil => exact absurd rfl isKey.ne_nil
    | cons c key => exact ⟨c, key ++ rest, rfl, isKey.notBlank c List.mem_cons_self⟩
  cases h with
  | bare isKey => simpa using @hkey written [] isKey
  | valued isKey form => exact hkey isKey

theorem AttributesForm.attributes? {cs : List Char} {attributes : List (String × String)}
    (h : AttributesForm cs attributes) : attributes? cs = some attributes := by
  induction h with
  | nil => rw [Markup.attributes?]
  | @cons blanks written rest a attributes ne_nil blank first others ih =>
    obtain ⟨c, cs, rfl, hblank⟩ := first.exists_cons
    cases blanks with
    | nil => exact absurd rfl ne_nil
    | cons b blanks =>
      obtain ⟨hb, hblanks⟩ := List.forall_mem_cons.mp blank
      have htrim : Text.trimStart (blanks ++ (c :: cs ++ rest)) = c :: cs ++ rest :=
        (span_append hblanks (by simpa using hblank)).2
      have hread := first.attribute?_append others.startsBlank
      rw [List.cons_append, Markup.attributes?, if_neg (by simp [hb]), htrim, if_neg (by simp)]
      split
      · rename_i hnone
        rw [hread] at hnone
        cases hnone
      · rename_i hsome
        rw [hread] at hsome
        cases hsome
        rw [ih, Option.map_some]

/-! ### The end of a body -/

/-- A run that does not end in a blank. -/
def EndsUnblank (cs : List Char) : Prop := ∀ c ∈ cs.getLast?, Text.isBlank c = false

theorem EndsUnblank.of_forall {cs : List Char} (h : ∀ c ∈ cs, Text.isBlank c = false) :
    EndsUnblank cs :=
  fun c hc => h c (List.mem_of_getLast? hc)

theorem EndsUnblank.singleton {c : Char} (h : Text.isBlank c = false) : EndsUnblank [c] :=
  .of_forall (List.forall_mem_singleton.mpr h)

theorem EndsUnblank.of_append {front cs : List Char} (h : EndsUnblank (front ++ cs)) :
    EndsUnblank cs := by
  intro c hc
  refine h c ?_
  rw [List.getLast?_append, Option.mem_def.mp hc]
  rfl

theorem EndsUnblank.append {front cs : List Char} (hfront : EndsUnblank front)
    (h : EndsUnblank cs) : EndsUnblank (front ++ cs) := by
  intro c hc
  rw [List.getLast?_append, Option.mem_def, Option.or_eq_some_iff] at hc
  rcases hc with hc | ⟨-, hc⟩
  · exact h c hc
  · exact hfront c hc

theorem EndsUnblank.append_left {cs : List Char} (h : EndsUnblank cs) (hne : cs ≠ [])
    (front : List Char) : EndsUnblank (front ++ cs) := by
  intro c hc
  rw [List.getLast?_append, List.getLast?_eq_some_getLast hne, Option.some_or] at hc
  exact h c (by rwa [List.getLast?_eq_some_getLast hne])

theorem ValueForm.endsUnblank {written : List Char} {value : String}
    (h : ValueForm written value) : EndsUnblank written := by
  cases h with
  | @quoted q content decoded quote avoids decodes =>
    have hq : Text.isBlank q = false := by
      rcases isQuote_iff.mp quote with rfl | rfl <;> decide
    exact (EndsUnblank.singleton hq).append_left (List.cons_ne_nil _ _) (q :: content)
  | bare unquoted notBlank decodes => exact .of_forall notBlank

theorem EndsUnblank.append_value {front written : List Char} {value : String}
    (h : ValueForm written value) : EndsUnblank (front ++ '=' :: written) := by
  have hequals : EndsUnblank ['='] := .singleton (by decide)
  exact (hequals.append h.endsUnblank).append_left (List.cons_ne_nil _ _) front

theorem AttributeForm.endsUnblank {written : List Char} {a : String × String}
    (h : AttributeForm written a) : EndsUnblank written := by
  cases h with
  | bare isKey => exact .of_forall isKey.notBlank
  | valued isKey form => exact .append_value form

theorem AttributesForm.endsUnblank {cs : List Char} {attributes : List (String × String)}
    (h : AttributesForm cs attributes) : EndsUnblank cs := by
  induction h with
  | nil => exact .of_forall (by simp)
  | @cons blanks written rest a attributes ne_nil blank first others ih =>
    refine (first.endsUnblank.append ih).append_left ?_ blanks
    obtain ⟨c, cs, rfl, -⟩ := first.exists_cons
    exact List.cons_ne_nil _ _

theorem InsideForm.endsUnblank {inside : List Char} {name : String}
    {attributes : List (String × String)} (h : InsideForm inside name attributes) :
    EndsUnblank inside := by
  cases h with
  | plain isName others =>
    exact (EndsUnblank.of_forall isName.isKey.notBlank).append others.endsUnblank
  | @shorthand name written rest value attributes isName form others =>
    have hsplit : name ++ '=' :: (written ++ rest) = (name ++ '=' :: written) ++ rest := by simp
    rw [hsplit]
    exact (EndsUnblank.append_value form).append others.endsUnblank

/-! ### What stands before the end -/

theorem attributesForm_of_attributes? {cs : List Char} {attributes : List (String × String)}
    (h : attributes? cs = some attributes) (hend : EndsUnblank cs) :
    AttributesForm cs attributes := by
  fun_induction attributes? cs generalizing attributes with
  | case1 =>
    cases h
    exact .nil
  | case2 => cases h
  | case3 c rest hblank hempty =>
    -- only blanks are left, and the run does not end in one
    have hrest : ∀ d ∈ rest, Text.isBlank d = true := by
      simpa [Text.trimStart, List.dropWhile_eq_nil_iff] using hempty
    have hall : AllBlank (c :: rest) := List.forall_mem_cons.mpr ⟨by simpa using hblank, hrest⟩
    have hlast := List.getLast?_eq_some_getLast (List.cons_ne_nil c rest)
    have hunblank := hend _ hlast
    rw [hall _ (List.getLast_mem _)] at hunblank
    cases hunblank
  | case4 c rest hblank hne hnone => cases h
  | case5 c rest hblank hne a rest' hread ih =>
    obtain ⟨others, hothers, rfl⟩ := Option.map_eq_some_iff.mp h
    obtain ⟨written, htrim, hform⟩ := exists_attributeForm hread
    have hsplit : c :: rest = (c :: rest.takeWhile Text.isBlank) ++ (written ++ rest') := by
      rw [List.cons_append, ← htrim, Text.trimStart, List.takeWhile_append_dropWhile]
    have hblanks : AllBlank (c :: rest.takeWhile Text.isBlank) :=
      List.forall_mem_cons.mpr ⟨by simpa using hblank, List.all_eq_true.mp List.all_takeWhile⟩
    rw [hsplit] at hend ⊢
    exact .cons (List.cons_ne_nil _ _) hblanks hform (ih hothers hend.of_append.of_append)

theorem afterName?_of_startsBlank {cs : List Char} (h : StartsBlank cs) :
    afterName? cs = attributes? cs := by
  unfold afterName?
  split
  · exact absurd (h '=' rfl) (by decide)
  · rfl

theorem InsideForm.read {inside : List Char} {name : String}
    {attributes : List (String × String)} (h : InsideForm inside name attributes) :
    isTagName (inside.takeWhile isNameChar) = true ∧
      smallLetters (inside.takeWhile isNameChar) = name ∧
      afterName? (inside.dropWhile isNameChar) = some attributes := by
  cases h with
  | plain isName others =>
    obtain ⟨htake, hdrop⟩ :=
      span_append isName.isKey.isNameChar others.startsBlank.not_isNameChar
    rw [htake, hdrop, afterName?_of_startsBlank others.startsBlank, others.attributes?]
    exact ⟨isTagName_iff.mpr isName, rfl, rfl⟩
  | @shorthand name written rest value attributes isName form others =>
    have hstop : ∀ c ∈ ('=' :: (written ++ rest)).head?, isNameChar c = false := by
      simp [isNameChar]
    obtain ⟨htake, hdrop⟩ := span_append isName.isKey.isNameChar hstop
    refine ⟨?_, ?_, ?_⟩
    · rw [htake, isTagName_iff]
      exact isName
    · rw [htake]
    · rw [hdrop, afterName?, form.value?_append others.startsBlank]
      simp only [others.attributes?, Option.bind_eq_bind, Option.bind_some, shorthandKey]
      rfl

theorem insideForm_of_read {inside : List Char} {attributes : List (String × String)}
    (hname : isTagName (inside.takeWhile isNameChar) = true)
    (hafter : afterName? (inside.dropWhile isNameChar) = some attributes)
    (hend : EndsUnblank inside) :
    InsideForm inside (smallLetters (inside.takeWhile isNameChar)) attributes := by
  have hsplit := List.takeWhile_append_dropWhile (p := isNameChar) (l := inside)
  rw [isTagName_iff] at hname
  generalize inside.takeWhile isNameChar = name at hname hsplit ⊢
  generalize inside.dropWhile isNameChar = after at hsplit hafter
  subst hsplit
  unfold afterName? at hafter
  split at hafter
  · rename_i rest
    obtain ⟨⟨value, rest'⟩, hvalue, hafter⟩ := Option.bind_eq_some_iff.mp hafter
    obtain ⟨others, hothers, heq⟩ := Option.bind_eq_some_iff.mp hafter
    cases heq
    obtain ⟨written, rfl, hform⟩ := exists_valueForm hvalue
    have hsuffix : name ++ '=' :: (written ++ rest') = (name ++ '=' :: written) ++ rest' := by simp
    rw [hsuffix] at hend
    exact .shorthand hname hform (attributesForm_of_attributes? hothers hend.of_append)
  · exact .plain hname (attributesForm_of_attributes? hafter hend.of_append)

theorem InsideForm.head?_append {inside : List Char} {name : String}
    {attributes : List (String × String)} (h : InsideForm inside name attributes)
    (rest : List Char) : (inside ++ rest).head? ≠ some '/' := by
  have hname : ∀ {name rest : List Char}, IsName name → (name ++ rest).head? ≠ some '/' := by
    intro name rest isName
    cases name with
    | nil => exact isName.elim
    | cons c name =>
      rintro hc
      cases hc
      exact isName.isKey.notMark '/' List.mem_cons_self (by decide)
  cases h with
  | plain isName others =>
    rw [List.append_assoc]
    exact hname isName
  | shorthand isName form others =>
    rw [List.append_assoc]
    exact hname isName

/-! ### Blanks and the slash at the end -/

theorem endsUnblank_trimEnd (cs : List Char) : EndsUnblank (Text.trimEnd cs) := by
  intro c hc
  rw [Text.trimEnd, List.getLast?_reverse] at hc
  have hstop := List.head?_dropWhile_not Text.isBlank cs.reverse
  rw [Option.mem_def.mp hc] at hstop
  simpa using hstop

theorem trimEnd_append {cs blanks : List Char} (h : EndsUnblank cs) (hblanks : AllBlank blanks) :
    Text.trimEnd (cs ++ blanks) = cs := by
  have hreverse : ∀ c ∈ blanks.reverse, Text.isBlank c = true :=
    fun c hc => hblanks c (List.mem_reverse.mp hc)
  have hstop : ∀ c ∈ cs.reverse.head?, Text.isBlank c = false := by
    rw [List.head?_reverse]
    exact h
  rw [Text.trimEnd, List.reverse_append, (span_append hreverse hstop).2, List.reverse_reverse]

theorem exists_trimEnd (cs : List Char) :
    ∃ blanks, AllBlank blanks ∧ cs = Text.trimEnd cs ++ blanks := by
  have hall : AllBlank (cs.reverse.takeWhile Text.isBlank) :=
    List.all_eq_true.mp List.all_takeWhile
  refine ⟨(cs.reverse.takeWhile Text.isBlank).reverse,
    fun c hc => hall c (List.mem_reverse.mp hc), ?_⟩
  rw [Text.trimEnd, ← List.reverse_append, List.takeWhile_append_dropWhile, List.reverse_reverse]

theorem splitSlash_slash (front : List Char) :
    splitSlash (front ++ ['/']) = (Text.trimEnd front, true) := by
  simp [splitSlash]

theorem splitSlash_of_getLast?_ne {body : List Char} (h : body.getLast? ≠ some '/') :
    splitSlash body = (body, false) := by
  unfold splitSlash
  split
  · rename_i rest heq
    refine absurd ?_ h
    rw [List.getLast?_eq_head?_reverse, heq]
    rfl
  · rfl

/-! ### Tags -/

theorem TagForm.parse? {body : List Char} {kind : Tag.Kind} {name : String}
    {attributes : List (String × String)} (h : TagForm body kind name attributes)
    (source : String) : Tag.parse? body source = some ⟨kind, name, attributes, source⟩ := by
  cases h with
  | @closing before name after blankBefore isName blankAfter =>
    have hstop : ∀ c ∈ (name ++ after).head?, Text.isBlank c = false := by
      cases name with
      | nil => exact isName.elim
      | cons c name => simpa using isName.isKey.notBlank c List.mem_cons_self
    have htrim : Text.trim (before ++ (name ++ after)) = name := by
      rw [Text.trim, Text.trimStart, (span_append blankBefore hstop).2]
      exact trimEnd_append (.of_forall isName.isKey.notBlank) blankAfter
    rw [Tag.parse?]
    simp only [htrim, isTagName_iff.mpr isName, if_true]
  | @opening inside after _ _ form noSlash blankAfter =>
    obtain ⟨hname, rfl, hafter⟩ := form.read
    rw [Tag.parse?_of_head_ne_slash (form.head?_append _),
      trimEnd_append form.endsUnblank blankAfter, splitSlash_of_getLast?_ne noSlash]
    simp only [hname, hafter, if_true]
    rfl
  | @selfClosing inside between after _ _ form blankBetween blankAfter =>
    obtain ⟨hname, rfl, hafter⟩ := form.read
    have hslash : EndsUnblank ['/'] := .singleton (by decide)
    have hbody : inside ++ (between ++ '/' :: after) = (inside ++ between ++ ['/']) ++ after := by
      simp
    rw [Tag.parse?_of_head_ne_slash (form.head?_append _), hbody,
      trimEnd_append (hslash.append_left (List.cons_ne_nil _ _) _) blankAfter, splitSlash_slash,
      trimEnd_append form.endsUnblank blankBetween]
    simp only [hname, hafter, if_true]
    rfl

theorem tagForm_of_parse? {body : List Char} {source : String} {tag : Tag}
    (h : Tag.parse? body source = some tag) : TagForm body tag.kind tag.name tag.attributes := by
  by_cases hhead : body.head? = some '/'
  · obtain ⟨rest, rfl⟩ := List.head?_eq_some_iff.mp hhead
    rw [Tag.parse?] at h
    obtain ⟨hname, heq⟩ := Option.ite_none_right_eq_some.mp h
    cases heq
    obtain ⟨after, hafter, hsplit⟩ := exists_trimEnd (Text.trimStart rest)
    have hrest : rest = rest.takeWhile Text.isBlank ++ (Text.trim rest ++ after) := by
      rw [Text.trim, ← hsplit, Text.trimStart, List.takeWhile_append_dropWhile]
    have hform := TagForm.closing (List.all_eq_true.mp List.all_takeWhile : AllBlank
      (rest.takeWhile Text.isBlank)) (isTagName_iff.mp hname) hafter
    rwa [← hrest] at hform
  · rw [Tag.parse?_of_head_ne_slash hhead] at h
    obtain ⟨hname, h⟩ := Option.ite_none_right_eq_some.mp h
    obtain ⟨attributes, hafter, rfl⟩ := Option.map_eq_some_iff.mp h
    obtain ⟨after, hblank, hbody⟩ := exists_trimEnd body
    have hend := endsUnblank_trimEnd body
    generalize Text.trimEnd body = front at *
    subst hbody
    by_cases hlast : front.getLast? = some '/'
    · obtain ⟨front, rfl⟩ := List.getLast?_eq_some_iff.mp hlast
      rw [splitSlash_slash] at *
      have hform := insideForm_of_read hname hafter (endsUnblank_trimEnd front)
      obtain ⟨between, hbetween, hfront⟩ := exists_trimEnd front
      have hbody : front ++ ['/'] ++ after = Text.trimEnd front ++ (between ++ '/' :: after) := by
        rw [← List.append_assoc, ← hfront, List.append_assoc, List.singleton_append]
      rw [hbody]
      exact .selfClosing hform hbetween hblank
    · rw [splitSlash_of_getLast?_ne hlast] at *
      exact .opening (insideForm_of_read hname hafter hend) hlast hblank

/-- A body is read as a tag exactly when it is one of the grammar, whatever the body.  The kind, the
name and the attributes read are those of the grammar, which leaves no other choice. -/
theorem parse?_iff_tagForm (body : List Char) (source : String) :
    ((Tag.parse? body source).isSome = true ↔
      ∃ kind name attributes, TagForm body kind name attributes) ∧
    ∀ kind name attributes, TagForm body kind name attributes ↔
      Tag.parse? body source = some ⟨kind, name, attributes, source⟩ := by
  refine ⟨⟨fun h => ?_, fun h => ?_⟩,
    fun kind name attributes => ⟨fun h => h.parse? source, fun h => ?_⟩⟩
  · obtain ⟨tag, htag⟩ := Option.isSome_iff_exists.mp h
    exact ⟨tag.kind, tag.name, tag.attributes, tagForm_of_parse? htag⟩
  · obtain ⟨kind, name, attributes, h⟩ := h
    rw [h.parse? source]
    rfl
  · exact tagForm_of_parse? h

end KineticText.Markup
