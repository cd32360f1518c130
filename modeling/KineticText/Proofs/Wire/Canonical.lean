import KineticText.Proofs.Wire.RoundTrip
import KineticText.Proofs.Wire.Sizes

/-! Accepted messages in canonical form.  Reading brings every scalar into its range, and no scalar
takes more bytes in one value than in another, so what a message is read as has bytes again, as many
as the message had.  Main statement: these bytes are read as the same spans. -/

namespace KineticText

theorem Single.isWithin_clamp {lo hi : Single} (hlo : lo.isFinite = true) (hhi : hi.isFinite = true)
    (h : lo.rank ≤ hi.rank) (x : Single) : (x.clamp lo hi).IsWithin lo hi := by
  refine ⟨?_, Single.between_clamp h x⟩
  unfold clamp
  cases hx : x.isFinite with
  | false => exact hlo
  | true =>
    simp only [Bool.not_true, Bool.false_eq_true, if_false]
    split
    · exact hlo
    · split
      · exact hhi
      · exact hx

theorem StyleFlags.contains_ofBits (bits : UInt8) : all.contains (ofBits bits) = true := by
  rw [contains, ofBits, beq_iff_eq, UInt8.and_comm bits, ← UInt8.and_assoc, UInt8.and_self]

namespace Wire

/-! ### What settling ends in -/

theorem Shake.isWithin_settle (e : Shake) : e.settle.amplitude.IsWithin zero sixtyFour ∧
    e.settle.speed.IsWithin zero hundred ∧ e.settle.wavelength.IsWithin hundredth thousand :=
  ⟨Single.isWithin_clamp (by decide) (by decide) (by decide) _,
    Single.isWithin_clamp (by decide) (by decide) (by decide) _,
    Single.isWithin_clamp (by decide) (by decide) (by decide) _⟩

theorem Placement.isWithin_settle (p : Placement) :
    p.settle.x.IsWithin minusTenThousand tenThousand ∧
      p.settle.y.IsWithin minusTenThousand tenThousand ∧ p.settle.scale.IsWithin hundredth hundred :=
  ⟨Single.isWithin_clamp (by decide) (by decide) (by decide) _,
    Single.isWithin_clamp (by decide) (by decide) (by decide) _,
    Single.isWithin_clamp (by decide) (by decide) (by decide) _⟩

theorem forall_mem_map {α β : Type} {a : Option α} {f : α → β} {P : β → Prop}
    (h : ∀ x, P (f x)) : ∀ y ∈ a.map f, P y := by
  intro y hy
  obtain ⟨x, -, rfl⟩ := Option.map_eq_some_iff.mp hy
  exact h x

theorem SpanOf.inRange_settle (s : RawSpan) : s.settle.InRange where
  style := forall_mem_map fun flags => StyleFlags.contains_ofBits flags.bits
  typewriter := forall_mem_map fun _ => Single.isWithin_clamp (by decide) (by decide) (by decide) _
  shake := forall_mem_map Shake.isWithin_settle
  charShake := forall_mem_map Shake.isWithin_settle
  scramble := forall_mem_map fun _ => Single.isWithin_clamp (by decide) (by decide) (by decide) _
  placement := forall_mem_map Placement.isWithin_settle

/-! ### Settling keeps sizes -/

theorem size_typewriterField (t : Typewriter UInt8) :
    typewriterField.size t = .ok 5 := by
  rw [typewriterField, Field.size_map, Field.size_pair, Field.size_single, Field.size_byte]
  rfl

theorem size_shakeField (s : Shake) : shakeField.size s = .ok 13 := by
  simp only [shakeField, Field.size_map, Field.size_pair, Field.size_choice, Field.size_single]
  rfl

theorem size_scrambleField (s : Scramble) : scrambleField.size s = .ok 5 := by
  rw [scrambleField, Field.size_map, Field.size_pair, Field.size_choice, Field.size_single]
  rfl

theorem size_placementField (p : Placement) : placementField.size p = .ok 12 := by
  simp only [placementField, Field.size_map, Field.size_pair, Field.size_single]
  rfl

namespace SpanOf

variable (s : RawSpan)

theorem size_bodyField_settle (mask : UInt32) :
    (bodyField mask).size s.settle.toRaw = (bodyField mask).size s := by
  have hstyle := styleField.sizeIfAny_map (fun flags => .ofBits flags.bits) fun _ => rfl
  have htypewriter := typewriterField.sizeIfAny_map
    (fun t => ⟨t.settle.speed, if t.settle.center then 1 else 0⟩) fun t => by
      rw [size_typewriterField, size_typewriterField]
  have hshake := shakeField.sizeIfAny_map Shake.settle fun e => by
    rw [size_shakeField, size_shakeField]
  have hscramble := scrambleField.sizeIfAny_map Scramble.settle fun e => by
    rw [size_scrambleField, size_scrambleField]
  have hplacement := placementField.sizeIfAny_map Placement.settle fun p => by
    rw [size_placementField, size_placementField]
  simp only [bodyField, Field.size_map, Field.size_pair, Field.size_optional, settle, toRaw,
    Option.map_map, Function.comp_def, hstyle, htypewriter, hshake, hscramble, hplacement]

/-- Writing does not look at the mask. -/
theorem size_bodyField (mask mask' : UInt32) :
    (bodyField mask).size s = (bodyField mask').size s := by
  simp only [bodyField, Field.size_map, Field.size_pair, Field.size_optional]

theorem presence_settle : s.settle.toRaw.presence = s.presence := by
  simp only [presence, present, settle, toRaw, Option.isSome_map]

theorem size_spanField : spanField.size s =
    (do return (← Field.word.size s.presence) + (← (bodyField s.presence).size s)) :=
  Written.size_append _ _

theorem size_spanField_settle : spanField.size s.settle.toRaw = spanField.size s := by
  rw [size_spanField, size_spanField, presence_settle, size_bodyField_settle]

end SpanOf

/-! ### Every field measures -/

theorem measures_idField (name : String) : (idField name).Measures :=
  Field.measures_text (by decide)

theorem measures_colorField : colorField.Measures := Field.measures_word.map fun _ => rfl

theorem measures_colorsField (name : String) : (colorsField name).Measures :=
  measures_colorField.list (by decide)

theorem measures_typewriterField : typewriterField.Measures :=
  (Field.measures_single.pair Field.measures_byte).map fun _ => rfl

theorem measures_shakeField : shakeField.Measures :=
  (Field.measures_choice.pair (Field.measures_single.pair
    (Field.measures_single.pair Field.measures_single))).map fun _ => rfl

theorem measures_scrambleField : scrambleField.Measures :=
  (Field.measures_choice.pair Field.measures_single).map fun _ => rfl

theorem measures_placementField : placementField.Measures :=
  (Field.measures_single.pair (Field.measures_single.pair Field.measures_single)).map fun _ => rfl

theorem measures_itemField : itemField.Measures :=
  ((measures_idField "item.id").pair (Field.measures_count (by decide))).map fun _ => rfl

theorem measures_tagsField : tagsField.Measures :=
  (Field.measures_text (by decide)).list (by decide)

theorem measures_bodyField (mask : UInt32) : (bodyField mask).Measures := by
  refine Field.Measures.map ?_ fun _ => rfl
  exact (Field.measures_text (by decide)).pair <|
    ((Field.measures_byte.map fun _ => rfl).optional _).pair <|
    (measures_colorField.optional _).pair <|
    ((measures_idField "font").optional _).pair <|
    ((measures_colorsField "gradient").optional _).pair <|
    (measures_typewriterField.optional _).pair <|
    (measures_shakeField.optional _).pair <|
    (measures_shakeField.optional _).pair <|
    (measures_scrambleField.optional _).pair <|
    (measures_colorField.optional _).pair <|
    ((measures_colorsField "background_gradient").optional _).pair <|
    (measures_placementField.optional _).pair <|
    (measures_itemField.optional _).pair <|
    ((measures_idField "entity").optional _).pair measures_tagsField

theorem measures_spanField : spanField.Measures := by
  intro bytes s rest h
  obtain ⟨mask, mid, hmask, hnext⟩ := bind_eq_ok.mp h
  obtain ⟨m, hm, hbytes⟩ := Field.measures_word bytes mask mid hmask
  obtain rfl : 4 = m := Except.ok.inj hm
  by_cases hlt : mask < 1 <<< optionalFields
  · rw [if_pos hlt] at hnext
    obtain ⟨n, hn, hmid⟩ := measures_bodyField mask mid s rest hnext
    refine ⟨4 + n, ?_, by omega⟩
    rw [SpanOf.size_spanField, s.size_bodyField s.presence mask]
    exact Written.add_eq_ok (Field.size_word _) hn
  · rw [if_neg hlt] at hnext
    cases hnext

theorem measures_span : span.Measures :=
  measures_spanField.map SpanOf.size_spanField_settle

/-! ### Messages -/

theorem Field.read_eq_ok_of_decode {α : Type} {f : Field α} {a : α} {bytes : List UInt8}
    (h : f.decode bytes = .ok a) : f.read bytes = .ok a [] := by
  unfold decode at h
  cases hall : (do let a ← f.read; finish; return a : Reader α) bytes with
  | error e rest =>
    rw [hall] at h
    cases h
  | ok b rest =>
    rw [hall] at h
    cases h
    obtain ⟨a, mid, hread, hnext⟩ := bind_eq_ok.mp hall
    obtain ⟨_, last, hfinish, hpure⟩ := bind_eq_ok.mp hnext
    obtain ⟨rfl, -⟩ := pure_eq_ok.mp hpure
    unfold finish at hfinish
    by_cases hempty : mid.isEmpty = true
    · rw [List.isEmpty_iff.mp hempty] at hread
      exact hread
    · rw [if_neg hempty] at hfinish
      cases hfinish

theorem forall_mem_inRange {bytes rest : List UInt8} {spans : List Span}
    (h : message.read bytes = .ok spans rest) : ∀ s ∈ spans, s.InRange := by
  obtain ⟨n, mid, -, hmany⟩ := bind_eq_ok.mp h
  refine Field.forall_mem_of_readMany (fun bytes s rest hs => ?_) hmany
  obtain ⟨raw, -, rfl⟩ := map_eq_ok.mp hs
  exact raw.inRange_settle

/-- What an accepted message is read as is within the limits of the format and in range, and it has
bytes, as many as the message, that are read as the same. -/
theorem encode_of_decode {bytes : List UInt8} {spans : List Span}
    (h : (decode bytes).value = .ok spans) :
    spans.length ≤ 4096 ∧ (∀ s ∈ spans, s.Fits ∧ s.InRange) ∧
      ∃ again, encode spans = .ok again ∧ again.length = bytes.length ∧
        decode again = pure (.ok spans) := by
  have hread : message.read bytes = .ok spans [] := by
    apply Field.read_eq_ok_of_decode
    unfold decode at h
    cases hdecode : message.decode bytes with
    | error e =>
      rw [hdecode] at h
      cases h
    | ok found =>
      rw [hdecode] at h
      cases h
      rfl
  have hrange := forall_mem_inRange hread
  have hmeasures : message.Measures := measures_span.list (by decide)
  obtain ⟨n, hsize, hlength⟩ := hmeasures bytes spans [] hread
  obtain ⟨again, hagain, rfl⟩ := Written.size_eq_ok.mp hsize
  have htakes : message.Takes spans ↔ _ := Field.takes_list (by decide)
  obtain ⟨hcount, hspans⟩ := htakes.mp ⟨again, hagain⟩
  have hreturns : message.Returns spans :=
    Field.Returns.list (by decide) fun s hs =>
      (returns_spanField _).map (hrange s hs).settle_toRaw
  refine ⟨hcount, fun s hs => ⟨takes_span.mp (hspans s hs), hrange s hs⟩, again, hagain, hlength, ?_⟩
  rw [decode, Field.decode_eq_ok (hreturns again hagain)]

/-- A message of one span, whose typewriter has no number for its speed and an odd byte for its
switch. -/
def unsettled : List UInt8 :=
  [0, 0, 0, 1, 0, 0, 0, 0x10, 0, 0, 0, 1, 0x61, 0x7F, 0xC0, 0, 0, 7, 0, 0, 0, 0]

/-- What the message is read as. -/
def settled : List Span := [{ content := "a", typewriter := some ⟨hundredth, true⟩ }]

theorem encode_of_decode_unsettled : (decode unsettled).value = .ok settled ∧
    ∃ again, encode settled = .ok again ∧ again.length = unsettled.length ∧ again ≠ unsettled ∧
      decode again = pure (.ok settled) := by
  have hdecode : (decode unsettled).value = .ok settled := by decide
  obtain ⟨-, -, again, hencode, hlength, hagain⟩ := encode_of_decode hdecode
  refine ⟨hdecode, again, hencode, hlength, ?_, hagain⟩
  rintro rfl
  exact absurd hencode (by decide)

end Wire

end KineticText
