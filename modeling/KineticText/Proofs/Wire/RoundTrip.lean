import KineticText.Proofs.Wire.Laws
import KineticText.Proofs.Wire.Mask
import KineticText.Wire.Message

/-! Messages survive transport.  A span has bytes exactly when it is within the limits of the
format, and reading gives back all of it but what it brings into range; what is in range already
comes back unchanged.  Main statement: `decode` undoes `encode`, and `encode` fails only on spans
that are too large. -/

namespace KineticText

/-- The float is finite and lies from `lo` to `hi`. -/
def Single.IsWithin (x lo hi : Single) : Prop := x.isFinite = true ∧ x.between lo hi = true

instance (x lo hi : Single) : Decidable (x.IsWithin lo hi) :=
  inferInstanceAs (Decidable (_ ∧ _))

/-- Known flags are all kept. -/
theorem StyleFlags.ofBits_bits {flags : StyleFlags} (h : all.contains flags = true) :
    ofBits flags.bits = flags := by
  rw [contains, beq_iff_eq] at h
  rw [ofBits, UInt8.and_comm, h]

namespace Wire

/-! ### Spans in transit -/

/-- The span is within the limits of the format. -/
structure SpanOf.Fits {Switch : Type} (s : SpanOf Switch) : Prop where
  content : (Text.utf8 s.content).length ≤ 65536
  font : ∀ font ∈ s.font, (Text.utf8 font).length ≤ 256
  gradient : ∀ colors ∈ s.gradient, colors.length ≤ 256
  backgroundGradient : ∀ colors ∈ s.backgroundGradient, colors.length ≤ 256
  item : ∀ item ∈ s.item, (Text.utf8 item.id).length ≤ 256 ∧ item.count ≤ 64
  entity : ∀ entity ∈ s.entity, (Text.utf8 entity).length ≤ 256
  tags : s.tags.length ≤ 256 ∧ ∀ tag ∈ s.tags, (Text.utf8 tag).length ≤ 512

theorem takes_idField {name : String} {s : String} :
    (idField name).Takes s ↔ (Text.utf8 s).length ≤ 256 := Field.takes_text (by decide)

theorem takes_colorsField {name : String} {colors : List Color} :
    (colorsField name).Takes colors ↔ colors.length ≤ 256 := by
  have h : (colorsField name).Takes colors ↔ _ := Field.takes_list (by decide)
  exact h.trans (and_iff_left fun _ _ => Field.takes_word _)

theorem takes_itemField {item : Item} :
    itemField.Takes item ↔ (Text.utf8 item.id).length ≤ 256 ∧ item.count ≤ 64 := by
  rw [itemField, Field.takes_map, Field.takes_pair, takes_idField, Field.takes_count (by decide)]
  rfl

theorem takes_tagsField {tags : List String} :
    tagsField.Takes tags ↔ tags.length ≤ 256 ∧ ∀ tag ∈ tags, (Text.utf8 tag).length ≤ 512 := by
  simp only [tagsField, Field.takes_list (show maxTags < 0x80000000 by decide),
    Field.takes_text (show maxTagBytes < 0x80000000 by decide)]
  rfl

theorem takes_bodyField {mask : UInt32} {s : RawSpan} : (bodyField mask).Takes s ↔ s.Fits := by
  have hcontent : contentField.Takes s.content ↔ (Text.utf8 s.content).length ≤ 65536 :=
    Field.takes_text (by decide)
  simp only [bodyField, Field.takes_map, Field.takes_pair, Field.takes_optional, hcontent,
    takes_idField, takes_colorsField, takes_itemField, takes_tagsField]
  simp only [styleField, colorField, typewriterField, shakeField, scrambleField, placementField,
    Field.takes_map, Field.takes_pair, Field.takes_byte, Field.takes_word, Field.takes_single,
    Field.takes_choice, and_self, implies_true, true_and]
  constructor
  · rintro ⟨content, font, gradient, backgroundGradient, item, entity, tags⟩
    exact ⟨content, font, gradient, backgroundGradient, item, entity, tags⟩
  · rintro ⟨content, font, gradient, backgroundGradient, item, entity, tags⟩
    exact ⟨content, font, gradient, backgroundGradient, item, entity, tags⟩

theorem takes_spanField {s : RawSpan} : spanField.Takes s ↔ s.Fits := by
  have hbody : (bodyField s.presence).Takes s ↔ s.Fits := takes_bodyField
  rw [← hbody]
  exact exists_append_eq_ok.trans (and_iff_right (Field.takes_word s.presence))

theorem returns_idField {name : String} (s : String) : (idField name).Returns s :=
  Field.returns_text (by decide) s

theorem returns_colorField (c : Color) : colorField.Returns c := (Field.returns_word _).map rfl

theorem returns_colorsField {name : String} (colors : List Color) :
    (colorsField name).Returns colors :=
  Field.Returns.list (by decide) fun c _ => returns_colorField c

theorem returns_typewriterField (t : Typewriter UInt8) : typewriterField.Returns t :=
  ((Field.returns_single _).pair (Field.returns_byte _)).map rfl

theorem returns_shakeField (s : Shake) : shakeField.Returns s := by
  have hmotion : (Field.choice "shake.kind").Returns s.motion :=
    Field.returns_choice (by cases s.motion <;> decide) (by decide)
  exact (hmotion.pair ((Field.returns_single _).pair
    ((Field.returns_single _).pair (Field.returns_single _)))).map rfl

theorem returns_scrambleField (s : Scramble) : scrambleField.Returns s := by
  have hmode : (Field.choice "obfuscate.mode").Returns s.mode :=
    Field.returns_choice (by cases s.mode <;> decide) (by decide)
  exact (hmode.pair (Field.returns_single _)).map rfl

theorem returns_placementField (p : Placement) : placementField.Returns p :=
  ((Field.returns_single _).pair ((Field.returns_single _).pair (Field.returns_single _))).map rfl

theorem returns_itemField (item : Item) : itemField.Returns item :=
  ((returns_idField item.id).pair (Field.returns_count (by decide) item.count)).map rfl

theorem returns_tagsField (tags : List String) : tagsField.Returns tags :=
  Field.Returns.list (by decide) fun tag _ => Field.returns_text (by decide) tag

theorem returns_bodyField (s : RawSpan) : (bodyField s.presence).Returns s := by
  have hbit := s.hasBit_presence
  refine Field.Returns.map ?_ rfl
  refine (Field.returns_text (by decide) s.content).pair <|
    (Field.Returns.optional (hbit 0 (by decide)) fun _ _ => (Field.returns_byte _).map rfl).pair <|
    (Field.Returns.optional (hbit 1 (by decide)) fun c _ => returns_colorField c).pair <|
    (Field.Returns.optional (hbit 2 (by decide)) fun font _ => returns_idField font).pair <|
    (Field.Returns.optional (hbit 3 (by decide)) fun cs _ => returns_colorsField cs).pair <|
    (Field.Returns.optional (hbit 4 (by decide)) fun t _ => returns_typewriterField t).pair <|
    (Field.Returns.optional (hbit 5 (by decide)) fun e _ => returns_shakeField e).pair <|
    (Field.Returns.optional (hbit 6 (by decide)) fun e _ => returns_shakeField e).pair <|
    (Field.Returns.optional (hbit 7 (by decide)) fun e _ => returns_scrambleField e).pair <|
    (Field.Returns.optional (hbit 8 (by decide)) fun c _ => returns_colorField c).pair <|
    (Field.Returns.optional (hbit 9 (by decide)) fun cs _ => returns_colorsField cs).pair <|
    (Field.Returns.optional (hbit 10 (by decide)) fun p _ => returns_placementField p).pair <|
    (Field.Returns.optional (hbit 11 (by decide)) fun item _ => returns_itemField item).pair <|
    (Field.Returns.optional (hbit 12 (by decide)) fun id _ => returns_idField id).pair <|
    returns_tagsField s.tags

theorem returns_spanField (s : RawSpan) : spanField.Returns s := by
  intro bytes hbytes
  obtain ⟨mask, body, hmask, hbody, rfl⟩ := append_eq_ok.mp hbytes
  refine (Field.returns_word _ mask hmask).bind ?_
  rw [if_pos s.presence_lt]
  exact returns_bodyField s body hbody

/-! ### Scalars in range -/

namespace SpanOf

/-- Every float of the span is finite and in its range, and every style flag is a known one. -/
structure InRange (s : Span) : Prop where
  style : ∀ flags ∈ s.style, StyleFlags.all.contains flags = true
  typewriter : ∀ t ∈ s.typewriter, t.speed.IsWithin hundredth hundred
  shake : ∀ e ∈ s.shake, e.amplitude.IsWithin zero sixtyFour ∧ e.speed.IsWithin zero hundred ∧
    e.wavelength.IsWithin hundredth thousand
  charShake : ∀ e ∈ s.charShake, e.amplitude.IsWithin zero sixtyFour ∧
    e.speed.IsWithin zero hundred ∧ e.wavelength.IsWithin hundredth thousand
  scramble : ∀ e ∈ s.scramble, e.speed.IsWithin one sixtyThousand
  placement : ∀ p ∈ s.placement, p.x.IsWithin minusTenThousand tenThousand ∧
    p.y.IsWithin minusTenThousand tenThousand ∧ p.scale.IsWithin hundredth hundred

theorem fits_toRaw {s : Span} : s.toRaw.Fits ↔ s.Fits :=
  ⟨fun ⟨a, b, c, d, e, f, g⟩ => ⟨a, b, c, d, e, f, g⟩,
    fun ⟨a, b, c, d, e, f, g⟩ => ⟨a, b, c, d, e, f, g⟩⟩

end SpanOf

theorem Shake.settle_eq_self {e : Shake} (hamplitude : e.amplitude.IsWithin zero sixtyFour)
    (hspeed : e.speed.IsWithin zero hundred)
    (hwavelength : e.wavelength.IsWithin hundredth thousand) : e.settle = e := by
  rw [settle, Single.clamp_eq_self hamplitude.1 hamplitude.2,
    Single.clamp_eq_self hspeed.1 hspeed.2, Single.clamp_eq_self hwavelength.1 hwavelength.2]

theorem map_eq_self {α : Type} {a : Option α} {f : α → α} (h : ∀ x ∈ a, f x = x) :
    a.map f = a := by
  cases a with
  | none => rfl
  | some x => rw [Option.map_some, h x rfl]

/-- What is in range means itself when it arrives. -/
theorem SpanOf.InRange.settle_toRaw {s : Span} (h : s.InRange) : s.toRaw.settle = s := by
  have hstyle : s.style.map (fun flags => StyleFlags.ofBits flags.bits) = s.style :=
    map_eq_self fun flags hflags => StyleFlags.ofBits_bits (h.style flags hflags)
  have htypewriter : (s.typewriter.map fun t => (⟨t.speed, if t.center then 1 else 0⟩ :
      Typewriter UInt8)).map Typewriter.settle = s.typewriter := by
    rw [Option.map_map]
    refine map_eq_self fun t ht => ?_
    obtain ⟨hfinite, hbetween⟩ := h.typewriter t ht
    obtain ⟨speed, center⟩ := t
    simp only [Function.comp_apply, Typewriter.settle, Single.clamp_eq_self hfinite hbetween]
    cases center <;> rfl
  have hshake : s.shake.map Shake.settle = s.shake := map_eq_self fun e he => by
    obtain ⟨hamplitude, hspeed, hwavelength⟩ := h.shake e he
    exact Shake.settle_eq_self hamplitude hspeed hwavelength
  have hcharShake : s.charShake.map Shake.settle = s.charShake := map_eq_self fun e he => by
    obtain ⟨hamplitude, hspeed, hwavelength⟩ := h.charShake e he
    exact Shake.settle_eq_self hamplitude hspeed hwavelength
  have hscramble : s.scramble.map Scramble.settle = s.scramble := map_eq_self fun e he => by
    obtain ⟨hfinite, hbetween⟩ := h.scramble e he
    rw [Scramble.settle, Single.clamp_eq_self hfinite hbetween]
  have hplacement : s.placement.map Placement.settle = s.placement := map_eq_self fun p hp => by
    obtain ⟨hx, hy, hscale⟩ := h.placement p hp
    rw [Placement.settle, Single.clamp_eq_self hx.1 hx.2, Single.clamp_eq_self hy.1 hy.2,
      Single.clamp_eq_self hscale.1 hscale.2]
  simp only [settle, toRaw, hstyle, htypewriter, hshake, hcharShake, hscramble, hplacement]

/-! ### Messages -/

theorem takes_span {s : Span} : span.Takes s ↔ s.Fits :=
  takes_spanField.trans SpanOf.fits_toRaw

theorem Field.decode_eq_ok {α : Type} {f : Field α} {a : α} {bytes : List UInt8}
    (h : Reads f.read bytes a) : f.decode bytes = .ok a := by
  have hread : f.read bytes = .ok a [] := by
    have hempty := h []
    rwa [List.append_nil] at hempty
  have hall : (do let a ← f.read; finish; return a : Reader α) bytes = .ok a [] := by
    show EStateM.bind f.read _ bytes = _
    rw [EStateM.bind, hread]
    rfl
  rw [decode, hall]

/-- A message has bytes exactly when it and its spans are within the limits of the format. A message
whose scalars are all in range is what its bytes are read as. -/
theorem decode_encode (spans : List Span) :
    ((∃ bytes, encode spans = .ok bytes) ↔ spans.length ≤ 4096 ∧ ∀ s ∈ spans, s.Fits) ∧
      ((∀ s ∈ spans, s.InRange) → ∀ bytes, encode spans = .ok bytes →
        decode bytes = pure (.ok spans)) := by
  constructor
  · have h : message.Takes spans ↔ _ := Field.takes_list (by decide)
    simp only [takes_span] at h
    exact h
  · intro hrange bytes hbytes
    have hreturns : message.Returns spans :=
      Field.Returns.list (by decide) fun s hs =>
        (returns_spanField _).map (hrange s hs).settle_toRaw
    rw [decode, Field.decode_eq_ok (hreturns bytes hbytes)]

/-- A span with all of its fields, at the ends of their ranges. -/
def everyField : Span where
  content := "héllo"
  style := some .all
  color := some .white
  font := some "minecraft:uniform"
  gradient := some [.white, ⟨0⟩]
  typewriter := some ⟨hundredth, true⟩
  shake := some ⟨.circle, zero, hundred, thousand⟩
  charShake := some ⟨.wave, sixtyFour, zero, hundredth⟩
  scramble := some ⟨.hide, sixtyThousand⟩
  background := some ⟨0x80000000⟩
  backgroundGradient := some []
  placement := some ⟨minusTenThousand, tenThousand, one⟩
  item := some ⟨"minecraft:apple", 64⟩
  entity := some "minecraft:pig"
  tags := ["shake", "gradient"]

theorem decode_encode_everyField : everyField.InRange ∧ everyField.Fits ∧
    ∃ bytes, encode [everyField, everyField] = .ok bytes ∧
      decode bytes = pure (.ok [everyField, everyField]) := by
  have hrange : everyField.InRange := by
    constructor <;> intro _ h <;> cases h <;> decide
  have hfits : everyField.Fits :=
    { content := by decide
      font := by rintro _ ⟨⟩; decide
      gradient := by rintro _ ⟨⟩; decide
      backgroundGradient := by rintro _ ⟨⟩; decide
      item := by rintro _ ⟨⟩; decide
      entity := by rintro _ ⟨⟩; decide
      tags := by decide }
  obtain ⟨htakes, hreturns⟩ := decode_encode [everyField, everyField]
  obtain ⟨bytes, hbytes⟩ := htakes.mpr ⟨by decide, by simpa using hfits⟩
  exact ⟨hrange, hfits, bytes, hbytes, hreturns (by simpa using hrange) bytes hbytes⟩

end Wire

end KineticText
