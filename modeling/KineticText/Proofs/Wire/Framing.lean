import KineticText.Proofs.Wire.Canonical

/-! Where messages end.  What a reader takes ends by itself: nothing after it is looked at, and
anything shorter runs out inside a field.  `take` reads so, binding readers keeps it, and every
field is bound from `take`.  Main statement: a part of a message ends inside a field, and bytes
after a message are counted as left over. -/

namespace KineticText.Wire

variable {α β : Type}

/-- The bytes end inside a field. -/
def RunsOut (r : Reader α) (bytes : List UInt8) : Prop :=
  ∃ needed remaining rest, remaining < needed ∧
    r bytes = .error (.endOfInput needed remaining) rest

/-- What the reader takes is read alike whatever follows it, and runs out when it is cut short. -/
def Delimits (r : Reader α) : Prop :=
  ∀ bytes a rest, r bytes = .ok a rest → ∃ taken, bytes = taken ++ rest ∧ Reads r taken a ∧
    ∀ cut more, taken = cut ++ more → more ≠ [] → RunsOut r cut

theorem RunsOut.bind {r : Reader α} {bytes : List UInt8} (h : RunsOut r bytes)
    (next : α → Reader β) : RunsOut (r >>= next) bytes := by
  obtain ⟨needed, remaining, rest, hlt, hr⟩ := h
  refine ⟨needed, remaining, rest, hlt, ?_⟩
  show EStateM.bind r next bytes = _
  rw [EStateM.bind, hr]

theorem Reads.runsOut_bind {r : Reader α} {next : α → Reader β} {taken bytes : List UInt8} {a : α}
    (hr : Reads r taken a) (hnext : RunsOut (next a) bytes) :
    RunsOut (r >>= next) (taken ++ bytes) := by
  obtain ⟨needed, remaining, rest, hlt, hn⟩ := hnext
  refine ⟨needed, remaining, rest, hlt, ?_⟩
  show EStateM.bind r next (taken ++ bytes) = _
  rw [EStateM.bind, hr bytes]
  exact hn

namespace Delimits

theorem pure (a : α) : Delimits (Pure.pure a : Reader α) := by
  intro bytes b rest h
  obtain ⟨rfl, rfl⟩ := pure_eq_ok.mp h
  refine ⟨[], rfl, Reads.pure a, fun cut more hcut hmore => ?_⟩
  exact absurd (List.nil_eq_append_iff.mp hcut).2 hmore

theorem throw (e : DecodeError) : Delimits (throw e : Reader α) :=
  fun _ _ _ h => nomatch h

theorem take (n : Nat) : Delimits (Wire.take n) := by
  intro bytes front rest h
  obtain ⟨hlength, -⟩ := take_eq_ok h
  have hbytes : bytes = front ++ rest := by
    unfold Wire.take at h
    by_cases hn : (bytes.take n).length = n
    · rw [if_pos hn] at h
      cases h
      exact (List.take_append_drop n bytes).symm
    · rw [if_neg hn] at h
      cases h
  subst hlength
  refine ⟨front, hbytes, Reads.take front, ?_⟩
  rintro cut more rfl hmore
  have hpos := List.length_pos_iff.mpr hmore
  have hshort : ¬ (cut.take (cut ++ more).length).length = (cut ++ more).length := by
    rw [List.length_take, List.length_append]
    omega
  refine ⟨(cut ++ more).length, cut.length, cut, by rw [List.length_append]; omega, ?_⟩
  exact if_neg hshort

theorem bind {r : Reader α} {next : α → Reader β} (hr : Delimits r)
    (hnext : ∀ a, Delimits (next a)) : Delimits (r >>= next) := by
  intro bytes b rest h
  obtain ⟨a, mid, ha, hb⟩ := bind_eq_ok.mp h
  obtain ⟨front, rfl, hfront, hcutFront⟩ := hr bytes a mid ha
  obtain ⟨back, rfl, hback, hcutBack⟩ := hnext a mid b rest hb
  refine ⟨front ++ back, (List.append_assoc ..).symm, hfront.bind hback, ?_⟩
  intro cut more hcut hmore
  obtain ⟨cut', rfl, hback'⟩ | ⟨more', rfl, hmore'⟩ := List.append_eq_append_iff.mp hcut
  · exact hfront.runsOut_bind (hcutBack cut' more hback' hmore)
  · -- The cut lies in what `r` takes; at its very end it is `next` that has nothing to read.
    by_cases hend : more' = []
    · subst hend
      rw [List.append_nil] at hfront
      rw [List.nil_append] at hmore'
      have hnone := hfront.runsOut_bind (hcutBack [] back rfl (hmore' ▸ hmore))
      rwa [List.append_nil] at hnone
    · exact (hcutFront cut more' rfl hend).bind next

theorem map {r : Reader α} (hr : Delimits r) (f : α → β) : Delimits (f <$> r) := by
  rw [← bind_pure_comp]
  exact hr.bind fun a => pure (f a)

/-! ### Fields -/

theorem byte : Delimits Field.byte.read := by
  refine (take 1).bind fun bytes => ?_
  split
  · exact pure _
  · exact pure _

theorem word : Delimits Field.word.read := (take 4).map _

theorem single : Delimits Field.single.read := word.map _

theorem pair {f : Field α} {g : Field β} (hf : Delimits f.read) (hg : Delimits g.read) :
    Delimits (f.pair g).read :=
  hf.bind fun _ => hg.bind fun _ => pure _

theorem optional {f : Field α} (hf : Delimits f.read) (present : Bool) :
    Delimits (f.optional present).read := by
  cases present with
  | false => exact pure none
  | true => exact hf.map some

theorem choice {name : String} [Choice α] [BEq α] :
    Delimits (Field.choice (α := α) name).read := by
  refine byte.bind fun code => ?_
  split
  · exact pure _
  · exact throw _

theorem count (name : String) (max : Nat) : Delimits (Field.count name max).read := by
  refine (word.map UInt32.toInt32).bind fun n => ?_
  show Delimits (if _ then _ else _)
  split
  · exact pure _
  · exact throw _

theorem text (name : String) (max : Nat) : Delimits (Field.text name max).read := by
  refine (count name max).bind fun n => (take n).bind fun bytes => ?_
  split
  · exact pure _
  · exact throw _

theorem readMany {f : Field α} (hf : Delimits f.read) (n : Nat) : Delimits (f.readMany n) := by
  induction n with
  | zero => exact pure []
  | succ n ih => exact hf.bind fun _ => ih.bind fun _ => pure _

theorem list {f : Field α} (hf : Delimits f.read) (name : String) (max : Nat) :
    Delimits (Field.list name max f).read :=
  (count name max).bind fun n => hf.readMany n

/-! ### Spans -/

theorem idField (name : String) : Delimits (Wire.idField name).read := text name maxIdBytes

theorem colorField : Delimits Wire.colorField.read := word.map _

theorem colorsField (name : String) : Delimits (Wire.colorsField name).read :=
  colorField.list name maxColors

theorem typewriterField : Delimits Wire.typewriterField.read := (single.pair byte).map _

theorem shakeField : Delimits Wire.shakeField.read :=
  (choice.pair (single.pair (single.pair single))).map _

theorem scrambleField : Delimits Wire.scrambleField.read := (choice.pair single).map _

theorem placementField : Delimits Wire.placementField.read :=
  (single.pair (single.pair single)).map _

theorem itemField : Delimits Wire.itemField.read :=
  ((idField "item.id").pair (count "item.count" maxItemCount)).map _

theorem tagsField : Delimits Wire.tagsField.read := (text "tag" maxTagBytes).list "tags" maxTags

theorem bodyField (mask : UInt32) : Delimits (Wire.bodyField mask).read := by
  refine map ?_ _
  exact (text "content" maxContentBytes).pair <|
    ((byte.map _).optional _).pair <|
    (colorField.optional _).pair <|
    ((idField "font").optional _).pair <|
    ((colorsField "gradient").optional _).pair <|
    (typewriterField.optional _).pair <|
    (shakeField.optional _).pair <|
    (shakeField.optional _).pair <|
    (scrambleField.optional _).pair <|
    (colorField.optional _).pair <|
    ((colorsField "background_gradient").optional _).pair <|
    (placementField.optional _).pair <|
    (itemField.optional _).pair <|
    ((idField "entity").optional _).pair tagsField

theorem spanField : Delimits Wire.spanField.read := by
  refine word.bind fun mask => ?_
  show Delimits (if mask < 1 <<< optionalFields then _ else _)
  split
  · exact bodyField mask
  · exact throw _

theorem span : Delimits Wire.span.read := spanField.map _

theorem message : Delimits Wire.message.read := span.list "spans" maxSpans

end Delimits

/-! ### Messages -/

theorem value_decode (bytes : List UInt8) : (decode bytes).value = message.decode bytes := by
  unfold decode
  cases message.decode bytes <;> rfl

theorem read_of_value_decode {bytes : List UInt8} {spans : List Span}
    (h : (decode bytes).value = .ok spans) : message.read bytes = .ok spans [] :=
  Field.read_eq_ok_of_decode ((value_decode bytes).symm.trans h)

theorem Field.decode_of_runsOut {f : Field α} {bytes : List UInt8} (h : RunsOut f.read bytes) :
    ∃ needed remaining, remaining < needed ∧
      f.decode bytes = .error (.endOfInput needed remaining) := by
  obtain ⟨needed, remaining, rest, hlt, hread⟩ := h.bind fun a => do
    finish
    return a
  refine ⟨needed, remaining, hlt, ?_⟩
  rw [decode, hread]

theorem Field.decode_append {f : Field α} {a : α} {bytes more : List UInt8}
    (h : Reads f.read bytes a) (hmore : more ≠ []) :
    f.decode (bytes ++ more) = .error (.trailingBytes more.length) := by
  have hfinish : finish more = .error (.trailingBytes more.length) more :=
    if_neg (by rwa [List.isEmpty_iff])
  have hall : (do let a ← f.read; finish; return a : Reader α) (bytes ++ more) =
      .error (.trailingBytes more.length) more := by
    show EStateM.bind f.read _ (bytes ++ more) = _
    rw [EStateM.bind, h more]
    show EStateM.bind finish _ more = _
    rw [EStateM.bind, hfinish]
  rw [decode, hall]

/-- Of an accepted message every part that leaves some of its end away ends inside a field, and
every continuation is refused for the number of bytes that are left over. -/
theorem decode_cut_and_continued {bytes : List UInt8} {spans : List Span}
    (h : (decode bytes).value = .ok spans) :
    (∀ cut, cut <+: bytes → cut ≠ bytes → ∃ needed remaining, remaining < needed ∧
      (decode cut).value = .error (.endOfInput needed remaining)) ∧
      ∀ more, more ≠ [] →
        (decode (bytes ++ more)).value = .error (.trailingBytes more.length) := by
  obtain ⟨taken, htaken, hreads, hcut⟩ := Delimits.message bytes spans [] (read_of_value_decode h)
  rw [List.append_nil] at htaken
  subst htaken
  simp only [value_decode]
  constructor
  · rintro cut ⟨more, rfl⟩ hne
    have hmore : more ≠ [] := by
      rintro rfl
      exact hne (List.append_nil cut).symm
    exact Field.decode_of_runsOut (hcut cut more rfl hmore)
  · intro more hmore
    exact Field.decode_append hreads hmore

/-- A message of one span with a font, a color gradient and a tag. -/
def banner : List UInt8 :=
  [0, 0, 0, 1, 0, 0, 0, 0x0C, 0, 0, 0, 2, 0xC3, 0xA9, 0, 0, 0, 1, 0x66,
    0, 0, 0, 1, 0xFF, 0, 0, 0, 0, 0, 0, 1, 0, 0, 0, 1, 0x62]

theorem decode_cut_and_continued_banner :
    (decode banner).value = .ok
        [{ content := "é", font := some "f", gradient := some [⟨0xFF000000⟩], tags := ["b"] }] ∧
      (∃ needed remaining, remaining < needed ∧
        (decode (banner.take 13)).value = .error (.endOfInput needed remaining)) ∧
      (decode (banner ++ banner)).value = .error (.trailingBytes 36) := by
  have hdecode : (decode banner).value = .ok
      [{ content := "é", font := some "f", gradient := some [⟨0xFF000000⟩], tags := ["b"] }] := by
    decide
  obtain ⟨hcut, hcontinued⟩ := decode_cut_and_continued hdecode
  refine ⟨hdecode, hcut _ (List.take_prefix 13 banner) (by decide), ?_⟩
  exact hcontinued banner (by decide)

end KineticText.Wire
