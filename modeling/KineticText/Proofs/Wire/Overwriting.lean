import KineticText.Proofs.Wire.Framing

/-! Scalars in transit.  A number, a color, a style byte or a switch takes the same bytes whatever
its value, and no value is refused.  A reader tolerates other bytes in the places of scalars when it
then takes as many bytes and gives the same up to those scalars; composed fields do when their parts
do.  Main statement: a message with other bytes in the places of some scalars is read as the same
spans but for these scalars. -/

namespace KineticText.Wire

variable {α β γ δ : Type}

/-! ### Bytes with some overwritten -/

/-- The second bytes are the first ones with others in some of the marked places. -/
inductive Overwrites : List Bool → List UInt8 → List UInt8 → Prop
  | nil : Overwrites [] [] []
  | keep {marks : List Bool} {old new : List UInt8} (b : UInt8) (h : Overwrites marks old new) :
    Overwrites (false :: marks) (b :: old) (b :: new)
  | change {marks : List Bool} {old new : List UInt8} (b c : UInt8)
    (h : Overwrites marks old new) : Overwrites (true :: marks) (b :: old) (c :: new)

instance decidableOverwrites : (marks : List Bool) → (old new : List UInt8) →
    Decidable (Overwrites marks old new)
  | [], [], [] => isTrue .nil
  | false :: marks, b :: old, c :: new =>
    haveI := decidableOverwrites marks old new
    decidable_of_iff (b = c ∧ Overwrites marks old new)
      ⟨fun ⟨hbyte, h⟩ => hbyte ▸ .keep b h, fun | .keep _ h => ⟨rfl, h⟩⟩
  | true :: marks, b :: old, c :: new =>
    haveI := decidableOverwrites marks old new
    decidable_of_iff (Overwrites marks old new) ⟨.change b c, fun | .change _ _ h => h⟩
  | [], [], _ :: _ | [], _ :: _, _ | _ :: _, [], _ | _ :: _, _ :: _, [] => isFalse nofun

/-- `n` places without a mark. -/
def fixed (n : Nat) : List Bool := List.replicate n false

/-- The marks of a value if there is one. -/
def marksIfAny (marks : α → List Bool) : Option α → List Bool
  | none => []
  | some a => marks a

/-- The marks of the values of a list, which may depend on their places. -/
def marksOfAll (marks : Nat → α → List Bool) (as : List α) : List Bool :=
  (as.mapIdx marks).flatten

namespace Overwrites

variable {marks : List Bool} {old new : List UInt8}

theorem length_eq (h : Overwrites marks old new) : new.length = old.length := by
  induction h with
  | nil => rfl
  | keep b h ih => exact congrArg (· + 1) ih
  | change b c h ih => exact congrArg (· + 1) ih

theorem eq_of_fixed {n : Nat} (h : Overwrites (fixed n) old new) : new = old := by
  generalize hmarks : fixed n = marks at h
  induction h generalizing n with
  | nil => rfl
  | keep b h ih =>
    cases n with
    | zero => cases hmarks
    | succ n => rw [ih (List.cons.inj hmarks).2]
  | change b c h ih =>
    cases n with
    | zero => cases hmarks
    | succ n => cases (List.cons.inj hmarks).1

theorem split {marks' : List Bool} {old' : List UInt8} (hlength : marks.length = old.length)
    (h : Overwrites (marks ++ marks') (old ++ old') new) :
    ∃ front back, new = front ++ back ∧ Overwrites marks old front ∧
      Overwrites marks' old' back := by
  induction marks generalizing old new with
  | nil =>
    obtain rfl := List.eq_nil_of_length_eq_zero hlength.symm
    exact ⟨[], new, rfl, .nil, h⟩
  | cons mark marks ih =>
    cases old with
    | nil => cases hlength
    | cons b old =>
      have htail : marks.length = old.length := Nat.succ.inj hlength
      cases h with
      | keep _ h =>
        obtain ⟨front, back, rfl, hfront, hback⟩ := ih htail h
        exact ⟨b :: front, back, rfl, .keep b hfront, hback⟩
      | change _ c h =>
        obtain ⟨front, back, rfl, hfront, hback⟩ := ih htail h
        exact ⟨c :: front, back, rfl, .change b c hfront, hback⟩

end Overwrites

/-! ### Readers that tolerate other bytes -/

/-- With other bytes in the marked places the reader takes as many bytes and gives the same, up to
what `strip` leaves out. -/
def Tolerates (r : Reader α) (marks : α → List Bool) (strip : α → β) : Prop :=
  ∀ bytes a rest, r bytes = .ok a rest → ∃ taken, bytes = taken ++ rest ∧
    (marks a).length = taken.length ∧ ∀ taken', Overwrites (marks a) taken taken' →
      ∃ a', Reads r taken' a' ∧ strip a' = strip a

namespace Tolerates

theorem throw (e : DecodeError) (marks : α → List Bool) (strip : α → β) :
    Tolerates (throw e) marks strip := fun _ _ _ h => nomatch h

theorem pure {a : α} {marks : α → List Bool} (h : marks a = []) (strip : α → β) :
    Tolerates (Pure.pure a) marks strip := by
  intro bytes b rest hread
  obtain ⟨rfl, rfl⟩ := pure_eq_ok.mp hread
  rw [h]
  refine ⟨[], rfl, rfl, ?_⟩
  rintro taken' ⟨⟩
  exact ⟨a, Reads.pure a, rfl⟩

/-- What takes a fixed number of bytes tolerates nothing in their place. -/
theorem of_fixed {r : Reader α} {width : α → Nat} (hr : Delimits r)
    (hwidth : ∀ bytes a rest, r bytes = .ok a rest → width a + rest.length = bytes.length) :
    Tolerates r (fun a => fixed (width a)) id := by
  intro bytes a rest h
  have hlength := hwidth bytes a rest h
  obtain ⟨taken, rfl, hreads, -⟩ := hr bytes a rest h
  refine ⟨taken, rfl, ?_, fun taken' hover => ?_⟩
  · show (List.replicate (width a) false).length = taken.length
    rw [List.length_append] at hlength
    rw [List.length_replicate]
    omega
  · rw [hover.eq_of_fixed]
    exact ⟨a, hreads, rfl⟩

theorem map {r : Reader α} {marks : α → List Bool} {strip : α → β} (h : Tolerates r marks strip)
    {f : α → γ} {marks' : γ → List Bool} {strip' : γ → δ} (change : β → δ)
    (hmarks : ∀ a, marks' (f a) = marks a) (hstrip : ∀ a, strip' (f a) = change (strip a)) :
    Tolerates (f <$> r) marks' strip' := by
  intro bytes c rest hread
  obtain ⟨a, ha, rfl⟩ := map_eq_ok.mp hread
  obtain ⟨taken, rfl, hlength, hover⟩ := h bytes a rest ha
  refine ⟨taken, rfl, by rw [hmarks, hlength], fun taken' htaken' => ?_⟩
  rw [hmarks] at htaken'
  obtain ⟨a', hreads, hsame⟩ := hover taken' htaken'
  exact ⟨f a', hreads.map f, by rw [hstrip, hstrip, hsame]⟩

theorem map_comm {r : Reader α} {marks : α → List Bool} {strip : α → α}
    (h : Tolerates r marks strip) {f : α → γ} {marks' : γ → List Bool} {strip' : γ → γ}
    (hmarks : ∀ a, marks' (f a) = marks a) (hstrip : ∀ a, strip' (f a) = f (strip a)) :
    Tolerates (f <$> r) marks' strip' :=
  h.map f hmarks hstrip

/-- After `n` bytes that decide how to go on. -/
theorem after {r : Reader α} {next : α → Reader β} {n : Nat} {marks : β → List Bool}
    {strip : β → γ} (hr : Delimits r)
    (hwidth : ∀ bytes a rest, r bytes = .ok a rest → n + rest.length = bytes.length)
    (hnext : ∀ a, Tolerates (next a) marks strip) :
    Tolerates (r >>= next) (fun b => fixed n ++ marks b) strip := by
  intro bytes b rest h
  obtain ⟨a, mid, ha, hb⟩ := bind_eq_ok.mp h
  have hlength := hwidth bytes a mid ha
  obtain ⟨front, rfl, hfront, -⟩ := hr bytes a mid ha
  obtain ⟨back, rfl, hback, hover⟩ := hnext a mid b rest hb
  have hn : (fixed n).length = front.length := by
    simp only [List.length_append] at hlength
    rw [fixed, List.length_replicate]
    omega
  refine ⟨front ++ back, (List.append_assoc ..).symm, by simp [hn, hback], ?_⟩
  intro taken' htaken'
  obtain ⟨front', back', rfl, hfront', hback'⟩ := htaken'.split hn
  obtain ⟨b', hreads, hsame⟩ := hover back' hback'
  rw [hfront'.eq_of_fixed]
  exact ⟨b', hfront.bind hreads, hsame⟩

theorem pair {f : Field α} {g : Field β} {marks : α → List Bool} {marks' : β → List Bool}
    {strip : α → γ} {strip' : β → δ} (hf : Tolerates f.read marks strip)
    (hg : Tolerates g.read marks' strip') :
    Tolerates (f.pair g).read (fun ab => marks ab.1 ++ marks' ab.2) (Prod.map strip strip') := by
  intro bytes ab rest h
  obtain ⟨a, mid, ha, hnext⟩ := bind_eq_ok.mp h
  obtain ⟨b, last, hb, hab⟩ := bind_eq_ok.mp hnext
  obtain ⟨rfl, rfl⟩ := pure_eq_ok.mp hab
  obtain ⟨front, rfl, hfront, hoverFront⟩ := hf bytes a mid ha
  obtain ⟨back, rfl, hback, hoverBack⟩ := hg mid b last hb
  refine ⟨front ++ back, (List.append_assoc ..).symm, by simp [hfront, hback], ?_⟩
  intro taken' htaken'
  obtain ⟨front', back', rfl, hfront', hback'⟩ := htaken'.split hfront
  obtain ⟨a', ha', hsameFront⟩ := hoverFront front' hfront'
  obtain ⟨b', hb', hsameBack⟩ := hoverBack back' hback'
  refine ⟨(a', b'), ha'.bind (hb'.bind_pure rfl), ?_⟩
  rw [Prod.map_apply, Prod.map_apply, hsameFront, hsameBack]

theorem optional {f : Field α} {marks : α → List Bool} {strip : α → γ}
    (hf : Tolerates f.read marks strip) (present : Bool) :
    Tolerates (f.optional present).read (marksIfAny marks) (Option.map strip) := by
  cases present with
  | false => exact pure rfl _
  | true => exact hf.map some (fun _ => rfl) (fun _ => rfl)

theorem optional_id {f : Field α} {marks : α → List Bool} (hf : Tolerates f.read marks id)
    (present : Bool) : Tolerates (f.optional present).read (marksIfAny marks) id := by
  have h := hf.optional present
  rwa [Option.map_id] at h

theorem readMany {f : Field α} {marks : Nat → α → List Bool} {strip : Nat → α → γ}
    (hf : ∀ i, Tolerates f.read (marks i) (strip i)) (n : Nat) :
    Tolerates (f.readMany n) (marksOfAll marks) (List.mapIdx strip) := by
  induction n generalizing marks strip with
  | zero => exact pure rfl _
  | succ n ih =>
    intro bytes as rest h
    obtain ⟨a, mid, ha, hnext⟩ := bind_eq_ok.mp h
    obtain ⟨others, last, hothers, has⟩ := bind_eq_ok.mp hnext
    obtain ⟨rfl, rfl⟩ := pure_eq_ok.mp has
    obtain ⟨front, rfl, hfront, hoverFront⟩ := hf 0 bytes a mid ha
    obtain ⟨back, rfl, hback, hoverBack⟩ := ih (fun i => hf (i + 1)) mid others last hothers
    have hmarks : marksOfAll marks (a :: others) =
        marks 0 a ++ marksOfAll (fun i => marks (i + 1)) others := by
      rw [marksOfAll, List.mapIdx_cons, List.flatten_cons]
      rfl
    refine ⟨front ++ back, (List.append_assoc ..).symm, by rw [hmarks]; simp [hfront, hback], ?_⟩
    intro taken' htaken'
    rw [hmarks] at htaken'
    obtain ⟨front', back', rfl, hfront', hback'⟩ := htaken'.split hfront
    obtain ⟨a', ha', hsameFront⟩ := hoverFront front' hfront'
    obtain ⟨others', hothers', hsameBack⟩ := hoverBack back' hback'
    refine ⟨a' :: others', ha'.bind (hothers'.bind_pure rfl), ?_⟩
    rw [List.mapIdx_cons, List.mapIdx_cons, hsameFront]
    exact congrArg _ hsameBack

theorem list {f : Field α} {marks : Nat → α → List Bool} {strip : Nat → α → γ}
    (hf : ∀ i, Tolerates f.read (marks i) (strip i)) (name : String) (max : Nat) :
    Tolerates (Field.list name max f).read (fun as => fixed 4 ++ marksOfAll marks as)
      (List.mapIdx strip) :=
  after (Delimits.count name max) (fun _ _ _ h => (Field.count_le h).2)
    fun n => readMany hf n

/-! ### Values that any bytes stand for -/

theorem of_any {r : Reader α} {n : Nat} {z : α} (hr : Delimits r)
    (hwidth : ∀ bytes a rest, r bytes = .ok a rest → n + rest.length = bytes.length)
    (hany : ∀ bytes, bytes.length = n → ∃ a, Reads r bytes a) (p : Bool) :
    Tolerates r (fun _ => List.replicate n p) (fun a => if p then z else a) := by
  cases p with
  | false => exact of_fixed hr hwidth
  | true =>
    intro bytes a rest h
    have hlength := hwidth bytes a rest h
    obtain ⟨taken, rfl, -, -⟩ := hr bytes a rest h
    have htaken : taken.length = n := by
      rw [List.length_append] at hlength
      omega
    refine ⟨taken, rfl, by rw [List.length_replicate, htaken], fun taken' hover => ?_⟩
    obtain ⟨a', hreads⟩ := hany taken' (hover.length_eq.trans htaken)
    exact ⟨a', hreads, rfl⟩

theorem byte (p : Bool) :
    Tolerates Field.byte.read (fun _ => List.replicate 1 p) (fun b => if p then 0 else b) := by
  refine of_any Delimits.byte (fun bytes b rest h => ?_) (fun bytes h => ?_) p
  · obtain ⟨n, hn, hlength⟩ := Field.measures_byte bytes b rest h
    obtain rfl : 1 = n := Except.ok.inj hn
    exact hlength
  · obtain ⟨b, rfl⟩ := List.length_eq_one_iff.mp h
    exact ⟨b, Field.returns_byte b [b] rfl⟩

theorem word (p : Bool) :
    Tolerates Field.word.read (fun _ => List.replicate 4 p) (fun w => if p then 0 else w) := by
  refine of_any Delimits.word (fun bytes w rest h => ?_) (fun bytes h => ?_) p
  · obtain ⟨front, htake, -⟩ := map_eq_ok.mp h
    exact (take_eq_ok htake).2
  · have htake := Reads.take bytes
    rw [h] at htake
    exact ⟨bigEndian bytes, htake.map bigEndian⟩

theorem single (p : Bool) :
    Tolerates Field.single.read (fun _ => List.replicate 4 p) (fun x => if p then zero else x) := by
  refine (word p).map_comm (fun _ => rfl) fun w => ?_
  cases p <;> rfl

/-! ### Values that must stay -/

theorem choice {name : String} [Choice α] [BEq α] :
    Tolerates (Field.choice (α := α) name).read (fun _ => fixed 1) id := by
  refine of_fixed Delimits.choice fun bytes a rest h => ?_
  obtain ⟨n, hn, hlength⟩ := Field.measures_choice bytes a rest h
  obtain rfl : 1 = n := Except.ok.inj hn
  exact hlength

theorem count (name : String) (max : Nat) :
    Tolerates (Field.count name max).read (fun _ => fixed 4) id :=
  of_fixed (Delimits.count name max) fun _ _ _ h => (Field.count_le h).2

theorem text (name : String) (max : Nat) (hmax : max < 0x80000000) :
    Tolerates (Field.text name max).read (fun s => fixed (4 + (Text.utf8 s).length)) id := by
  refine of_fixed (Delimits.text name max) fun bytes s rest h => ?_
  obtain ⟨n, hn, hlength⟩ := Field.measures_text hmax bytes s rest h
  obtain ⟨written, hwritten, rfl⟩ := Written.size_eq_ok.mp hn
  have htakes : (Text.utf8 s).length ≤ max := (Field.takes_text hmax).mp ⟨written, hwritten⟩
  obtain ⟨front, back, hfront, hback, rfl⟩ :=
    (append_eq_ok (y := .ok (Text.utf8 s))).mp hwritten
  cases hback
  have hsize : (Field.count name max).size (Text.utf8 s).length = .ok front.length :=
    Written.size_eq_ok.mpr ⟨front, hfront, rfl⟩
  have hfront4 : 4 = front.length :=
    Except.ok.inj ((Field.size_count hmax htakes).symm.trans hsize)
  rw [List.length_append] at hlength
  omega

end Tolerates

/-! ### The scalars of a span -/

/-- The numbers of a shake. -/
inductive ShakeNumber
  | amplitude
  | speed
  | wavelength
  deriving DecidableEq

/-- The scalars of a span, with the stops of a gradient by their places. -/
inductive Scalar
  | style
  | color
  | stop (index : Nat)
  | typewriterSpeed
  | typewriterCenter
  | shake (number : ShakeNumber)
  | charShake (number : ShakeNumber)
  | scrambleSpeed
  | background
  | backgroundStop (index : Nat)
  | x
  | y
  | scale
  deriving DecidableEq

/-- The marks of a text. -/
def textMarks (s : String) : List Bool := fixed (4 + (Text.utf8 s).length)

/-- The marks of colors, `p` for those to mark. -/
def colorsMarks (p : Nat → Bool) (colors : List Color) : List Bool :=
  fixed 4 ++ marksOfAll (fun i _ => List.replicate 4 (p i)) colors

/-- A scalar, or `z` in its place when it is left out. -/
def leaveOut (p : Bool) (z a : α) : α := if p then z else a

/-- What becomes of a scalar that is left out does not depend on it. -/
theorem leaveOut_apply (p : Bool) (z : β) (z' a : α) (f : α → β) :
    leaveOut p z (f (leaveOut p z' a)) = leaveOut p z (f a) := by
  cases p <;> rfl

namespace Shake

/-- The marks of a shake, after the code of its motion. -/
def marks (p : ShakeNumber → Bool) (_ : Shake) : List Bool :=
  fixed 1 ++ (List.replicate 4 (p .amplitude) ++
    (List.replicate 4 (p .speed) ++ List.replicate 4 (p .wavelength)))

/-- The shake with the numbers `p` left out. -/
def without (p : ShakeNumber → Bool) (e : Shake) : Shake where
  motion := e.motion
  amplitude := leaveOut (p .amplitude) zero e.amplitude
  speed := leaveOut (p .speed) zero e.speed
  wavelength := leaveOut (p .wavelength) zero e.wavelength

end Shake

namespace SpanOf

variable {Switch : Type} (p : Scalar → Bool)

/-- The marks of a span after its mask of optional fields. -/
def bodyMarks (s : SpanOf Switch) : List Bool :=
  textMarks s.content ++
    (marksIfAny (fun _ => List.replicate 1 (p .style)) s.style ++
    (marksIfAny (fun _ => List.replicate 4 (p .color)) s.color ++
    (marksIfAny textMarks s.font ++
    (marksIfAny (colorsMarks fun i => p (.stop i)) s.gradient ++
    (marksIfAny (fun _ => List.replicate 4 (p .typewriterSpeed) ++
      List.replicate 1 (p .typewriterCenter)) s.typewriter ++
    (marksIfAny (Shake.marks fun number => p (.shake number)) s.shake ++
    (marksIfAny (Shake.marks fun number => p (.charShake number)) s.charShake ++
    (marksIfAny (fun _ => fixed 1 ++ List.replicate 4 (p .scrambleSpeed)) s.scramble ++
    (marksIfAny (fun _ => List.replicate 4 (p .background)) s.background ++
    (marksIfAny (colorsMarks fun i => p (.backgroundStop i)) s.backgroundGradient ++
    (marksIfAny (fun _ => List.replicate 4 (p .x) ++
      (List.replicate 4 (p .y) ++ List.replicate 4 (p .scale))) s.placement ++
    (marksIfAny (fun item => textMarks item.id ++ fixed 4) s.item ++
    (marksIfAny textMarks s.entity ++
    (fixed 4 ++ marksOfAll (fun _ => textMarks) s.tags))))))))))))))

/-- The marks of a span: for each of its bytes, whether it belongs to one of the scalars `p`. -/
def marks (s : SpanOf Switch) : List Bool := fixed 4 ++ bodyMarks p s

/-- The span with the scalars `p` left out. -/
def without [Inhabited Switch] (s : SpanOf Switch) : SpanOf Switch :=
  { s with
    style := s.style.map (leaveOut (p .style) .none)
    color := s.color.map (leaveOut (p .color) ⟨0⟩)
    gradient := s.gradient.map (List.mapIdx fun i => leaveOut (p (.stop i)) ⟨0⟩)
    typewriter := s.typewriter.map fun t =>
      ⟨leaveOut (p .typewriterSpeed) zero t.speed, leaveOut (p .typewriterCenter) default t.center⟩
    shake := s.shake.map (Shake.without fun number => p (.shake number))
    charShake := s.charShake.map (Shake.without fun number => p (.charShake number))
    scramble := s.scramble.map fun e => ⟨e.mode, leaveOut (p .scrambleSpeed) zero e.speed⟩
    background := s.background.map (leaveOut (p .background) ⟨0⟩)
    backgroundGradient :=
      s.backgroundGradient.map (List.mapIdx fun i => leaveOut (p (.backgroundStop i)) ⟨0⟩)
    placement := s.placement.map fun o =>
      ⟨leaveOut (p .x) zero o.x, leaveOut (p .y) zero o.y, leaveOut (p .scale) zero o.scale⟩ }

theorem marks_settle (s : RawSpan) : s.settle.marks p = s.marks p := by
  have hmap : ∀ {α β : Type} (m : List Bool) (f : α → β) (a : Option α),
      marksIfAny (fun _ => m) (a.map f) = marksIfAny (fun _ => m) a := by
    intro α β m f a
    cases a <;> rfl
  unfold marks bodyMarks settle
  have hshake : ∀ (p : ShakeNumber → Bool) (a : Option Shake),
      marksIfAny (Shake.marks p) (a.map Shake.settle) = marksIfAny (Shake.marks p) a := by
    intro p a
    cases a <;> rfl
  simp only [hmap, hshake]

theorem without_settle (s : RawSpan) : s.settle.without p = (s.without p).settle.without p := by
  have hsame : ∀ {α : Type} (q : Bool) (z a : α), leaveOut q z (leaveOut q z a) = leaveOut q z a :=
    fun q z a => leaveOut_apply q z z a id
  have hclamp : ∀ (q : Bool) (lo hi x : Single),
      leaveOut q zero ((leaveOut q zero x).clamp lo hi) = leaveOut q zero (x.clamp lo hi) :=
    fun q lo hi x => leaveOut_apply q zero zero x fun x => x.clamp lo hi
  have hflags : ∀ (q : Bool) (flags : StyleFlags),
      leaveOut q .none (StyleFlags.ofBits (leaveOut q .none flags).bits) =
        leaveOut q .none (.ofBits flags.bits) :=
    fun q flags => leaveOut_apply q _ _ flags fun flags => StyleFlags.ofBits flags.bits
  have hswitch : ∀ (q : Bool) (switch : UInt8),
      leaveOut q default (leaveOut q default switch != 0) = leaveOut q default (switch != 0) :=
    fun q switch => leaveOut_apply q _ _ switch (· != 0)
  simp only [without, settle, Shake.without, Shake.settle, Typewriter.settle, Scramble.settle,
    Placement.settle, Option.map_map, Function.comp_def, List.mapIdx_mapIdx, hsame, hclamp, hflags,
    hswitch]

end SpanOf

/-! ### The fields of a span -/

namespace Tolerates

theorem colorField (p : Bool) : Tolerates Wire.colorField.read
    (fun _ => List.replicate 4 p) (leaveOut p (⟨0⟩ : Color)) := by
  refine (word p).map_comm (fun _ => rfl) fun w => ?_
  cases p <;> rfl

theorem colorsField (name : String) (p : Nat → Bool) : Tolerates (Wire.colorsField name).read
    (colorsMarks p) (List.mapIdx fun i => leaveOut (p i) (⟨0⟩ : Color)) :=
  list (fun i => colorField (p i)) name maxColors

theorem idField (name : String) : Tolerates (Wire.idField name).read textMarks id :=
  text name maxIdBytes (by decide)

theorem styleField (p : Bool) : Tolerates Wire.styleField.read
    (fun _ => List.replicate 1 p) (leaveOut p StyleFlags.none) := by
  refine (byte p).map_comm (fun _ => rfl) fun b => ?_
  cases p <;> rfl

theorem typewriterField (p q : Bool) : Tolerates Wire.typewriterField.read
    (fun _ => List.replicate 4 p ++ List.replicate 1 q)
    (fun t => (⟨leaveOut p zero t.speed, leaveOut q default t.center⟩ : Typewriter UInt8)) :=
  ((single p).pair (byte q)).map_comm (fun _ => rfl) fun _ => rfl

theorem shakeField (p : ShakeNumber → Bool) :
    Tolerates Wire.shakeField.read (Shake.marks p) (Shake.without p) :=
  (choice.pair ((single (p .amplitude)).pair
    ((single (p .speed)).pair (single (p .wavelength))))).map_comm (fun _ => rfl) fun _ => rfl

theorem scrambleField (p : Bool) : Tolerates Wire.scrambleField.read
    (fun _ => fixed 1 ++ List.replicate 4 p)
    (fun e => (⟨e.mode, leaveOut p zero e.speed⟩ : Scramble)) :=
  (choice.pair (single p)).map_comm (fun _ => rfl) fun _ => rfl

theorem placementField (p q r : Bool) : Tolerates Wire.placementField.read
    (fun _ => List.replicate 4 p ++ (List.replicate 4 q ++ List.replicate 4 r))
    (fun o => (⟨leaveOut p zero o.x, leaveOut q zero o.y, leaveOut r zero o.scale⟩ :
      Placement)) :=
  ((single p).pair ((single q).pair (single r))).map_comm (fun _ => rfl) fun _ => rfl

theorem itemField : Tolerates Wire.itemField.read
    (fun item => textMarks item.id ++ fixed 4) id :=
  ((idField "item.id").pair (count "item.count" maxItemCount)).map_comm (fun _ => rfl)
    fun _ => rfl

theorem tagsField : Tolerates Wire.tagsField.read
    (fun tags => fixed 4 ++ marksOfAll (fun _ => textMarks) tags) id := by
  have hsame : (List.mapIdx fun _ => id : List String → List String) = id := by
    funext tags
    exact List.ext_getElem? fun i => by simp
  rw [← hsame]
  exact list (fun _ => text "tag" maxTagBytes (by decide)) "tags" maxTags

theorem bodyField (mask : UInt32) (p : Scalar → Bool) :
    Tolerates (Wire.bodyField mask).read (SpanOf.bodyMarks p) (SpanOf.without p) := by
  have hfields := (text "content" maxContentBytes (by decide)).pair <|
    ((styleField (p .style)).optional (hasBit mask 0)).pair <|
    ((colorField (p .color)).optional (hasBit mask 1)).pair <|
    ((idField "font").optional_id (hasBit mask 2)).pair <|
    ((colorsField "gradient" fun i => p (.stop i)).optional (hasBit mask 3)).pair <|
    ((typewriterField (p .typewriterSpeed) (p .typewriterCenter)).optional (hasBit mask 4)).pair <|
    ((shakeField fun number => p (.shake number)).optional (hasBit mask 5)).pair <|
    ((shakeField fun number => p (.charShake number)).optional (hasBit mask 6)).pair <|
    ((scrambleField (p .scrambleSpeed)).optional (hasBit mask 7)).pair <|
    ((colorField (p .background)).optional (hasBit mask 8)).pair <|
    ((colorsField "background_gradient" fun i => p (.backgroundStop i)).optional
      (hasBit mask 9)).pair <|
    ((placementField (p .x) (p .y) (p .scale)).optional (hasBit mask 10)).pair <|
    (itemField.optional_id (hasBit mask 11)).pair <|
    ((idField "entity").optional_id (hasBit mask 12)).pair tagsField
  exact hfields.map_comm (fun _ => rfl) fun _ => rfl

theorem spanField (p : Scalar → Bool) :
    Tolerates Wire.spanField.read (SpanOf.marks p) (SpanOf.without p) := by
  refine after Delimits.word (fun bytes mask rest h => ?_) fun mask => ?_
  · obtain ⟨n, hn, hlength⟩ := Field.measures_word bytes mask rest h
    obtain rfl : 4 = n := Except.ok.inj hn
    exact hlength
  · show Tolerates (if mask < 1 <<< optionalFields then _ else _) _ _
    split
    · exact bodyField mask p
    · exact throw _ _ _

theorem span (p : Scalar → Bool) :
    Tolerates Wire.span.read (SpanOf.marks p) (SpanOf.without p) :=
  (spanField p).map (fun raw : RawSpan => raw.settle.without p) (SpanOf.marks_settle p)
    (SpanOf.without_settle p)

end Tolerates

/-! ### Messages -/

/-- The marks of a message: for each of its bytes, whether it belongs to one of the scalars `p` of
the span in each place. -/
def messageMarks (p : Nat → Scalar → Bool) (spans : List Span) : List Bool :=
  fixed 4 ++ marksOfAll (fun i => SpanOf.marks (p i)) spans

/-- The spans with the scalars `p` of the span in each place left out. -/
def allWithout (p : Nat → Scalar → Bool) (spans : List Span) : List Span :=
  spans.mapIdx fun i => SpanOf.without (p i)

/-- Other bytes in the places of some scalars of an accepted message make a message again, and it
is read as the same spans but for these scalars. -/
theorem decode_overwritten {bytes : List UInt8} {spans : List Span}
    (h : (decode bytes).value = .ok spans) (p : Nat → Scalar → Bool) :
    (messageMarks p spans).length = bytes.length ∧
      ∀ bytes', Overwrites (messageMarks p spans) bytes bytes' →
        ∃ spans', (decode bytes').value = .ok spans' ∧
          allWithout p spans' = allWithout p spans := by
  have htolerates : Tolerates message.read (messageMarks p) (allWithout p) :=
    Tolerates.list (fun i => Tolerates.span (p i)) "spans" maxSpans
  obtain ⟨taken, htaken, hlength, hover⟩ :=
    htolerates bytes spans [] (read_of_value_decode h)
  rw [List.append_nil] at htaken
  subst htaken
  refine ⟨hlength, fun bytes' hbytes' => ?_⟩
  obtain ⟨spans', hreads, hsame⟩ := hover bytes' hbytes'
  refine ⟨spans', ?_, hsame⟩
  rw [value_decode]
  exact Field.decode_eq_ok hreads

/-- A message of one span with a color and a typewriter. -/
def sober : List UInt8 :=
  [0, 0, 0, 1, 0, 0, 0, 0x12, 0, 0, 0, 1, 0x61, 0xFF, 0, 0, 0, 0x3F, 0x80, 0, 0, 1, 0, 0, 0, 0]

/-- The message with another color, with no number for a speed and an odd byte for a switch. -/
def garbled : List UInt8 :=
  [0, 0, 0, 1, 0, 0, 0, 0x12, 0, 0, 0, 1, 0x61, 1, 2, 3, 4, 0x7F, 0xC0, 0, 1, 7, 0, 0, 0, 0]

/-- The scalars in which the two messages differ. -/
def garbledScalars (_ : Nat) (scalar : Scalar) : Bool :=
  [.color, .typewriterSpeed, .typewriterCenter].contains scalar

theorem decode_overwritten_garbled :
    (decode sober).value =
        .ok [{ content := "a", color := some ⟨0xFF000000⟩, typewriter := some ⟨one, true⟩ }] ∧
      ∃ spans, (decode garbled).value = .ok spans ∧ allWithout garbledScalars spans =
        allWithout garbledScalars
          [{ content := "a", color := some ⟨0xFF000000⟩, typewriter := some ⟨one, true⟩ }] := by
  have hdecode : (decode sober).value =
      .ok [{ content := "a", color := some ⟨0xFF000000⟩, typewriter := some ⟨one, true⟩ }] := by
    decide
  obtain ⟨-, hover⟩ := decode_overwritten hdecode garbledScalars
  exact ⟨hdecode, hover garbled (by decide)⟩

end KineticText.Wire
