import Mathlib.Algebra.Ring.Nat
import KineticText.Wire.Field

/-! The laws of fields.  Which values a field takes, and that what it wrote is read back with
nothing read after it, follow for a composed field from the same facts on its parts. -/

namespace KineticText

/-- The codes of a choice's alternatives lead back to them. -/
theorem Choice.ofCode?_code {α : Type} [Choice α] [BEq α] [LawfulBEq α] {a : α}
    (ha : a ∈ (all : List α)) (hlen : (all : List α).length ≤ 256) :
    ofCode? (code a) = some a := by
  have hidx : all.idxOf a < (all : List α).length := List.idxOf_lt_length_of_mem ha
  have hcode : (code a).toNat = all.idxOf a := by
    rw [code, UInt8.toNat_ofNat']
    omega
  rw [ofCode?, hcode, List.getElem?_eq_getElem hidx, List.getElem_idxOf hidx]

namespace Wire

variable {α β γ : Type}

/-! ### Readers -/

/-- Whatever follows the bytes, the reader takes exactly them and gives `a`. -/
def Reads (r : Reader α) (bytes : List UInt8) (a : α) : Prop :=
  ∀ rest, r (bytes ++ rest) = .ok a rest

namespace Reads

theorem pure (a : α) : Reads (pure a) [] a := fun _ => rfl

theorem bind {r : Reader α} {next : α → Reader β} {front back : List UInt8} {a : α} {b : β}
    (hr : Reads r front a) (hnext : Reads (next a) back b) :
    Reads (r >>= next) (front ++ back) b := by
  intro rest
  have hfront : r (front ++ back ++ rest) = .ok a (back ++ rest) := by
    rw [List.append_assoc]
    exact hr _
  show EStateM.bind r next (front ++ back ++ rest) = _
  rw [EStateM.bind, hfront]
  exact hnext rest

theorem bind_pure {r : Reader α} {next : α → Reader β} {bytes : List UInt8} {a : α} {b : β}
    (hr : Reads r bytes a) (hnext : next a = Pure.pure b) : Reads (r >>= next) bytes b := by
  have h : Reads (next a) [] b := by
    rw [hnext]
    exact Reads.pure b
  have := hr.bind h
  rwa [List.append_nil] at this

theorem map {r : Reader α} {bytes : List UInt8} {a : α} (hr : Reads r bytes a) (f : α → β) :
    Reads (f <$> r) bytes (f a) := by
  rw [← bind_pure_comp]
  exact hr.bind_pure rfl

theorem take (bytes : List UInt8) : Reads (take bytes.length) bytes bytes := by
  intro rest
  simp only [Wire.take, List.take_left, List.drop_left, if_true]

end Reads

/-! ### Writing one after the other -/

theorem append_eq_ok {x y : Written} {bytes : List UInt8} :
    (do return (← x) ++ (← y) : Written) = .ok bytes ↔
      ∃ front back, x = .ok front ∧ y = .ok back ∧ bytes = front ++ back := by
  cases x with
  | error e => simp [bind, Except.bind]
  | ok front =>
    cases y with
    | error e => simp [bind, Except.bind]
    | ok back => simp [bind, Except.bind, pure, Except.pure, eq_comm]

theorem exists_append_eq_ok {x y : Written} :
    (∃ bytes, (do return (← x) ++ (← y) : Written) = .ok bytes) ↔
      (∃ front, x = .ok front) ∧ ∃ back, y = .ok back := by
  simp only [append_eq_ok]
  constructor
  · rintro ⟨-, front, back, hfront, hback, -⟩
    exact ⟨⟨front, hfront⟩, ⟨back, hback⟩⟩
  · rintro ⟨⟨front, hfront⟩, ⟨back, hback⟩⟩
    exact ⟨_, front, back, hfront, hback, rfl⟩

namespace Field

/-- The field has bytes for the value. -/
def Takes (f : Field α) (a : α) : Prop := ∃ bytes, f.write a = .ok bytes

/-- The bytes of the value, if it has any, are read back as the value. -/
def Returns (f : Field α) (a : α) : Prop := ∀ bytes, f.write a = .ok bytes → Reads f.read bytes a

/-! ### Bytes and words -/

@[simp] theorem takes_byte (b : UInt8) : byte.Takes b := ⟨[b], rfl⟩

theorem returns_byte (b : UInt8) : byte.Returns b := by
  rintro bytes hbytes
  cases hbytes
  exact (Reads.take [b]).bind_pure rfl

@[simp] theorem takes_word (w : UInt32) : word.Takes w := ⟨wordBytes w, rfl⟩

/-- One more byte at the end of a word pushes the others up by one. -/
theorem toNat_append (w : UInt32) (b : UInt8) :
    ((w <<< 8) ||| b.toUInt32).toNat = (w.toNat * 256 + b.toNat) % 2 ^ 32 := by
  have hb := b.toNat_lt
  have hw : (w <<< 8).toNat = (w.toNat % 2 ^ 24) <<< 8 := by
    rw [UInt32.toNat_shiftLeft, Nat.shiftLeft_eq, Nat.shiftLeft_eq]
    have h8 : (8 : UInt32).toNat % 32 = 8 := by decide
    rw [h8]
    omega
  rw [UInt32.toNat_or, UInt8.toNat_toUInt32, hw, ← Nat.shiftLeft_add_eq_or_of_lt hb,
    Nat.shiftLeft_eq]
  omega

theorem bigEndian_wordBytes (w : UInt32) : bigEndian (wordBytes w) = w := by
  apply UInt32.toNat_inj.mp
  have hw := w.toNat_lt
  have h24 : (w >>> 24).toUInt8.toNat = w.toNat / 2 ^ 24 := by
    rw [UInt32.toNat_toUInt8, UInt32.toNat_shiftRight, Nat.shiftRight_eq_div_pow]
    have h : (24 : UInt32).toNat % 32 = 24 := by decide
    rw [h]
    omega
  have h16 : (w >>> 16).toUInt8.toNat = w.toNat / 2 ^ 16 % 256 := by
    rw [UInt32.toNat_toUInt8, UInt32.toNat_shiftRight, Nat.shiftRight_eq_div_pow]
    rfl
  have h8 : (w >>> 8).toUInt8.toNat = w.toNat / 2 ^ 8 % 256 := by
    rw [UInt32.toNat_toUInt8, UInt32.toNat_shiftRight, Nat.shiftRight_eq_div_pow]
    rfl
  have h0 : w.toUInt8.toNat = w.toNat % 256 := UInt32.toNat_toUInt8 w
  simp only [bigEndian, wordBytes, List.foldl_cons, List.foldl_nil, toNat_append, h24, h16, h8, h0,
    UInt32.toNat_zero]
  omega

theorem returns_word (w : UInt32) : word.Returns w := by
  rintro bytes hbytes
  cases hbytes
  have h := (Reads.take (wordBytes w)).map bigEndian
  rwa [bigEndian_wordBytes] at h

/-! ### Composed fields -/

@[simp] theorem takes_map {f : Field α} {toField : β → α} {ofField : α → β} {b : β} :
    (f.map toField ofField).Takes b ↔ f.Takes (toField b) := Iff.rfl

theorem Returns.map {f : Field α} {toField : β → α} {ofField : α → β} {b : β}
    (h : f.Returns (toField b)) (hback : ofField (toField b) = b) :
    (f.map toField ofField).Returns b := by
  intro bytes hbytes
  have hread := (h bytes hbytes).map ofField
  rwa [hback] at hread

@[simp] theorem takes_pair {f : Field α} {g : Field β} {ab : α × β} :
    (f.pair g).Takes ab ↔ f.Takes ab.1 ∧ g.Takes ab.2 := exists_append_eq_ok

theorem Returns.pair {f : Field α} {g : Field β} {ab : α × β} (hf : f.Returns ab.1)
    (hg : g.Returns ab.2) : (f.pair g).Returns ab := by
  intro bytes hbytes
  obtain ⟨front, back, hfront, hback, rfl⟩ := append_eq_ok.mp hbytes
  exact (hf front hfront).bind ((hg back hback).bind_pure rfl)

@[simp] theorem takes_optional {present : Bool} {f : Field α} {a : Option α} :
    (f.optional present).Takes a ↔ ∀ x ∈ a, f.Takes x := by
  cases a with
  | none => simp [Takes, optional]
  | some x => simp [Takes, optional]

theorem Returns.optional {present : Bool} {f : Field α} {a : Option α}
    (hpresent : present = a.isSome) (h : ∀ x ∈ a, f.Returns x) :
    (f.optional present).Returns a := by
  subst hpresent
  intro bytes hbytes
  cases a with
  | none =>
    cases hbytes
    exact Reads.pure none
  | some x => exact (h x rfl bytes hbytes).map some

@[simp] theorem takes_single (x : Single) : single.Takes x := takes_map.mpr (takes_word _)

theorem returns_single (x : Single) : single.Returns x := (returns_word x.bits).map rfl

/-! ### Counts, texts and lists -/

theorem takesMany_iff {f : Field α} {as : List α} :
    (∃ bytes, f.writeMany as = .ok bytes) ↔ ∀ a ∈ as, f.Takes a := by
  induction as with
  | nil => simp [writeMany]
  | cons a as ih =>
    rw [List.forall_mem_cons, ← ih]
    exact exists_append_eq_ok

theorem reads_readMany {f : Field α} {as : List α} (h : ∀ a ∈ as, f.Returns a)
    {bytes : List UInt8} (hbytes : f.writeMany as = .ok bytes) :
    Reads (f.readMany as.length) bytes as := by
  induction as generalizing bytes with
  | nil =>
    cases hbytes
    exact Reads.pure []
  | cons a as ih =>
    obtain ⟨front, back, hfront, hback, rfl⟩ := append_eq_ok.mp hbytes
    obtain ⟨ha, has⟩ := List.forall_mem_cons.mp h
    exact (ha front hfront).bind ((ih has hback).bind_pure rfl)

theorem writeMany_map (f : Field α) (toField : β → α) (ofField : α → β) (bs : List β) :
    (f.map toField ofField).writeMany bs = f.writeMany (bs.map toField) := by
  induction bs with
  | nil => rfl
  | cons b bs ih =>
    rw [List.map_cons, writeMany, writeMany, ih]
    rfl

theorem readMany_map (f : Field α) (toField : β → α) (ofField : α → β) (n : Nat) :
    (f.map toField ofField).readMany n = List.map ofField <$> f.readMany n := by
  induction n with
  | zero => rfl
  | succ n ih =>
    have hread : (f.map toField ofField).read = ofField <$> f.read := rfl
    simp only [readMany, hread, ih, map_bind, bind_map_left, map_pure, List.map_cons]

/-- Writing values as those of another field can be done for a whole list at once. -/
theorem list_map (f : Field α) (toField : β → α) (ofField : α → β) (name : String)
    (max : Nat) : list name max (f.map toField ofField) =
      (list name max f).map (List.map toField) (List.map ofField) := by
  have hread : ∀ n, (f.map toField ofField).readMany n = List.map ofField <$> f.readMany n :=
    f.readMany_map toField ofField
  unfold list
  simp only [writeMany_map, hread, ← map_bind]
  simp only [map, List.length_map]

section

variable {name : String} {max : Nat} (hmax : max < 0x80000000)
include hmax

theorem takes_count {n : Nat} : (count name max).Takes n ↔ n ≤ max := by
  simp only [Takes, count]
  split
  · rename_i h
    simp only [Bool.and_eq_true, decide_eq_true_eq] at h
    exact ⟨fun _ => h.1, fun _ => takes_word _⟩
  · rename_i h
    simp only [Bool.and_eq_true, decide_eq_true_eq] at h
    constructor
    · rintro ⟨bytes, hbytes⟩
      cases hbytes
    · intro hn
      exact absurd ⟨hn, by omega⟩ h

theorem returns_count (n : Nat) : (count name max).Returns n := by
  intro bytes hbytes
  have hn : n ≤ max := (takes_count hmax).mp ⟨bytes, hbytes⟩
  have hwrite : word.write (UInt32.ofNat n) = .ok bytes := by
    have hguard : (n ≤ max && n < 0x80000000) = true := by
      rw [Bool.and_eq_true, decide_eq_true_iff, decide_eq_true_iff]
      omega
    simpa only [count, hguard, if_true] using hbytes
  have hsmall : (UInt32.ofNat n).toBitVec.toNat = n := by
    rw [UInt32.toNat_toBitVec, UInt32.toNat_ofNat']
    omega
  have hint : (UInt32.ofNat n).toInt32.toInt = n := by
    show (UInt32.ofNat n).toBitVec.toInt = n
    rw [BitVec.toInt_eq_toNat_of_lt (by rw [hsmall]; omega), hsmall]
  have hread := (returns_word _ bytes hwrite).map UInt32.toInt32
  refine hread.bind_pure ?_
  simp only [hint]
  rw [if_pos (by simpa using hn), Int.toNat_natCast]

theorem takes_text {s : String} :
    (text name max).Takes s ↔ (Text.utf8 s).length ≤ max := by
  have hcount : (count name max).Takes (Text.utf8 s).length ↔ _ := takes_count hmax
  have h := exists_append_eq_ok (x := (count name max).write (Text.utf8 s).length)
    (y := .ok (Text.utf8 s))
  exact (h.trans (and_iff_left ⟨_, rfl⟩)).trans hcount

theorem returns_text (s : String) : (text name max).Returns s := by
  intro bytes hbytes
  obtain ⟨length, content, hlength, hcontent, rfl⟩ :=
    (append_eq_ok (y := .ok (Text.utf8 s))).mp hbytes
  cases hcontent
  refine (returns_count hmax _ length hlength).bind ((Reads.take (Text.utf8 s)).bind_pure ?_)
  rw [Text.ofUtf8?_utf8]

theorem takes_list {f : Field α} {as : List α} :
    (list name max f).Takes as ↔ as.length ≤ max ∧ ∀ a ∈ as, f.Takes a := by
  have hcount : (count name max).Takes as.length ↔ _ := takes_count hmax
  rw [← hcount, ← takesMany_iff]
  exact exists_append_eq_ok

theorem Returns.list {f : Field α} {as : List α} (h : ∀ a ∈ as, f.Returns a) :
    (list name max f).Returns as := by
  intro bytes hbytes
  obtain ⟨front, back, hfront, hback, rfl⟩ := append_eq_ok.mp hbytes
  exact (returns_count hmax _ front hfront).bind (reads_readMany h hback)

end

/-! ### Choices -/

section

variable {name : String} [Choice α] [BEq α]

@[simp] theorem takes_choice {a : α} : (choice name).Takes a := takes_byte _

theorem returns_choice [LawfulBEq α] {a : α} (ha : a ∈ (Choice.all : List α))
    (hlen : (Choice.all : List α).length ≤ 256) : (choice name).Returns a := by
  intro bytes hbytes
  refine (returns_byte _ bytes hbytes).bind_pure ?_
  rw [Choice.ofCode?_code ha hlen]

end

end Field

end Wire

end KineticText
