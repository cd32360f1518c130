import KineticText.Proofs.Wire.Laws

/-! How many bytes a value takes.  A field measures what it reads when it would write it in as many
bytes as it took; that follows for a composed field from its parts, and so does the size itself, so
two values that differ in scalars alone have one size. -/

namespace KineticText.Wire

variable {α β : Type}

/-! ### Readers that succeed -/

theorem bind_eq_ok {r : Reader α} {next : α → Reader β} {bytes rest : List UInt8} {b : β} :
    (r >>= next) bytes = .ok b rest ↔
      ∃ a mid, r bytes = .ok a mid ∧ next a mid = .ok b rest := by
  show EStateM.bind r next bytes = _ ↔ _
  rw [EStateM.bind]
  cases r bytes with
  | ok a mid =>
    constructor
    · exact fun h => ⟨a, mid, rfl, h⟩
    · rintro ⟨a, mid, ⟨⟩, h⟩
      exact h
  | error e mid => simp

theorem pure_eq_ok {a b : α} {bytes rest : List UInt8} :
    (pure a : Reader α) bytes = .ok b rest ↔ a = b ∧ bytes = rest := by
  show EStateM.Result.ok a bytes = _ ↔ _
  rw [EStateM.Result.ok.injEq]

theorem map_eq_ok {r : Reader α} {f : α → β} {bytes rest : List UInt8} {b : β} :
    (f <$> r) bytes = .ok b rest ↔ ∃ a, r bytes = .ok a rest ∧ f a = b := by
  rw [← bind_pure_comp, bind_eq_ok]
  constructor
  · rintro ⟨a, mid, hread, hpure⟩
    obtain ⟨hb, rfl⟩ := pure_eq_ok.mp hpure
    exact ⟨a, hread, hb⟩
  · rintro ⟨a, hread, rfl⟩
    exact ⟨a, rest, hread, rfl⟩

theorem take_eq_ok {n : Nat} {bytes front rest : List UInt8}
    (h : take n bytes = .ok front rest) : front.length = n ∧ n + rest.length = bytes.length := by
  unfold take at h
  by_cases hn : (bytes.take n).length = n
  · rw [if_pos hn] at h
    cases h
    refine ⟨hn, ?_⟩
    rw [List.length_take] at hn
    rw [List.length_drop]
    omega
  · rw [if_neg hn] at h
    cases h

/-! ### Sizes -/

/-- The number of bytes in what is written. -/
def Written.size (w : Written) : Except EncodeError Nat := List.length <$> w

theorem Written.size_eq_ok {w : Written} {n : Nat} :
    w.size = .ok n ↔ ∃ bytes, w = .ok bytes ∧ bytes.length = n := by
  cases w with
  | error e => simp [size, Functor.map, Except.map]
  | ok bytes => simp [size, Functor.map, Except.map]

theorem Written.size_append (x y : Written) :
    Written.size (do return (← x) ++ (← y)) = do return (← x.size) + (← y.size) := by
  cases x with
  | error e => rfl
  | ok front =>
    cases y with
    | error e => rfl
    | ok back => exact congrArg Except.ok List.length_append

theorem Written.add_eq_ok {x y : Except EncodeError Nat} {m n : Nat} (hx : x = .ok m)
    (hy : y = .ok n) : (do return (← x) + (← y) : Except EncodeError Nat) = .ok (m + n) := by
  subst hx hy
  rfl

namespace Field

/-- The number of bytes that a value takes, or why it has none. -/
def size (f : Field α) (a : α) : Except EncodeError Nat := (f.write a).size

@[simp] theorem size_byte (b : UInt8) : byte.size b = .ok 1 := rfl

@[simp] theorem size_word (w : UInt32) : word.size w = .ok 4 := rfl

@[simp] theorem size_single (x : Single) : single.size x = .ok 4 := rfl

@[simp] theorem size_choice {name : String} [Choice α] [BEq α] (a : α) :
    (choice name).size a = .ok 1 := rfl

@[simp] theorem size_map {f : Field α} {toField : β → α} {ofField : α → β} {b : β} :
    (f.map toField ofField).size b = f.size (toField b) := rfl

@[simp] theorem size_pair {f : Field α} {g : Field β} {ab : α × β} :
    (f.pair g).size ab = do return (← f.size ab.1) + (← g.size ab.2) :=
  Written.size_append _ _

/-- The number of bytes that a value takes if there is one. -/
def sizeIfAny (f : Field α) : Option α → Except EncodeError Nat
  | none => .ok 0
  | some a => f.size a

@[simp] theorem size_optional {present : Bool} {f : Field α} {a : Option α} :
    (f.optional present).size a = f.sizeIfAny a := by
  cases a <;> rfl

theorem sizeIfAny_map (f : Field α) (change : α → α) (h : ∀ x, f.size (change x) = f.size x)
    (a : Option α) : f.sizeIfAny (a.map change) = f.sizeIfAny a := by
  cases a with
  | none => rfl
  | some x => exact h x

theorem size_count {name : String} {max n : Nat} (hmax : max < 0x80000000) (hn : n ≤ max) :
    (count name max).size n = .ok 4 := by
  have hguard : (n ≤ max && n < 0x80000000) = true := by
    rw [Bool.and_eq_true, decide_eq_true_iff, decide_eq_true_iff]
    omega
  simp only [size, count, hguard, if_true]
  exact size_word _

/-! ### Fields that measure -/

/-- What the field reads is written in as many bytes as it was read from. -/
def Measures (f : Field α) : Prop :=
  ∀ bytes a rest, f.read bytes = .ok a rest →
    ∃ n, f.size a = .ok n ∧ n + rest.length = bytes.length

theorem measures_byte : byte.Measures := by
  intro bytes b rest h
  obtain ⟨front, mid, htake, hb⟩ := bind_eq_ok.mp h
  obtain ⟨hlength, hbytes⟩ := take_eq_ok htake
  obtain ⟨c, rfl⟩ := List.length_eq_one_iff.mp hlength
  obtain ⟨-, rfl⟩ := pure_eq_ok.mp hb
  exact ⟨1, rfl, hbytes⟩

theorem measures_word : word.Measures := by
  intro bytes w rest h
  obtain ⟨front, htake, -⟩ := map_eq_ok.mp h
  exact ⟨4, rfl, (take_eq_ok htake).2⟩

theorem Measures.map {f : Field α} {toField : β → α} {ofField : α → β} (h : f.Measures)
    (hsize : ∀ a, f.size (toField (ofField a)) = f.size a) : (f.map toField ofField).Measures := by
  intro bytes b rest hread
  obtain ⟨a, ha, rfl⟩ := map_eq_ok.mp hread
  obtain ⟨n, hn, hbytes⟩ := h bytes a rest ha
  exact ⟨n, (hsize a).trans hn, hbytes⟩

theorem measures_single : single.Measures := measures_word.map fun _ => rfl

theorem Measures.pair {f : Field α} {g : Field β} (hf : f.Measures) (hg : g.Measures) :
    (f.pair g).Measures := by
  intro bytes ab rest h
  obtain ⟨a, mid, ha, hnext⟩ := bind_eq_ok.mp h
  obtain ⟨b, last, hb, hab⟩ := bind_eq_ok.mp hnext
  obtain ⟨rfl, rfl⟩ := pure_eq_ok.mp hab
  obtain ⟨m, hm, hbytes⟩ := hf bytes a mid ha
  obtain ⟨n, hn, hmid⟩ := hg mid b last hb
  exact ⟨m + n, size_pair.trans (Written.add_eq_ok hm hn), by omega⟩

theorem Measures.optional {f : Field α} (h : f.Measures) (present : Bool) :
    (f.optional present).Measures := by
  intro bytes a rest hread
  cases present with
  | false =>
    obtain ⟨rfl, rfl⟩ := pure_eq_ok.mp hread
    exact ⟨0, rfl, Nat.zero_add _⟩
  | true =>
    obtain ⟨x, hx, rfl⟩ := map_eq_ok.mp hread
    exact h bytes x rest hx

theorem measures_choice {name : String} [Choice α] [BEq α] : (choice (α := α) name).Measures := by
  intro bytes a rest h
  obtain ⟨code, mid, hcode, hnext⟩ := bind_eq_ok.mp h
  obtain ⟨n, hn, hbytes⟩ := measures_byte bytes code mid hcode
  cases hfound : (Choice.ofCode? code : Option α) with
  | none =>
    rw [hfound] at hnext
    cases hnext
  | some found =>
    rw [hfound] at hnext
    obtain ⟨-, rfl⟩ := pure_eq_ok.mp hnext
    exact ⟨n, hn, hbytes⟩

section

variable {name : String} {max : Nat}

theorem count_le {bytes rest : List UInt8} {n : Nat}
    (h : (count name max).read bytes = .ok n rest) :
    n ≤ max ∧ 4 + rest.length = bytes.length := by
  obtain ⟨k, mid, hk, hnext⟩ := bind_eq_ok.mp h
  obtain ⟨size, hsize, hbytes⟩ := (measures_word.map fun _ => rfl : integer.Measures) bytes k mid hk
  obtain rfl : 4 = size := Except.ok.inj hsize
  split at hnext
  · rename_i hrange
    obtain ⟨rfl, rfl⟩ := pure_eq_ok.mp hnext
    simp only [Bool.and_eq_true, decide_eq_true_eq] at hrange
    exact ⟨by omega, hbytes⟩
  · cases hnext

variable (hmax : max < 0x80000000)
include hmax

theorem measures_count : (count name max).Measures := by
  intro bytes n rest h
  obtain ⟨hn, hbytes⟩ := count_le h
  exact ⟨4, size_count hmax hn, hbytes⟩

theorem measures_text : (text name max).Measures := by
  intro bytes s rest h
  obtain ⟨length, mid, hlength, hnext⟩ := bind_eq_ok.mp h
  obtain ⟨content, last, hcontent, hs⟩ := bind_eq_ok.mp hnext
  obtain ⟨hle, hbytes⟩ := count_le hlength
  obtain ⟨hsize, hmid⟩ := take_eq_ok hcontent
  cases htext : Text.ofUtf8? content with
  | none =>
    rw [htext] at hs
    cases hs
  | some text =>
    rw [htext] at hs
    obtain ⟨rfl, rfl⟩ := pure_eq_ok.mp hs
    obtain rfl := Text.eq_utf8_of_ofUtf8? htext
    have hcount : (count name max).size (Text.utf8 text).length = .ok 4 :=
      size_count hmax (by omega)
    refine ⟨4 + length, ?_, by omega⟩
    refine (Written.size_append _ (.ok (Text.utf8 text))).trans (Written.add_eq_ok hcount ?_)
    rw [← hsize]
    rfl

end

/-! ### Lists -/

theorem readMany_eq_ok {f : Field α} (hf : f.Measures) {n : Nat} {bytes rest : List UInt8}
    {as : List α} (h : f.readMany n bytes = .ok as rest) :
    as.length = n ∧ ∃ k, (f.writeMany as).size = .ok k ∧ k + rest.length = bytes.length := by
  -- Induction on the number of values; the bytes vary, because each value leaves fewer of them.
  induction n generalizing bytes rest as with
  | zero =>
    obtain ⟨rfl, rfl⟩ := pure_eq_ok.mp h
    exact ⟨rfl, 0, rfl, Nat.zero_add _⟩
  | succ n ih =>
    obtain ⟨a, mid, ha, hnext⟩ := bind_eq_ok.mp h
    obtain ⟨others, last, hothers, has⟩ := bind_eq_ok.mp hnext
    obtain ⟨rfl, rfl⟩ := pure_eq_ok.mp has
    obtain ⟨m, hm, hbytes⟩ := hf bytes a mid ha
    obtain ⟨hlength, k, hk, hmid⟩ := ih hothers
    refine ⟨congrArg (· + 1) hlength, m + k, ?_, by omega⟩
    exact (Written.size_append _ _).trans (Written.add_eq_ok hm hk)

theorem Measures.list {f : Field α} (hf : f.Measures) {name : String} {max : Nat}
    (hmax : max < 0x80000000) : (list name max f).Measures := by
  intro bytes as rest h
  obtain ⟨n, mid, hn, hmany⟩ := bind_eq_ok.mp h
  obtain ⟨hle, hbytes⟩ := count_le hn
  obtain ⟨rfl, k, hk, hmid⟩ := readMany_eq_ok hf hmany
  refine ⟨4 + k, ?_, by omega⟩
  exact (Written.size_append _ _).trans (Written.add_eq_ok (size_count hmax hle) hk)

/-- Every value that a list is read with is one that its field reads. -/
theorem forall_mem_of_readMany {f : Field α} {P : α → Prop}
    (hf : ∀ bytes a rest, f.read bytes = .ok a rest → P a) {n : Nat} {bytes rest : List UInt8}
    {as : List α} (h : f.readMany n bytes = .ok as rest) : ∀ a ∈ as, P a := by
  induction n generalizing bytes rest as with
  | zero =>
    obtain ⟨rfl, -⟩ := pure_eq_ok.mp h
    exact fun _ ha => absurd ha List.not_mem_nil
  | succ n ih =>
    obtain ⟨a, mid, ha, hnext⟩ := bind_eq_ok.mp h
    obtain ⟨others, last, hothers, has⟩ := bind_eq_ok.mp hnext
    obtain ⟨rfl, -⟩ := pure_eq_ok.mp has
    exact List.forall_mem_cons.mpr ⟨hf bytes a mid ha, ih hothers⟩

end Field

end KineticText.Wire
