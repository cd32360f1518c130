import KineticText.Event

/-! Values that come with events.  `Logged` pairs a value with the events on the way to it, in
order, and binding appends, so a value never depends on what has been logged before it.

A sum or difference of times that is not a word stops the program.  `Logged` says whether that
happens on the way, and its value goes on with the remainder modulo `2 ^ 64`; `outcome?` takes the
two together. -/

namespace KineticText

/-- A value together with the events on the way to it, and whether a sum on the way overflows. -/
@[ext] structure Logged (α : Type) where
  value : α
  events : Array Event := #[]
  overflows : Bool := false

namespace Logged

variable {α β σ : Type}

instance : Monad Logged where
  pure a := { value := a }
  bind
    | ⟨value, events, overflows⟩, f =>
      let y := f value
      ⟨y.value, events ++ y.events, overflows || y.overflows⟩

/-- Logs one event. -/
def emit (e : Event) : Logged Unit := { value := (), events := #[e] }

/-- Logs one event if a condition holds. -/
def emitIf (b : Bool) (e : Event) : Logged Unit := if b then emit e else pure ()

/-- The sum of two words, which stops the program when it is not a word. -/
def sum (x y : UInt64) : Logged UInt64 :=
  { value := x + y, overflows := UInt64.size ≤ x.toNat + y.toNat }

/-- Whether the program stops on the way to the value.  The data of an event are taken only while
events are traced. -/
def stops (x : Logged α) (traced : Bool) : Bool :=
  x.overflows || traced && x.events.any Event.overflows

/-- The value, unless the program stops on the way to it. -/
def outcome? (x : Logged α) (traced : Bool) : Option α :=
  if x.stops traced then none else some x.value

@[simp] theorem value_pure (a : α) : (pure a : Logged α).value = a := rfl

@[simp] theorem events_pure (a : α) : (pure a : Logged α).events = #[] := rfl

@[simp] theorem value_bind (x : Logged α) (f : α → Logged β) :
    (x >>= f).value = (f x.value).value := rfl

@[simp] theorem events_bind (x : Logged α) (f : α → Logged β) :
    (x >>= f).events = x.events ++ (f x.value).events := rfl

@[simp] theorem value_map (g : α → β) (x : Logged α) : (g <$> x).value = g x.value := rfl

@[simp] theorem events_map (g : α → β) (x : Logged α) : (g <$> x).events = x.events := by
  change x.events ++ #[] = x.events
  simp

@[simp] theorem overflows_pure (a : α) : (pure a : Logged α).overflows = false := rfl

@[simp] theorem overflows_bind (x : Logged α) (f : α → Logged β) :
    (x >>= f).overflows = (x.overflows || (f x.value).overflows) := rfl

@[simp] theorem overflows_map (g : α → β) (x : Logged α) : (g <$> x).overflows = x.overflows :=
  Bool.or_false _

@[simp] theorem value_sum (x y : UInt64) : (sum x y).value = x + y := rfl

@[simp] theorem events_sum (x y : UInt64) : (sum x y).events = #[] := rfl

/-- A sum that is not a word comes out below its terms. -/
@[simp] theorem overflows_sum (x y : UInt64) : (sum x y).overflows = decide (x + y < x) := by
  have hx := x.toNat_lt
  have hy := y.toNat_lt
  simp only [sum, UInt64.size, UInt64.lt_iff_toNat_lt, UInt64.toNat_add]
  congr 1
  simp
  omega

@[simp] theorem stops_pure (a : α) (traced : Bool) : (pure a : Logged α).stops traced = false := by
  simp [stops]

@[simp] theorem stops_bind (x : Logged α) (f : α → Logged β) (traced : Bool) :
    (x >>= f).stops traced = (x.stops traced || (f x.value).stops traced) := by
  simp only [stops, overflows_bind, events_bind, Array.any_append, Bool.and_or_distrib_left]
  ac_rfl

@[simp] theorem stops_map (g : α → β) (x : Logged α) (traced : Bool) :
    (g <$> x).stops traced = x.stops traced := by
  simp only [stops, overflows_map, events_map]

theorem stops_emit (e : Event) (traced : Bool) :
    (emit e).stops traced = (traced && e.overflows) := by
  simp [stops, emit]

instance : LawfulMonad Logged := LawfulMonad.mk' Logged
  (fun x => by ext1 <;> simp)
  (fun a f => by ext1 <;> simp)
  (fun x f g => by ext1 <;> simp [Array.append_assoc, Bool.or_assoc])

/-- Folds a list, logging the events of every step in order. -/
def fold (step : σ → α → Logged σ) (start : σ) (xs : List α) : Logged σ :=
  xs.foldl (fun acc x => acc >>= fun s => step s x) (pure start)

/-- The value of a fold is the fold of the values. -/
theorem value_fold (step : σ → α → Logged σ) (start : σ) (xs : List α) :
    (fold step start xs).value = xs.foldl (fun s x => (step s x).value) start := by
  suffices h : ∀ acc : Logged σ, (xs.foldl (fun acc x => acc >>= fun s => step s x) acc).value =
      xs.foldl (fun s x => (step s x).value) acc.value from h (pure start)
  induction xs with
  | nil => intro acc; rfl
  | cons x xs ih => intro acc; rw [List.foldl_cons, ih]; rfl

end Logged

end KineticText
