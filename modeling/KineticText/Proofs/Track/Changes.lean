import Mathlib.Data.Set.Card
import KineticText.Proofs.Track.Regular

/-! Which characters of a scrambled element have changed.  A character changes with the step that
its place in the order says, so its rank is compared with the number of steps; the order and the
ranks are inverse permutations, so the characters that have changed are a first part of the order,
with no character twice.  Main statement: so it is for every track that any use leaves, while
revealing and while hiding, and as long as the order is not built anew more steps only change more
characters. -/

namespace KineticText

/-! ### Parts of an order -/

namespace Inverse

variable {order : List Nat} {rank : Array Nat} {count steps index : Nat}

theorem length_order_eq (h : Inverse order rank count) : order.length = count := by
  rw [h.order_perm.length_eq, List.length_range]

theorem nodup_order (h : Inverse order rank count) : order.Nodup :=
  h.order_perm.nodup_iff.mpr List.nodup_range

theorem mem_take_iff (h : Inverse order rank count) :
    index ∈ order.take (min steps count) ↔ ∃ place < steps, rank[index]? = some place := by
  rw [← h.length_order_eq, ← List.take_eq_take_min]
  simp only [h.rank_order, List.mem_iff_getElem?, List.getElem?_take]
  constructor
  · rintro ⟨place, hplace⟩
    split at hplace
    · exact ⟨place, ‹_›, hplace⟩
    · cases hplace
  · rintro ⟨place, hlt, hplace⟩
    exact ⟨place, by rw [if_pos hlt, hplace]⟩

theorem mem_drop_iff (h : Inverse order rank count) :
    index ∈ order.drop (min steps count) ↔
      ∃ place, steps ≤ place ∧ rank[index]? = some place := by
  simp only [h.rank_order, List.mem_iff_getElem?, List.getElem?_drop]
  constructor
  · rintro ⟨place, hplace⟩
    obtain ⟨hlt, -⟩ := List.getElem?_eq_some_iff.mp hplace
    rw [h.length_order_eq] at hlt
    exact ⟨_, by omega, hplace⟩
  · rintro ⟨place, hle, hplace⟩
    have hmin : min steps count ≤ place := (Nat.min_le_left _ _).trans hle
    exact ⟨place - min steps count, by rwa [Nat.add_sub_cancel' hmin]⟩

end Inverse

/-! ### Modes -/

/-- The modes in which each step changes one more character: it becomes clear while revealing, and
scrambled while hiding. -/
inductive ScrambleMode.ChangesTo : ScrambleMode → Bool → Prop
  | clear : ChangesTo .reveal false
  | scrambled : ChangesTo .hide true

namespace ScrambleTrack

variable {t : ScrambleTrack} {index count : Nat} {mode : ScrambleMode} {changed : Bool}
  {use : ScrambleUse} {uses : List ScrambleUse}

theorem isScrambled_iff (hmode : mode.ChangesTo changed) (speed : Float) (now : Millis) :
    t.isScrambled index mode speed now = .ok changed ↔
      ∃ place < t.steps speed now, t.rank[index]? = some place := by
  unfold isScrambled
  cases t.rank[index]? with
  | none => simp
  | some place => cases hmode <;> simp

theorem isScrambled_not_iff (hmode : mode.ChangesTo changed) (speed : Float) (now : Millis) :
    t.isScrambled index mode speed now = .ok (!changed) ↔
      ∃ place, t.steps speed now ≤ place ∧ t.rank[index]? = some place := by
  unfold isScrambled
  cases t.rank[index]? with
  | none => simp
  | some place => cases hmode <;> simp

/-! ### Uses that keep the order -/

/-- A use that does not build the order anew.  A reset does not either; it takes the number of steps
back. -/
def KeepsOrder (t : ScrambleTrack) : ScrambleUse → Prop
  | .sync count direction seed _ => t.isOrdered count direction seed = true
  | .stepRandom _ _ | .reset _ => True

/-- Uses none of which builds the order anew. -/
def KeepsOrderThrough (t : ScrambleTrack) : List ScrambleUse → Prop
  | [] => True
  | use :: rest => t.KeepsOrder use ∧ (t.used use).KeepsOrderThrough rest

theorem KeepsOrder.rank_eq (h : t.KeepsOrder use) : (t.used use).rank = t.rank := by
  cases use with
  | sync count direction seed now =>
    have hawake : (t.awake now).isOrdered count direction seed = true ∧
        (t.awake now).rank = t.rank := by
      unfold awake
      split <;> exact ⟨h, rfl⟩
    have hsync : (t.sync count direction seed now).value.rank = (t.awake now).rank := by
      rw [value_sync]
      unfold reorder
      rw [if_pos hawake.1]
    exact hsync.trans hawake.2
  | stepRandom now timing =>
    obtain ⟨active, lastSpawn, generator, heq⟩ := t.exists_stepRandom now timing
    have hrank : (t.stepRandom now timing).value.rank = t.rank := by rw [heq]
    exact hrank
  | reset now => rfl

theorem KeepsOrderThrough.rank_eq (h : t.KeepsOrderThrough uses) :
    (uses.foldl used t).rank = t.rank := by
  induction uses generalizing t with
  | nil => rfl
  | cons use rest ih => exact (ih h.2).trans h.1.rank_eq

/-- What has changed is still so when no fewer steps have passed. -/
theorem KeepsOrderThrough.isScrambled_eq (h : t.KeepsOrderThrough uses)
    (hmode : mode.ChangesTo changed) {speed speed' : Float} {now now' : Millis}
    (hsteps : t.steps speed now ≤ (uses.foldl used t).steps speed' now')
    (hchanged : t.isScrambled index mode speed now = .ok changed) :
    (uses.foldl used t).isScrambled index mode speed' now' = .ok changed := by
  obtain ⟨place, hlt, hplace⟩ := (isScrambled_iff hmode speed now).mp hchanged
  -- The character has the same place as before, and the steps have passed it already.
  exact (isScrambled_iff hmode speed' now').mpr
    ⟨place, Nat.lt_of_lt_of_le hlt hsteps, h.rank_eq ▸ hplace⟩

/-! ### What has changed -/

/-- In a mode the characters of the track change in its order, one with each step: those that have
changed are the first of the order, as many as there have been steps, and they stay changed. -/
structure ChangesInOrder (t : ScrambleTrack) (count : Nat) (mode : ScrambleMode) (changed : Bool) :
    Prop where
  length : t.order.length = count
  first : ∀ speed now index, t.isScrambled index mode speed now = .ok changed ↔
    index ∈ t.order.take (min (t.steps speed now) count)
  others : ∀ speed now index, t.isScrambled index mode speed now = .ok (!changed) ↔
    index ∈ t.order.drop (min (t.steps speed now) count)
  ncard : ∀ speed now, Set.ncard {index | t.isScrambled index mode speed now = .ok changed} =
    min (t.steps speed now) count
  stays : ∀ later, t.KeepsOrderThrough later → ∀ speed now speed' now',
    t.steps speed now ≤ (later.foldl used t).steps speed' now' →
      ∀ index, t.isScrambled index mode speed now = .ok changed →
        (later.foldl used t).isScrambled index mode speed' now' = .ok changed

theorem Regular.isScrambled_iff_mem_take (h : t.Regular count) (hmode : mode.ChangesTo changed)
    (speed : Float) (now : Millis) :
    t.isScrambled index mode speed now = .ok changed ↔
      index ∈ t.order.take (min (t.steps speed now) count) :=
  (isScrambled_iff hmode speed now).trans h.inverse.mem_take_iff.symm

theorem Regular.ncard_isScrambled (h : t.Regular count) (hmode : mode.ChangesTo changed)
    (speed : Float) (now : Millis) :
    Set.ncard {index | t.isScrambled index mode speed now = .ok changed} =
      min (t.steps speed now) count := by
  have hset : {index | t.isScrambled index mode speed now = .ok changed} =
      ((t.order.take (min (t.steps speed now) count)).toFinset : Set Nat) := by
    ext index
    rw [List.coe_toFinset]
    exact h.isScrambled_iff_mem_take hmode speed now
  have hnodup : (t.order.take (min (t.steps speed now) count)).Nodup :=
    (List.take_sublist _ _).nodup h.inverse.nodup_order
  rw [hset, Set.ncard_coe_finset, List.toFinset_card_of_nodup hnodup, List.length_take,
    h.inverse.length_order_eq]
  omega

theorem Regular.changesInOrder (h : t.Regular count) (hmode : mode.ChangesTo changed) :
    t.ChangesInOrder count mode changed where
  length := h.inverse.length_order_eq
  first speed now _ := h.isScrambled_iff_mem_take hmode speed now
  others speed now _ := (isScrambled_not_iff hmode speed now).trans h.inverse.mem_drop_iff.symm
  ncard := h.ncard_isScrambled hmode
  stays _ hlater _ _ _ _ hsteps _ := hlater.isScrambled_eq hmode hsteps

/-- Every track that any use leaves, for the number of characters that it was synchronized for last,
reveals and hides its characters in its order. -/
theorem changesInOrder_uses (now resetDelay : Millis) (seed : UInt64) (uses : List ScrambleUse) :
    let t := uses.foldl used (start now resetDelay seed)
    let count := uses.foldl ScrambleUse.countAfter 0
    t.ChangesInOrder count .reveal false ∧ t.ChangesInOrder count .hide true := by
  have hsound := sound_start now resetDelay seed
  have hempty : (start now resetDelay seed).order.Perm (List.range 0) := .refl []
  have hregular := (hsound.regular hempty List.nodup_nil).uses hsound uses
  exact ⟨hregular.changesInOrder .clear, hregular.changesInOrder .scrambled⟩

/-- Of five characters that are revealed from the middle, one every ten milliseconds, two are clear
after 25 milliseconds. -/
example :
    let t := (start 0 1000 7).used (.sync 5 .center 7 100)
    ((List.range 5).map fun index => (t.isScrambled index .reveal 10.0 125).toOption) =
      [some true, some true, some false, some false, some true] := by decide +kernel

end ScrambleTrack

end KineticText
