import Mathlib.Algebra.Order.Group.Defs
import Mathlib.Algebra.Order.Ring.Int
import Mathlib.Order.Bounds.Basic
import KineticText.Proofs.Track.Restarts

/-! The time of a typewriter over many calls.  The track keeps only the tick at which its reveal
began and what the last call said, yet its answers are a matter of the whole history: a call begins
a reveal or belongs to the one that the latest such call began, and it is answered with the ticks
since then.  That holds for ticks of any type, floats among them.  Main statement: so it is for
every sequence of calls whose clock does not run backwards, and for ticks that are exact numbers no
answer is below zero. -/

namespace KineticText

/-- The latest number that has a property is the last one, if that has it. -/
theorem isGreatest_le_self {P : ℕ → Prop} {n : ℕ} (h : P n) : IsGreatest {i | i ≤ n ∧ P i} n :=
  ⟨⟨Nat.le_refl n, h⟩, fun _ hi => hi.1⟩

theorem isGreatest_le_succ {P : ℕ → Prop} {n k : ℕ} (h : IsGreatest {i | i ≤ n ∧ P i} k)
    (hnot : ¬ P (n + 1)) : IsGreatest {i | i ≤ n + 1 ∧ P i} k := by
  refine ⟨⟨Nat.le_succ_of_le h.1.1, h.1.2⟩, fun i hi => ?_⟩
  rcases Nat.le_succ_iff.mp hi.1 with hle | rfl
  · exact h.2 ⟨hle, hi.2⟩
  · exact absurd hi.2 hnot

/-- A call to the track of a typewriter. -/
structure TypewriterCall (τ : Type) where
  now : Millis
  ticks : τ
  total : Nat

/-- A new track and the calls to it, all under one policy.  They go on for ever; what is said of a
call depends on those up to it only. -/
structure TypewriterRun (τ : Type) where
  created : Millis
  resetDelay : Millis
  policy : RestartPolicy
  calls : ℕ → TypewriterCall τ

namespace TypewriterRun

variable {τ : Type}

section Answers

variable [LT τ] [DecidableLT τ] [Sub τ]

/-- The track before the call with a number. -/
def track (r : TypewriterRun τ) : ℕ → TypewriterTrack τ
  | 0 => .start r.created r.resetDelay
  | n + 1 =>
    ((r.track n).elapsed (r.calls n).now (r.calls n).ticks (r.calls n).total r.policy).value.2

/-- What the call with a number is answered. -/
def answer (r : TypewriterRun τ) (n : ℕ) : τ :=
  ((r.track n).elapsed (r.calls n).now (r.calls n).ticks (r.calls n).total r.policy).value.1

/-- The track when the call with a number has looked for reasons to start over. -/
def settled (r : TypewriterRun τ) (n : ℕ) : TypewriterTrack τ :=
  (r.track n).settled (r.calls n).now (r.calls n).ticks (r.calls n).total r.policy

/-- The call with a number begins a reveal: it finds no start, and its ticks become the start. -/
def Begins (r : TypewriterRun τ) (n : ℕ) : Prop := (r.settled n).origin = none

/-- The reveal that runs after call `n` was begun by call `k`, the latest one to begin a reveal. -/
def RunsSince (r : TypewriterRun τ) (n k : ℕ) : Prop := IsGreatest {i | i ≤ n ∧ r.Begins i} k

/-- What makes the call after call `n` begin a reveal: the reset delay has passed between the two,
the text has changed and the policy looks at that, or the ticks are before those of the reveal that
runs. -/
def StartsOver (r : TypewriterRun τ) (n : ℕ) : Prop :=
  (r.calls n).now.toNat + r.resetDelay.toNat ≤ (r.calls (n + 1)).now.toNat ∨
    (r.policy = .onTextChange ∧ (r.calls (n + 1)).total ≠ (r.calls n).total) ∨
    ∃ k, r.RunsSince n k ∧ (r.calls (n + 1)).ticks < (r.calls k).ticks

variable {r : TypewriterRun τ} {n k : ℕ}

/-! ### One call -/

theorem settles_settled (r : TypewriterRun τ) (n : ℕ) :
    (r.track n).Settles (r.calls n).now (r.calls n).ticks (r.calls n).total r.policy
      (r.settled n) := (r.track n).settles_settled _ _ _ _

theorem answer_eq (r : TypewriterRun τ) (n : ℕ) :
    r.answer n = (r.calls n).ticks - (r.settled n).origin.getD (r.calls n).ticks := rfl

theorem track_succ (r : TypewriterRun τ) (n : ℕ) :
    r.track (n + 1) =
      { r.settled n with
        origin := some ((r.settled n).origin.getD (r.calls n).ticks)
        total := some (r.calls n).total
        lastAccess := (r.calls n).now } := rfl

theorem resetDelay_track (r : TypewriterRun τ) (n : ℕ) :
    (r.track n).resetDelay = r.resetDelay := by
  induction n with
  | zero => rfl
  | succ n ih => exact (r.settles_settled n).resetDelay_eq.trans ih

theorem begins_zero (r : TypewriterRun τ) : r.Begins 0 :=
  (r.settles_settled 0).origin_eq_none_iff.mpr (.inl rfl)

/-! ### The history -/

/-- The start of the track is the tick of the call that began the reveal. -/
theorem exists_runsSince (r : TypewriterRun τ) (n : ℕ) :
    ∃ k, r.RunsSince n k ∧ (r.track (n + 1)).origin = some (r.calls k).ticks := by
  have hnew (n : ℕ) (hbegins : r.Begins n) :
      (r.track (n + 1)).origin = some (r.calls n).ticks := by
    rw [track_succ, hbegins]
    rfl
  induction n with
  | zero => exact ⟨0, isGreatest_le_self r.begins_zero, hnew 0 r.begins_zero⟩
  | succ n ih =>
    by_cases hbegins : r.Begins (n + 1)
    · exact ⟨n + 1, isGreatest_le_self hbegins, hnew (n + 1) hbegins⟩
    · obtain ⟨k, hruns, horigin⟩ := ih
      refine ⟨k, isGreatest_le_succ hruns hbegins, ?_⟩
      have hkept := (r.settles_settled (n + 1)).origin_eq hbegins
      rw [track_succ, hkept, horigin]
      rfl

/-- A call is answered with the ticks since the call that began the reveal. -/
theorem RunsSince.answer_eq (h : r.RunsSince n k) :
    r.answer n = (r.calls n).ticks - (r.calls k).ticks := by
  obtain ⟨k', hruns, horigin⟩ := r.exists_runsSince n
  rw [track_succ, Option.some_inj] at horigin
  rw [TypewriterRun.answer_eq, horigin, h.unique hruns]

theorem begins_succ_iff (hclock : (r.calls n).now ≤ (r.calls (n + 1)).now) :
    r.Begins (n + 1) ↔ r.StartsOver n := by
  obtain ⟨k, hruns, horigin⟩ := r.exists_runsSince n
  have hsome : (r.track (n + 1)).origin ≠ none := by rw [horigin]; exact Option.some_ne_none _
  have hidle : (r.track (n + 1)).isIdle (r.calls (n + 1)).now = true ↔
      (r.calls n).now.toNat + r.resetDelay.toNat ≤ (r.calls (n + 1)).now.toNat := by
    have hlast : (r.track (n + 1)).lastAccess = (r.calls n).now := rfl
    rw [UInt64.le_iff_toNat_le] at hclock
    rw [TypewriterTrack.isIdle, horigin, Option.isSome_some, Bool.true_and, decide_eq_true_eq,
      UInt64.le_iff_toNat_le, Millis.toNat_since, hlast, resetDelay_track]
    omega
  have hchanged : (r.track (n + 1)).IsChanged (r.calls (n + 1)).total r.policy ↔
      r.policy = .onTextChange ∧ (r.calls (n + 1)).total ≠ (r.calls n).total := by
    have htotal : (r.track (n + 1)).total = some (r.calls n).total := rfl
    simp only [TypewriterTrack.IsChanged, htotal, Option.mem_some_iff, exists_eq_left', ne_comm]
  have hbackward : (r.track (n + 1)).IsBackward (r.calls (n + 1)).ticks ↔
      ∃ k, r.RunsSince n k ∧ (r.calls (n + 1)).ticks < (r.calls k).ticks := by
    simp only [TypewriterTrack.IsBackward, horigin, Option.mem_some_iff, exists_eq_left']
    exact ⟨fun hlt => ⟨k, hruns, hlt⟩, fun ⟨k', hruns', hlt⟩ => hruns.unique hruns' ▸ hlt⟩
  rw [Begins, (r.settles_settled (n + 1)).origin_eq_none_iff, hidle, hchanged, hbackward,
    StartsOver]
  exact or_iff_right hsome

end Answers

/-- The answers to calls are a matter of their history: the first call begins a reveal, a later one
does exactly when there is a reason to start over, and a call is answered with the ticks since the
latest call that began a reveal, which are never below zero. -/
theorem answers_since_latest [AddCommGroup τ] [LinearOrder τ] [IsOrderedAddMonoid τ]
    (r : TypewriterRun τ) (n : ℕ)
    (hclock : ∀ m < n, (r.calls m).now ≤ (r.calls (m + 1)).now) :
    r.Begins 0 ∧ (∀ m < n, r.Begins (m + 1) ↔ r.StartsOver m) ∧
      ∃ k, r.RunsSince n k ∧ r.answer n = (r.calls n).ticks - (r.calls k).ticks ∧
        0 ≤ r.answer n := by
  refine ⟨r.begins_zero, fun m hm => begins_succ_iff (hclock m hm), ?_⟩
  obtain ⟨k, hruns, -⟩ := r.exists_runsSince n
  refine ⟨k, hruns, hruns.answer_eq, ?_⟩
  rw [answer_eq, sub_nonneg]
  cases horigin : (r.settled n).origin with
  | none => exact le_refl _
  | some origin =>
    exact not_lt.mp fun hlt => (r.settles_settled n).not_isBackward ⟨origin, horigin, hlt⟩

/-- Eight calls: the third has another text, the fifth goes back before the third, the seventh comes
after the reset delay, and the others go on. -/
def interrupted : TypewriterRun ℤ where
  created := 0
  resetDelay := 1000
  policy := .onTextChange
  calls n := [⟨0, 10, 5⟩, ⟨400, 14, 5⟩, ⟨900, 20, 6⟩, ⟨1000, 23, 6⟩, ⟨1100, 12, 6⟩, ⟨1200, 15, 6⟩,
    ⟨2200, 18, 6⟩].getD n ⟨2300, 25, 6⟩

theorem answers_interrupted :
    (∀ m < 7, (interrupted.calls m).now ≤ (interrupted.calls (m + 1)).now) ∧
      (List.range 8).map interrupted.answer = [0, 4, 0, 3, 0, 3, 0, 7] ∧
      ∃ k, interrupted.RunsSince 7 k ∧
        interrupted.answer 7 = (interrupted.calls 7).ticks - (interrupted.calls k).ticks ∧
        0 ≤ interrupted.answer 7 :=
  ⟨by decide, by decide, (answers_since_latest interrupted 7 (by decide)).2.2⟩

end TypewriterRun

end KineticText
