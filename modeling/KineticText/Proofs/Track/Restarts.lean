import Mathlib.Algebra.Ring.Nat
import KineticText.Track.Typewriter

/-! How often a typewriter starts over.  A call looks for an idle time, for a change of the text and
for ticks that run backwards, in this order, and each of them that it finds takes the start of the
track away and counts.  The first and the last look at a track that has a start; a change of the
text counts also when the start is gone, because the call has just found the track idle or because
it was taken away between calls.  Main statement: one call counts one restart, and exactly when it
discards a start, but for such a change. -/

namespace KineticText

namespace TypewriterTrack

variable {τ : Type}

/-- The track was last asked for another number of characters, and the policy looks at that. -/
def IsChanged (t : TypewriterTrack τ) (total : Nat) (policy : RestartPolicy) : Prop :=
  policy = .onTextChange ∧ ∃ previous ∈ t.total, previous ≠ total

instance (t : TypewriterTrack τ) (total : Nat) (policy : RestartPolicy) :
    Decidable (t.IsChanged total policy) := inferInstanceAs (Decidable (_ ∧ _))

/-- The ticks have run backwards to before the start of the track. -/
def IsBackward [LT τ] (t : TypewriterTrack τ) (ticks : τ) : Prop :=
  ∃ origin ∈ t.origin, ticks < origin

/-! ### One cause at a time -/

section Causes

variable {t : TypewriterTrack τ} {now : Millis} {ticks : τ} {total : Nat} {policy : RestartPolicy}

theorem value_restartIdle (t : TypewriterTrack τ) (now : Millis) :
    (t.restartIdle now).value = if t.isIdle now then t.restart else t := by
  unfold restartIdle
  split <;> rfl

theorem IsChanged.value_restartChanged (h : t.IsChanged total policy) :
    (t.restartChanged total policy).value = t.restart := by
  obtain ⟨rfl, previous, hprevious, hne⟩ := h
  unfold restartChanged
  rw [Option.mem_def.mp hprevious]
  simp only [hne, if_false]
  rfl

theorem value_restartChanged_eq_self (h : ¬ t.IsChanged total policy) :
    (t.restartChanged total policy).value = t := by
  unfold restartChanged
  split
  · rename_i previous hprevious
    split
    · rfl
    · rename_i hne
      exact absurd ⟨rfl, previous, hprevious, hne⟩ h
  · rfl

variable [LT τ] [DecidableLT τ]

theorem IsBackward.restartBackward (h : t.IsBackward ticks) :
    t.restartBackward ticks = t.restart := by
  obtain ⟨origin, horigin, hlt⟩ := h
  rw [TypewriterTrack.restartBackward, Option.mem_def.mp horigin, Option.any_some,
    if_pos (decide_eq_true hlt)]

theorem restartBackward_eq_self (h : ¬ t.IsBackward ticks) : t.restartBackward ticks = t := by
  unfold restartBackward
  cases horigin : t.origin with
  | none => rfl
  | some origin =>
    have hle : ¬ ticks < origin := fun hlt => h ⟨origin, horigin, hlt⟩
    rw [Option.any_some, decide_eq_false hle, if_neg Bool.false_ne_true]

theorem restartBackward_restart (t : TypewriterTrack τ) (ticks : τ) :
    t.restart.restartBackward ticks = t.restart :=
  restartBackward_eq_self fun ⟨_, horigin, _⟩ => nomatch horigin

end Causes

/-! ### What a call finds -/

/-- What a call can find, and what that makes of the track. -/
inductive Settles [LT τ] (t : TypewriterTrack τ) (now : Millis) (ticks : τ) (total : Nat)
    (policy : RestartPolicy) : TypewriterTrack τ → Prop
  | idleAndChanged (hidle : t.isIdle now = true) (hchanged : t.IsChanged total policy) :
    Settles t now ticks total policy t.restart.restart
  | idle (hidle : t.isIdle now = true) (hchanged : ¬ t.IsChanged total policy) :
    Settles t now ticks total policy t.restart
  | changed (hidle : ¬ t.isIdle now = true) (hchanged : t.IsChanged total policy) :
    Settles t now ticks total policy t.restart
  | backward (hidle : ¬ t.isIdle now = true) (hchanged : ¬ t.IsChanged total policy)
    (hbackward : t.IsBackward ticks) : Settles t now ticks total policy t.restart
  | runsOn (hidle : ¬ t.isIdle now = true) (hchanged : ¬ t.IsChanged total policy)
    (hbackward : ¬ t.IsBackward ticks) : Settles t now ticks total policy t

namespace Settles

variable [LT τ] {t t' : TypewriterTrack τ} {now : Millis} {ticks : τ} {total : Nat}
  {policy : RestartPolicy}

/-- Afterwards the track has no start if it had none, or if there was a reason to start over. -/
theorem origin_eq_none_iff (h : t.Settles now ticks total policy t') :
    t'.origin = none ↔ t.origin = none ∨ t.isIdle now = true ∨ t.IsChanged total policy ∨
      t.IsBackward ticks := by
  cases h with
  | idleAndChanged hidle hchanged => exact iff_of_true rfl (.inr (.inl hidle))
  | idle hidle hchanged => exact iff_of_true rfl (.inr (.inl hidle))
  | changed hidle hchanged => exact iff_of_true rfl (.inr (.inr (.inl hchanged)))
  | backward hidle hchanged hbackward => exact iff_of_true rfl (.inr (.inr (.inr hbackward)))
  | runsOn hidle hchanged hbackward =>
    refine ⟨.inl, ?_⟩
    rintro (hnone | hidle' | hchanged' | hbackward')
    · exact hnone
    · exact absurd hidle' hidle
    · exact absurd hchanged' hchanged
    · exact absurd hbackward' hbackward

/-- A start that is left is kept. -/
theorem origin_eq (h : t.Settles now ticks total policy t') (hsome : t'.origin ≠ none) :
    t'.origin = t.origin := by
  cases h with
  | runsOn _ _ _ => rfl
  | _ => exact absurd rfl hsome

theorem resetDelay_eq (h : t.Settles now ticks total policy t') : t'.resetDelay = t.resetDelay := by
  cases h <;> rfl

/-- A start that is left is not ahead of the ticks. -/
theorem not_isBackward (h : t.Settles now ticks total policy t') : ¬ t'.IsBackward ticks := by
  cases h with
  | runsOn _ _ hbackward => exact hbackward
  | _ => exact fun ⟨_, horigin, _⟩ => nomatch horigin

end Settles

section Settled

variable [LT τ] [DecidableLT τ] (t : TypewriterTrack τ) (now : Millis) (ticks : τ) (total : Nat)
  (policy : RestartPolicy)

/-- The track after a call has looked for reasons to start over. -/
def settled : TypewriterTrack τ :=
  ((t.restartIdle now).value.restartChanged total policy).value.restartBackward ticks

theorem settles_settled : t.Settles now ticks total policy (t.settled now ticks total policy) := by
  -- A restart leaves the number of characters, so it makes no change of the text.
  have hkeeps : t.restart.IsChanged total policy ↔ t.IsChanged total policy := Iff.rfl
  unfold settled
  by_cases hidle : t.isIdle now = true
  · rw [value_restartIdle, if_pos hidle]
    by_cases hchanged : t.IsChanged total policy
    · rw [(hkeeps.mpr hchanged).value_restartChanged, restartBackward_restart]
      exact .idleAndChanged hidle hchanged
    · rw [value_restartChanged_eq_self (mt hkeeps.mp hchanged), restartBackward_restart]
      exact .idle hidle hchanged
  · rw [value_restartIdle, if_neg hidle]
    by_cases hchanged : t.IsChanged total policy
    · rw [hchanged.value_restartChanged, restartBackward_restart]
      exact .changed hidle hchanged
    · rw [value_restartChanged_eq_self hchanged]
      by_cases hbackward : t.IsBackward ticks
      · rw [hbackward.restartBackward]
        exact .backward hidle hchanged hbackward
      · rw [restartBackward_eq_self hbackward]
        exact .runsOn hidle hchanged hbackward

theorem value_elapsed [Sub τ] :
    (t.elapsed now ticks total policy).value =
      let settled := t.settled now ticks total policy
      let origin := settled.origin.getD ticks
      (ticks - origin,
        { settled with origin := some origin, total := some total, lastAccess := now }) := rfl

/-- The call takes away a start that the track had before it. -/
def Discards : Prop :=
  t.origin.isSome = true ∧ (t.settled now ticks total policy).origin = none

/-- A call counts one restart at most, and one exactly when it discards a start. -/
def CountsOnce [Sub τ] : Prop :=
  let after := (t.elapsed now ticks total policy).value.2
  after.restarts.toNat ≤ t.restarts.toNat + 1 ∧
    (t.restarts < after.restarts ↔ t.Discards now ticks total policy)

end Settled

/-! ### The count -/

theorem toNat_restarts_restart (t : TypewriterTrack τ) :
    t.restart.restarts.toNat = min (t.restarts.toNat + 1) (2 ^ 32 - 1) := by
  have hlt := t.restarts.toNat_lt
  unfold restart
  simp only [beq_iff_eq]
  split
  · rename_i hmost
    rw [hmost]
    rfl
  · rename_i hless
    have hne : t.restarts.toNat ≠ 2 ^ 32 - 1 := fun h => hless (UInt32.toNat_inj.mp h)
    rw [UInt32.toNat_add, UInt32.toNat_one]
    omega

/-- While the count can still grow, a call counts once unless it finds another text where there is
no start: none from before the call, or none any more because the track is idle.  In the last case
the count has to have room for both. -/
theorem countsOnce_iff [LT τ] [DecidableLT τ] [Sub τ] (t : TypewriterTrack τ)
    (hroom : t.restarts.toNat < 2 ^ 32 - 1) (now : Millis) (ticks : τ) (total : Nat)
    (policy : RestartPolicy) :
    t.CountsOnce now ticks total policy ↔
      ¬(t.IsChanged total policy ∧ (t.origin = none ∨
        t.isIdle now = true ∧ t.restarts.toNat + 1 < 2 ^ 32 - 1)) := by
  have hrestart := toNat_restarts_restart t
  have hrestart' := toNat_restarts_restart t.restart
  have hruns (hidle : t.isIdle now = true) : t.origin.isSome = true :=
    (Bool.and_eq_true_iff.mp hidle).1
  have hsettles := t.settles_settled now ticks total policy
  unfold CountsOnce Discards
  rw [value_elapsed]
  simp only [UInt32.lt_iff_toNat_lt]
  generalize t.settled now ticks total policy = after at hsettles
  -- Starting over once is right for a track that has a start.
  have honce (horigin : t.origin.isSome = true) :
      t.restart.restarts.toNat ≤ t.restarts.toNat + 1 ∧
        (t.restarts.toNat < t.restart.restarts.toNat ↔
          t.origin.isSome = true ∧ t.restart.origin = none) :=
    ⟨by omega, iff_of_true (by omega) ⟨horigin, rfl⟩⟩
  cases hsettles with
  | idleAndChanged hidle hchanged =>
    constructor
    · rintro ⟨hle, -⟩ ⟨-, hnone | ⟨-, hroom'⟩⟩
      · rw [hnone] at hruns
        cases hruns hidle
      · omega
    · intro hnot
      have hfull : ¬ t.restarts.toNat + 1 < 2 ^ 32 - 1 := fun hroom' =>
        hnot ⟨hchanged, .inr ⟨hidle, hroom'⟩⟩
      exact ⟨by omega, iff_of_true (by omega) ⟨hruns hidle, rfl⟩⟩
  | idle hidle hchanged => exact iff_of_true (honce (hruns hidle)) fun h => hchanged h.1
  | changed hidle hchanged =>
    cases horigin : t.origin with
    | none =>
      refine iff_of_false (fun h => ?_) fun h => h ⟨hchanged, .inl rfl⟩
      cases (h.2.mp (by omega)).1
    | some origin =>
      rw [horigin] at honce
      exact iff_of_true (honce rfl) fun h => h.2.elim nofun fun h => hidle h.1
  | backward hidle hchanged hbackward =>
    obtain ⟨origin, horigin, -⟩ := hbackward
    exact iff_of_true (honce (Option.isSome_of_mem horigin)) fun h => hchanged h.1
  | runsOn hidle hchanged hbackward =>
    refine iff_of_true ⟨Nat.le_succ _, iff_of_false (Nat.lt_irrefl _) fun h => ?_⟩ fun h =>
      hchanged h.1
    rw [h.2] at h
    cases h.1

/-- A typewriter asked after its reset delay and with ticks before its start starts over once. -/
theorem countsOnce_late :
    let t := ((start 0 1000 : TypewriterTrack Float).elapsed 0 7 5 .onTextChange).value.2
    t.restarts.toNat < 2 ^ 32 - 1 ∧ t.CountsOnce 1000 3 5 .onTextChange :=
  ⟨by decide, (countsOnce_iff _ (by decide) 1000 3 5 .onTextChange).mpr (by decide)⟩

/-- When its text has changed as well, the call counts two restarts. -/
theorem restarts_elapsed_late :
    let t := ((start 0 1000 : TypewriterTrack Float).elapsed 0 7 5 .onTextChange).value.2
    t.restarts = 0 ∧ (t.elapsed 1000 3 6 .onTextChange).value.2.restarts = 2 := by decide

end TypewriterTrack

end KineticText
