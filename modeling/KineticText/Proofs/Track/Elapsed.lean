import KineticText.Proofs.Track.Reveals
import KineticText.Proofs.Track.Scrambles

/-! The time of a scrambled element over many synchronizations.  One function resets the track after
an idle time, builds the order anew for another length, direction or seed, and starts the time of a
track that has none; of these only the reset bears on a time that runs.  Main statement: whatever
the track is synchronized for, and however often the drifting subset moves on in between, the time
that has passed is the one since the latest synchronization that was the first or came after an idle
time. -/

namespace KineticText

namespace ScrambleTrack

variable (t : ScrambleTrack)

/-- The track after steps of its drifting subset. -/
def stepped (steps : List (Millis × ScrambleTiming)) : ScrambleTrack :=
  steps.foldl (fun t step => (t.stepRandom step.1 step.2).value) t

theorem exists_stepped (steps : List (Millis × ScrambleTiming)) :
    ∃ active lastSpawn generator, t.stepped steps = { t with active, lastSpawn, generator } := by
  induction steps generalizing t with
  | nil => exact ⟨t.active, t.lastSpawn, t.generator, rfl⟩
  | cons step rest ih =>
    obtain ⟨_, _, _, hstep⟩ := t.exists_stepRandom step.1 step.2
    obtain ⟨active, lastSpawn, generator, hrest⟩ := ih (t.stepRandom step.1 step.2).value
    refine ⟨active, lastSpawn, generator, ?_⟩
    rw [stepped, List.foldl_cons, ← stepped, hrest, hstep]

theorem elapsed_stepped (steps : List (Millis × ScrambleTiming)) (now : Millis) :
    (t.stepped steps).elapsed now = t.elapsed now := by
  obtain ⟨active, lastSpawn, generator, heq⟩ := t.exists_stepped steps
  rw [heq]
  rfl

end ScrambleTrack

/-- A synchronization of a track: the time, and what the element is then. -/
structure ScrambleSync where
  now : Millis
  count : Nat
  direction : Direction
  seed : UInt64

/-- A new track with its synchronizations, and the steps of its subset before each of them.  They go
on for ever; what is said of a synchronization depends on those up to it only. -/
structure ScrambleRun where
  created : Millis
  resetDelay : Millis
  seed : UInt64
  syncs : ℕ → ScrambleSync
  steps : ℕ → List (Millis × ScrambleTiming)

namespace ScrambleRun

/-- The track before the synchronization with a number. -/
def track (r : ScrambleRun) : ℕ → ScrambleTrack
  | 0 => (ScrambleTrack.start r.created r.resetDelay r.seed).stepped (r.steps 0)
  | n + 1 =>
    ((r.track n).sync (r.syncs n).count (r.syncs n).direction (r.syncs n).seed
      (r.syncs n).now).value.stepped (r.steps (n + 1))

/-- The track after the synchronization with a number. -/
def synced (r : ScrambleRun) (n : ℕ) : ScrambleTrack :=
  ((r.track n).sync (r.syncs n).count (r.syncs n).direction (r.syncs n).seed (r.syncs n).now).value

/-- The synchronization with a number is the first one, or the reset delay has passed since the one
before. -/
def StartsOver (r : ScrambleRun) : ℕ → Prop
  | 0 => True
  | n + 1 => (r.syncs n).now.toNat + r.resetDelay.toNat ≤ (r.syncs (n + 1)).now.toNat

/-- The time after synchronization `n` runs since synchronization `k`, the latest one to start
over. -/
def RunsSince (r : ScrambleRun) (n k : ℕ) : Prop := IsGreatest {i | i ≤ n ∧ r.StartsOver i} k

variable {r : ScrambleRun} {n k : ℕ}

/-! ### One synchronization after another -/

theorem exists_synced (r : ScrambleRun) (n : ℕ) :
    ∃ order rank active, active ⊆ ((r.track n).awake (r.syncs n).now).active ∧
      r.synced n =
        { (r.track n).awake (r.syncs n).now with
          order, rank, direction := some (r.syncs n).direction, seed := (r.syncs n).seed, active
          origin := some (((r.track n).awake (r.syncs n).now).origin.getD (r.syncs n).now)
          lastAccess := (r.syncs n).now } :=
  (r.track n).exists_sync _ _ _ _

theorem exists_track_succ (r : ScrambleRun) (n : ℕ) : ∃ active lastSpawn generator,
    r.track (n + 1) = { r.synced n with active, lastSpawn, generator } :=
  (r.synced n).exists_stepped _

theorem exists_track_zero (r : ScrambleRun) : ∃ active lastSpawn generator,
    r.track 0 = { ScrambleTrack.start r.created r.resetDelay r.seed with
      active, lastSpawn, generator } :=
  (ScrambleTrack.start r.created r.resetDelay r.seed).exists_stepped _

theorem resetDelay_track (r : ScrambleRun) (n : ℕ) : (r.track n).resetDelay = r.resetDelay := by
  induction n with
  | zero =>
    obtain ⟨_, _, _, hnew⟩ := r.exists_track_zero
    rw [hnew]
    rfl
  | succ n ih =>
    obtain ⟨_, _, _, hstepped⟩ := r.exists_track_succ n
    obtain ⟨_, _, _, -, hsynced⟩ := r.exists_synced n
    rw [hstepped, hsynced]
    exact (ScrambleTrack.resetDelay_awake _ _).trans ih

theorem isIdle_track_succ_iff (hclock : (r.syncs n).now ≤ (r.syncs (n + 1)).now) :
    (r.track (n + 1)).isIdle (r.syncs (n + 1)).now = true ↔ r.StartsOver (n + 1) := by
  have hdelay := r.resetDelay_track (n + 1)
  obtain ⟨_, _, _, hstepped⟩ := r.exists_track_succ n
  obtain ⟨_, _, _, -, hsynced⟩ := r.exists_synced n
  have hruns : (r.track (n + 1)).origin.isSome = true := by rw [hstepped, hsynced]; rfl
  have hlast : (r.track (n + 1)).lastAccess = (r.syncs n).now := by rw [hstepped, hsynced]
  rw [UInt64.le_iff_toNat_le] at hclock
  rw [ScrambleTrack.isIdle, hruns, Bool.true_and, decide_eq_true_eq, UInt64.le_iff_toNat_le,
    Millis.toNat_since, hlast, hdelay, StartsOver]
  omega

theorem origin_synced_zero (r : ScrambleRun) : (r.synced 0).origin = some (r.syncs 0).now := by
  obtain ⟨_, _, _, -, hsynced⟩ := r.exists_synced 0
  obtain ⟨_, _, _, hnew⟩ := r.exists_track_zero
  have hawake : ((r.track 0).awake (r.syncs 0).now).origin = none := by
    unfold ScrambleTrack.awake
    rw [hnew]
    split <;> rfl
  rw [hsynced, hawake]
  rfl

/-- After an idle time the time starts over, and the subset is empty. -/
theorem synced_of_isIdle (h : (r.track n).isIdle (r.syncs n).now = true) :
    (r.synced n).origin = some (r.syncs n).now ∧ (r.synced n).active = [] := by
  obtain ⟨order, rank, active, hactive, hsynced⟩ := r.exists_synced n
  rw [ScrambleTrack.awake, if_pos h] at hactive hsynced
  rw [hsynced]
  exact ⟨rfl, List.subset_nil.mp hactive⟩

/-- Without an idle time a track that runs goes on to run since the same time. -/
theorem origin_synced_succ (h : ¬ (r.track (n + 1)).isIdle (r.syncs (n + 1)).now = true) :
    (r.synced (n + 1)).origin = (r.synced n).origin := by
  obtain ⟨_, _, _, -, hsynced⟩ := r.exists_synced (n + 1)
  obtain ⟨_, _, _, hstepped⟩ := r.exists_track_succ n
  obtain ⟨_, _, _, -, hbefore⟩ := r.exists_synced n
  rw [hsynced, ScrambleTrack.awake, if_neg h, hstepped, hbefore]
  rfl

/-! ### The history -/

/-- The track runs since the latest synchronization that started over. -/
theorem exists_runsSince (hclock : ∀ m < n, (r.syncs m).now ≤ (r.syncs (m + 1)).now) :
    ∃ k, r.RunsSince n k ∧ (r.synced n).origin = some (r.syncs k).now := by
  induction n with
  | zero => exact ⟨0, isGreatest_le_self trivial, r.origin_synced_zero⟩
  | succ n ih =>
    have hiff := isIdle_track_succ_iff (hclock n (Nat.lt_succ_self n))
    by_cases hover : r.StartsOver (n + 1)
    · exact ⟨n + 1, isGreatest_le_self hover, (synced_of_isIdle (hiff.mpr hover)).1⟩
    · obtain ⟨k, hruns, horigin⟩ := ih fun m hm => hclock m (Nat.lt_succ_of_lt hm)
      refine ⟨k, isGreatest_le_succ hruns hover, ?_⟩
      rw [origin_synced_succ fun hidle => hover (hiff.mp hidle), horigin]

theorem now_le_of_le (hclock : ∀ m < n, (r.syncs m).now ≤ (r.syncs (m + 1)).now) (h : k ≤ n) :
    (r.syncs k).now ≤ (r.syncs n).now := by
  induction n, h using Nat.le_induction with
  | base => exact UInt64.le_refl _
  | succ n hle ih =>
    exact UInt64.le_trans (ih fun m hm => hclock m (Nat.lt_succ_of_lt hm))
      (hclock n (Nat.lt_succ_self n))

/-- When the clock does not run backwards, a synchronization after an idle time lets the time of the
track start over and empties its subset, and no other one but the first bears on the time, whatever
the track is synchronized for.  The time that has passed, also after further steps of the subset, is
the one since the latest synchronization that started over. -/
theorem elapsed_since_latest (r : ScrambleRun) (n : ℕ)
    (hclock : ∀ m < n, (r.syncs m).now ≤ (r.syncs (m + 1)).now) :
    (∀ m < n,
      (r.StartsOver (m + 1) →
        (r.synced (m + 1)).origin = some (r.syncs (m + 1)).now ∧ (r.synced (m + 1)).active = []) ∧
      (¬ r.StartsOver (m + 1) → (r.synced (m + 1)).origin = (r.synced m).origin)) ∧
    ∃ k, r.RunsSince n k ∧ ∀ steps,
      (r.syncs k).now.toNat + (((r.synced n).stepped steps).elapsed (r.syncs n).now).toNat =
        (r.syncs n).now.toNat := by
  refine ⟨fun m hm => ?_, ?_⟩
  · have hiff := isIdle_track_succ_iff (hclock m hm)
    exact ⟨fun hover => synced_of_isIdle (hiff.mpr hover),
      fun hnot => origin_synced_succ fun hidle => hnot (hiff.mp hidle)⟩
  · obtain ⟨k, hruns, horigin⟩ := exists_runsSince hclock
    refine ⟨k, hruns, fun steps => ?_⟩
    have hle := UInt64.le_iff_toNat_le.mp (now_le_of_le hclock hruns.1.1)
    rw [ScrambleTrack.elapsed_stepped, ScrambleTrack.elapsed, horigin, Millis.toNat_since]
    omega

/-- The second synchronization is for another length and direction, the third comes after the reset
delay and has another seed, and the subset moves on before each of them. -/
def rebuilt : ScrambleRun where
  created := 0
  resetDelay := 1000
  seed := 7
  syncs n := [⟨0, 3, .left, 7⟩, ⟨400, 5, .right, 7⟩, ⟨1400, 5, .right, 9⟩].getD n ⟨1500, 4, .edges, 9⟩
  steps n := [[], [(100, {}), (300, {})], [(500, {})]].getD n [(1450, {})]

theorem elapsed_rebuilt :
    (∀ m < 3, (rebuilt.syncs m).now ≤ (rebuilt.syncs (m + 1)).now) ∧
      ((List.range 4).map fun n => (rebuilt.synced n).elapsed (rebuilt.syncs n).now) =
        [0, 400, 0, 100] ∧
      ((List.range 4).map fun n =>
          ((rebuilt.track n).active.length, (rebuilt.synced n).active.length)) =
        [(0, 0), (1, 1), (3, 0), (2, 1)] ∧
      ∃ k, rebuilt.RunsSince 3 k ∧ ∀ steps, (rebuilt.syncs k).now.toNat +
        (((rebuilt.synced 3).stepped steps).elapsed (rebuilt.syncs 3).now).toNat =
          (rebuilt.syncs 3).now.toNat :=
  ⟨by decide, by decide +kernel, by decide +kernel,
    (elapsed_since_latest rebuilt 3 (by decide)).2⟩

end ScrambleRun

end KineticText
