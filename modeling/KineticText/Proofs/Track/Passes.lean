import KineticText.Proofs.Track.Deadlines

/-! Passes over the track of a scrambled element.  Every character that is drawn synchronizes the
track and moves its subset on, so a frame makes many passes at one time.  The first may reset the
track, take up another order, let characters leave and others join.  It leaves the track up to date,
a subset whose time is not over, and no occasion to grow.  Main statement: when no deadline
overflows, a second pass with the same arguments changes nothing. -/

namespace KineticText.ScrambleTrack

variable {t : ScrambleTrack} {count : Nat} {direction : Direction} {seed : UInt64}
  {now : Millis} {timing : ScrambleTiming}

/-- The track is up to date for an element. -/
structure IsCurrent (t : ScrambleTrack) (count : Nat) (direction : Direction) (seed : UInt64)
    (now : Millis) : Prop where
  ordered : t.isOrdered count direction seed = true
  begun : t.origin.isSome
  accessed : t.lastAccess = now

theorem isOrdered_reorder (t : ScrambleTrack) (count : Nat) (direction : Direction)
    (seed : UInt64) :
    (t.reorder count direction seed).isOrdered count direction seed = true := by
  unfold reorder
  split
  · assumption
  · simp [isOrdered, length_order]

theorem isCurrent_sync (t : ScrambleTrack) (count : Nat) (direction : Direction) (seed : UInt64)
    (now : Millis) :
    (t.sync count direction seed now).value.IsCurrent count direction seed now := by
  rw [value_sync]
  exact ⟨isOrdered_reorder _ _ _ _, rfl, rfl⟩

/-- Synchronizing a track that is up to date changes and reports nothing. -/
theorem IsCurrent.sync_eq (h : t.IsCurrent count direction seed now) (hlasting : 0 < t.resetDelay) :
    t.sync count direction seed now = pure t := by
  have hrecent : ¬ t.resetDelay ≤ now.since t.lastAccess := by
    rw [h.accessed, Millis.since_self]
    exact UInt64.not_le.mpr hlasting
  have hwaits : t.resetIdle now = pure t := by simp [resetIdle, isIdle, hrecent]
  have hordered : t.reorder count direction seed = t := if_pos h.ordered
  have hsame : { t with origin := some (t.origin.getD now), lastAccess := now } = t := by
    obtain ⟨origin, horigin⟩ := Option.isSome_iff_exists.mp h.begun
    rw [horigin, Option.getD_some, ← horigin, ← h.accessed]
  simp only [sync, hwaits, pure_bind, hordered, hsame]

theorem IsCurrent.stepRandom (h : t.IsCurrent count direction seed now) (timing : ScrambleTiming) :
    (t.stepRandom now timing).value.IsCurrent count direction seed now := by
  obtain ⟨active, lastSpawn, generator, heq⟩ := t.exists_stepRandom now timing
  rw [heq]
  exact ⟨h.ordered, h.begun, h.accessed⟩

/-- A step whose deadlines do not overflow leaves nothing to do at its time. -/
theorem isSteady_of_not_overflows (hpoll : 0 < timing.pollInterval)
    (hdeadline : 0 < timing.minDeadline) (hfits : (t.stepRandom now timing).overflows = false) :
    (t.stepRandom now timing).value.IsSteady now timing := by
  refine ⟨?_, mayGrow_stepRandom now t hpoll⟩
  obtain ⟨added, lastSpawn, generator, heq, -, -, hjoins⟩ := stepRandom_eq now timing t
  rw [heq] at hfits ⊢
  intro entry hentry
  rcases List.mem_append.mp hentry with hjoined | hkept
  · have hle : ¬ entry.2 < now := by simpa using List.any_eq_false.mp hfits entry hjoined
    obtain ⟨g, hdrawn⟩ := hjoins.draws entry hjoined
    have hpos := (g.between_mem timing.minDeadline timing.maxDeadline).1
    have hword := (g.between timing.minDeadline timing.maxDeadline).1.toNat_lt
    rw [UInt64.lt_iff_toNat_lt, UInt64.toNat_zero] at hdeadline
    rw [UInt64.lt_iff_toNat_lt, hdrawn, UInt64.toNat_add] at hle ⊢
    omega
  · exact of_decide_eq_true (List.mem_filter.mp hkept).2

/-- A pass: the track is synchronized, then its subset moves on. -/
def pass (t : ScrambleTrack) (count : Nat) (direction : Direction) (seed : UInt64) (now : Millis)
    (timing : ScrambleTiming) : Logged ScrambleTrack := do
  (← t.sync count direction seed now).stepRandom now timing

theorem overflows_sync (t : ScrambleTrack) (count : Nat) (direction : Direction) (seed : UInt64)
    (now : Millis) : (t.sync count direction seed now).overflows = false := by
  unfold sync resetIdle
  split <;> rfl

theorem overflows_pass (hfits : now.toNat + timing.longest < 2 ^ 64) (t : ScrambleTrack)
    (count : Nat) (direction : Direction) (seed : UInt64) :
    (t.pass count direction seed now timing).overflows = false := by
  rw [pass, Logged.overflows_bind, overflows_sync, overflows_stepRandom hfits, Bool.or_false]

/-- When no deadline of a pass overflows, a second pass with the same arguments leaves the whole
track as it is, reports nothing and does not stop. -/
theorem pass_pass (hlasting : 0 < t.resetDelay) (hpoll : 0 < timing.pollInterval)
    (hdeadline : 0 < timing.minDeadline)
    (hfits : (t.pass count direction seed now timing).overflows = false) :
    let passed := (t.pass count direction seed now timing).value
    passed.pass count direction seed now timing = pure passed := by
  intro passed
  rw [pass, Logged.overflows_bind, overflows_sync, Bool.false_or] at hfits
  have hcurrent : passed.IsCurrent count direction seed now :=
    (t.isCurrent_sync count direction seed now).stepRandom timing
  have hdelay : passed.resetDelay = t.resetDelay :=
    (resetDelay_stepRandom _ now timing).trans (t.resetDelay_sync count direction seed now)
  have hsteady : passed.IsSteady now timing := isSteady_of_not_overflows hpoll hdeadline hfits
  rw [pass, hcurrent.sync_eq (hdelay ▸ hlasting), pure_bind]
  exact hsteady.stepRandom

/-- A track that drifts at the time 0. -/
def drifted : ScrambleTrack := ((start 0 1000 7).used (.sync 4 .left 7 0)).used (.stepRandom 0 {})

/-- At the time 5000 it is idle: the first pass resets it, takes up another order and lets the
subset grow. -/
theorem pass_pass_idle :
    let passed := (drifted.pass 6 .random 9 5000 {}).value
    drifted.active ≠ [] ∧ drifted.isIdle 5000 = true ∧ passed.order.length = 6 ∧
      passed.active ≠ [] ∧ 0 < drifted.resetDelay ∧ 0 < ({} : ScrambleTiming).pollInterval ∧
      0 < ({} : ScrambleTiming).minDeadline ∧
      (drifted.pass 6 .random 9 5000 {}).overflows = false ∧
      passed.pass 6 .random 9 5000 {} = pure passed :=
  have hfits := overflows_pass (by decide) drifted 6 .random 9
  ⟨by decide +kernel, by decide +kernel, by decide +kernel, by decide +kernel, by decide +kernel,
    by decide, by decide, hfits, pass_pass (by decide +kernel) (by decide) (by decide) hfits⟩

end KineticText.ScrambleTrack
