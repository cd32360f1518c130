import KineticText.Proofs.Track.Uses

/-! Idle times of tracks.  A track that is asked again compares the time since its last access with
its reset delay, and reports that time when it starts over.  For the comparison a clock that has
been set back counts as no time at all.  The report takes the plain difference, which is below zero
then and stops the program, though only while events are traced.  The two agree unless the track
starts over at a time before its last access, and only a track without a reset delay does that.
Main statement: so it is for every track that any use leaves, of both families. -/

namespace KineticText

/-- The time from `last` to `now`; none when the clock has been set back. -/
def idleTime (now last : Millis) : Int := max 0 ((now.toNat : Int) - last.toNat)

theorem toNat_since_eq_idleTime (now last : Millis) :
    ((now.since last).toNat : Int) = idleTime now last := by
  rw [Millis.toNat_since, idleTime]
  omega

/-- A plain difference is the idle time exactly when the clock has not been set back. -/
theorem toNat_sub_eq_idleTime_iff (now last : Millis) :
    ((now - last).toNat : Int) = idleTime now last ↔ last ≤ now := by
  have hnow := now.toNat_lt
  have hlast := last.toNat_lt
  rw [UInt64.toNat_sub, idleTime, UInt64.le_iff_toNat_le]
  omega

/-- A clock that has been set back leaves no idle time, so only a delay of zero has passed. -/
theorem Millis.le_since_iff_of_lt {delay now last : Millis} (h : now < last) :
    delay ≤ now.since last ↔ delay = 0 := by
  rw [UInt64.lt_iff_toNat_lt] at h
  rw [UInt64.le_iff_toNat_le, Millis.toNat_since, ← UInt64.toNat_inj, UInt64.toNat_zero]
  omega

/-- What a call at `now` tells of the time since `last`: whether the track counts as idle, which
event reports that, with which data, and whether the program stops there. -/
structure TellsIdleTime {α : Type} (runs isIdle : Bool) (resetDelay now last : Millis)
    (event : Millis → Millis → Event) (call : Logged α) : Prop where
  isIdle_iff : isIdle = true ↔ runs = true ∧ (resetDelay.toNat : Int) ≤ idleTime now last
  reports_iff : ∀ now' last', event now' last' ∈ call.events ↔
    isIdle = true ∧ now' = now ∧ last' = last
  untraced : call.stops false = false
  stops_iff : call.stops true = true ↔ runs = true ∧ resetDelay = 0 ∧ now < last
  exact_iff : isIdle = true →
    ((event now last).data = [("idle_ms", .count (idleTime now last).toNat)] ↔
      call.stops true = false)

theorem tellsIdleTime {α : Type} {runs isIdle : Bool} {resetDelay now last : Millis}
    {event : Millis → Millis → Event} {call : Logged α}
    (hidle : isIdle = (runs && decide (resetDelay ≤ now.since last)))
    (hdata : (event now last).data = [("idle_ms", .count (now - last).toNat)])
    (hreports : ∀ now' last', event now' last' ∈ call.events ↔
      isIdle = true ∧ now' = now ∧ last' = last)
    (hstops : ∀ traced, call.stops traced = (traced && isIdle && decide (now < last))) :
    TellsIdleTime runs isIdle resetDelay now last event call := by
  have hiff : isIdle = true ↔ runs = true ∧ (resetDelay.toNat : Int) ≤ idleTime now last := by
    rw [hidle, Bool.and_eq_true, decide_eq_true_eq, UInt64.le_iff_toNat_le,
      ← toNat_since_eq_idleTime, Int.ofNat_le]
  refine ⟨hiff, hreports, by simp [hstops], ?_, fun hisIdle => ?_⟩
  · rw [hstops, hidle]
    simp only [Bool.true_and, Bool.and_eq_true, decide_eq_true_eq, and_assoc]
    exact and_congr_right fun _ => and_congr_left fun hlt => Millis.le_since_iff_of_lt hlt
  · have hexact : (idleTime now last).toNat = (now - last).toNat ↔ last ≤ now := by
      have hnonneg : 0 ≤ idleTime now last := Int.le_max_left 0 _
      rw [← toNat_sub_eq_idleTime_iff]
      omega
    rw [hdata, hstops, hisIdle]
    simp [← hexact, eq_comm]

/-! ### Typewriters -/

/-- The last access to a typewriter's track after a use. -/
def TypewriterUse.accessAfter (last : Millis) : TypewriterUse → Millis
  | .elapsed now _ _ _ => now
  | .observe _ | .restart => last

namespace TypewriterTrack

section Call

variable {τ : Type} [LT τ] [DecidableLT τ] [Sub τ] (t : TypewriterTrack τ) (now : Millis)
  (ticks : τ) (total : Nat) (policy : RestartPolicy)

theorem mem_events_elapsed (now' last : Millis) :
    .typewriterIdle now' last ∈ (t.elapsed now ticks total policy).events ↔
      t.isIdle now = true ∧ now' = now ∧ last = t.lastAccess := by
  -- A change of the text reports another event.
  have hchanged : ∀ t' : TypewriterTrack τ,
      .typewriterIdle now' last ∉ (t'.restartChanged total policy).events := by
    intro t'
    unfold restartChanged
    split
    · split <;> simp [Logged.emit]
    · simp
  unfold elapsed restartIdle
  split <;> simp [Logged.emit, *]

theorem stops_elapsed (traced : Bool) :
    (t.elapsed now ticks total policy).stops traced =
      (traced && t.isIdle now && decide (now < t.lastAccess)) := by
  have hchanged : ∀ t' : TypewriterTrack τ,
      (t'.restartChanged total policy).stops traced = false := by
    intro t'
    unfold restartChanged
    split
    · split <;> simp [Logged.stops_emit, Event.overflows]
    · simp
  unfold elapsed restartIdle
  split <;> simp [Logged.stops_emit, Event.overflows, *]

end Call

theorem lastAccess_used (t : TypewriterTrack Float) (use : TypewriterUse) :
    (t.used use).lastAccess = use.accessAfter t.lastAccess := by
  cases use with
  | elapsed now ticks total policy => rfl
  | observe position =>
    simp only [used, observe]
    split <;> rfl
  | restart => rfl

theorem lastAccess_uses (t : TypewriterTrack Float) (uses : List TypewriterUse) :
    (uses.foldl used t).lastAccess = uses.foldl TypewriterUse.accessAfter t.lastAccess :=
  (List.foldl_hom lastAccess fun t use => (t.lastAccess_used use).symm).symm

end TypewriterTrack

/-! ### Scrambled elements -/

/-- The last access to a scrambled element's track after a use. -/
def ScrambleUse.accessAfter (last : Millis) : ScrambleUse → Millis
  | .sync _ _ _ now => now
  | .stepRandom _ _ | .reset _ => last

namespace ScrambleTrack

section Call

variable (t : ScrambleTrack) (count : Nat) (direction : Direction) (seed : UInt64) (now : Millis)

theorem mem_events_sync (now' last : Millis) :
    .obfuscateIdle now' last ∈ (t.sync count direction seed now).events ↔
      t.isIdle now = true ∧ now' = now ∧ last = t.lastAccess := by
  unfold sync resetIdle
  split <;> simp [Logged.emit, *]

theorem stops_sync (traced : Bool) :
    (t.sync count direction seed now).stops traced =
      (traced && t.isIdle now && decide (now < t.lastAccess)) := by
  unfold sync resetIdle
  split <;> simp [Logged.stops_emit, Event.overflows, *]

end Call

theorem lastAccess_used (t : ScrambleTrack) (use : ScrambleUse) :
    (t.used use).lastAccess = use.accessAfter t.lastAccess := by
  cases use with
  | sync count direction seed now => simp only [used, value_sync, ScrambleUse.accessAfter]
  | stepRandom now timing =>
    obtain ⟨active, lastSpawn, generator, heq⟩ := t.exists_stepRandom now timing
    simp only [used, heq, ScrambleUse.accessAfter]
  | reset now => rfl

theorem lastAccess_uses (t : ScrambleTrack) (uses : List ScrambleUse) :
    (uses.foldl used t).lastAccess = uses.foldl ScrambleUse.accessAfter t.lastAccess :=
  (List.foldl_hom lastAccess fun t use => (t.lastAccess_used use).symm).symm

end ScrambleTrack

/-- Whatever has been done to a track, it compares the idle time with its reset delay and reports
it.  The program stops where it reports exactly when events are traced, the track has no reset
delay, and the clock has been set back to before its last access. -/
theorem tellsIdleTime_uses (created resetDelay now : Millis) :
    (∀ (uses : List TypewriterUse) (ticks : Float) (total : Nat) (policy : RestartPolicy),
      let t := uses.foldl TypewriterTrack.used (.start created resetDelay)
      TellsIdleTime t.origin.isSome (t.isIdle now) resetDelay now
        (uses.foldl TypewriterUse.accessAfter created) .typewriterIdle
        (t.elapsed now ticks total policy)) ∧
    ∀ (uses : List ScrambleUse) (seed : UInt64) (count : Nat) (direction : Direction)
      (seed' : UInt64),
      let t := uses.foldl ScrambleTrack.used (.start created resetDelay seed)
      TellsIdleTime t.origin.isSome (t.isIdle now) resetDelay now
        (uses.foldl ScrambleUse.accessAfter created) .obfuscateIdle
        (t.sync count direction seed' now) := by
  constructor
  · intro uses ticks total policy t
    have hlast : t.lastAccess = uses.foldl TypewriterUse.accessAfter created :=
      TypewriterTrack.lastAccess_uses _ uses
    have hdelay : t.resetDelay = resetDelay := TypewriterTrack.resetDelay_uses _ uses
    rw [← hlast, ← hdelay]
    exact tellsIdleTime rfl rfl (t.mem_events_elapsed now ticks total policy)
      (t.stops_elapsed now ticks total policy)
  · intro uses seed count direction seed' t
    have hlast : t.lastAccess = uses.foldl ScrambleUse.accessAfter created :=
      ScrambleTrack.lastAccess_uses _ uses
    have hdelay : t.resetDelay = resetDelay :=
      ((ScrambleTrack.sound_start created resetDelay seed).uses uses).2
    rw [← hlast, ← hdelay]
    exact tellsIdleTime rfl rfl (t.mem_events_sync count direction seed' now)
      (t.stops_sync count direction seed' now)

/-- Tracks without a reset delay that are asked at 100 and, with the clock set back, at 40 have not
been idle, but the report of it takes 100 from 40. -/
theorem reported_setBack :
    let typewriter := TypewriterTrack.used (.start 0 0) (.elapsed 100 0 3 .never)
    let scramble := ScrambleTrack.used (.start 0 0 7) (.sync 3 .left 7 100)
    idleTime 40 100 = 0 ∧
      (typewriter.elapsed 40 0 3 .never).events = #[.typewriterIdle 40 100] ∧
      ((typewriter.elapsed 40 0 3 .never).outcome? true).isNone ∧
      (scramble.sync 3 .left 7 40).events = #[.obfuscateIdle 40 100] ∧
      ((scramble.sync 3 .left 7 40).outcome? true).isNone := by
  decide +kernel

end KineticText
