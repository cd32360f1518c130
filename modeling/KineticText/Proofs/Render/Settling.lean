import KineticText.Proofs.Number.Signs
import KineticText.Proofs.Render.Scrambles
import KineticText.Proofs.Track.Origins
import KineticText.Proofs.Track.Scrambles

/-! Tracks at one time.  A frame asks a track again and again while the clock stands still.  The
first question may make a typewriter start over, and the first random step may change the drifting
subset; from then on the track is settled.  Main statement: a settled track stays settled and
answers every further question as it answered the first one. -/

namespace KineticText

/-! ### Typewriters -/

/-- The origin of a track does not lie after the ticks of a frame that has just asked it. -/
theorem Frame.not_lt_origin_settle (f : Frame) (c : Config) (now : Millis) (total : Nat)
    (t : TypewriterTrack Float) : ¬ f.ticks < (f.settle c now total t).origin.getD f.ticks := by
  have hsettles :=
    (t.observeIf c.restart f.progress).value.settles_settled now f.ticks total c.restart
  cases horigin : (f.settle c now total t).origin with
  | none => exact Double.lt_irrefl f.ticks
  | some origin => exact fun hlt => hsettles.not_isBackward ⟨origin, horigin, hlt⟩

namespace TypewriterTrack

/-- A frame finds no occasion to start the track over, unless that takes the same origin again. -/
structure Settled (t : TypewriterTrack Float) (f : Frame) (c : Config) (now : Millis)
    (total : Nat) (origin : Float) : Prop where
  lasting : 0 < t.resetDelay ∨ origin = f.ticks
  current : t.lastAccess = now
  begun : t.origin = some origin
  counted : t.total = some total
  forward : ¬ f.ticks < origin
  ahead : c.restart = .onRegression → ∀ position, f.progress = some position →
    t.lastPosition.any (position < ·) = false

variable {t : TypewriterTrack Float} {f : Frame} {c : Config} {now : Millis} {total : Nat}
  {origin : Float}

/-- A position that has just been reported is the last one. -/
theorem lastPosition_observeIf (t : TypewriterTrack Float) (position : Nat) :
    (t.observeIf .onRegression (some position)).value.lastPosition = some position := by
  simp only [observeIf, observe, Logged.value_bind]
  split <;> rfl

/-- A track without a reset delay starts over in every frame. -/
theorem origin_settle_of_no_delay (f : Frame) (c : Config) (now : Millis) (total : Nat)
    (hzero : t.resetDelay = 0) : (f.settle c now total t).origin = none := by
  obtain ⟨lastPosition, hobserved⟩ := t.runsOn_observeIf c.restart f.progress
  have hsettles :=
    (t.observeIf c.restart f.progress).value.settles_settled now f.ticks total c.restart
  refine hsettles.origin_eq_none_iff.mpr ?_
  cases horigin : (t.observeIf c.restart f.progress).value.origin with
  | none => exact .inl rfl
  | some origin =>
    refine .inr (.inl ?_)
    have hdelay : (t.observeIf c.restart f.progress).value.resetDelay = 0 :=
      hobserved.resetDelay.trans hzero
    simp [isIdle, horigin, hdelay]

/-- A question settles a track. -/
theorem settled_question (f : Frame) (c : Config) (now : Millis) (total : Nat) :
    (f.question c now total t).value.2.Settled f c now total
      ((f.settle c now total t).origin.getD f.ticks) := by
  obtain ⟨lastPosition, hobserved⟩ := t.runsOn_observeIf c.restart f.progress
  have hruns := f.runsOn_settle c now total t
  have hdelay : (f.settle c now total t).resetDelay = t.resetDelay :=
    (hobserved.trans hruns).resetDelay
  rw [Frame.value_question]
  refine ⟨?_, rfl, rfl, rfl, f.not_lt_origin_settle c now total t,
    fun hrestart position hposition => ?_⟩
  · by_cases hzero : t.resetDelay = 0
    · rw [origin_settle_of_no_delay f c now total hzero]
      exact .inr rfl
    · exact .inl (hdelay ▸ UInt64.pos_iff_ne_zero.mpr hzero)
  · have hlast := hruns.lastPosition
    rw [hrestart, hposition, lastPosition_observeIf] at hlast
    rcases hlast with hlast | hlast
    · simp [hlast]
    · simp [hlast]

namespace Settled

/-- Reporting the position of the frame changes the position only. -/
theorem observeIf (h : t.Settled f c now total origin) :
    ∃ lastPosition, (t.observeIf c.restart f.progress).value = { t with lastPosition } := by
  unfold TypewriterTrack.observeIf
  split
  · rename_i position hrestart hposition
    simp only [observe, h.ahead hrestart position hposition, Bool.false_eq_true, if_false]
    exact ⟨some position, rfl⟩
  · exact ⟨t.lastPosition, rfl⟩

/-- A frame leaves the track its origin, or has it take the same one again. -/
theorem origin_settle (h : t.Settled f c now total origin) :
    (f.settle c now total t).origin.getD f.ticks = origin := by
  obtain ⟨lastPosition, hobserve⟩ := h.observeIf
  have hsettles : ({ t with lastPosition } : TypewriterTrack Float).Settles now f.ticks total
      c.restart (f.settle c now total t) := by
    rw [← hobserve]
    exact settles_settled _ now f.ticks total c.restart
  by_cases hbegun : (f.settle c now total t).origin = none
  · rw [hbegun]
    rcases h.lasting with hlasting | hticks
    · have hidle : ¬ ({ t with lastPosition } : TypewriterTrack Float).isIdle now = true := by
        have hwaits : ¬ t.resetDelay ≤ now.since t.lastAccess := by
          rw [h.current, Millis.since_self]
          exact UInt64.not_le.mpr hlasting
        simp [isIdle, hwaits]
      rcases hsettles.origin_eq_none_iff.mp hbegun with
        hnone | hidle' | ⟨-, previous, hprevious, hne⟩ | ⟨origin', horigin, hlt⟩
      · exact absurd (h.begun.symm.trans hnone) (Option.some_ne_none _)
      · exact absurd hidle' hidle
      · exact absurd (Option.some_inj.mp (Eq.trans hprevious.symm h.counted)) hne
      · exact absurd (Option.some_inj.mp (Eq.trans horigin.symm h.begun) ▸ hlt) h.forward
    · exact hticks.symm
  · rw [(hsettles.origin_eq hbegun).trans h.begun]
    rfl

/-- A settled track answers from its origin, and stays settled. -/
theorem question (h : t.Settled f c now total origin) :
    (f.question c now total t).value.1 = f.ticks - origin ∧
      (f.question c now total t).value.2.Settled f c now total origin := by
  have hafter := settled_question (t := t) f c now total
  rw [h.origin_settle] at hafter
  refine ⟨?_, hafter⟩
  rw [Frame.value_question]
  simp only [h.origin_settle]

end Settled

end TypewriterTrack

/-! ### Scrambled elements -/

namespace ScrambleTrack

/-- Nothing is left to do for the track at a time, unless that begins the track anew at the same
time.  When `drifting` is given it is the drifting subset, and that has nothing left to do
either. -/
structure Settled (t : ScrambleTrack) (now : Millis) (timing : ScrambleTiming) (count : Nat)
    (origin : Millis) (drifting : Option (List (Nat × Millis))) : Prop where
  sound : t.Sound
  lasting : 0 < t.resetDelay ∨ origin = now ∧ drifting = none
  current : t.lastAccess = now
  begun : t.origin = some origin
  counted : t.rank.size = count
  steady : ∀ active, drifting = some active → t.active = active ∧ t.IsSteady now timing

variable {t : ScrambleTrack} {now : Millis} {timing : ScrambleTiming} {count : Nat}
  {origin : Millis} {drifting : Option (List (Nat × Millis))} {direction : Direction}
  {seed : UInt64}

/-- A track without a reset delay begins anew whenever it is synchronized. -/
theorem getD_origin_awake (hzero : t.resetDelay = 0) (now : Millis) :
    (t.awake now).origin.getD now = now := by
  unfold awake
  cases hbegun : t.origin with
  | none => simp [isIdle, hbegun]
  | some origin => simp [isIdle, hbegun, hzero, reset]

/-- Synchronizing settles a track, but for its drifting subset. -/
theorem settled_sync (hsound : t.Sound) (now : Millis) (timing : ScrambleTiming) (count : Nat)
    (direction : Direction) (seed : UInt64) :
    (t.sync count direction seed now).value.Settled now timing count
      ((t.awake now).origin.getD now) none := by
  refine ⟨hsound.sync count direction seed now, ?_, ?_, ?_, ?_, fun _ h => by cases h⟩
  · rw [resetDelay_sync]
    by_cases hzero : t.resetDelay = 0
    · exact .inr ⟨getD_origin_awake hzero now, rfl⟩
    · exact .inl (UInt64.pos_iff_ne_zero.mpr hzero)
  all_goals rw [value_sync, (hsound.awake now).reorder_eq]
  rw [size_rankOf, length_order]

namespace Settled

/-- With a reset delay, synchronizing changes the order at most. -/
theorem sync_eq (h : t.Settled now timing count origin drifting) (hlasting : 0 < t.resetDelay)
    (direction : Direction) (seed : UInt64) :
    (t.sync count direction seed now).value =
      { t with
        order := direction.order count seed
        rank := rankOf (direction.order count seed)
        direction := some direction
        seed } := by
  have hawake : t.awake now = t := by
    have hwaits : ¬ t.resetDelay ≤ now.since t.lastAccess := by
      rw [h.current, Millis.since_self]
      exact UInt64.not_le.mpr hlasting
    simp [awake, isIdle, hwaits]
  have hactive : t.active.filter (·.1 < count) = t.active :=
    List.filter_eq_self.mpr fun entry hentry =>
      decide_eq_true (h.counted ▸ h.sound.inRange entry hentry)
  rw [value_sync, hawake, h.sound.reorder_eq, hactive]
  simp only [h.begun, Option.getD_some, ← h.current]

theorem sync (h : t.Settled now timing count origin drifting) (direction : Direction)
    (seed : UInt64) :
    (t.sync count direction seed now).value.Settled now timing count origin drifting := by
  by_cases hzero : t.resetDelay = 0
  · rcases h.lasting with hlasting | ⟨rfl, rfl⟩
    · exact absurd hzero (UInt64.pos_iff_ne_zero.mp hlasting)
    · have hsettled := settled_sync h.sound origin timing count direction seed
      rwa [getD_origin_awake hzero] at hsettled
  have hlasting := UInt64.pos_iff_ne_zero.mpr hzero
  have hsize : (rankOf (direction.order count seed)).size = count := by
    rw [size_rankOf, length_order]
  refine ⟨h.sound.sync count direction seed now, ?_, ?_, ?_, ?_, fun active hactive => ?_⟩
  all_goals rw [h.sync_eq hlasting direction seed]
  · exact .inl hlasting
  · exact h.current
  · exact h.begun
  · exact hsize
  · obtain ⟨hdrifting, hsteady⟩ := h.steady active hactive
    refine ⟨hdrifting, hsteady.live, ?_⟩
    have hgrown := hsteady.grown
    unfold mayGrow at hgrown ⊢
    rwa [hsize, ← h.counted]

/-- A random step settles the drifting subset. -/
theorem stepRandom (h : t.Settled now timing count origin drifting) (hlasting : 0 < t.resetDelay)
    (htimely : Timely now timing) :
    (t.stepRandom now timing).value.Settled now timing count origin
      (some (t.stepRandom now timing).value.active) := by
  have hsteady := isSteady_stepRandom t htimely
  obtain ⟨active, lastSpawn, generator, heq⟩ := t.exists_stepRandom now timing
  refine ⟨h.sound.stepRandom now timing, ?_, ?_, ?_, ?_, fun active hactive =>
    ⟨Option.some_inj.mp hactive, hsteady⟩⟩
  all_goals rw [heq]
  · exact .inl hlasting
  · exact h.current
  · exact h.begun
  · exact h.counted

/-- A settled subset does not change. -/
theorem stepRandom_eq_self {active : List (Nat × Millis)}
    (h : t.Settled now timing count origin (some active)) : t.stepRandom now timing = pure t :=
  (h.steady active rfl).2.stepRandom

theorem lasting_of_some {active : List (Nat × Millis)}
    (h : t.Settled now timing count origin (some active)) : 0 < t.resetDelay := by
  rcases h.lasting with hlasting | ⟨-, hnone⟩
  · exact hlasting
  · cases hnone

theorem of_some {active : List (Nat × Millis)}
    (h : t.Settled now timing count origin (some active)) :
    t.Settled now timing count origin none :=
  { h with
    lasting := .inl h.lasting_of_some
    steady := fun _ hnone => by cases hnone }

end Settled

end ScrambleTrack

namespace Scramble

variable {e : Scramble} {s : Scope} {t t' : ScrambleTrack} {origin : Millis}
  {drifting : Option (List (Nat × Millis))}

/-- The drifting subset, for a mode that looks at it. -/
def watched (e : Scramble) (t : ScrambleTrack) : Option (List (Nat × Millis)) :=
  if e.mode = .random then some t.active else none

/-- A glyph depends on the order, the seed and the origin of its track, and on the subset of the
random mode. -/
theorem redraw_congr (hrank : t.rank = t'.rank) (hseed : t.seed = t'.seed)
    (horigin : t.origin = t'.origin) (hwatched : e.watched t = e.watched t') (g : Glyph) :
    e.redraw s t g = e.redraw s t' g := by
  have hsteps : t.steps e.speed s.now = t'.steps e.speed s.now := by
    simp only [ScrambleTrack.steps, ScrambleTrack.elapsed, horigin]
  have hscrambled : t.isScrambled (s.place g) e.mode e.speed s.now =
      t'.isScrambled (s.place g) e.mode e.speed s.now := by
    unfold ScrambleTrack.isScrambled
    rw [hrank, hsteps]
    cases hmode : e.mode with
    | constant | reveal | hide => rfl
    | random =>
      simp only [watched, hmode, if_true, Option.some_inj] at hwatched
      rw [hwatched]
  unfold redraw
  rw [hscrambled]
  simp only [ScrambleTrack.filler, hseed]

/-- Moving a track on puts it in the order of the effect. -/
theorem moved_order (hsound : t.Sound) :
    (e.moved s t).rank = rankOf (e.direction.order s.length (e.seed.getD s.key.word)) ∧
      (e.moved s t).seed = e.seed.getD s.key.word := by
  have hsync := hsound.order_sync s.length e.direction (e.seed.getD s.key.word) s.now
  simp only [moved]
  split
  · obtain ⟨active, lastSpawn, generator, heq⟩ := ScrambleTrack.exists_stepRandom s.now
      s.config.timing (t.sync s.length e.direction (e.seed.getD s.key.word) s.now).value
    rw [heq]
    exact hsync
  · exact hsync

/-- Drawing a glyph settles the track of its element. -/
theorem settled_moved (hsound : t.Sound) (hlasting : e.mode = .random → 0 < t.resetDelay)
    (htimely : ScrambleTrack.Timely s.now s.config.timing) :
    (e.moved s t).Settled s.now s.config.timing s.length ((t.awake s.now).origin.getD s.now)
      (e.watched (e.moved s t)) := by
  have hsync := ScrambleTrack.settled_sync hsound s.now s.config.timing s.length e.direction
    (e.seed.getD s.key.word)
  simp only [watched, moved]
  split
  · rename_i hrandom
    refine hsync.stepRandom ?_ htimely
    rw [ScrambleTrack.resetDelay_sync]
    exact hlasting hrandom
  · exact hsync

/-- Drawing a glyph leaves a settled track settled. -/
theorem Settled.moved (h : t.Settled s.now s.config.timing s.length origin drifting)
    (hlasting : e.mode = .random → 0 < t.resetDelay)
    (htimely : ScrambleTrack.Timely s.now s.config.timing) :
    (e.moved s t).Settled s.now s.config.timing s.length origin drifting := by
  have hsync := h.sync e.direction (e.seed.getD s.key.word)
  simp only [Scramble.moved]
  split
  · rename_i hrandom
    cases drifting with
    | none =>
      refine (hsync.stepRandom ?_ htimely).of_some
      rw [ScrambleTrack.resetDelay_sync]
      exact hlasting hrandom
    | some active =>
      rw [hsync.stepRandom_eq_self]
      exact hsync
  · exact hsync

/-- A settled track shows of a glyph what was drawn when it settled. -/
theorem redraw_moved (hsound : t.Sound)
    (hsettled : (e.moved s t).Settled s.now s.config.timing s.length origin
      (e.watched (e.moved s t)))
    (hagain : t'.Settled s.now s.config.timing s.length origin (e.watched (e.moved s t)))
    (htimely : ScrambleTrack.Timely s.now s.config.timing) (g : Glyph) :
    e.redraw s (e.moved s t') g = e.redraw s (e.moved s t) g := by
  have hwatched : e.mode = .random → e.watched (e.moved s t) = some (e.moved s t).active :=
    fun hrandom => if_pos hrandom
  have hlasting : e.mode = .random → 0 < t'.resetDelay := fun hrandom =>
    (hwatched hrandom ▸ hagain).lasting_of_some
  have hmoved := Settled.moved hagain hlasting htimely
  obtain ⟨hrank, hseed⟩ := moved_order (e := e) (s := s) hsound
  obtain ⟨hrank', hseed'⟩ := moved_order (e := e) (s := s) hagain.sound
  refine redraw_congr (hrank'.trans hrank.symm) (hseed'.trans hseed.symm)
    (hmoved.begun.trans hsettled.begun.symm) ?_ g
  cases hmode : e.mode with
  | constant | reveal | hide => simp [watched, hmode]
  | random =>
    rw [hwatched hmode, watched, hmode, if_pos rfl, (hmoved.steady _ (hwatched hmode)).1]

end Scramble

end KineticText
