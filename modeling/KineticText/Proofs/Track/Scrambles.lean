import Mathlib.Algebra.Ring.Nat
import Mathlib.Data.List.Perm.Subperm
import KineticText.Proofs.Effect.Orders
import KineticText.Proofs.Random.Draws
import KineticText.Track.Scramble

/-! The tracks of scrambled elements.  The ranks of a track are those of its direction and seed, and
its drifting subset lies among its characters, whatever has been done to the track.  At one time the
subset moves on once: what is left then has yet to expire, and the subset has either grown or had no
occasion to.  Main statement: a second step at the same time finds nothing to do. -/

namespace KineticText

theorem Millis.since_self (t : Millis) : t.since t = 0 := by
  apply UInt64.toNat_inj.mp
  rw [toNat_since, Nat.sub_self]
  rfl

/-- A step at a time may give this deadline to a character. -/
def ScrambleTiming.Draws (timing : ScrambleTiming) (now deadline : Millis) : Prop :=
  ∃ g : Random.Generator, deadline = now + (g.between timing.minDeadline timing.maxDeadline).1

/-- Characters that may join the subset at a time: some of those that are free, none of them twice,
with drawn deadlines. -/
structure ScrambleTiming.Joins (timing : ScrambleTiming) (now : Millis) (free : List Nat)
    (added : List (Nat × Millis)) : Prop where
  subperm : (added.map Prod.fst).Subperm free
  draws : ∀ entry ∈ added, timing.Draws now entry.2

theorem ScrambleTiming.joins_nil (timing : ScrambleTiming) (now : Millis) (free : List Nat) :
    timing.Joins now free [] :=
  ⟨List.nil_subperm, fun _ h => absurd h List.not_mem_nil⟩

/-- An element that is put last and taken away leaves the others. -/
theorem perm_cons_pop_swap {xs : Array Nat} {place index : Nat} (h : xs[place]? = some index) :
    (index :: (xs.swapIfInBounds place (xs.size - 1)).pop.toList).Perm xs.toList := by
  obtain ⟨hplace, hindex⟩ := Array.getElem?_eq_some_iff.mp h
  have hlast : xs.size - 1 < xs.size := by omega
  have hback : (xs.swapIfInBounds place (xs.size - 1)).toList.getLast? = some index := by
    rw [Array.getLast?_toList, Array.back?_eq_getElem?, Array.size_swapIfInBounds,
      Array.swapIfInBounds_def, dif_pos hplace, dif_pos hlast, Array.getElem?_swap]
    simp [hindex]
  have hswapped := Array.perm_iff_toList_perm.mp (perm_swapIfInBounds xs place (xs.size - 1))
  rw [← List.dropLast_append_getLast? index hback] at hswapped
  rw [Array.toList_pop]
  exact (List.perm_append_singleton index _).symm.trans hswapped

namespace ScrambleTrack

/-- The order is that of the direction and the seed, and the subset lies among the characters. -/
structure Sound (t : ScrambleTrack) : Prop where
  ordered : ∀ d, t.direction = some d → t.order = d.order t.rank.size t.seed
  ranked : t.rank = rankOf t.order
  inRange : ∀ entry ∈ t.active, entry.1 < t.rank.size

variable {t : ScrambleTrack} {count : Nat} {direction : Direction} {seed : UInt64} {now : Millis}
  {timing : ScrambleTiming}

theorem sound_start (now resetDelay : Millis) (seed : UInt64) :
    (start now resetDelay seed).Sound :=
  ⟨fun _ h => (by cases h), rfl, fun _ h => absurd h List.not_mem_nil⟩

theorem Sound.reset (h : t.Sound) (now : Millis) : (t.reset now).Sound :=
  ⟨h.ordered, h.ranked, fun _ hmem => absurd hmem List.not_mem_nil⟩

/-! ### Synchronizing -/

theorem Sound.reorder_eq (h : t.Sound) (count : Nat) (direction : Direction) (seed : UInt64) :
    t.reorder count direction seed =
      { t with
        order := direction.order count seed
        rank := rankOf (direction.order count seed)
        direction := some direction
        seed
        active := t.active.filter (·.1 < count) } := by
  unfold reorder
  split
  · -- The order is the right one, and no character is beyond the last one.
    rename_i hordered
    simp only [isOrdered, Bool.and_eq_true, beq_iff_eq] at hordered
    obtain ⟨⟨rfl, hdirection⟩, rfl⟩ := hordered
    have hactive : t.active.filter (·.1 < t.rank.size) = t.active :=
      List.filter_eq_self.mpr fun entry hentry => decide_eq_true (h.inRange entry hentry)
    rw [hactive, ← h.ordered direction hdirection, ← h.ranked, ← hdirection]
  · rfl

theorem Sound.reorder (h : t.Sound) (count : Nat) (direction : Direction) (seed : UInt64) :
    (t.reorder count direction seed).Sound := by
  have hsize : (rankOf (direction.order count seed)).size = count := by
    rw [size_rankOf, length_order]
  rw [h.reorder_eq]
  refine ⟨fun d hd => ?_, rfl, fun entry hentry => ?_⟩
  · cases hd
    rw [hsize]
  · rw [hsize]
    exact of_decide_eq_true (List.mem_filter.mp hentry).2

/-- The track that a synchronization starts from. -/
def awake (t : ScrambleTrack) (now : Millis) : ScrambleTrack :=
  if t.isIdle now then t.reset now else t

theorem value_sync (t : ScrambleTrack) (count : Nat) (direction : Direction) (seed : UInt64)
    (now : Millis) :
    (t.sync count direction seed now).value =
      let synced := (t.awake now).reorder count direction seed
      { synced with origin := some (synced.origin.getD now), lastAccess := now } := by
  unfold sync resetIdle awake
  rw [Logged.value_bind]
  split <;> rfl

theorem resetDelay_awake (t : ScrambleTrack) (now : Millis) :
    (t.awake now).resetDelay = t.resetDelay := by
  unfold awake
  split <;> rfl

section Parts

variable (t : ScrambleTrack) (count : Nat) (direction : Direction) (seed : UInt64) (now : Millis)

/-- Another order may take characters out of the subset, and leaves the times alone. -/
theorem exists_reorder : ∃ order rank active, active ⊆ t.active ∧
    t.reorder count direction seed =
      { t with order, rank, direction := some direction, seed, active } := by
  unfold reorder
  split
  · rename_i hordered
    simp only [isOrdered, Bool.and_eq_true, beq_iff_eq] at hordered
    obtain ⟨⟨-, hdirection⟩, rfl⟩ := hordered
    exact ⟨t.order, t.rank, t.active, List.Subset.refl _, by rw [← hdirection]⟩
  · exact ⟨_, _, _, List.filter_subset_self _, rfl⟩

/-- What a synchronization does to a track that is `awake`: after an idle time it has been reset. -/
theorem exists_sync : ∃ order rank active, active ⊆ (t.awake now).active ∧
    (t.sync count direction seed now).value =
      { t.awake now with
        order, rank, direction := some direction, seed, active
        origin := some ((t.awake now).origin.getD now)
        lastAccess := now } := by
  obtain ⟨order, rank, active, hsubset, heq⟩ := (t.awake now).exists_reorder count direction seed
  exact ⟨order, rank, active, hsubset, by rw [value_sync, heq]⟩

theorem resetDelay_sync : (t.sync count direction seed now).value.resetDelay = t.resetDelay := by
  obtain ⟨order, rank, active, -, heq⟩ := t.exists_sync count direction seed now
  rw [heq]
  exact t.resetDelay_awake now

end Parts

theorem Sound.awake (h : t.Sound) (now : Millis) : (t.awake now).Sound := by
  unfold ScrambleTrack.awake
  split
  · exact h.reset now
  · exact h

theorem Sound.sync (h : t.Sound) (count : Nat) (direction : Direction) (seed : UInt64)
    (now : Millis) : (t.sync count direction seed now).value.Sound := by
  have hsynced := (h.awake now).reorder count direction seed
  rw [value_sync]
  exact ⟨hsynced.ordered, hsynced.ranked, hsynced.inRange⟩

/-- Synchronizing puts the track in the order of the direction and the seed. -/
theorem Sound.order_sync (h : t.Sound) (count : Nat) (direction : Direction) (seed : UInt64)
    (now : Millis) :
    (t.sync count direction seed now).value.rank = rankOf (direction.order count seed) ∧
      (t.sync count direction seed now).value.seed = seed := by
  rw [value_sync, (h.awake now).reorder_eq]
  exact ⟨rfl, rfl⟩

/-! ### Stepping -/

/-- At most `count` of the free characters join the subset.  A deadline that is not a word comes out
before its time. -/
theorem spawn_eq (now : Millis) (timing : ScrambleTiming) (count : Nat) (free : Array Nat)
    (t : ScrambleTrack) :
    ∃ added generator,
      spawn now timing count free t =
          { value := { t with active := added ++ t.active, generator }
            overflows := added.any (·.2 < now) } ∧
        added.length ≤ count ∧ timing.Joins now free.toList added := by
  induction count generalizing free t with
  | zero => exact ⟨[], t.generator, rfl, Nat.le_refl 0, timing.joins_nil now _⟩
  | succ count ih =>
    unfold spawn
    simp only
    split
    · exact ⟨[], _, rfl, Nat.zero_le _, timing.joins_nil now _⟩
    · rename_i index hindex
      let drawn := t.generator.index free.size
      let lifetime := drawn.2.between timing.minDeadline timing.maxDeadline
      obtain ⟨added, generator, heq, hlength, hjoins⟩ :=
        ih (free.swapIfInBounds drawn.1 (free.size - 1)).pop
          { t with active := (index, now + lifetime.1) :: t.active, generator := lifetime.2 }
      refine ⟨added ++ [(index, now + lifetime.1)], generator, ?_, ?_, ?_, fun entry hentry => ?_⟩
      · change (Logged.sum now lifetime.1 >>= fun deadline =>
          spawn now timing count (free.swapIfInBounds drawn.1 (free.size - 1)).pop
            { t with active := (index, deadline) :: t.active, generator := lifetime.2 }) = _
        ext1 <;> simp [heq, Bool.or_comm]
      · rw [List.length_append, List.length_singleton]
        omega
      · -- The character that joins first is no longer free for the others.
        rw [List.map_append]
        refine (List.perm_append_singleton index _).subperm_right.mpr ?_
        exact (perm_cons_pop_swap hindex).subperm_left.mp
          ((List.subperm_cons index).mpr hjoins.subperm)
      · rcases List.mem_append.mp hentry with hlater | hfirst
        · exact hjoins.draws entry hlater
        · cases List.mem_singleton.mp hfirst
          exact ⟨_, rfl⟩

variable (now timing) in
theorem grow_eq (t : ScrambleTrack) :
    ∃ added generator,
      t.grow now timing =
          { value := { t with active := added ++ t.active, lastSpawn := some now, generator }
            overflows := added.any (·.2 < now) } ∧
        added.length ≤ max timing.minBurst.toNat timing.maxBurst.toNat ∧
        timing.Joins now t.free.toList added := by
  obtain ⟨-, hburst⟩ := t.generator.between_mem timing.minBurst timing.maxBurst
  obtain ⟨added, generator, heq, hlength, hjoins⟩ := spawn_eq now timing
    (min (t.generator.between timing.minBurst timing.maxBurst).1.toNat t.free.size) t.free
    { t with lastSpawn := some now, generator := _ }
  exact ⟨added, generator, heq, (hlength.trans (Nat.min_le_left _ _)).trans hburst, hjoins⟩

variable (now timing) in
/-- A step drops the characters whose time is over.  It adds some only when the subset may grow, and
then remembers when. -/
theorem stepRandom_eq (t : ScrambleTrack) :
    ∃ added lastSpawn generator,
      t.stepRandom now timing =
          { value :=
              { t with active := added ++ t.active.filter (now < ·.2), lastSpawn, generator }
            overflows := added.any (·.2 < now) } ∧
        added.length ≤ max timing.minBurst.toNat timing.maxBurst.toNat ∧
        (added ≠ [] → (t.expire now).mayGrow now timing = true ∧ lastSpawn = some now) ∧
        timing.Joins now (t.expire now).free.toList added := by
  have hexpire := t.expire_eq_filter now
  unfold stepRandom
  simp only
  split
  · rename_i hgrows
    obtain ⟨added, generator, hgrow, hlength, hjoins⟩ := grow_eq now timing (t.expire now)
    refine ⟨added, some now, generator, ?_, hlength, fun _ => ⟨hgrows, rfl⟩, hjoins⟩
    rw [hgrow, hexpire]
  · refine ⟨[], t.lastSpawn, t.generator, ?_, Nat.zero_le _, fun h => absurd rfl h,
      timing.joins_nil now _⟩
    rw [hexpire]
    rfl

theorem lt_of_mem_free {index : Nat} (h : index ∈ (t.expire now).free.toList) :
    index < t.rank.size := by
  rw [expire_eq_filter, free] at h
  exact List.mem_range.mp (List.mem_filter.mp h).1

/-- After a step the subset has characters whose time is not over, and new ones. -/
theorem forall_mem_stepRandom {Q : Nat × Millis → Prop}
    (hnew : ∀ index < t.rank.size, ∀ deadline, timing.Draws now deadline → Q (index, deadline))
    (hold : ∀ entry ∈ t.active, now < entry.2 → Q entry) :
    ∀ entry ∈ (t.stepRandom now timing).value.active, Q entry := by
  obtain ⟨added, lastSpawn, generator, heq, -, -, hjoins⟩ := stepRandom_eq now timing t
  rw [heq]
  intro entry hentry
  rcases List.mem_append.mp hentry with hjoined | hkept
  · have hfree := hjoins.subperm.subset (List.mem_map_of_mem hjoined)
    exact hnew entry.1 (lt_of_mem_free hfree) entry.2 (hjoins.draws entry hjoined)
  · obtain ⟨hmem, hlt⟩ := List.mem_filter.mp hkept
    exact hold entry hmem (of_decide_eq_true hlt)

variable (now timing) in
/-- A step leaves the order, the seed and the times of the track alone. -/
theorem exists_stepRandom (t : ScrambleTrack) : ∃ active lastSpawn generator,
    (t.stepRandom now timing).value = { t with active, lastSpawn, generator } := by
  obtain ⟨added, lastSpawn, generator, heq, -⟩ := stepRandom_eq now timing t
  exact ⟨_, lastSpawn, generator, congrArg Logged.value heq⟩

@[simp] theorem events_stepRandom (t : ScrambleTrack) (now : Millis) (timing : ScrambleTiming) :
    (t.stepRandom now timing).events = #[] := by
  obtain ⟨added, lastSpawn, generator, heq, -⟩ := stepRandom_eq now timing t
  exact congrArg Logged.events heq

theorem stops_stepRandom (t : ScrambleTrack) (now : Millis) (timing : ScrambleTiming)
    (traced : Bool) :
    (t.stepRandom now timing).stops traced = (t.stepRandom now timing).overflows := by
  simp [Logged.stops]

theorem resetDelay_stepRandom (t : ScrambleTrack) (now : Millis) (timing : ScrambleTiming) :
    (t.stepRandom now timing).value.resetDelay = t.resetDelay := by
  obtain ⟨active, lastSpawn, generator, heq⟩ := t.exists_stepRandom now timing
  rw [heq]

theorem Sound.stepRandom (h : t.Sound) (now : Millis) (timing : ScrambleTiming) :
    (t.stepRandom now timing).value.Sound := by
  have hactive : ∀ entry ∈ (t.stepRandom now timing).value.active, entry.1 < t.rank.size :=
    forall_mem_stepRandom (fun _ hlt _ _ => hlt) fun entry hentry _ => h.inRange entry hentry
  obtain ⟨active, lastSpawn, generator, heq⟩ := exists_stepRandom now timing t
  rw [heq] at hactive ⊢
  exact ⟨h.ordered, h.ranked, hactive⟩

/-- The timing with which a drawn deadline lies ahead. -/
structure Timely (now : Millis) (timing : ScrambleTiming) : Prop where
  poll : 0 < timing.pollInterval
  deadline : 0 < timing.minDeadline
  fits : now.toNat + max timing.minDeadline.toNat timing.maxDeadline.toNat < 2 ^ 64

theorem Timely.lt_deadline (h : Timely now timing) {deadline : Millis}
    (hdrawn : timing.Draws now deadline) : now < deadline := by
  obtain ⟨g, rfl⟩ := hdrawn
  obtain ⟨hlo, hhi⟩ := g.between_mem timing.minDeadline timing.maxDeadline
  have hpos : 0 < timing.minDeadline.toNat := UInt64.lt_iff_toNat_lt.mp h.deadline
  have hfits := h.fits
  rw [UInt64.lt_iff_toNat_lt, UInt64.toNat_add]
  omega

/-- Nothing is left to do for the subset at a time. -/
structure IsSteady (t : ScrambleTrack) (now : Millis) (timing : ScrambleTiming) : Prop where
  live : ∀ entry ∈ t.active, now < entry.2
  grown : t.mayGrow now timing = false

theorem IsSteady.stepRandom (h : t.IsSteady now timing) :
    t.stepRandom now timing = pure t := by
  have hexpire : t.expire now = t := by
    unfold expire
    rw [if_pos (List.all_eq_true.mpr fun entry hentry => decide_eq_true (h.live entry hentry))]
  unfold ScrambleTrack.stepRandom
  simp only [hexpire, h.grown, Bool.false_eq_true, if_false]

/-- The subset does not grow while the poll interval has not passed. -/
theorem mayGrow_eq_false {last : Millis} (hspawn : t.lastSpawn = some last)
    (hwaits : now.toNat - last.toNat < timing.pollInterval.toNat) :
    t.mayGrow now timing = false := by
  have hearly : decide (timing.pollInterval ≤ now.since last) = false := by
    refine decide_eq_false (UInt64.not_le.mpr ?_)
    rwa [UInt64.lt_iff_toNat_lt, Millis.toNat_since]
  simp only [mayGrow, hspawn, Option.all_some, hearly, Bool.false_and]

variable (now) in
/-- A subset that has grown waits for the poll interval. -/
theorem mayGrow_stepRandom (t : ScrambleTrack) (hpoll : 0 < timing.pollInterval) :
    (t.stepRandom now timing).value.mayGrow now timing = false := by
  unfold stepRandom
  simp only
  split
  · obtain ⟨added, generator, hgrow, -⟩ := grow_eq now timing (t.expire now)
    rw [hgrow]
    refine mayGrow_eq_false rfl ?_
    rw [Nat.sub_self]
    exact UInt64.lt_iff_toNat_lt.mp hpoll
  · rename_i hstays
    simpa using hstays

/-- A step leaves nothing to do at its time. -/
theorem isSteady_stepRandom (t : ScrambleTrack) (htimely : Timely now timing) :
    (t.stepRandom now timing).value.IsSteady now timing :=
  ⟨forall_mem_stepRandom (fun _ _ _ hdrawn => htimely.lt_deadline hdrawn) fun _ _ hlt => hlt,
    mayGrow_stepRandom now t htimely.poll⟩

end ScrambleTrack

end KineticText
