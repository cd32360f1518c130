import KineticText.Proofs.Track.Regular

/-! Deadlines of the characters that drift.  A character that joins the subset draws a lifetime
between the shortest and the longest one, and its deadline is the sum of that and the time.  A sum
beyond the largest word stops the program; its remainder would lie in the past, so that the
character would leave with the next step.  Main statement: whatever has been done to a track, a step
drops exactly the characters whose time is over, takes no more than a burst of those outside, and
stops exactly when it would set a deadline that its timing does not allow. -/

namespace KineticText

namespace ScrambleTiming

variable {timing : ScrambleTiming} {now deadline : Millis}

/-- The longest lifetime that a step draws. -/
def longest (timing : ScrambleTiming) : Nat :=
  max timing.minDeadline.toNat timing.maxDeadline.toNat

/-- The most characters that one step adds. -/
def mostAdded (timing : ScrambleTiming) : Nat := max timing.minBurst.toNat timing.maxBurst.toNat

/-- A deadline set at a time is no nearer than the shortest lifetime and no farther than the longest
one. -/
def Allows (timing : ScrambleTiming) (now deadline : Millis) : Prop :=
  now.toNat + timing.minDeadline.toNat ≤ deadline.toNat ∧
    deadline.toNat ≤ now.toNat + timing.longest

instance : Decidable (timing.Allows now deadline) := inferInstanceAs (Decidable (_ ∧ _))

/-- A deadline set at a time is the sum of that and a lifetime of the timing, as far as words go; it
is one that the timing allows exactly when the sum fits in a word. -/
def SetBy (timing : ScrambleTiming) (now deadline : Millis) : Prop :=
  ∃ lifetime, timing.minDeadline.toNat ≤ lifetime ∧ lifetime ≤ timing.longest ∧
    deadline.toNat = (now.toNat + lifetime) % 2 ^ 64 ∧
    (timing.Allows now deadline ↔ now.toNat + lifetime < 2 ^ 64)

theorem Draws.setBy (h : timing.Draws now deadline) : timing.SetBy now deadline := by
  obtain ⟨g, rfl⟩ := h
  obtain ⟨hshortest, hlongest⟩ := g.between_mem timing.minDeadline timing.maxDeadline
  have hword := (g.between timing.minDeadline timing.maxDeadline).1.toNat_lt
  refine ⟨_, hshortest, hlongest, UInt64.toNat_add _ _, ?_⟩
  rw [Allows, UInt64.toNat_add]
  -- A sum that does not fit comes out below the time it was taken from.
  constructor
  · rintro ⟨hle, -⟩
    omega
  · intro hfits
    rw [Nat.mod_eq_of_lt hfits]
    exact ⟨Nat.add_le_add_left hshortest _, Nat.add_le_add_left hlongest _⟩

/-- A deadline that is not allowed comes out before the time it is set at. -/
theorem SetBy.not_allows_iff (h : timing.SetBy now deadline) :
    ¬ timing.Allows now deadline ↔ deadline < now := by
  obtain ⟨lifetime, -, hlongest, hdeadline, hiff⟩ := h
  have hword : timing.longest < 2 ^ 64 :=
    Nat.max_lt.mpr ⟨timing.minDeadline.toNat_lt, timing.maxDeadline.toNat_lt⟩
  have hnow := now.toNat_lt
  rw [hiff, UInt64.lt_iff_toNat_lt, hdeadline]
  omega

theorem SetBy.allows (h : timing.SetBy now deadline) (hfits : now.toNat + timing.longest < 2 ^ 64) :
    timing.Allows now deadline := by
  obtain ⟨lifetime, -, hlongest, -, hiff⟩ := h
  exact hiff.mpr (by omega)

end ScrambleTiming

namespace ScrambleTrack

variable {t : ScrambleTrack} {count : Nat}

/-- A step does not stop when its longest deadline is a word. -/
theorem overflows_stepRandom {now : Millis} {timing : ScrambleTiming}
    (hfits : now.toNat + timing.longest < 2 ^ 64) (t : ScrambleTrack) :
    (t.stepRandom now timing).overflows = false := by
  obtain ⟨added, lastSpawn, generator, heq, -, -, hjoins⟩ := stepRandom_eq now timing t
  rw [heq]
  refine List.any_eq_false.mpr fun entry hentry hlt => ?_
  have hset := (hjoins.draws entry hentry).setBy
  exact hset.not_allows_iff.mpr (of_decide_eq_true hlt) (hset.allows hfits)

/-- What a step does to the subset of a track for `count` characters: those whose time is over
leave, and the added ones join. -/
structure MovesOn (t : ScrambleTrack) (count : Nat) (now : Millis) (timing : ScrambleTiming)
    (added : List (Nat × Millis)) : Prop where
  active : (t.stepRandom now timing).value.active = added ++ t.active.filter (now < ·.2)
  lt_count : ∀ entry ∈ added, entry.1 < count
  nodup : (added.map Prod.fst).Nodup
  outside : ∀ entry ∈ added, ∀ kept ∈ t.active, now < kept.2 → entry.1 ≠ kept.1
  length_le : added.length ≤ timing.mostAdded
  waits : ∀ last, t.lastSpawn = some last →
    now.toNat - last.toNat < timing.pollInterval.toNat → added = []
  remembers : added ≠ [] → (t.stepRandom now timing).value.lastSpawn = some now
  deadlines : ∀ entry ∈ added, timing.SetBy now entry.2
  stops_iff : ∀ traced, (t.stepRandom now timing).stops traced = true ↔
    ∃ entry ∈ added, ¬ timing.Allows now entry.2

theorem Regular.movesOn (h : t.Regular count) (hsound : t.Sound) (now : Millis)
    (timing : ScrambleTiming) : ∃ added, t.MovesOn count now timing added := by
  obtain ⟨added, lastSpawn, generator, heq, hlength, hgrows, hjoins⟩ := stepRandom_eq now timing t
  have hactive : (t.stepRandom now timing).value.active = added ++ t.active.filter (now < ·.2) := by
    rw [heq]
  -- The subset after the step has none of the characters twice.
  have hafter : (t.stepRandom now timing).value.Regular count :=
    h.used hsound (.stepRandom now timing)
  have hmembers : (t.stepRandom now timing).value.members =
      added.map Prod.fst ++ (t.active.filter (now < ·.2)).map Prod.fst := by
    rw [members, hactive, List.map_append]
  obtain ⟨hnodup, -, hdisjoint⟩ := List.nodup_append.mp (hmembers ▸ hafter.nodup)
  have hset : ∀ entry ∈ added, timing.SetBy now entry.2 :=
    fun entry hentry => (hjoins.draws entry hentry).setBy
  refine ⟨added, hactive, fun entry hentry => ?_, hnodup, fun entry hentry kept hkept hlive => ?_,
    hlength, fun last hspawn hwaits => ?_, fun hsome => ?_, hset, fun traced => ?_⟩
  · refine hafter.lt_count _ ?_
    rw [hmembers]
    exact List.mem_append_left _ (List.mem_map_of_mem hentry)
  · exact hdisjoint _ (List.mem_map_of_mem hentry) _
      (List.mem_map_of_mem (List.mem_filter.mpr ⟨hkept, decide_eq_true hlive⟩))
  · by_contra hsome
    have hspawn' : (t.expire now).lastSpawn = some last := by rw [expire_eq_filter, hspawn]
    have hgrew := (hgrows hsome).1
    rw [mayGrow_eq_false hspawn' hwaits] at hgrew
    cases hgrew
  · rw [heq]
    exact (hgrows hsome).2
  · rw [stops_stepRandom, heq]
    simp only [List.any_eq_true, decide_eq_true_eq]
    exact exists_congr fun entry => and_congr_right fun hentry =>
      (hset entry hentry).not_allows_iff.symm

/-- Whatever has been done to a track, a step at any time and with any timing moves its subset on.
When the longest deadline is a word, all deadlines are allowed and the program does not stop. -/
theorem movesOn_uses (created resetDelay : Millis) (seed : UInt64) (uses : List ScrambleUse)
    (now : Millis) (timing : ScrambleTiming) :
    let t := uses.foldl used (start created resetDelay seed)
    ∃ added, t.MovesOn (uses.foldl ScrambleUse.countAfter 0) now timing added ∧
      (now.toNat + timing.longest < 2 ^ 64 →
        (∀ traced, (t.stepRandom now timing).stops traced = false) ∧
          ∀ entry ∈ added, timing.Allows now entry.2) := by
  intro t
  have hstart := sound_start created resetDelay seed
  have hregular := (regular_start created resetDelay seed).uses hstart uses
  obtain ⟨added, hmoves⟩ := hregular.movesOn (hstart.uses uses).1 now timing
  refine ⟨added, hmoves, fun hfits => ⟨fun traced => ?_, fun entry hentry => ?_⟩⟩
  · rw [stops_stepRandom, overflows_stepRandom hfits]
  · exact (hmoves.deadlines entry hentry).allows hfits

/-- Of four characters one is to drift for as long as can be from the time 1000 on, and the program
stops.  The remainder of its deadline is the time 999, so that the character would leave with a
second step at the same time. -/
theorem not_allows_unending :
    let t := (start 0 1000 7).used (.sync 4 .left 7 1000)
    let unending : ScrambleTiming :=
      { minDeadline := 0xFFFFFFFFFFFFFFFF, maxDeadline := 0xFFFFFFFFFFFFFFFF }
    ((t.stepRandom 1000 unending).outcome? false).isNone ∧
      (t.stepRandom 1000 unending).value.active = [(0, 999)] ∧ ¬ unending.Allows 1000 999 ∧
      ((t.stepRandom 1000 unending).value.stepRandom 1000 unending).value.active = [] := by
  decide +kernel

end ScrambleTrack

end KineticText
