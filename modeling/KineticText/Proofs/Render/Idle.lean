import KineticText.Proofs.Render.Apart
import KineticText.Proofs.Render.Sweeping
import KineticText.Proofs.Render.Upkeep
import KineticText.Proofs.Track.Idle

/-! Sweeping after drawings.  Every track that a frame asks has the time of the frame for its last
access, whether it is the shared track, a typewriter's or that of a scrambled element.  So as long
as time does not go back, the tracks are in the order of their last accesses.  Main statement:
sweeping a store after any run drops exactly the tracks that have been idle for longer than the
timeout, and says how many. -/

namespace KineticText

namespace TrackStore

/-- In both families the tracks are in the order of their last accesses, none of them after `now`. -/
structure AccessedInOrder (now : Millis) (s : TrackStore) : Prop where
  typewriters : s.typewriters.AccessedInOrder now
  scrambles : s.scrambles.AccessedInOrder now

variable {s : TrackStore} {now now' : Millis}

theorem AccessedInOrder.later (h : s.AccessedInOrder now) (hle : now ≤ now') :
    s.AccessedInOrder now' :=
  ⟨h.typewriters.later hle, h.scrambles.later hle⟩

theorem accessedInOrder_ofConfig (c : Config) (now : Millis) :
    (ofConfig c).AccessedInOrder now :=
  ⟨⟨List.Pairwise.nil, List.forall_mem_nil _⟩, ⟨List.Pairwise.nil, List.forall_mem_nil _⟩⟩

theorem AccessedInOrder.sweep (h : s.AccessedInOrder now) (now' : Millis) :
    (s.sweep now').value.2.AccessedInOrder now :=
  ⟨h.typewriters.restrict (Recency.untilFresh_sublist _ _),
    h.scrambles.restrict (Recency.untilFresh_sublist _ _)⟩

/-- A store that has been swept is without the idle tracks, which are as many as sweeping says, and
has all others as they were. -/
structure IsSwept (s : TrackStore) (now : Millis) (removed : Nat) (swept : TrackStore) : Prop where
  limits : s.SameLimits swept
  typewriters : swept.typewriters.entries =
    s.typewriters.entries.filter fun entry => !decide (IsIdle now s.timeout entry.2.lastAccess)
  scrambles : swept.scrambles.entries =
    s.scrambles.entries.filter fun entry => !decide (IsIdle now s.timeout entry.2.lastAccess)
  removed : removed =
    (s.typewriters.entries.countP fun entry => IsIdle now s.timeout entry.2.lastAccess) +
      s.scrambles.entries.countP fun entry => IsIdle now s.timeout entry.2.lastAccess

theorem AccessedInOrder.isSwept (h : s.AccessedInOrder now') (now : Millis) :
    s.IsSwept now (s.sweep now).value.1 (s.sweep now).value.2 := by
  have htypewriters : (s.typewriters.dropStale (isStale now s.timeout)).entries.length +
      (s.typewriters.entries.countP fun entry => IsIdle now s.timeout entry.2.lastAccess) =
    s.typewriters.entries.length := h.typewriters.length_dropStale now s.timeout
  have hscrambles : (s.scrambles.dropStale (isStale now s.timeout)).entries.length +
      (s.scrambles.entries.countP fun entry => IsIdle now s.timeout entry.2.lastAccess) =
    s.scrambles.entries.length := h.scrambles.length_dropStale now s.timeout
  have hremoved : (s.sweep now).value.1 =
    (s.typewriters.entries.length + s.scrambles.entries.length) -
      ((s.typewriters.dropStale (isStale now s.timeout)).entries.length +
        (s.scrambles.dropStale (isStale now s.timeout)).entries.length) := rfl
  exact ⟨⟨rfl, rfl, rfl, rfl, rfl⟩, h.typewriters.entries_dropStale now s.timeout,
    h.scrambles.entries_dropStale now s.timeout, by omega⟩

end TrackStore

/-! ### Frames -/

/-- An action that keeps tracks in the order of their last accesses, none of them after `now`. -/
def KeepsOrder (now : Millis) {α : Type} (act : StoreAction α) : Prop :=
  ∀ s, s.AccessedInOrder now → (act s).2.AccessedInOrder now

theorem composes_keepsOrder (now : Millis) : Composes (KeepsOrder now) where
  answer _ _ h := h
  andThen hact hnext s h := hnext _ _ (hact s h)

theorem keepsOrder_askTypewriter (now : Millis) (key : TrackKey) (f : Frame) (c : Config)
    (total : Nat) :
    KeepsOrder now fun tracks => (tracks.askTypewriter now key (f.question c now total)).value := by
  intro s h
  have hquestion (track : TypewriterTrack Float) :
      (f.question c now total track).value.2.lastAccess = now := by
    rw [f.value_question]
  exact ⟨h.typewriters.ask .typewriter now s.timeout key (.start now s.typewriterReset) hquestion,
    h.scrambles⟩

theorem Scramble.lastAccess_moved (e : Scramble) (s : Scope) (track : ScrambleTrack) :
    (e.moved s track).lastAccess = s.now := by
  simp only [moved]
  split
  · obtain ⟨active, lastSpawn, generator, heq⟩ := ScrambleTrack.exists_stepRandom s.now
      s.config.timing (track.sync s.length e.direction (e.seed.getD s.key.word) s.now).value
    rw [heq, ScrambleTrack.value_sync]
  · rw [ScrambleTrack.value_sync]

theorem keepsOrder_draw (e : Scramble) (scope : Scope) (g : Glyph) :
    KeepsOrder scope.now (e.draw scope g) :=
  fun _ h => ⟨h.typewriters, h.scrambles.put scope.key (e.lastAccess_moved scope _)⟩

theorem Drawing.keepsOrder_outcome (d : Drawing) : KeepsOrder d.now d.outcome :=
  Renderer.EachStep.render
    ⟨fun _ => keepsOrder_askTypewriter d.now _ d.frame d.renderer.config _,
      fun _ _ _ _ => keepsOrder_askTypewriter d.now _ d.frame d.renderer.config _,
      fun extent e _ shares g =>
        keepsOrder_draw e (d.renderer.scope d.text d.frame d.now shares extent) g⟩
    (composes_keepsOrder d.now)

/-! ### Runs -/

/-- The store after an action of a run. -/
def TrackStore.after (s : TrackStore) : Action → TrackStore
  | .draw d => (d.outcome s).2
  | .sweep now => (s.sweep now).value.2

namespace TrackStore

variable {s : TrackStore} {now : Millis}

theorem AccessedInOrder.after {action : Action} (h : s.AccessedInOrder action.time) :
    (s.after action).AccessedInOrder action.time := by
  cases action with
  | draw d => exact d.keepsOrder_outcome s h
  | sweep now => exact h.sweep now

theorem AccessedInOrder.run {actions : List Action} (h : s.AccessedInOrder now)
    (hsorted : (now :: actions.map Action.time).Pairwise (· ≤ ·)) :
    ∃ now', (actions.foldl TrackStore.after s).AccessedInOrder now' := by
  induction actions generalizing now s with
  | nil => exact ⟨now, h⟩
  | cons action rest ih =>
    obtain ⟨hfirst, hrest⟩ := List.pairwise_cons.mp hsorted
    -- Until the action the tracks stay as they are, and its time is the latest one then.
    exact ih (h.later (hfirst _ List.mem_cons_self)).after hrest

/-- After any run of drawings in which time does not go back, sweeping drops exactly the tracks
whose last access lies more than the timeout before. -/
theorem isSwept_sweep (c : Config) {actions : List Action} (now : Millis)
    (hsorted : (actions.map Action.time).Pairwise (· ≤ ·)) :
    let s := actions.foldl TrackStore.after (.ofConfig c)
    s.IsSwept now (s.sweep now).value.1 (s.sweep now).value.2 := by
  obtain ⟨now', h⟩ := (accessedInOrder_ofConfig c 0).run
    (List.pairwise_cons.mpr ⟨fun _ _ => UInt64.zero_le, hsorted⟩)
  exact h.isSwept now

/-- Drawings of two typewriters, one of which is drawn again later. -/
def typedInTurn : List Action :=
  [.draw (typedAt 0), .draw { typedAt 100 with text := .typed "cd" }, .draw (typedAt 900)]

/-- Of the two typewriters only the one that has not been drawn again is idle. -/
theorem isSwept_typedInTurn : (typedInTurn.map Action.time).Pairwise (· ≤ ·) ∧
    let s := typedInTurn.foldl TrackStore.after (.ofConfig {})
    s.typewriters.size = 2 ∧ (s.sweep 1200).value.1 = 1 ∧
      s.IsSwept 1200 (s.sweep 1200).value.1 (s.sweep 1200).value.2 :=
  ⟨by decide, by decide +kernel, by decide +kernel, isSwept_sweep {} 1200 (by decide)⟩

end TrackStore

end KineticText
