import KineticText.Proofs.Track.Origins
import KineticText.Proofs.Track.Scrambles

/-! What a host does with a track.  Whatever it does, the track keeps its reset delay, and the order
and the drifting subset of a scrambled element fit its length. -/

namespace KineticText

/-! ### Typewriters -/

/-- What a host does with the track of a typewriter. -/
inductive TypewriterUse
  | elapsed (now : Millis) (ticks : Float) (total : Nat) (policy : RestartPolicy)
  | observe (position : Nat)
  | restart

namespace TypewriterTrack

/-- The track after a use. -/
def used (t : TypewriterTrack Float) : TypewriterUse → TypewriterTrack Float
  | .elapsed now ticks total policy => (t.elapsed now ticks total policy).value.2
  | .observe position => (t.observe position).value.2
  | .restart => t.restart

theorem resetDelay_used (t : TypewriterTrack Float) (use : TypewriterUse) :
    (t.used use).resetDelay = t.resetDelay := by
  cases use with
  | elapsed now ticks total policy =>
    exact (t.settles_settled now ticks total policy).resetDelay_eq
  | observe position =>
    obtain ⟨lastPosition, hobserved⟩ := t.runsOn_observeIf .onRegression (some position)
    exact hobserved.resetDelay
  | restart => rfl

theorem resetDelay_uses (t : TypewriterTrack Float) (uses : List TypewriterUse) :
    (uses.foldl used t).resetDelay = t.resetDelay := by
  induction uses generalizing t with
  | nil => rfl
  | cons use rest ih => exact (ih (t.used use)).trans (t.resetDelay_used use)

end TypewriterTrack

/-! ### Scrambled elements -/

/-- What a host does with the track of a scrambled element. -/
inductive ScrambleUse
  | sync (count : Nat) (direction : Direction) (seed : UInt64) (now : Millis)
  | stepRandom (now : Millis) (timing : ScrambleTiming)
  | reset (now : Millis)

namespace ScrambleTrack

/-- The track after a use. -/
def used (t : ScrambleTrack) : ScrambleUse → ScrambleTrack
  | .sync count direction seed now => (t.sync count direction seed now).value
  | .stepRandom now timing => (t.stepRandom now timing).value
  | .reset now => t.reset now

theorem Sound.uses {t : ScrambleTrack} (h : t.Sound) (uses : List ScrambleUse) :
    (uses.foldl used t).Sound ∧ (uses.foldl used t).resetDelay = t.resetDelay := by
  induction uses generalizing t with
  | nil => exact ⟨h, rfl⟩
  | cons use rest ih =>
    have hused : (t.used use).Sound ∧ (t.used use).resetDelay = t.resetDelay := by
      cases use with
      | sync count direction seed now =>
        exact ⟨h.sync count direction seed now, t.resetDelay_sync count direction seed now⟩
      | stepRandom now timing =>
        exact ⟨h.stepRandom now timing, t.resetDelay_stepRandom now timing⟩
      | reset now => exact ⟨h.reset now, rfl⟩
    obtain ⟨hsound, hdelay⟩ := ih hused.1
    exact ⟨hsound, hdelay.trans hused.2⟩

/-- A host can come to the track. -/
def Reachable (t : ScrambleTrack) : Prop :=
  ∃ (created resetDelay : Millis) (seed : UInt64) (uses : List ScrambleUse),
    t = uses.foldl used (start created resetDelay seed)

theorem reachable_start (created resetDelay : Millis) (seed : UInt64) :
    (start created resetDelay seed).Reachable :=
  ⟨created, resetDelay, seed, [], rfl⟩

theorem Reachable.used {t : ScrambleTrack} (h : t.Reachable) (use : ScrambleUse) :
    (t.used use).Reachable := by
  obtain ⟨created, resetDelay, seed, uses, rfl⟩ := h
  exact ⟨created, resetDelay, seed, uses ++ [use], by rw [List.foldl_append]; rfl⟩

theorem Reachable.sound {t : ScrambleTrack} (h : t.Reachable) : t.Sound := by
  obtain ⟨created, resetDelay, seed, uses, rfl⟩ := h
  exact ((sound_start created resetDelay seed).uses uses).1

end ScrambleTrack

end KineticText
