import KineticText.Proofs.Render.Typewriters
import KineticText.Proofs.Track.Restarts

/-! Since when the track of a typewriter runs.  Whatever makes a track start over leaves it without
an origin, and a track without one takes the ticks of the frame.  So in a frame a track either runs
on from where it began or begins in this frame, and once it has begun it does not go back. -/

namespace KineticText

namespace TypewriterTrack

/-- The track runs on, or it has started over. -/
structure RunsOn (t t' : TypewriterTrack Float) : Prop where
  origin : t'.origin = t.origin ∨ t'.origin = none
  lastPosition : t'.lastPosition = t.lastPosition ∨ t'.lastPosition = none
  resetDelay : t'.resetDelay = t.resetDelay

variable {t t' t'' : TypewriterTrack Float}

theorem RunsOn.refl (t : TypewriterTrack Float) : t.RunsOn t := ⟨.inl rfl, .inl rfl, rfl⟩

theorem runsOn_restart (t : TypewriterTrack Float) : t.RunsOn t.restart := ⟨.inr rfl, .inr rfl, rfl⟩

theorem RunsOn.trans (h : t.RunsOn t') (h' : t'.RunsOn t'') : t.RunsOn t'' := by
  refine ⟨?_, ?_, h'.resetDelay.trans h.resetDelay⟩
  · rcases h'.origin with horigin | horigin
    · rw [horigin]
      exact h.origin
    · exact .inr horigin
  · rcases h'.lastPosition with hposition | hposition
    · rw [hposition]
      exact h.lastPosition
    · exact .inr hposition

theorem runsOn_settled (t : TypewriterTrack Float) (now : Millis) (ticks : Float) (total : Nat)
    (policy : RestartPolicy) : t.RunsOn (t.settled now ticks total policy) := by
  have hsettles := t.settles_settled now ticks total policy
  generalize t.settled now ticks total policy = after at hsettles ⊢
  cases hsettles with
  | idleAndChanged _ _ => exact (runsOn_restart t).trans (runsOn_restart t.restart)
  | idle _ _ | changed _ _ | backward _ _ _ => exact runsOn_restart t
  | runsOn _ _ _ => exact .refl t

/-- Reporting a position makes a track run on, but for the position. -/
theorem runsOn_observeIf (t : TypewriterTrack Float) (policy : RestartPolicy)
    (position : Option Nat) :
    ∃ lastPosition, { t with lastPosition }.RunsOn (t.observeIf policy position).value := by
  unfold observeIf
  split
  · unfold observe
    rw [Logged.value_bind]
    split
    · exact ⟨_, .inr rfl, .inl rfl, rfl⟩
    · exact ⟨_, .inl rfl, .inl rfl, rfl⟩
  · exact ⟨t.lastPosition, .refl t⟩

end TypewriterTrack

/-- The track of `total` characters when a frame has made it start over. -/
def Frame.settle (f : Frame) (c : Config) (now : Millis) (total : Nat)
    (t : TypewriterTrack Float) : TypewriterTrack Float :=
  let observed := (t.observeIf c.restart f.progress).value
  ((observed.restartIdle now).value.restartChanged total c.restart).value.restartBackward f.ticks

theorem Frame.runsOn_settle (f : Frame) (c : Config) (now : Millis) (total : Nat)
    (t : TypewriterTrack Float) :
    (t.observeIf c.restart f.progress).value.RunsOn (f.settle c now total t) :=
  TypewriterTrack.runsOn_settled _ now f.ticks total c.restart

/-- A frame leaves a track its origin, or takes it away. -/
theorem Frame.origin_settle (f : Frame) (c : Config) (now : Millis) (total : Nat)
    (t : TypewriterTrack Float) :
    (f.settle c now total t).origin = t.origin ∨ (f.settle c now total t).origin = none := by
  obtain ⟨lastPosition, hobserved⟩ := t.runsOn_observeIf c.restart f.progress
  exact (hobserved.trans (f.runsOn_settle c now total t)).origin

theorem Frame.value_question (f : Frame) (c : Config) (now : Millis) (total : Nat)
    (t : TypewriterTrack Float) :
    (f.question c now total t).value =
      let settled := f.settle c now total t
      let origin := settled.origin.getD f.ticks
      (f.ticks - origin,
        { settled with origin := some origin, total := some total, lastAccess := now }) := rfl

/-! ### Origins in a store -/

namespace TrackStore

/-- The track under a key may give its answer from an origin in a frame: it has begun there, or it
begins in the frame. -/
def MayRunFrom (s : TrackStore) (f : Frame) (key : TrackKey) (origin : Float) : Prop :=
  origin = f.ticks ∨ ∃ track, s.typewriters.peek? key = some track ∧ track.origin = some origin

variable {f : Frame} {key key' : TrackKey} {origin : Float} {s s' : TrackStore}

theorem MayRunFrom.of_sameTypewriters (h : s'.MayRunFrom f key origin)
    (hsame : s'.SameTypewriters s) : s.MayRunFrom f key origin := by
  rwa [MayRunFrom, hsame.typewriters] at h

/-- A track that has not been dropped is the stored one. -/
theorem origin_typewriterAt {now : Millis} (h : (s.typewriterAt now key).origin = some origin) :
    s.MayRunFrom f key origin := by
  unfold typewriterAt at h
  cases hlive : s.typewriters.live? now s.timeout key with
  | none => rw [hlive] at h; cases h
  | some track =>
    rw [hlive] at h
    exact .inr ⟨track, (Option.filter_eq_some_iff.mp hlive).1, h⟩

/-- The answer to a frame is the time since an origin, and from then on the track runs from it. -/
theorem exists_origin (s : TrackStore) (f : Frame) (c : Config) (now : Millis) (key : TrackKey)
    (total : Nat) :
    ∃ origin, s.MayRunFrom f key origin ∧
      (s.askTypewriter now key (f.question c now total)).value.1 = f.ticks - origin ∧
      ∀ origin', (s.askTypewriter now key (f.question c now total)).value.2.MayRunFrom f key
        origin' → origin' = f.ticks ∨ origin' = origin := by
  rw [value_askTypewriter, Frame.value_question]
  refine ⟨_, ?_, rfl, fun origin' h => ?_⟩
  · rcases f.origin_settle c now total (s.typewriterAt now key) with hkept | hstarted
    · rw [hkept]
      cases horigin : (s.typewriterAt now key).origin with
      | none => exact .inl rfl
      | some origin => exact origin_typewriterAt horigin
    · rw [hstarted]
      exact .inl rfl
  · rcases h with hticks | ⟨track, htrack, horigin⟩
    · exact .inl hticks
    · rw [Recency.peek?_put_self] at htrack
      cases htrack
      exact .inr (Option.some_inj.mp horigin).symm

/-- Asking a track gives none an origin that it might not have had. -/
theorem MayRunFrom.of_ask {c : Config} {now : Millis} {total : Nat}
    (h : (s.askTypewriter now key' (f.question c now total)).value.2.MayRunFrom f key origin) :
    s.MayRunFrom f key origin := by
  by_cases hkey : key = key'
  · subst hkey
    obtain ⟨origin', hmay, -, hafter⟩ := s.exists_origin f c now key total
    rcases hafter origin h with rfl | rfl
    · exact .inl rfl
    · exact hmay
  · rcases h with hticks | ⟨track, htrack, horigin⟩
    · exact .inl hticks
    · rw [value_askTypewriter] at htrack
      rcases Recency.leaves_put_of_ne hkey s.typewriters _ with hleft | hdropped
      · exact .inr ⟨track, hleft ▸ htrack, horigin⟩
      · rw [hdropped] at htrack
        cases htrack

end TrackStore

end KineticText
