import KineticText.Proofs.Render.Typewriters
import KineticText.Proofs.Track.Scrambles

/-! Who warns.  Tracks log that they begin, expire and start over, none of which is a warning, so an
effect that is applied warns of nothing, and neither does the count that typewriters share. -/

namespace KineticText

namespace Logged

variable {α β : Type}

/-- The warnings on the way to a value. -/
def warnings (x : Logged α) : List Event := x.events.toList.filter (·.level = .warn)

@[simp] theorem warnings_pure (a : α) : (pure a : Logged α).warnings = [] := rfl

@[simp] theorem warnings_bind (x : Logged α) (f : α → Logged β) :
    (x >>= f).warnings = x.warnings ++ (f x.value).warnings := by
  simp [warnings]

@[simp] theorem warnings_map (f : α → β) (x : Logged α) : (f <$> x).warnings = x.warnings := by
  simp [warnings]

theorem warnings_emit_effectFailed (effect : String) (error : EffectError) :
    (emit (.effectFailed effect error)).warnings = [.effectFailed effect error] := rfl

end Logged

/-! ### Tracks warn of nothing -/

theorem TypewriterTrack.warnings_observeIf {τ : Type} (t : TypewriterTrack τ)
    (policy : RestartPolicy) (position : Option Nat) :
    (t.observeIf policy position).warnings = [] := by
  unfold observeIf observe
  split
  · split
    · rfl
    · rfl
  · rfl

theorem TypewriterTrack.warnings_elapsed {τ : Type} [LT τ] [DecidableLT τ] [Sub τ]
    (t : TypewriterTrack τ) (now : Millis) (ticks : τ) (total : Nat) (policy : RestartPolicy) :
    (t.elapsed now ticks total policy).warnings = [] := by
  have hidle : (t.restartIdle now).warnings = [] := by
    unfold restartIdle
    split <;> rfl
  have hchanged : ∀ t : TypewriterTrack τ, (t.restartChanged total policy).warnings = [] := by
    intro t
    unfold restartChanged
    split
    · split <;> rfl
    · rfl
  simp [elapsed, hidle, hchanged]

theorem ScrambleTrack.warnings_sync (t : ScrambleTrack) (count : Nat) (direction : Direction)
    (seed : UInt64) (now : Millis) : (t.sync count direction seed now).warnings = [] := by
  have hidle : (t.resetIdle now).warnings = [] := by
    unfold resetIdle
    split <;> rfl
  simp [sync, hidle]

theorem Tracks.warnings_ask {τ α : Type} [Timed τ] (family : Family) (now timeout : Millis)
    (key : TrackKey) (fresh : τ) {question : τ → Logged (α × τ)}
    (h : ∀ track, (question track).warnings = []) (tracks : Tracks τ) :
    (tracks.ask family now timeout key fresh question).warnings = [] := by
  have hexpire : (tracks.expire family now timeout key).warnings = [] := by
    unfold expire
    split <;> rfl
  have hcurrent : ∀ tracks : Tracks τ, (tracks.current family key fresh).warnings = [] := by
    intro tracks
    unfold current
    split <;> rfl
  simp [ask, hexpire, hcurrent, h]

theorem TrackStore.warnings_askTypewriter {α : Type} (tracks : TrackStore) (now : Millis)
    (key : TrackKey) {question : TypewriterTrack Float → Logged (α × TypewriterTrack Float)}
    (h : ∀ track, (question track).warnings = []) :
    (tracks.askTypewriter now key question).warnings = [] := by
  simp [askTypewriter, Tracks.warnings_ask _ _ _ _ _ h]

theorem TrackStore.warnings_askScramble {α : Type} (tracks : TrackStore) (now : Millis)
    (key : TrackKey) {question : ScrambleTrack → Logged (α × ScrambleTrack)}
    (h : ∀ track, (question track).warnings = []) :
    (tracks.askScramble now key question).warnings = [] := by
  simp [askScramble, Tracks.warnings_ask _ _ _ _ _ h]

theorem Frame.warnings_question (f : Frame) (c : Config) (now : Millis) (total : Nat)
    (track : TypewriterTrack Float) : (f.question c now total track).warnings = [] := by
  simp [question, TypewriterTrack.warnings_observeIf, TypewriterTrack.warnings_elapsed]

theorem Typewriter.warnings_apply (e : Typewriter) (s : Scope) (tracks : TrackStore) (g : Glyph) :
    (e.apply s tracks g).warnings = [] := by
  have hshown : (e.shown s tracks).warnings = [] := by
    unfold shown
    rw [Logged.warnings_bind, tracks.warnings_askTypewriter]
    · rfl
    · exact s.frame.warnings_question s.config s.now s.length
  unfold apply
  split
  · rfl
  · split
    · simp [hshown]
    · split <;> rfl

theorem Scramble.warnings_move (e : Scramble) (s : Scope) (track : ScrambleTrack) :
    (e.move s track).warnings = [] := by
  unfold move
  rw [Logged.warnings_bind, ScrambleTrack.warnings_sync]
  split
  · simp [Logged.warnings]
  · rfl

theorem Scramble.warnings_apply (e : Scramble) (s : Scope) (tracks : TrackStore) (g : Glyph) :
    (e.apply s tracks g).warnings = [] := by
  unfold apply
  split
  · rfl
  · rw [Logged.warnings_bind, tracks.warnings_askScramble]
    · rfl
    · intro track
      simp [e.warnings_move s track]

theorem Effect.warnings_apply (e : Effect) (s : Scope) (tracks : TrackStore) (g : Glyph) :
    (e.apply s tracks g).warnings = [] := by
  cases e with
  | typewriter e => exact e.warnings_apply s tracks g
  | scramble e => exact e.warnings_apply s tracks g
  | shake | gradient | rainbow | style => rfl

theorem warnings_shareOut (config : Config) (frame : Frame) (now : Millis) (key : TrackKey)
    (outer : List (Extent × Typewriter)) (tracks : TrackStore) :
    (shareOut config frame now key outer tracks).warnings = [] := by
  unfold shareOut
  split
  · rfl
  · rw [Logged.warnings_bind, tracks.warnings_askTypewriter]
    · rfl
    · exact frame.warnings_question config now _

end KineticText
