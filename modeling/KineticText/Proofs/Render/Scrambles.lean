import KineticText.Proofs.Render.Drawing
import KineticText.Proofs.Track.Store

/-! What a frame does to the tracks of scrambled elements.  Scrambling asks the track of its element
once for every glyph, and moves it on before it looks at it. -/

namespace KineticText

namespace Scramble

/-- The track when a glyph has asked it. -/
def moved (e : Scramble) (s : Scope) (track : ScrambleTrack) : ScrambleTrack :=
  let track := (track.sync s.length e.direction (e.seed.getD s.key.word) s.now).value
  if e.mode = .random then (track.stepRandom s.now s.config.timing).value else track

theorem value_move (e : Scramble) (s : Scope) (track : ScrambleTrack) :
    (e.move s track).value = e.moved s track := by
  simp only [move, moved, Logged.value_bind, apply_ite Logged.value, Logged.value_pure]

/-- The glyph that a track shows. -/
def redraw (e : Scramble) (s : Scope) (track : ScrambleTrack) (g : Glyph) :
    Except EffectError Glyph :=
  (track.isScrambled (s.place g) e.mode e.speed s.now).map fun scrambled =>
    if scrambled then
      { g with character := track.filler (s.place g) g.character e.alphabet s.now }
    else g

/-- Moves the track of the element on, and draws a glyph from it. -/
def draw (e : Scramble) (s : Scope) (g : Glyph) (tracks : TrackStore) : Glyph × TrackStore :=
  let track := e.moved s (tracks.scrambleAt s.now s.key)
  ((e.redraw s track g).toOption.getD g,
    { tracks with scrambles := tracks.scrambles.put s.key track })

theorem value_apply (e : Scramble) (s : Scope) (tracks : TrackStore) (g : Glyph) :
    (e.apply s tracks g).value =
      if e.speed.isFinite then
        let track := e.moved s (tracks.scrambleAt s.now s.key)
        (e.redraw s track g, { tracks with scrambles := tracks.scrambles.put s.key track })
      else (.error (.notFinite "obfuscate" "speed"), tracks) := by
  unfold apply requireFinite
  cases hspeed : e.speed.isFinite with
  | false => rfl
  | true =>
    simp only [requireFinite, if_true, Logged.value_bind, TrackStore.askScramble, Tracks.value_ask,
      value_move]
    rfl

theorem touch_of_not_finite {e : Scramble} (hspeed : e.speed.isFinite = false) (s : Scope)
    (state : Glyph × TrackStore) : (Effect.scramble e).touch s state = state := by
  have happly : (Effect.apply (.scramble e) s state.2 state.1).value = _ :=
    e.value_apply s state.2 state.1
  unfold Effect.touch
  rw [happly, hspeed]
  rfl

theorem touch_of_finite {e : Scramble} (hspeed : e.speed.isFinite = true) (s : Scope)
    (state : Glyph × TrackStore) :
    (Effect.scramble e).touch s state = e.draw s state.1 state.2 := by
  have happly : (Effect.apply (.scramble e) s state.2 state.1).value = _ :=
    e.value_apply s state.2 state.1
  unfold Effect.touch
  rw [happly, if_pos hspeed]
  rfl

end Scramble

end KineticText
