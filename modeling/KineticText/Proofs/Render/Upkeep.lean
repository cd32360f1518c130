import KineticText.Proofs.Engine.Runs
import KineticText.Proofs.Render.Apart
import KineticText.Proofs.Track.Uses

/-! What frames keep in a store.  A host can come to the tracks of scrambled elements, and under
some keys all of them, the new ones included, have time before they are reset.  Main statement: a
frame leaves a store like that, with the same limits. -/

namespace KineticText

/-- What all stored tracks have, and a new one too, the track at a time has. -/
theorem Tracks.getD_live? {τ : Type} [Timed τ] {P : τ → Prop} {fresh : τ} {tracks : Tracks τ}
    (hfresh : P fresh) (hstored : ∀ entry ∈ tracks.entries, P entry.2) (now timeout : Millis)
    (key : TrackKey) : P ((tracks.live? now timeout key).getD fresh) := by
  cases hlive : tracks.live? now timeout key with
  | none => exact hfresh
  | some track => exact hstored _ (Recency.mem_of_peek? (Option.filter_eq_some_iff.mp hlive).1)

namespace TrackStore

/-- The tracks of scrambled elements under the keys have reset delays, and new ones get them. -/
def Waits (s : TrackStore) (keys : Finset TrackKey) : Prop :=
  ∀ key ∈ keys, 0 < s.scrambleReset ∧
    ∀ track, s.scrambles.peek? key = some track → 0 < track.resetDelay

/-- A host can come to the tracks of scrambled elements, and those under the keys have time before
they are reset. -/
structure Sound (s : TrackStore) (keys : Finset TrackKey) : Prop where
  reachable : ∀ entry ∈ s.scrambles.entries, entry.2.Reachable
  waits : s.Waits keys

namespace Sound

variable {s : TrackStore} {keys : Finset TrackKey} {key : TrackKey}

theorem reachable_scrambleAt (h : s.Sound keys) (now : Millis) (key : TrackKey) :
    (s.scrambleAt now key).Reachable :=
  Tracks.getD_live? (ScrambleTrack.reachable_start now s.scrambleReset key.word) h.reachable now
    s.timeout key

theorem lasting_scrambleAt (h : s.Sound keys) (now : Millis) (hkey : key ∈ keys) :
    0 < (s.scrambleAt now key).resetDelay := by
  obtain ⟨hnew, hstored⟩ := h.waits key hkey
  unfold TrackStore.scrambleAt
  cases hlive : s.scrambles.live? now s.timeout key with
  | none => exact hnew
  | some track => exact hstored track (Option.filter_eq_some_iff.mp hlive).1

theorem putScramble (h : s.Sound keys) {track : ScrambleTrack} (htrack : track.Reachable)
    (hlasting : key ∈ keys → 0 < track.resetDelay) :
    Sound { s with scrambles := s.scrambles.put key track } keys := by
  refine ⟨Recency.forall_mem_put htrack h.reachable, fun key' hkey' =>
    ⟨(h.waits key' hkey').1, fun track' htrack' => ?_⟩⟩
  by_cases heq : key' = key
  · subst heq
    rw [Recency.peek?_put_self] at htrack'
    exact Option.some_inj.mp htrack' ▸ hlasting hkey'
  · rcases Recency.leaves_put_of_ne heq s.scrambles track with hleft | hdropped
    · exact (h.waits key' hkey').2 track' (hleft ▸ htrack')
    · exact absurd (htrack'.symm.trans hdropped) (Option.some_ne_none _)

end Sound

end TrackStore

open TrackStore

/-- An action that leaves tracks as sound as they are, and the limits of the store. -/
def Maintains (keys : Finset TrackKey) {α : Type} (act : StoreAction α) : Prop :=
  ∀ s, s.Sound keys → (act s).2.Sound keys ∧ s.SameLimits (act s).2

variable {keys : Finset TrackKey}

theorem composes_maintains : Composes (Maintains keys) where
  answer _ s h := ⟨h, .refl s⟩
  andThen {_ _ act next} hact hnext s h := by
    obtain ⟨hsound, hlimits⟩ := hact s h
    obtain ⟨hsound', hlimits'⟩ := hnext (act s).1 _ hsound
    exact ⟨hsound', hlimits.trans hlimits'⟩

theorem maintains_askTypewriter {α : Type} (now : Millis) (key : TrackKey)
    (question : TypewriterTrack Float → Logged (α × TypewriterTrack Float)) :
    Maintains keys fun tracks => (tracks.askTypewriter now key question).value := by
  simp only [value_askTypewriter]
  exact fun s h => ⟨⟨h.reachable, h.waits⟩, rfl, rfl, rfl, rfl, rfl⟩

theorem Scramble.resetDelay_moved (e : Scramble) (s : Scope) (t : ScrambleTrack) :
    (e.moved s t).resetDelay = t.resetDelay := by
  have hdelay := t.resetDelay_sync s.length e.direction (e.seed.getD s.key.word) s.now
  simp only [moved]
  split
  · exact (ScrambleTrack.resetDelay_stepRandom _ s.now s.config.timing).trans hdelay
  · exact hdelay

theorem Scramble.reachable_moved {t : ScrambleTrack} (h : t.Reachable) (e : Scramble) (s : Scope) :
    (e.moved s t).Reachable := by
  have hsync := h.used (.sync s.length e.direction (e.seed.getD s.key.word) s.now)
  simp only [moved]
  split
  · exact hsync.used (.stepRandom s.now s.config.timing)
  · exact hsync

theorem maintains_draw (scope : Scope) (e : Scramble) (g : Glyph) :
    Maintains keys (e.draw scope g) := by
  intro s h
  have hreachable := h.reachable_scrambleAt scope.now scope.key
  refine ⟨h.putScramble (Scramble.reachable_moved hreachable e scope) fun hkey => ?_,
    rfl, rfl, rfl, rfl, rfl⟩
  rw [e.resetDelay_moved]
  exact h.lasting_scrambleAt scope.now hkey

theorem Drawing.maintains_outcome (d : Drawing) : Maintains keys d.outcome :=
  Renderer.EachStep.render
    ⟨fun _ => maintains_askTypewriter d.now _ _, fun _ _ _ _ => maintains_askTypewriter d.now _ _,
      fun _ e _ _ g => maintains_draw _ e g⟩
    composes_maintains

end KineticText
