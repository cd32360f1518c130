import KineticText.Engine
import KineticText.Proofs.Render.Typewriters
import KineticText.Proofs.Track.Sweeping

/-! Drawing with a store that has been swept.  Effects see of a store only what it answers, and a
swept store answers like the same store without the sweeping, at any time after the sweep.  Main
statement: a run of drawings and sweeps shows what its drawings show alone, as long as time does
not go back.  So an engine, which sweeps before every frame, draws what it would draw without. -/

namespace KineticText

variable {full swept : TrackStore}

theorem Typewriter.apply_outlasts (e : Typewriter) (s : Scope) (g : Glyph)
    (h : full.Outlasts s.now swept) :
    (e.apply s full g).value.1 = (e.apply s swept g).value.1 ∧
      TrackStore.Outlasts s.now (e.apply s full g).value.2 (e.apply s swept g).value.2 := by
  rw [e.value_apply, e.value_apply]
  split
  · split
    · obtain ⟨hanswer, hafter⟩ :=
        h.askTypewriter s.key (s.frame.question s.config s.now s.length)
      simp only [hanswer]
      exact ⟨trivial, hafter⟩
    · exact ⟨rfl, h⟩
  · exact ⟨rfl, h⟩

theorem Scramble.apply_outlasts (e : Scramble) (s : Scope) (g : Glyph)
    (h : full.Outlasts s.now swept) :
    (e.apply s full g).value.1 = (e.apply s swept g).value.1 ∧
      TrackStore.Outlasts s.now (e.apply s full g).value.2 (e.apply s swept g).value.2 := by
  unfold apply
  cases requireFinite "obfuscate" [("speed", e.speed)] with
  | error error => exact ⟨rfl, h⟩
  | ok _ =>
    simp only [Logged.value_bind, Logged.value_pure]
    refine ⟨?_, (h.askScramble s.key _).2⟩
    rw [(h.askScramble s.key _).1]

theorem Effect.touch_outlasts (e : Effect) (s : Scope) (g : Glyph)
    (h : full.Outlasts s.now swept) :
    (e.touch s (g, full)).1 = (e.touch s (g, swept)).1 ∧
      TrackStore.Outlasts s.now (e.touch s (g, full)).2 (e.touch s (g, swept)).2 := by
  have happly : (e.apply s full g).value.1 = (e.apply s swept g).value.1 ∧
      TrackStore.Outlasts s.now (e.apply s full g).value.2 (e.apply s swept g).value.2 := by
    cases e with
    | typewriter e => exact e.apply_outlasts s g h
    | scramble e => exact e.apply_outlasts s g h
    | shake | gradient | rainbow | style => exact ⟨rfl, h⟩
  obtain ⟨houtcome, hafter⟩ := happly
  exact ⟨congrArg (·.toOption.getD g) houtcome, hafter⟩

theorem Renderer.relates_outlasts (r : Renderer) (text : AttributedText) (frame : Frame)
    (now : Millis) : r.Relates text frame now Eq (TrackStore.Outlasts now) := by
  rintro span - entry - shares ⟨g, full⟩ ⟨-, swept⟩ rfl h
  exact entry.2.touch_outlasts (r.scope text frame now shares entry.1) g h

/-- A swept store draws the same glyphs. -/
theorem Drawing.outcome_outlasts (d : Drawing) (h : full.Outlasts d.now swept) :
    (d.outcome full).1 = (d.outcome swept).1 ∧
      TrackStore.Outlasts d.now (d.outcome full).2 (d.outcome swept).2 := by
  obtain ⟨hglyphs, hafter⟩ := (d.renderer.relates_outlasts d.text d.frame d.now).render
    (fun _ => rfl) (fun _ _ hstores key question => hstores.askTypewriter key question) h
  exact ⟨Array.toList_inj.mp (List.forall₂_eq_eq_eq ▸ hglyphs), hafter⟩

/-! ### Runs -/

/-- What happens to a store in a run. -/
inductive Action where
  | draw (d : Drawing)
  | sweep (now : Millis)

namespace Action

def time : Action → Millis
  | draw d => d.now
  | sweep now => now

def isDrawing : Action → Bool
  | draw _ => true
  | sweep _ => false

end Action

/-- What the drawings of a run show one after the other. -/
def shown : TrackStore → List Action → List (Array Glyph)
  | _, [] => []
  | tracks, .draw d :: rest => (d.outcome tracks).1 :: shown (d.outcome tracks).2 rest
  | tracks, .sweep now :: rest => shown (tracks.sweep now).value.2 rest

theorem shown_outlasts {actions : List Action} {now : Millis}
    (hsorted : (now :: actions.map Action.time).Pairwise (· ≤ ·)) (h : full.Outlasts now swept) :
    shown swept actions = shown full (actions.filter Action.isDrawing) := by
  induction actions generalizing now full swept with
  | nil => rfl
  | cons action rest ih =>
    obtain ⟨hfirst, hrest⟩ := List.pairwise_cons.mp hsorted
    have hlater : full.Outlasts action.time swept := h.later (hfirst _ List.mem_cons_self)
    cases action with
    | draw d =>
      obtain ⟨hglyphs, hafter⟩ := d.outcome_outlasts hlater
      rw [List.filter_cons_of_pos rfl, shown, shown, ← hglyphs, ih hrest hafter]
    | sweep time =>
      rw [List.filter_cons_of_neg Bool.false_ne_true, shown]
      exact ih hrest hlater.sweep

/-- Sweeping does not show.  In every run in which time does not go back, whatever the store is at
its start, the drawings show what they show without the sweeps. -/
theorem shown_eq_shown_filter (tracks : TrackStore) {actions : List Action}
    (hsorted : (actions.map Action.time).Pairwise (· ≤ ·)) :
    shown tracks actions = shown tracks (actions.filter Action.isDrawing) :=
  shown_outlasts (List.pairwise_cons.mpr ⟨fun _ _ => UInt64.zero_le, hsorted⟩)
    (.refl 0 tracks)

/-- A drawing of a typewriter at a time. -/
def typedAt (now : Millis) : Drawing :=
  { renderer := ⟨{}⟩, text := .typed "ab", frame := {}, now }

/-- A typewriter whose track is swept away before it is drawn again. -/
def typedTwice : List Action := [.draw (typedAt 0), .sweep 5000, .draw (typedAt 6000)]

theorem shown_typedTwice : (typedTwice.map Action.time).Pairwise (· ≤ ·) ∧
    (((typedAt 0).outcome (.ofConfig {})).2.sweep 5000).value.1 = 1 ∧
    shown (.ofConfig {}) typedTwice =
      shown (.ofConfig {}) (typedTwice.filter Action.isDrawing) :=
  ⟨by decide, by decide +kernel, shown_eq_shown_filter (.ofConfig {}) (by decide)⟩

/-! ### Engines -/

namespace Engine

variable {ω σ : Type}

/-- What an engine draws of texts and frames, one after the other. -/
def frames : Engine ω σ → List Drawing → List (Array Glyph)
  | _, [] => []
  | e, d :: rest =>
    let drawn := (e.render d.text d.frame d.now).value
    drawn.1 :: frames drawn.2 rest

theorem value_render (e : Engine ω σ) (text : AttributedText) (frame : Frame) (now : Millis) :
    (e.render text frame now).value =
      let drawn := (e.renderer.render text frame now (e.tracks.sweep now).value.2).value
      (drawn.1, { e with tracks := drawn.2 }) := rfl

theorem frames_outlasts {drawings : List Drawing} {e : Engine ω σ} {now : Millis}
    (hsorted : (now :: drawings.map Drawing.now).Pairwise (· ≤ ·))
    (h : full.Outlasts now e.tracks) :
    e.frames drawings =
      shown full (drawings.map fun d => .draw { d with renderer := e.renderer }) := by
  induction drawings generalizing now full e with
  | nil => rfl
  | cons d rest ih =>
    obtain ⟨hfirst, hrest⟩ := List.pairwise_cons.mp hsorted
    have hlater : full.Outlasts d.now e.tracks := h.later (hfirst _ List.mem_cons_self)
    obtain ⟨hglyphs, hafter⟩ := ({ d with renderer := e.renderer } : Drawing).outcome_outlasts
      hlater.sweep
    rw [frames, List.map_cons, shown, value_render, hglyphs]
    exact congrArg _ (ih hrest hafter)

/-- The sweeps of an engine do not show in its frames. -/
theorem frames_eq_shown (e : Engine ω σ) {drawings : List Drawing}
    (hsorted : (drawings.map Drawing.now).Pairwise (· ≤ ·)) :
    e.frames drawings =
      shown e.tracks (drawings.map fun d => .draw { d with renderer := e.renderer }) :=
  frames_outlasts (List.pairwise_cons.mpr ⟨fun _ _ => UInt64.zero_le, hsorted⟩) (.refl 0 e.tracks)

end Engine

end KineticText
