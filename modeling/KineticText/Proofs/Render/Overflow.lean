import KineticText.Proofs.Render.Idle
import KineticText.Proofs.Render.Warnings
import KineticText.Proofs.Track.Deadlines
import KineticText.Proofs.Track.IdleTimes

/-! Frames in which nothing overflows.  A frame adds a lifetime to its time when a character begins
to drift, and it takes the difference of two times when it reports that a track has been idle.  The
sum is a word when the longest one is.  The difference is taken only while events are traced, and it
is not below zero unless a track without a reset delay was last used at a later time.  Main
statement: when there are no such tracks, no frame stops the program, whatever it draws. -/

namespace KineticText

namespace Logged

variable {α β σ : Type}

/-- The program does not stop on the way to the value, and the value has the property. -/
structure Runs (x : Logged α) (traced : Bool) (P : α → Prop) : Prop where
  stops : x.stops traced = false
  value : P x.value

variable {traced : Bool} {P : α → Prop} {Q : β → Prop}

theorem Runs.outcome?_eq {x : Logged α} (h : x.Runs traced P) :
    x.outcome? traced = some x.value := by
  rw [outcome?, h.stops]
  rfl

theorem runs_pure {a : α} (h : P a) : (pure a : Logged α).Runs traced P := ⟨stops_pure a traced, h⟩

theorem Runs.bind {x : Logged α} {f : α → Logged β} (hx : x.Runs traced P)
    (hf : ∀ a, P a → (f a).Runs traced Q) : (x >>= f).Runs traced Q :=
  ⟨by rw [stops_bind, hx.stops, (hf _ hx.value).stops]; rfl, (hf _ hx.value).value⟩

theorem runs_fold {P : σ → Prop} {step : σ → α → Logged σ} {xs : List α}
    (hstep : ∀ x ∈ xs, ∀ s, P s → (step s x).Runs traced P) {start : σ} (h : P start) :
    (fold step start xs).Runs traced P := by
  induction xs generalizing start with
  | nil => exact runs_pure h
  | cons x xs ih =>
    obtain ⟨hfirst, hrest⟩ := List.forall_mem_cons.mp hstep
    rw [fold_cons]
    exact (hfirst start h).bind fun s hs => ih hrest hs

end Logged

open Logged

/-! ### Tracks -/

/-- The idle time that a track reports is not below zero, if it is one that is reported. -/
def ReportFits (traced : Bool) (now last resetDelay : Millis) : Prop :=
  traced = true → now < last → 0 < resetDelay

variable {traced : Bool} {now : Millis}

theorem reportFits_of_le {last : Millis} (h : last ≤ now) (traced : Bool) (resetDelay : Millis) :
    ReportFits traced now last resetDelay :=
  fun _ hlt => absurd h (UInt64.not_le.mpr hlt)

theorem ReportFits.not_stops {runs : Bool} {last resetDelay : Millis}
    (h : ReportFits traced now last resetDelay) :
    (traced && (runs && decide (resetDelay ≤ now.since last)) && decide (now < last)) = false := by
  refine Bool.eq_false_iff.mpr fun hstops => ?_
  simp only [Bool.and_eq_true, decide_eq_true_eq] at hstops
  obtain ⟨⟨htraced, -, hidle⟩, hlt⟩ := hstops
  have hzero := (Millis.le_since_iff_of_lt hlt).mp hidle
  exact UInt64.pos_iff_ne_zero.mp (h htraced hlt) hzero

namespace TypewriterTrack

theorem stops_observeIf {τ : Type} (t : TypewriterTrack τ) (policy : RestartPolicy)
    (position : Option Nat) : (t.observeIf policy position).stops traced = false := by
  unfold observeIf observe
  split
  · split <;> simp [stops_emit, Event.overflows]
  · exact stops_pure _ _

theorem lastAccess_observeIf (t : TypewriterTrack Float) (policy : RestartPolicy)
    (position : Option Nat) : (t.observeIf policy position).value.lastAccess = t.lastAccess := by
  unfold observeIf
  split
  · exact t.lastAccess_used (.observe _)
  · rfl

end TypewriterTrack

theorem Frame.stops_question {t : TypewriterTrack Float}
    (h : ReportFits traced now t.lastAccess t.resetDelay) (f : Frame) (c : Config) (total : Nat) :
    (f.question c now total t).stops traced = false := by
  obtain ⟨lastPosition, hobserved⟩ := t.runsOn_observeIf c.restart f.progress
  have hdelay := hobserved.resetDelay
  have hlast := t.lastAccess_observeIf c.restart f.progress
  unfold question
  rw [stops_bind, TypewriterTrack.stops_observeIf, TypewriterTrack.stops_elapsed, Bool.false_or]
  refine ReportFits.not_stops ?_
  rwa [hdelay, hlast]

theorem Scramble.stops_move {s : Scope} {t : ScrambleTrack}
    (h : ReportFits traced s.now t.lastAccess t.resetDelay) (e : Scramble)
    (hfits : s.now.toNat + s.config.timing.longest < 2 ^ 64) :
    (e.move s t).stops traced = false := by
  have hsync : (t.sync s.length e.direction (e.seed.getD s.key.word) s.now).stops traced =
      false := by
    rw [ScrambleTrack.stops_sync]
    exact h.not_stops
  unfold move
  rw [stops_bind, hsync, Bool.false_or]
  split
  · rw [ScrambleTrack.stops_stepRandom, ScrambleTrack.overflows_stepRandom hfits]
  · exact stops_pure _ _

/-- Asking a track stops where the question does. -/
theorem Tracks.stops_ask {τ α : Type} [Timed τ] (family : Family) (now timeout : Millis)
    (key : TrackKey) (fresh : τ) (question : τ → Logged (α × τ)) (tracks : Tracks τ) :
    (tracks.ask family now timeout key fresh question).stops traced =
      (question ((tracks.live? now timeout key).getD fresh)).stops traced := by
  unfold ask expire current live?
  cases hpeek : tracks.peek? key with
  | none => simp [hpeek, stops_emit, Event.overflows]
  | some track =>
    cases hstale : isStale now timeout track with
    | true =>
      simp [hstale, Recency.peek?_erase_self, Option.filter_some, stops_emit, Event.overflows]
    | false => simp [hstale, hpeek, Option.filter_some]

namespace TrackStore

/-- The idle times that tracks report at a time are not below zero. -/
structure ReportsFit (s : TrackStore) (traced : Bool) (now : Millis) : Prop where
  typewriters : ∀ entry ∈ s.typewriters.entries,
    ReportFits traced now entry.2.lastAccess entry.2.resetDelay
  scrambles : ∀ entry ∈ s.scrambles.entries,
    ReportFits traced now entry.2.lastAccess entry.2.resetDelay

variable {s : TrackStore}

/-- A clock that has not been set back gives idle times that fit. -/
theorem AccessedInOrder.reportsFit (h : s.AccessedInOrder now) (traced : Bool) :
    s.ReportsFit traced now :=
  ⟨fun entry hentry => reportFits_of_le (h.typewriters.le_now entry hentry) traced _,
    fun entry hentry => reportFits_of_le (h.scrambles.le_now entry hentry) traced _⟩

namespace ReportsFit

theorem typewriterAt (h : s.ReportsFit traced now) (key : TrackKey) :
    ReportFits traced now (s.typewriterAt now key).lastAccess
      (s.typewriterAt now key).resetDelay :=
  Tracks.getD_live? (P := fun t : TypewriterTrack Float =>
    ReportFits traced now t.lastAccess t.resetDelay)
    (reportFits_of_le (UInt64.le_refl now) traced _) h.typewriters now s.timeout key

theorem scrambleAt (h : s.ReportsFit traced now) (key : TrackKey) :
    ReportFits traced now (s.scrambleAt now key).lastAccess (s.scrambleAt now key).resetDelay :=
  Tracks.getD_live? (P := fun t : ScrambleTrack =>
    ReportFits traced now t.lastAccess t.resetDelay)
    (reportFits_of_le (UInt64.le_refl now) traced _) h.scrambles now s.timeout key

/-- A track that is used at the time may be stored. -/
theorem putTypewriter (h : s.ReportsFit traced now) (key : TrackKey)
    {track : TypewriterTrack Float} (hcurrent : track.lastAccess = now) :
    ReportsFit { s with typewriters := s.typewriters.put key track } traced now :=
  ⟨Recency.forall_mem_put (P := fun t : TypewriterTrack Float =>
    ReportFits traced now t.lastAccess t.resetDelay)
    (reportFits_of_le (UInt64.le_of_eq hcurrent) traced _) h.typewriters, h.scrambles⟩

theorem putScramble (h : s.ReportsFit traced now) (key : TrackKey) {track : ScrambleTrack}
    (hcurrent : track.lastAccess = now) :
    ReportsFit { s with scrambles := s.scrambles.put key track } traced now :=
  ⟨h.typewriters, Recency.forall_mem_put (P := fun t : ScrambleTrack =>
    ReportFits traced now t.lastAccess t.resetDelay)
    (reportFits_of_le (UInt64.le_of_eq hcurrent) traced _) h.scrambles⟩

end ReportsFit

/-- A question of a frame does not stop. -/
theorem runs_question (h : s.ReportsFit traced now) (f : Frame) (c : Config) (key : TrackKey)
    (total : Nat) :
    (s.askTypewriter now key (f.question c now total)).Runs traced
      (·.2.ReportsFit traced now) := by
  constructor
  · rw [askTypewriter, stops_bind, Tracks.stops_ask, stops_pure, Bool.or_false]
    exact f.stops_question (h.typewriterAt key) c total
  · rw [value_askTypewriter]
    exact h.putTypewriter key rfl

end TrackStore

/-! ### Effects -/

section

variable {s : TrackStore} {scope : Scope}

theorem Typewriter.runs_apply (h : s.ReportsFit traced scope.now) (e : Typewriter) (g : Glyph) :
    (e.apply scope s g).Runs traced (·.2.ReportsFit traced scope.now) := by
  have hshown : (e.shown scope s).Runs traced (·.2.ReportsFit traced scope.now) :=
    (TrackStore.runs_question h scope.frame scope.config scope.key scope.length).bind
      fun _ hasked => runs_pure hasked
  unfold apply
  split
  · exact runs_pure h
  · split
    · exact hshown.bind fun _ hasked => runs_pure hasked
    · split
      · exact runs_pure h
      · exact runs_pure h

theorem Scramble.runs_apply (h : s.ReportsFit traced scope.now) (e : Scramble)
    (hfits : scope.now.toNat + scope.config.timing.longest < 2 ^ 64) (g : Glyph) :
    (e.apply scope s g).Runs traced (·.2.ReportsFit traced scope.now) := by
  constructor
  · unfold apply
    split
    · exact stops_pure _ _
    · simp only [stops_bind, TrackStore.askScramble, Tracks.stops_ask, stops_pure, Bool.or_false]
      exact e.stops_move (h.scrambleAt scope.key) hfits
  · rw [value_apply]
    split
    · exact h.putScramble scope.key (e.lastAccess_moved scope _)
    · exact h

theorem Effect.runs_apply (h : s.ReportsFit traced scope.now) (e : Effect)
    (hfits : scope.now.toNat + scope.config.timing.longest < 2 ^ 64) (g : Glyph) :
    (e.apply scope s g).Runs traced (·.2.ReportsFit traced scope.now) := by
  cases e with
  | typewriter e => exact e.runs_apply h g
  | scramble e => exact e.runs_apply h hfits g
  | shake | gradient | rainbow | style => exact runs_pure h

variable (scope) in
theorem Effect.runs_act {canvas : Canvas} (h : canvas.tracks.ReportsFit traced scope.now)
    (e : Effect) (hfits : scope.now.toNat + scope.config.timing.longest < 2 ^ 64)
    (slot : Nat × Nat) (g : Glyph) :
    (e.act scope slot canvas g).Runs traced (·.1.tracks.ReportsFit traced scope.now) := by
  refine (e.runs_apply h hfits g).bind fun applied happlied => ?_
  obtain ⟨error | glyph, after⟩ := applied
  · simp only
    split
    · exact runs_pure happlied
    · exact ⟨by simp [stops_emit, Event.overflows], happlied⟩
  · exact runs_pure happlied

end

/-! ### Frames -/

namespace Renderer

variable (r : Renderer) (text : AttributedText) (frame : Frame)

/-- Drawing characters one after the other. -/
theorem runs_drawCharacters (hfits : now.toNat + r.config.timing.longest < 2 ^ 64)
    (shares : List (Extent × Nat)) (looks : Array Appearance) (ownerOf : Nat → Option Nat)
    (entries : List (Char × Nat)) {canvas : Canvas} (h : canvas.tracks.ReportsFit traced now) :
    (fold (drawCharacter looks ownerOf frame (r.scope text frame now shares)) canvas
      entries).Runs traced (·.tracks.ReportsFit traced now) := by
  refine runs_fold (fun entry _ canvas hcanvas => ?_) h
  unfold drawCharacter
  simp only
  split
  · exact runs_pure hcanvas
  · rename_i place look _
    have hact : (look.act (r.scope text frame now shares) place canvas
        (look.glyph frame entry.2 entry.1)).Runs traced (·.1.tracks.ReportsFit traced now) :=
      runs_fold (fun effect _ _ hacted =>
        Effect.runs_act (r.scope text frame now shares effect.1.1) hacted effect.1.2 hfits _ _)
        hcanvas
    exact hact.bind fun _ hacted => runs_pure hacted

theorem runs_shareOut (key : TrackKey) (outer : List (Extent × Typewriter)) {tracks : TrackStore}
    (h : tracks.ReportsFit traced now) :
    (shareOut r.config frame now key outer tracks).Runs traced
      (·.2.ReportsFit traced now) := by
  unfold shareOut
  split
  · exact runs_pure h
  · exact (TrackStore.runs_question h frame r.config key _).bind fun _ hasked =>
      runs_pure hasked

/-- A frame does not stop the program when its longest deadline is a word and no idle time that it
reports is below zero. -/
theorem runs_render (hfits : now.toNat + r.config.timing.longest < 2 ^ 64) {tracks : TrackStore}
    (h : tracks.ReportsFit traced now) :
    (r.render text frame now tracks).Runs traced (·.2.ReportsFit traced now) := by
  unfold render draw
  split
  · exact runs_pure h
  · simp only
    split
    · rw [pure_bind]
      exact (r.runs_drawCharacters text frame hfits [] _ _ _ h).bind fun _ hdrawn =>
        runs_pure hdrawn
    · exact (r.runs_shareOut frame _ _ h).bind fun shared hshared =>
        (r.runs_drawCharacters text frame hfits shared.1 _ _ _ hshared).bind fun _ hdrawn =>
          runs_pure hdrawn

end Renderer

end KineticText
