import KineticText.Proofs.Render.Drawing

/-! Effects at work on a glyph in place.  Each effect is written once more as the steps that it
takes: a step changes one thing of the glyph or asks a track, and an error stops the effect where it
stands, with all changes up to there.  Main statement: work in place comes to what `Effect.apply`
says, so every effect makes its changes to the glyph after the last step that can fail. -/

namespace KineticText

/-- Steps on a glyph and the tracks.  An error leaves both as the steps before it have. -/
abbrev Work (α : Type) : Type := ExceptT EffectError (StateT (Glyph × TrackStore) Logged) α

namespace Work

variable {α : Type}

/-- What the steps end with, and the glyph and the tracks that they leave. -/
def on (w : Work α) (state : Glyph × TrackStore) :
    Logged (Except EffectError α × (Glyph × TrackStore)) := StateT.run (ExceptT.run w) state

/-- Stops if there is an error. -/
def check (x : Except EffectError α) : Work α := ExceptT.mk (pure x)

/-- The glyph as it stands. -/
def glyph : Work Glyph := return (← get).1

/-- Changes the glyph. -/
def change (f : Glyph → Glyph) : Work Unit := modify fun (g, tracks) => (f g, tracks)

/-- Asks the tracks, which stay as the answer leaves them. -/
def ask (question : TrackStore → Logged (α × TrackStore)) : Work α :=
  ExceptT.mk fun state => (fun asked => (.ok asked.1, (state.1, asked.2))) <$> question state.2

end Work

/-- Lets `shown` of `length` characters show, at a place among them. -/
def Typewriter.unveil (e : Typewriter) (s : Scope) (place length shown : Nat) : Work Unit :=
  if shown ≤ place then Work.change fun g => { g with visible := false }
  else if e.center then
    Work.change fun g => { g with
      offsetX := g.offsetX + Double.ofNat (length - shown) * s.frame.advance / 2.0 }
  else pure ()

def Typewriter.work (e : Typewriter) (s : Scope) : Work Unit := do
  Work.check (requireFinite "typewriter" [("ticks", s.frame.ticks)])
  let g ← Work.glyph
  match s.config.allocation with
  | .independent =>
    let shown ← Work.ask (e.shown s)
    e.unveil s (s.place g) s.length shown
  | .container =>
    match s.shares.find? fun share => share.1.contains g.index with
    | none => return
    | some (extent, shown) => e.unveil s (extent.localIndex g.index) extent.length shown

def Scramble.work (e : Scramble) (s : Scope) : Work Unit := do
  Work.check (requireFinite "obfuscate" [("speed", e.speed)])
  let place := s.place (← Work.glyph)
  let track ← Work.ask fun tracks => tracks.askScramble s.now s.key fun track => do
    let track ← e.move s track
    return (track, track)
  if ← Work.check (track.isScrambled place e.mode e.speed s.now) then
    Work.change fun g => { g with character := track.filler place g.character e.alphabet s.now }

def Shake.work (e : Shake) (s : Scope) : Work Unit := do
  Work.check (requireFinite "shake" [("ticks", s.frame.ticks), ("amplitude", e.amplitude),
    ("speed", e.speed), ("wavelength", e.wavelength)])
  let (x, y) := e.offset s.frame.ticks (s.place (← Work.glyph)) s.key.word
  Work.change fun g => { g with offsetX := g.offsetX + x }
  Work.change fun g => { g with offsetY := g.offsetY + y }

def Gradient.work (e : Gradient) (s : Scope) : Work Unit := do
  Work.check (requireFinite "gradient" [("ticks", s.frame.ticks), ("flow", e.flow)])
  let position := e.position (s.place (← Work.glyph)) s.length s.frame.ticks
  match shade (e.colors s.frame.base).toArray position e.repeating with
  | none => throw .emptyGradient
  | some color => Work.change (·.paint color)

def Rainbow.work (e : Rainbow) (s : Scope) : Work Unit := do
  Work.check (requireFinite "rainbow" [("ticks", s.frame.ticks)])
  let color := e.color (s.place (← Work.glyph)) s.frame.ticks
  Work.change (·.paint color)

/-- The steps of an effect on a glyph; static style takes none. -/
def Effect.work (e : Effect) (s : Scope) : Work Unit :=
  match e with
  | typewriter e => e.work s
  | scramble e => e.work s
  | shake e => e.work s
  | gradient e => e.work s
  | rainbow e => e.work s
  | style _ => pure ()

/-- The end of work on `g`, when an effect has the given outcome and tracks. -/
def finished (g : Glyph) (applied : Except EffectError Glyph × TrackStore) :
    Except EffectError Unit × (Glyph × TrackStore) :=
  (applied.1.map fun _ => (), (applied.1.toOption.getD g, applied.2))

namespace Work

variable {α β : Type} (state : Glyph × TrackStore)

theorem on_bind (w : Work α) (f : α → Work β) :
    (w >>= f).on state = w.on state >>= fun ended =>
      match ended.1 with
      | .ok a => (f a).on ended.2
      | .error error => pure (.error error, ended.2) := by
  show (w.on state >>= fun ended => StateT.run (ExceptT.bindCont f ended.1) ended.2) = _
  refine congrArg _ (funext fun ended => ?_)
  cases ended.1 <;> rfl

theorem on_check (x : Except EffectError α) : (check x).on state = pure (x, state) := rfl

theorem on_glyph : glyph.on state = pure (.ok state.1, state) := rfl

theorem on_ask (question : TrackStore → Logged (α × TrackStore)) :
    (ask question).on state =
      (fun asked => (.ok asked.1, (state.1, asked.2))) <$> question state.2 := rfl

end Work

theorem Typewriter.on_unveil (e : Typewriter) (s : Scope) (place length shown : Nat)
    (state : Glyph × TrackStore) :
    (e.unveil s place length shown).on state =
      pure (.ok (), (e.reveal s place length shown state.1, state.2)) := by
  unfold unveil reveal
  split
  · rfl
  · split <;> rfl

theorem Typewriter.on_work (e : Typewriter) (s : Scope) (state : Glyph × TrackStore) :
    (e.work s).on state = finished state.1 <$> e.apply s state.2 state.1 := by
  unfold work apply
  rw [Work.on_bind, Work.on_check, pure_bind]
  cases requireFinite "typewriter" [("ticks", s.frame.ticks)] with
  | error error => rfl
  | ok _ =>
    simp only [Work.on_bind, Work.on_glyph, pure_bind]
    cases s.config.allocation with
    | independent =>
      simp only [Work.on_bind, Work.on_ask, Typewriter.on_unveil, bind_map_left, map_bind, map_pure]
      rfl
    | container =>
      simp only
      cases s.shares.find? fun share => share.1.contains state.1.index with
      | none => rfl
      | some share => exact e.on_unveil s _ _ _ state

theorem Scramble.on_work (e : Scramble) (s : Scope) (state : Glyph × TrackStore) :
    (e.work s).on state = finished state.1 <$> e.apply s state.2 state.1 := by
  unfold work apply
  rw [Work.on_bind, Work.on_check, pure_bind]
  cases requireFinite "obfuscate" [("speed", e.speed)] with
  | error error => rfl
  | ok _ =>
    simp only [Work.on_bind, Work.on_glyph, Work.on_ask, Work.on_check, pure_bind, bind_map_left,
      map_bind, map_pure]
    -- The track has been asked and moved on, whether or not it covers the glyph.
    refine bind_congr fun asked => ?_
    cases asked.1.isScrambled (s.place state.1) e.mode e.speed s.now with
    | error error => rfl
    | ok scrambled => cases scrambled <;> rfl

theorem Shake.on_work (e : Shake) (s : Scope) (state : Glyph × TrackStore) :
    (e.work s).on state = pure (finished state.1 (e.apply s state.1, state.2)) := by
  unfold work apply
  cases requireFinite "shake" [("ticks", s.frame.ticks), ("amplitude", e.amplitude),
    ("speed", e.speed), ("wavelength", e.wavelength)] with
  | error error => rfl
  | ok _ => rfl

theorem Gradient.on_work (e : Gradient) (s : Scope) (state : Glyph × TrackStore) :
    (e.work s).on state = pure (finished state.1 (e.apply s state.1, state.2)) := by
  unfold work apply
  cases requireFinite "gradient" [("ticks", s.frame.ticks), ("flow", e.flow)] with
  | error error => rfl
  | ok _ =>
    simp only [Work.on_bind, Work.on_check, Work.on_glyph, pure_bind]
    cases shade (e.colors s.frame.base).toArray
      (e.position (s.place state.1) s.length s.frame.ticks) e.repeating with
    | none => rfl
    | some color => rfl

theorem Rainbow.on_work (e : Rainbow) (s : Scope) (state : Glyph × TrackStore) :
    (e.work s).on state = pure (finished state.1 (e.apply s state.1, state.2)) := by
  unfold work apply
  cases requireFinite "rainbow" [("ticks", s.frame.ticks)] with
  | error error => rfl
  | ok _ => rfl

/-- Work in place ends as the effect's outcome says, and a glyph that the effect cannot be applied
to is left as it was. -/
theorem Effect.on_work (e : Effect) (s : Scope) (state : Glyph × TrackStore) :
    (e.work s).on state = finished state.1 <$> e.apply s state.2 state.1 := by
  cases e with
  | typewriter e => exact e.on_work s state
  | scramble e => exact e.on_work s state
  | shake e => exact e.on_work s state
  | gradient e => exact e.on_work s state
  | rainbow e => exact e.on_work s state
  | style _ => rfl

namespace Effect

variable (e : Effect) (s : Scope) (state : Glyph × TrackStore)

theorem value_on_work :
    ((e.work s).on state).value = finished state.1 (e.apply s state.2 state.1).value := by
  rw [on_work, Logged.value_map]

/-- What an effect leaves of a glyph and the tracks is what its work leaves. -/
theorem touch_eq_work : e.touch s state = ((e.work s).on state).value.2 := by
  rw [value_on_work]
  rfl

variable {e s state} in
/-- An effect that fails leaves the glyph alone, whatever it has done to the tracks. -/
theorem glyph_of_error {error : EffectError}
    (h : ((e.work s).on state).value.1 = .error error) :
    ((e.work s).on state).value.2.1 = state.1 := by
  rw [value_on_work] at h ⊢
  generalize (e.apply s state.2 state.1).value = applied at h ⊢
  obtain ⟨outcome, tracks⟩ := applied
  cases outcome with
  | error => rfl
  | ok => cases h

/-- Applying one effect of a span is its work in place; a failure is logged once for each slot. -/
theorem act_eq_work (slot : Nat × Nat) (canvas : Canvas) (g : Glyph) :
    e.act s slot canvas g = (e.work s).on (g, canvas.tracks) >>= fun ended =>
      let canvas := { canvas with tracks := ended.2.2 }
      match ended.1 with
      | .ok () => pure (canvas, ended.2.1)
      | .error error =>
        if canvas.failed.contains slot then pure (canvas, ended.2.1)
        else Logged.emit (.effectFailed e.family error) >>= fun _ =>
          pure ({ canvas with failed := slot :: canvas.failed }, ended.2.1) := by
  rw [on_work, bind_map_left]
  refine bind_congr fun applied => ?_
  obtain ⟨outcome, tracks⟩ := applied
  cases outcome <;> rfl

end Effect

end KineticText
