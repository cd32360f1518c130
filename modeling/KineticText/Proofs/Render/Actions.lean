import KineticText.Proofs.Render.Kept
import KineticText.Proofs.Render.Scrambles
import KineticText.Proofs.Render.Typewriters

/-! A frame as one action on the store of tracks.  It is put together from a few steps: the shared
count asks its track, a typewriter that counts alone asks the track of its element, and scrambling
moves the track of its element on.  Main statement: a property that passes from the parts of an
action to the whole holds of a frame when it holds of these steps. -/

namespace KineticText

/-- What answers from a store of tracks, and leaves a store. -/
abbrev StoreAction (α : Type) : Type := TrackStore → α × TrackStore

/-- The property passes from parts of an action to the whole. -/
structure Composes (P : ∀ {α : Type}, StoreAction α → Prop) : Prop where
  answer : ∀ {α : Type} (a : α), P fun tracks => (a, tracks)
  andThen : ∀ {α β : Type} {act : StoreAction α} {next : α → StoreAction β}, P act →
    (∀ a, P (next a)) → P fun tracks => next (act tracks).1 (act tracks).2

namespace Composes

variable {P : ∀ {α : Type}, StoreAction α → Prop}

theorem map (h : Composes P) {α β : Type} {act : StoreAction α} (hact : P act) (f : α → β) :
    P fun tracks => (f (act tracks).1, (act tracks).2) :=
  h.andThen hact fun a => h.answer (f a)

theorem foldl (h : Composes P) {α β : Type} {step : α → β × TrackStore → β × TrackStore}
    (items : List α) (hstep : ∀ item ∈ items, ∀ b, P fun tracks => step item (b, tracks)) (b : β) :
    P fun tracks => items.foldl (fun state item => step item state) (b, tracks) := by
  induction items generalizing b with
  | nil => exact h.answer b
  | cons item rest ih =>
    obtain ⟨hitem, hrest⟩ := List.forall_mem_cons.mp hstep
    exact h.andThen (hitem b) fun b' => ih hrest b'

end Composes

namespace Renderer

variable (r : Renderer) (text : AttributedText) (frame : Frame) (now : Millis)

/-- The number of characters that share a count. -/
def sharedTotal : Nat :=
  totalLength (lengthsOf (outerTypewriters (text.spans.map r.config.appearance)))

/-- The steps of a frame that look at tracks have the property. -/
structure EachStep (P : ∀ {α : Type}, StoreAction α → Prop) : Prop where
  container : r.config.allocation = .container → P fun tracks =>
    (tracks.askTypewriter now (frame.key text.raw).container
      (frame.question r.config now (r.sharedTotal text))).value
  independent : r.config.allocation = .independent → ∀ extent e,
    r.config.Keeps text (extent, .typewriter e) → P fun tracks =>
      (tracks.askTypewriter now ((frame.key text.raw).element extent)
        (frame.question r.config now extent.length)).value
  scramble : ∀ extent e, r.config.Keeps text (extent, .scramble e) → ∀ shares g,
    P (e.draw (r.scope text frame now shares extent) g)

variable {r text frame now} {P : ∀ {α : Type}, StoreAction α → Prop}

theorem EachStep.shareIn (hstep : r.EachStep text frame now P) (h : Composes P) :
    P (r.shareIn text frame now) := by
  unfold Renderer.shareIn
  cases hallocation : r.config.allocation with
  | independent => exact h.answer []
  | container =>
    have hask := hstep.container hallocation
    unfold sharedTotal at hask
    cases houter : outerTypewriters (text.spans.map r.config.appearance) with
    | nil => exact h.answer []
    | cons first rest =>
      rw [houter] at hask
      exact h.map hask fun elapsed => ((first :: rest).map Prod.fst).zip
        (allot (visibleCount elapsed first.2.speed first.2.delay
          (totalLength (lengthsOf (first :: rest)))) (lengthsOf (first :: rest)))

theorem EachStep.touch_typewriter (hstep : r.EachStep text frame now P) (h : Composes P)
    {extent : Extent} {e : Typewriter} (hentry : r.config.Keeps text (extent, .typewriter e))
    (shares : List (Extent × Nat)) (g : Glyph) :
    P fun tracks => (Effect.typewriter e).touch (r.scope text frame now shares extent)
      (g, tracks) := by
  cases hticks : frame.ticks.isFinite with
  | false =>
    have htouch := e.touch_of_not_finite (s := r.scope text frame now shares extent) hticks
    simp only [htouch]
    exact h.answer g
  | true =>
    cases hallocation : r.config.allocation with
    | container =>
      have htouch := e.touch_of_container (s := r.scope text frame now shares extent) hallocation
        hticks
      simp only [htouch]
      exact h.answer _
    | independent =>
      have htouch := e.touch_of_independent (s := r.scope text frame now shares extent) hallocation
        hticks
      simp only [htouch]
      exact h.map (hstep.independent hallocation extent e hentry) fun elapsed =>
        e.reveal (r.scope text frame now shares extent) (extent.localIndex g.index) extent.length
          (visibleCount elapsed e.speed e.delay extent.length) g

theorem EachStep.touch_scramble (hstep : r.EachStep text frame now P) (h : Composes P)
    {extent : Extent} {e : Scramble} (hentry : r.config.Keeps text (extent, .scramble e))
    (shares : List (Extent × Nat)) (g : Glyph) :
    P fun tracks => (Effect.scramble e).touch (r.scope text frame now shares extent)
      (g, tracks) := by
  cases hspeed : e.speed.isFinite with
  | false =>
    simp only [Scramble.touch_of_not_finite hspeed]
    exact h.answer g
  | true =>
    simp only [Scramble.touch_of_finite hspeed]
    exact hstep.scramble extent e hentry shares g

theorem EachStep.touch (hstep : r.EachStep text frame now P) (h : Composes P)
    {entry : Extent × Effect} (hentry : r.config.Keeps text entry) (shares : List (Extent × Nat))
    (g : Glyph) :
    P fun tracks => entry.2.touch (r.scope text frame now shares entry.1) (g, tracks) := by
  obtain ⟨extent, effect⟩ := entry
  cases effect with
  | typewriter e => exact hstep.touch_typewriter h hentry shares g
  | scramble e => exact hstep.touch_scramble h hentry shares g
  | shake e => exact h.answer ((e.apply (r.scope text frame now shares extent) g).toOption.getD g)
  | gradient e =>
    exact h.answer ((e.apply (r.scope text frame now shares extent) g).toOption.getD g)
  | rainbow e =>
    exact h.answer ((e.apply (r.scope text frame now shares extent) g).toOption.getD g)
  | style => exact h.answer g

theorem EachStep.paint (hstep : r.EachStep text frame now P) (h : Composes P)
    (shares : List (Extent × Nat)) (entry : Char × Nat) :
    P fun tracks => r.paint text frame now shares tracks entry := by
  unfold Renderer.paint
  cases hlook : r.look? text entry.2 with
  | none => exact h.answer _
  | some look =>
    obtain ⟨span, hspan, rfl⟩ := look?_eq_some hlook
    exact h.foldl _ (fun entry hentry g => hstep.touch h ⟨span, hspan, hentry⟩ shares g) _

theorem EachStep.paintAll (hstep : r.EachStep text frame now P) (h : Composes P)
    (shares : List (Extent × Nat)) (entries : List (Char × Nat)) :
    P fun tracks => r.paintAll text frame now shares tracks entries := by
  induction entries with
  | nil => exact h.answer _
  | cons entry rest ih =>
    exact h.andThen (hstep.paint h shares entry) fun g => h.map ih fun glyphs => g :: glyphs

/-- What holds of the steps of a frame holds of the frame. -/
theorem EachStep.render (hstep : r.EachStep text frame now P) (h : Composes P) :
    P fun tracks => (r.render text frame now tracks).value := by
  simp only [value_render]
  cases r.config.suppresses frame with
  | true => exact h.answer _
  | false =>
    simp only [Bool.false_eq_true, if_false, value_draw]
    exact h.map (h.andThen (hstep.shareIn h) fun shares => hstep.paintAll h shares _) List.toArray

end Renderer

end KineticText
