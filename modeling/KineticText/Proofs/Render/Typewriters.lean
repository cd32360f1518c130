import KineticText.Proofs.Render.Drawing
import KineticText.Proofs.Track.Store

/-! What a frame does to the tracks of typewriters.  With independent allocation each typewriter
asks the track of its own element, once for every glyph and only when the ticks are finite.  With
container allocation the frame asks the one shared track before it draws anything, and the
typewriters ask none. -/

namespace KineticText

/-- What a frame asks the track of `total` characters. -/
def Frame.question (f : Frame) (c : Config) (now : Millis) (total : Nat)
    (track : TypewriterTrack Float) : Logged (Float × TypewriterTrack Float) := do
  let track ← track.observeIf c.restart f.progress
  track.elapsed now f.ticks total c.restart

/-- The part of a shared count that a glyph shows. -/
def Typewriter.revealShare (e : Typewriter) (s : Scope) (g : Glyph) : Glyph :=
  match s.shares.find? fun share => share.1.contains g.index with
  | none => g
  | some (extent, shown) => e.reveal s (extent.localIndex g.index) extent.length shown g

theorem Typewriter.value_apply (e : Typewriter) (s : Scope) (tracks : TrackStore) (g : Glyph) :
    (e.apply s tracks g).value =
      if s.frame.ticks.isFinite then
        match s.config.allocation with
        | .independent =>
          let asked := (tracks.askTypewriter s.now s.key
            (s.frame.question s.config s.now s.length)).value
          (.ok (e.reveal s (s.place g) s.length
            (visibleCount asked.1 e.speed e.delay s.length) g), asked.2)
        | .container => (.ok (e.revealShare s g), tracks)
      else (.error (.notFinite "typewriter" "ticks"), tracks) := by
  unfold apply requireFinite
  cases hticks : s.frame.ticks.isFinite with
  | false => rfl
  | true =>
    simp only [requireFinite, if_true]
    cases s.config.allocation with
    | independent => rfl
    | container =>
      unfold revealShare
      cases s.shares.find? fun share => share.1.contains g.index with
      | none => rfl
      | some share => rfl

namespace Typewriter

theorem touch_of_not_finite (e : Typewriter) {s : Scope} (hticks : s.frame.ticks.isFinite = false)
    (state : Glyph × TrackStore) : (Effect.typewriter e).touch s state = state := by
  have happly : (Effect.apply (.typewriter e) s state.2 state.1).value = _ :=
    e.value_apply s state.2 state.1
  unfold Effect.touch
  rw [happly, hticks]
  rfl

theorem touch_of_container (e : Typewriter) {s : Scope}
    (hcontainer : s.config.allocation = .container) (hticks : s.frame.ticks.isFinite = true)
    (state : Glyph × TrackStore) :
    (Effect.typewriter e).touch s state = (e.revealShare s state.1, state.2) := by
  have happly : (Effect.apply (.typewriter e) s state.2 state.1).value = _ :=
    e.value_apply s state.2 state.1
  unfold Effect.touch
  rw [happly, if_pos hticks, hcontainer]
  rfl

theorem touch_of_independent (e : Typewriter) {s : Scope}
    (hindependent : s.config.allocation = .independent) (hticks : s.frame.ticks.isFinite = true)
    (state : Glyph × TrackStore) :
    (Effect.typewriter e).touch s state =
      let asked := (state.2.askTypewriter s.now s.key
        (s.frame.question s.config s.now s.length)).value
      (e.reveal s (s.place state.1) s.length (visibleCount asked.1 e.speed e.delay s.length)
        state.1, asked.2) := by
  have happly : (Effect.apply (.typewriter e) s state.2 state.1).value = _ :=
    e.value_apply s state.2 state.1
  unfold Effect.touch
  rw [happly, if_pos hticks, hindependent]
  rfl

end Typewriter

/-- The stores have the same tracks of typewriters and treat them alike. -/
structure TrackStore.SameTypewriters (s s' : TrackStore) : Prop where
  timeout : s.timeout = s'.timeout
  reset : s.typewriterReset = s'.typewriterReset
  typewriters : s.typewriters = s'.typewriters

namespace TrackStore.SameTypewriters

theorem refl (s : TrackStore) : SameTypewriters s s := ⟨rfl, rfl, rfl⟩

theorem symm {s s' : TrackStore} (h : SameTypewriters s s') : SameTypewriters s' s :=
  ⟨h.timeout.symm, h.reset.symm, h.typewriters.symm⟩

theorem trans {s s' s'' : TrackStore} (h : SameTypewriters s s') (h' : SameTypewriters s' s'') :
    SameTypewriters s s'' :=
  ⟨h.timeout.trans h'.timeout, h.reset.trans h'.reset, h.typewriters.trans h'.typewriters⟩

theorem askTypewriter {α : Type} {s s' : TrackStore} (h : SameTypewriters s s') (now : Millis)
    (key : TrackKey) (question : TypewriterTrack Float → Logged (α × TypewriterTrack Float)) :
    (s.askTypewriter now key question).value.1 = (s'.askTypewriter now key question).value.1 ∧
      SameTypewriters (s.askTypewriter now key question).value.2
        (s'.askTypewriter now key question).value.2 := by
  obtain ⟨timeout, reset, scrambleReset, typewriters, scrambles⟩ := s
  obtain ⟨rfl, rfl, rfl⟩ := h
  exact ⟨rfl, rfl, rfl, rfl⟩

end TrackStore.SameTypewriters

theorem Scramble.sameTypewriters_apply (e : Scramble) (s : Scope) (tracks : TrackStore) (g : Glyph) :
    (e.apply s tracks g).value.2.SameTypewriters tracks := by
  unfold apply
  split
  · exact .refl _
  · exact ⟨rfl, rfl, rfl⟩

theorem Effect.apply_cases (e : Effect) (s : Scope) (tracks : TrackStore) (g : Glyph) :
    (e.apply s tracks g).value.2.SameTypewriters tracks ∨
      (∃ t, e = .typewriter t) ∧ s.frame.ticks.isFinite = true ∧
        s.config.allocation = .independent ∧
        (e.apply s tracks g).value.2 = (tracks.askTypewriter s.now s.key
          (s.frame.question s.config s.now s.length)).value.2 := by
  cases e with
  | typewriter t =>
    have happly : (Effect.apply (.typewriter t) s tracks g).value = _ := t.value_apply s tracks g
    rw [happly]
    cases hticks : s.frame.ticks.isFinite with
    | false => exact .inl (.refl _)
    | true =>
      cases hallocation : s.config.allocation with
      | independent => exact .inr ⟨⟨t, rfl⟩, rfl, rfl, rfl⟩
      | container => exact .inl (.refl _)
  | scramble e => exact .inl (e.sameTypewriters_apply s tracks g)
  | shake | gradient | rainbow | style => exact .inl (.refl _)

/-- A text that is one typewriter. -/
def AttributedText.typed (raw : String) : AttributedText :=
  { raw, spans := [⟨⟨0, raw.length⟩, [{ id := "typewriter", extent := ⟨0, raw.length⟩ }]⟩] }

/-- A typewriter among the effects that a text keeps. -/
def Renderer.HasTypewriter (r : Renderer) (text : AttributedText) : Prop :=
  ∃ span ∈ text.spans, ∃ entry ∈ (r.config.appearance span).effects, ∃ e, entry.2 = .typewriter e

theorem outermost_eq_nil_iff {α : Type} {elements : List (Extent × α)} :
    outermost elements = [] ↔ elements = [] := by
  cases elements with
  | nil => simp [outermost]
  | cons e rest => simp [outermost]

theorem Renderer.outerTypewriters_eq_nil_iff {r : Renderer} {text : AttributedText} :
    outerTypewriters (text.spans.map r.config.appearance) = [] ↔ ¬ r.HasTypewriter text := by
  unfold outerTypewriters HasTypewriter
  rw [outermost_eq_nil_iff, ← List.length_eq_zero_iff, List.length_mergeSort, List.length_eq_zero_iff,
    List.filterMap_eq_nil_iff]
  constructor
  · rintro hnone ⟨span, hspan, ⟨extent, effect⟩, hentry, e, rfl⟩
    have hfound := hnone (extent, .typewriter e)
      (List.mem_flatMap.mpr ⟨_, List.mem_map_of_mem hspan, hentry⟩)
    cases hfound
  · rintro hnone ⟨extent, effect⟩ hentry
    obtain ⟨look, hlook, hentry⟩ := List.mem_flatMap.mp hentry
    obtain ⟨span, hspan, rfl⟩ := List.mem_map.mp hlook
    cases effect with
    | typewriter e => exact absurd ⟨span, hspan, _, hentry, e, rfl⟩ hnone
    | scramble | shake | gradient | rainbow | style => rfl

/-- The lengths of elements. -/
def lengthsOf (elements : List (Extent × Typewriter)) : List Nat :=
  elements.map fun e => e.1.length

theorem value_shareOut_cons (config : Config) (frame : Frame) (now : Millis) (key : TrackKey)
    (first : Extent × Typewriter) (rest : List (Extent × Typewriter)) (tracks : TrackStore) :
    (shareOut config frame now key (first :: rest) tracks).value =
      let total := totalLength (lengthsOf (first :: rest))
      let asked := (tracks.askTypewriter now key (frame.question config now total)).value
      (((first :: rest).map Prod.fst).zip (allot
        (visibleCount asked.1 first.2.speed first.2.delay total) (lengthsOf (first :: rest))),
        asked.2) := rfl

namespace Renderer

variable (r : Renderer) (text : AttributedText) (frame : Frame) (now : Millis)

/-- The shared count is asked for before anything is drawn, if there is a typewriter to share it. -/
theorem shareIn_cases (tracks : TrackStore) :
    (r.shareIn text frame now tracks).2 = tracks ∧
        (r.config.allocation = .independent ∨ ¬ r.HasTypewriter text) ∨
      r.config.allocation = .container ∧ r.HasTypewriter text ∧
        ∃ total, (r.shareIn text frame now tracks).2 = (tracks.askTypewriter now
          (frame.key text.raw).container (frame.question r.config now total)).value.2 := by
  unfold shareIn
  cases hallocation : r.config.allocation with
  | independent => exact .inl ⟨rfl, .inl rfl⟩
  | container =>
    cases houter : outerTypewriters (text.spans.map r.config.appearance) with
    | nil => exact .inl ⟨rfl, .inr (outerTypewriters_eq_nil_iff.mp houter)⟩
    | cons first rest =>
      refine .inr ⟨rfl, ?_, totalLength (lengthsOf (first :: rest)),
        congrArg Prod.snd (value_shareOut_cons r.config frame now _ first rest tracks)⟩
      -- There is a first one to pace the count, so there is a typewriter.
      by_contra hnone
      rw [outerTypewriters_eq_nil_iff.mpr hnone] at houter
      cases houter

end Renderer

/-! ### Frames that stay related -/

/-- Stores that `R` relates give the same answers about typewriters and stay related. -/
def AsksAlike (now : Millis) (R : TrackStore → TrackStore → Prop) : Prop :=
  ∀ tracks tracks', R tracks tracks' → ∀ (key : TrackKey)
    (question : TypewriterTrack Float → Logged (Float × TypewriterTrack Float)),
    (tracks.askTypewriter now key question).value.1 =
        (tracks'.askTypewriter now key question).value.1 ∧
      R (tracks.askTypewriter now key question).value.2
        (tracks'.askTypewriter now key question).value.2

namespace Renderer

variable {r : Renderer} {text : AttributedText} {frame : Frame} {now : Millis}
  {G : Glyph → Glyph → Prop} {R : TrackStore → TrackStore → Prop} {tracks tracks' : TrackStore}

theorem shareIn_alike (r : Renderer) (text : AttributedText) (frame : Frame)
    (hask : AsksAlike now R) (h : R tracks tracks') :
    (r.shareIn text frame now tracks).1 = (r.shareIn text frame now tracks').1 ∧
      R (r.shareIn text frame now tracks).2 (r.shareIn text frame now tracks').2 := by
  unfold shareIn
  split
  · exact ⟨rfl, h⟩
  · generalize outerTypewriters (text.spans.map r.config.appearance) = outer
    cases outer with
    | nil => exact ⟨rfl, h⟩
    | cons first rest =>
      obtain ⟨hanswer, hafter⟩ := hask tracks tracks' h (frame.key text.raw).container
        (frame.question r.config now (totalLength (lengthsOf (first :: rest))))
      simp only [value_shareOut_cons, hanswer]
      exact ⟨trivial, hafter⟩

/-- What every effect of a text keeps related, and the shared count too, stays so in a frame. -/
theorem Relates.render (h : r.Relates text frame now G R) (hrefl : ∀ g, G g g)
    (hask : AsksAlike now R) (htracks : R tracks tracks') :
    List.Forall₂ G (r.render text frame now tracks).value.1.toList
        (r.render text frame now tracks').value.1.toList ∧
      R (r.render text frame now tracks).value.2 (r.render text frame now tracks').value.2 := by
  rw [value_render, value_render]
  split
  · exact ⟨List.forall₂_same.mpr fun g _ => hrefl g, htracks⟩
  · obtain ⟨hshares, hafter⟩ := r.shareIn_alike text frame hask htracks
    rw [value_draw, value_draw]
    simp only [drawn, ← hshares]
    exact h.paintAll hrefl _ _ _ hafter _

end Renderer

end KineticText
