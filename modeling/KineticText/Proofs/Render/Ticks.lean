import KineticText.Proofs.Render.Figures

/-! Frames whose ticks are not finite.  A typewriter that has a track to itself checks the ticks
before it asks the track, so such a frame leaves no trace of it.  The count that typewriters share
is asked for without a check.  Main statement: a frame without finite ticks keeps the tracks of
typewriters in every store exactly when it does not share a count. -/

namespace KineticText.Renderer

variable (r : Renderer) (text : AttributedText) {frame : Frame}

/-- The frame has typewriters count together. -/
structure SharesCount (frame : Frame) : Prop where
  drawn : r.config.suppresses frame = false
  allocation : r.config.allocation = .container
  typewriter : r.HasTypewriter text

section

variable (now : Millis) (tracks : TrackStore)

theorem sameTypewriters_draw (hticks : frame.ticks.isFinite = false) :
    (r.draw text frame now tracks).value.2.SameTypewriters
      (r.shareIn text frame now tracks).2 := by
  refine draw_keeps (P := fun kept => kept.SameTypewriters (r.shareIn text frame now tracks).2)
    (.refl _) fun span _ entry _ shares tracks g hkept => ?_
  -- The one effect that asks for a typewriter's track does so when the ticks are finite.
  rcases entry.2.apply_cases (r.scope text frame now shares entry.1) tracks g with
    hsame | ⟨-, hfinite, -⟩
  · exact hsame.trans hkept
  · rw [scope, hticks] at hfinite
    cases hfinite

theorem sameTypewriters_render (hticks : frame.ticks.isFinite = false)
    (h : ¬ r.SharesCount text frame) :
    (r.render text frame now tracks).value.2.SameTypewriters tracks := by
  rw [value_render]
  cases hdrawn : r.config.suppresses frame with
  | true => exact .refl _
  | false =>
    rw [if_neg Bool.false_ne_true]
    rcases r.shareIn_cases text frame now tracks with ⟨hkept, -⟩ | ⟨hallocation, htypewriter, -⟩
    · have hsame := r.sameTypewriters_draw text now tracks hticks
      rwa [hkept] at hsame
    · exact absurd ⟨hdrawn, hallocation, htypewriter⟩ h

theorem typewriters_render_ne_nil (hticks : frame.ticks.isFinite = false)
    (h : r.SharesCount text frame) :
    (r.render text frame now tracks).value.2.typewriters.entries ≠ [] := by
  rw [value_render, h.drawn, if_neg Bool.false_ne_true,
    (r.sameTypewriters_draw text now tracks hticks).typewriters]
  rcases r.shareIn_cases text frame now tracks with
    ⟨-, hindependent | hnone⟩ | ⟨-, -, total, hasked⟩
  · rw [h.allocation] at hindependent
    cases hindependent
  · exact absurd h.typewriter hnone
  · rw [hasked, TrackStore.typewriters_askTypewriter]
    exact Tracks.entries_ask_ne_nil _ _ _ _ _ _ _

end

/-- A frame without finite ticks leaves the tracks of typewriters alone, and with them all that
later frames show but for scrambled characters, unless it shares a count. -/
theorem typewriters_render_iff (hticks : frame.ticks.isFinite = false) :
    ((∀ now tracks,
        (r.render text frame now tracks).value.2.typewriters = tracks.typewriters) ↔
      ¬ r.SharesCount text frame) ∧
    (¬ r.SharesCount text frame → ∀ now tracks later,
      figures (r.render text frame now tracks).value.2 later = figures tracks later) := by
  refine ⟨⟨fun hkept hshares => ?_, fun h now tracks => ?_⟩, fun h now tracks later => ?_⟩
  · -- A store without tracks has one after the frame.
    apply r.typewriters_render_ne_nil text 0 (.empty 1 0) hticks hshares
    rw [hkept]
    rfl
  · exact (r.sameTypewriters_render text now tracks hticks h).typewriters
  · exact figures_eq (r.sameTypewriters_render text now tracks hticks h) later

/-! ### One typewriter, with and without a count to share -/

/-- A frame whose count of ticks is not a number. -/
def badFrame : Frame := { ticks := 0.0 / 0.0 }

theorem isFinite_badFrame : badFrame.ticks.isFinite = false := by decide

/-- Alone, the typewriter of a bad frame asks no track. -/
theorem typewriters_render_alone : badFrame.ticks.isFinite = false ∧
    ((⟨{}⟩ : Renderer).render (.typed "ab") badFrame 0 (.ofConfig {})).value.2.typewriters =
      (TrackStore.ofConfig {}).typewriters := by
  have halone : ¬ (⟨{}⟩ : Renderer).SharesCount (.typed "ab") badFrame := by
    rintro ⟨-, hallocation, -⟩
    cases hallocation
  have hkept := (typewriters_render_iff ⟨{}⟩ (.typed "ab") isFinite_badFrame).1.mpr halone
  exact ⟨isFinite_badFrame, hkept 0 _⟩

/-- With a count to share, the bad frame makes a track. -/
theorem typewriters_render_shared : badFrame.ticks.isFinite = false ∧
    ((⟨{ allocation := .container }⟩ : Renderer).render (.typed "ab") badFrame 0
        (.ofConfig {})).value.2.typewriters ≠ (TrackStore.ofConfig {}).typewriters := by
  have hshares : (⟨{ allocation := .container }⟩ : Renderer).SharesCount (.typed "ab") badFrame :=
    ⟨rfl, rfl, _, List.mem_singleton_self _, _, List.mem_singleton_self _, _, rfl⟩
  refine ⟨isFinite_badFrame, fun hkept => ?_⟩
  apply typewriters_render_ne_nil _ (.typed "ab") 0 (.ofConfig {}) isFinite_badFrame hshares
  rw [hkept]
  rfl

end KineticText.Renderer
