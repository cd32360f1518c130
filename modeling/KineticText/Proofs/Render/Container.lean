import KineticText.Proofs.Render.Typewriters
import KineticText.Proofs.Track.Keys

/-! The track of a shared count beside the tracks of the elements.  The word that is mixed into the
key of the shared track is also the packed word of one extent, so the first three characters of a
text may not have a typewriter to themselves if the shared track is to be another.  Main statement:
this is the only extent that collides, and without it neither kind of drawing changes a track of the
other kind. -/

namespace KineticText

/-- The extents whose ends have half a word each, and that hold a character. -/
def Extent.Packs (e : Extent) : Prop := e.start < e.stop ∧ e.stop < 2 ^ 32

instance (e : Extent) : Decidable e.Packs := inferInstanceAs (Decidable (_ ∧ _))

namespace TrackKey

theorem container_eq_element_iff {key : TrackKey} {e : Extent} (h : e.Packs) :
    key.container = key.element e ↔ e = ⟨0, 3⟩ := by
  obtain ⟨hstart, hstop⟩ := h
  have hpack : pack e = 3 ↔ e.start * 2 ^ 32 + e.stop = 3 := by
    rw [← toNat_pack (by omega) hstop, ← UInt64.toNat_inj]
    rfl
  rw [container, element, mk.injEq, (Random.mix_injective_right key.word).eq_iff, eq_comm, hpack]
  cases e
  simp only [Extent.mk.injEq] at *
  omega

end TrackKey

/-! ### Which tracks a drawing asks -/

theorem Config.extent_mem_of_effect {c : Config} {span : Span} {entry : Extent × Effect}
    (h : entry ∈ (c.appearance span).effects) : ∃ a ∈ span.attributes, a.extent = entry.1 := by
  obtain ⟨a, ha, hentry⟩ := List.mem_filterMap.mp (List.mem_of_mem_take h)
  obtain ⟨effect, -, rfl⟩ := Option.map_eq_some_iff.mp hentry
  exact ⟨a, List.mem_of_mem_take ha, rfl⟩

namespace Drawing

/-- The keys under which a drawing may ask tracks of typewriters: that of the shared count, or those
of the elements. -/
def MayAsk (d : Drawing) (key : TrackKey) : Prop :=
  match d.renderer.config.allocation with
  | .container => key = d.key.container
  | .independent => ∃ span ∈ d.text.spans, ∃ a ∈ span.attributes, key = d.key.element a.extent

theorem leaves_shareIn {d : Drawing} {key : TrackKey} (h : ¬ d.MayAsk key) (tracks : TrackStore) :
    Recency.Leaves key tracks.typewriters
      (d.renderer.shareIn d.text d.frame d.now tracks).2.typewriters := by
  rcases d.renderer.shareIn_cases d.text d.frame d.now tracks with
    ⟨hkept, -⟩ | ⟨hcontainer, -, total, hasked⟩
  · rw [hkept]
    exact .refl _ _
  · rw [MayAsk, hcontainer] at h
    rw [hasked, TrackStore.typewriters_askTypewriter]
    exact Tracks.leaves_ask_of_ne h _ _ _ _ _ _

theorem leaves_outcome {d : Drawing} {key : TrackKey} (h : ¬ d.MayAsk key) (tracks : TrackStore) :
    Recency.Leaves key tracks.typewriters (d.outcome tracks).2.typewriters := by
  rw [outcome, Renderer.value_render]
  split
  · exact .refl _ _
  · refine Renderer.draw_keeps
      (P := fun kept => Recency.Leaves key tracks.typewriters kept.typewriters)
      (leaves_shareIn h tracks) fun span hspan entry hentry shares before g hkept => ?_
    refine hkept.trans ?_
    rcases entry.2.apply_cases
      (d.renderer.scope d.text d.frame d.now shares entry.1) before g with
      hsame | ⟨-, -, hindependent, hasked⟩
    · rw [hsame.typewriters]
      exact .refl _ _
    · -- Typewriters that count alone ask the tracks of the elements that declare them.
      obtain ⟨a, ha, hextent⟩ := Config.extent_mem_of_effect hentry
      have hne : key ≠ d.key.element entry.1 := by
        rintro rfl
        apply h
        rw [MayAsk, show d.renderer.config.allocation = .independent from hindependent]
        exact ⟨span, hspan, a, ha, by rw [hextent]⟩
      rw [hasked, TrackStore.typewriters_askTypewriter]
      exact Tracks.leaves_ask_of_ne hne _ _ _ _ _ _

end Drawing

theorem leaves_tracksAfter {key : TrackKey} {drawings : List Drawing}
    (h : ∀ d ∈ drawings, ¬ d.MayAsk key) (tracks : TrackStore) :
    Recency.Leaves key tracks.typewriters (tracksAfter tracks drawings).typewriters := by
  induction drawings generalizing tracks with
  | nil => exact .refl _ _
  | cons d rest ih =>
    obtain ⟨hd, hrest⟩ := List.forall_mem_cons.mp h
    exact (d.leaves_outcome hd tracks).trans (ih hrest (d.outcome tracks).2)

/-- The drawing is of the text with the key, and its typewriters count together. -/
def Drawing.SharesTrack (d : Drawing) (key : TrackKey) : Prop :=
  d.key = key ∧ d.renderer.config.allocation = .container

/-- The drawing is of the text with the key, each of its typewriters counts alone, and no element is
the first three characters. -/
def Drawing.KeepsApart (d : Drawing) (key : TrackKey) : Prop :=
  d.key = key ∧ d.renderer.config.allocation = .independent ∧
    ∀ span ∈ d.text.spans, ∀ a ∈ span.attributes, a.extent.Packs ∧ a.extent ≠ ⟨0, 3⟩

/-- The shared track is the track of no element but the first three characters.  So drawings that
share a count change no element's track, and drawings that do not share one leave the shared track
alone, however many there are. -/
theorem container_apart (key : TrackKey) :
    (∀ e : Extent, e.Packs → (key.container = key.element e ↔ e = ⟨0, 3⟩)) ∧
      (∀ drawings : List Drawing, (∀ d ∈ drawings, d.SharesTrack key) →
        ∀ e : Extent, e.Packs → e ≠ ⟨0, 3⟩ → ∀ tracks, Recency.Leaves (key.element e)
          tracks.typewriters (tracksAfter tracks drawings).typewriters) ∧
      ∀ drawings : List Drawing, (∀ d ∈ drawings, d.KeepsApart key) →
        ∀ tracks, Recency.Leaves key.container
          tracks.typewriters (tracksAfter tracks drawings).typewriters := by
  refine ⟨fun e he => TrackKey.container_eq_element_iff he, ?_, ?_⟩
  · intro drawings hshares e he hne tracks
    refine leaves_tracksAfter (fun d hd hasks => ?_) tracks
    obtain ⟨rfl, hcontainer⟩ := hshares d hd
    rw [Drawing.MayAsk, hcontainer] at hasks
    exact hne ((TrackKey.container_eq_element_iff he).mp hasks.symm)
  · intro drawings happart tracks
    refine leaves_tracksAfter (fun d hd hasks => ?_) tracks
    obtain ⟨rfl, hindependent, hextents⟩ := happart d hd
    rw [Drawing.MayAsk, hindependent] at hasks
    obtain ⟨span, hspan, a, ha, heq⟩ := hasks
    obtain ⟨hpacks, hne⟩ := hextents span hspan a ha
    exact hne ((TrackKey.container_eq_element_iff hpacks).mp heq)

/-- A drawing of a text that is one typewriter. -/
def typedDrawing (raw : String) (allocation : Allocation) : Drawing :=
  { renderer := ⟨{ allocation }⟩, text := .typed raw, frame := {}, now := 0 }

/-- A typewriter of four characters has a track of its own beside the shared one. -/
theorem container_apart_abcd :
    (TrackKey.ofText "abcd").container ≠ (TrackKey.ofText "abcd").element ⟨0, 4⟩ ∧
      Recency.Leaves ((TrackKey.ofText "abcd").element ⟨0, 4⟩) (TrackStore.ofConfig {}).typewriters
        (tracksAfter (.ofConfig {}) [typedDrawing "abcd" .container]).typewriters ∧
      Recency.Leaves (TrackKey.ofText "abcd").container (TrackStore.ofConfig {}).typewriters
        (tracksAfter (.ofConfig {}) [typedDrawing "abcd" .independent]).typewriters := by
  obtain ⟨hkeys, hshared, halone⟩ := container_apart (.ofText "abcd")
  have hpacks : Extent.Packs ⟨0, 4⟩ := by decide
  refine ⟨fun h => ?_, hshared _ ?_ ⟨0, 4⟩ hpacks (by decide) _, halone _ ?_ _⟩
  · exact absurd ((hkeys ⟨0, 4⟩ hpacks).mp h) (by decide)
  · exact List.forall_mem_singleton.mpr ⟨rfl, rfl⟩
  · refine List.forall_mem_singleton.mpr ⟨rfl, rfl, ?_⟩
    refine List.forall_mem_singleton.mpr (List.forall_mem_singleton.mpr ?_)
    decide

/-- The track of a typewriter of three characters is the shared one. -/
theorem container_not_apart_abc : (0 < 3 ∧ 3 < 2 ^ 32) ∧
    (TrackKey.ofText "abc").container = (TrackKey.ofText "abc").element ⟨0, 3⟩ :=
  ⟨by decide, (TrackKey.container_eq_element_iff (by decide)).mpr rfl⟩

end KineticText
