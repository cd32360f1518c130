import KineticText.Proofs.Render.Alterations
import KineticText.Proofs.Render.Kept

/-! Which characters of a frame show.  A glyph begins visible at its place in the text, and only a
typewriter can hide it, which it does when the place lies beyond the characters that it shows. -/

namespace KineticText

/-- The glyphs are at one place, and both show or neither does. -/
def Glyph.SameSight (g g' : Glyph) : Prop := g.index = g'.index ∧ g.visible = g'.visible

theorem Typewriter.visible_reveal (e : Typewriter) (s : Scope) (place length shown : Nat)
    (g : Glyph) :
    (e.reveal s place length shown g).visible = true ↔ g.visible = true ∧ place < shown := by
  unfold reveal
  split
  · simp only [Bool.false_eq_true, false_iff, not_and]
    omega
  · split <;> simp only [iff_self_and] <;> omega

theorem Typewriter.index_reveal (e : Typewriter) (s : Scope) (place length shown : Nat)
    (g : Glyph) : (e.reveal s place length shown g).index = g.index :=
  (Effect.alters_reveal e s place length shown g).index_eq

/-- Only a typewriter hides a glyph. -/
theorem Effect.sameSight_touch {e : Effect} (h : ∀ t, e ≠ .typewriter t) (s : Scope)
    (state : Glyph × TrackStore) : (e.touch s state).1.SameSight state.1 :=
  ⟨(e.alters_touch s state).index_eq, (e.alters_touch s state).visible_eq h⟩

/-! ### Glyphs of characters -/

namespace Renderer

variable (r : Renderer) (text : AttributedText) (frame : Frame) (now : Millis)

/-- A character is drawn by the effects of the attributes that govern it, on a glyph that shows. -/
theorem exists_blank (index : Nat) (c : Char) : ∃ g : Glyph, g.index = index ∧ g.visible = true ∧
    ∀ shares tracks, r.paint text frame now shares tracks (c, index) =
      (r.config.effectsOf (text.attributesAt index)).foldl
        (fun state entry => entry.2.touch (r.scope text frame now shares entry.1) state)
        (g, tracks) := by
  have heffects := r.effects_look? text index
  unfold paint
  cases hlook : r.look? text index with
  | none =>
    rw [hlook] at heffects
    refine ⟨frame.blankGlyph index c, rfl, rfl, fun shares tracks => ?_⟩
    rw [← heffects]
    rfl
  | some look =>
    rw [hlook] at heffects
    refine ⟨look.glyph frame index c, rfl, rfl, fun shares tracks => ?_⟩
    rw [← heffects]
    rfl

/-- Each character is painted with the tracks that the ones before it leave. -/
theorem paintAll_getElem? (shares : List (Extent × Nat)) (tracks : TrackStore)
    {entries : List (Char × Nat)} {place : Nat} {entry : Char × Nat}
    (h : entries[place]? = some entry) :
    let before := (r.paintAll text frame now shares tracks (entries.take place)).2
    (r.paintAll text frame now shares tracks entries).1[place]? =
        some (r.paint text frame now shares before entry).1 ∧
      (r.paintAll text frame now shares tracks (entries.take (place + 1))).2 =
        (r.paint text frame now shares before entry).2 := by
  induction entries generalizing tracks place with
  | nil => cases h
  | cons first rest ih =>
    cases place with
    | zero =>
      cases h
      exact ⟨rfl, rfl⟩
    | succ place => exact ih _ h

/-- The tracks when a frame has drawn the characters before a place of the text. -/
def tracksAt (tracks : TrackStore) (place : Nat) : TrackStore :=
  (r.paintAll text frame now (r.shareIn text frame now tracks).1
    (r.shareIn text frame now tracks).2 (text.raw.toList.zipIdx.take place)).2

/-- What a frame draws of a character, and the tracks after it. -/
theorem getElem?_render (tracks : TrackStore) {index : Nat} {c : Char}
    (hc : text.raw.toList[index]? = some c) :
    ∃ g, (r.render text frame now tracks).value.1[index]? = some g ∧
      if r.config.suppresses frame then g = frame.blankGlyph index c
      else
        let painted := r.paint text frame now (r.shareIn text frame now tracks).1
          (r.tracksAt text frame now tracks index) (c, index)
        g = painted.1 ∧ r.tracksAt text frame now tracks (index + 1) = painted.2 := by
  have hentry : text.raw.toList.zipIdx[index]? = some (c, index) := by simp [hc]
  rw [value_render]
  split
  · exact ⟨_, by simp only [List.getElem?_toArray, List.getElem?_map, hentry, Option.map_some], rfl⟩
  · rw [value_draw]
    obtain ⟨hglyph, hafter⟩ := r.paintAll_getElem? text frame now
      (r.shareIn text frame now tracks).1 (r.shareIn text frame now tracks).2 hentry
    exact ⟨_, List.getElem?_toArray.trans hglyph, rfl, hafter⟩

/-- The character that a frame draws at a place of the text, and the tracks after it. -/
theorem exists_glyph (tracks : TrackStore) {index : Nat} (hindex : index < text.length) :
    ∃ c g, (r.render text frame now tracks).value.1[index]? = some g ∧
      if r.config.suppresses frame then g = frame.blankGlyph index c
      else
        let painted := r.paint text frame now (r.shareIn text frame now tracks).1
          (r.tracksAt text frame now tracks index) (c, index)
        g = painted.1 ∧ r.tracksAt text frame now tracks (index + 1) = painted.2 := by
  have hlt : index < text.raw.toList.length := by rwa [String.length_toList]
  exact ⟨_, r.getElem?_render text frame now tracks (List.getElem?_eq_getElem hlt)⟩

end Renderer

end KineticText
