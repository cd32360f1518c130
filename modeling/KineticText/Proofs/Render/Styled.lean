import Mathlib.Data.List.Forall2
import KineticText.Proofs.Render.Stages

/-! The styled walk beside the frame.  Both look a character up among the spans, the walk for its
style alone and the frame for its style and its effects, and a frame without effects shows no style
in either.  Main statement: a sink is shown the characters in order up to the one at which it is
done, each with the flags that its glyph has in the frame, and with its color unless an effect
paints the glyph. -/

namespace KineticText

/-- A sink that takes in what it is shown, and is done with the character at `stop`. -/
def breakingAt {σ : Type} (stop : Option Nat) (take : σ → StyledCharacter → σ) (state : σ)
    (c : StyledCharacter) : ForInStep σ :=
  if stop = some c.index then .done (take state c) else .yield (take state c)

/-- How many of `length` characters a sink is shown that is done with the one at `stop`. -/
def shownUntil (stop : Option Nat) (length : Nat) : Nat :=
  match stop with
  | none => length
  | some place => min (place + 1) length

/-- A sink that is done with the first element with a property is shown the elements up to that. -/
theorem visit_eq_foldl_take {α σ : Type} (isLast : α → Bool) (sink : σ → α → ForInStep σ)
    (take : σ → α → σ)
    (hsink : ∀ state a, sink state a = if isLast a then .done (take state a)
      else .yield (take state a)) (state : σ) (l : List α) :
    visit sink state l = ((l.take (l.findIdx isLast + 1)).foldl take state, l.any isLast) := by
  induction l generalizing state with
  | nil => rfl
  | cons a rest ih =>
    rw [visit, hsink]
    cases hlast : isLast a with
    | true => simp [List.findIdx_cons, hlast]
    | false => simp [List.findIdx_cons, hlast, ih]

theorem min_findIdx_range (stop : Option Nat) (length : Nat) :
    min ((List.range length).findIdx (fun index => decide (stop = some index)) + 1) length =
      shownUntil stop length := by
  have hnever (h : ∀ index < length, stop ≠ some index) :
      (List.range length).findIdx (fun index => decide (stop = some index)) = length := by
    rw [List.findIdx_eq_length_of_false fun index hindex =>
      decide_eq_false (h index (List.mem_range.mp hindex)), List.length_range]
  cases stop with
  | none =>
    rw [hnever fun index _ h => (by cases h), shownUntil]
    omega
  | some place =>
    by_cases hplace : place < length
    · have hfound : (List.range length).findIdx (fun index => decide (some place = some index)) =
          place := by
        rw [List.findIdx_eq (by rwa [List.length_range])]
        simp only [List.getElem_range, decide_eq_true_eq, decide_eq_false_iff_not,
          Option.some.injEq, true_and]
        exact fun index hindex heq => Nat.ne_of_gt hindex heq
      rw [hfound, shownUntil]
    · rw [hnever fun index hindex heq => hplace (Option.some.inj heq ▸ hindex), shownUntil]
      omega

theorem any_range_eq_some (stop : Option Nat) (length : Nat) :
    (List.range length).any (fun index => decide (stop = some index)) = stop.any (· < length) := by
  rw [Bool.eq_iff_iff]
  cases stop <;> simp

namespace Renderer

variable (r : Renderer) (text : AttributedText) (frame : Frame) (now : Millis)

theorem map_index_styled : (r.styled text frame).map (·.index) = List.range text.length := by
  rw [styled, List.map_map, AttributedText.length, ← String.length_toList]
  exact (List.zipIdx_map_snd 0 _).trans (List.range_eq_range' ..).symm

theorem map_character_styled :
    (r.styled text frame).map (·.character) = text.raw.toList := by
  rw [styled, List.map_map]
  exact List.zipIdx_map_fst 0 _

theorem length_styled : (r.styled text frame).length = text.length := by
  rw [← List.length_map (·.index), map_index_styled, List.length_range]

/-- The walk shows a sink the characters up to the one at which it is done. -/
theorem walk_breakingAt {σ : Type} (stop : Option Nat) (take : σ → StyledCharacter → σ) (state : σ) :
    r.walk text frame (breakingAt stop take) state =
      (((r.styled text frame).take (shownUntil stop text.length)).foldl take state,
        stop.any (· < text.length)) := by
  have hsink (state : σ) (c : StyledCharacter) : breakingAt stop take state c =
      if decide (stop = some c.index) then .done (take state c) else .yield (take state c) := by
    simp only [breakingAt, decide_eq_true_eq]
  -- Where the sink is done is a matter of the indices alone, which are those of the text.
  have hfind : (r.styled text frame).findIdx (fun c => decide (stop = some c.index)) =
      (List.range text.length).findIdx fun index => decide (stop = some index) := by
    rw [← r.map_index_styled text frame, List.findIdx_map]
    rfl
  have hany : (r.styled text frame).any (fun c => decide (stop = some c.index)) =
      (List.range text.length).any fun index => decide (stop = some index) := by
    rw [← r.map_index_styled text frame, List.any_map]
    rfl
  rw [walk, visit_eq_foldl_take _ _ take hsink, hfind, hany, any_range_eq_some,
    List.take_eq_take_min, length_styled, min_findIdx_range]

/-- What holds of the characters and their glyphs one by one holds of the styled walk and the
frame. -/
theorem forall₂_styled_render {R : StyledCharacter → Glyph → Prop} (tracks : TrackStore)
    (h : ∀ index c, text.raw.toList[index]? = some c → ∀ g,
      (r.render text frame now tracks).value.1[index]? = some g →
        R ⟨index, c, r.styleAt text frame index⟩ g) :
    List.Forall₂ R (r.styled text frame) (r.render text frame now tracks).value.1.toList := by
  have hsize := r.size_render text frame now tracks
  rw [String.length_toList, ← AttributedText.length, ← r.length_styled text frame] at hsize
  refine List.forall₂_iff_get.mpr ⟨hsize.symm, fun index hshown hglyph => ?_⟩
  have hget := r.getElem?_styled text frame index
  rw [List.getElem?_eq_getElem hshown, eq_comm, Option.map_eq_some_iff] at hget
  obtain ⟨c, hc, heq⟩ := hget
  rw [List.get_eq_getElem, List.get_eq_getElem, ← heq]
  refine h index c hc _ ?_
  rw [← Array.getElem?_toList, List.getElem?_eq_getElem hglyph]

end Renderer

/-- A glyph has the flags of a styled character, and its color unless an effect paints the glyph. -/
structure StyledCharacter.AgreesWith (c : StyledCharacter) (effects : List (Extent × Effect))
    (f : Frame) (g : Glyph) : Prop where
  flags : g.flags = c.style.flags
  color : (∀ entry ∈ effects, ¬ entry.2.Paints) → g.color = c.style.color.getD f.base

namespace Renderer

/-- Whatever the text and the store, and whether a frame has effects or not: a sink that is done at
`stop`, or never, is shown the characters in order up to that one.  Each has the flags of its glyph
in the frame, and where no effect paints the glyph, its color or else the base color. -/
theorem walk_agrees_with_render (r : Renderer) (text : AttributedText) (frame : Frame)
    (now : Millis) (tracks : TrackStore) (stop : Option Nat) :
    let count := shownUntil stop text.length
    ∃ shown : List StyledCharacter,
      (∀ (σ : Type) (take : σ → StyledCharacter → σ) (state : σ),
        r.walk text frame (breakingAt stop take) state =
          (shown.foldl take state, stop.any (· < text.length))) ∧
      shown.map (·.index) = List.range count ∧
      shown.map (·.character) = text.raw.toList.take count ∧
      List.Forall₂ (fun c g => c.AgreesWith (r.effectsAt text frame c.index) frame g) shown
        ((r.render text frame now tracks).value.1.toList.take count) := by
  intro count
  have hcount : count ≤ text.length := by
    show shownUntil stop text.length ≤ text.length
    unfold shownUntil
    split <;> omega
  refine ⟨(r.styled text frame).take count, fun σ take state =>
    r.walk_breakingAt text frame stop take state, ?_, ?_, ?_⟩
  · rw [List.map_take, map_index_styled, List.take_range, Nat.min_eq_left hcount]
  · rw [List.map_take, map_character_styled]
  · refine List.forall₂_take count (r.forall₂_styled_render text frame now tracks
      fun index c hc g hg => ?_)
    rw [r.getElem?_render_eq text frame now tracks hc, Option.some_inj] at hg
    subst hg
    refine ⟨?_, fun hpaints => ?_⟩
    · exact Effect.foldl_touch_eq Glyph.flags
        (fun entry _ s state => (entry.2.alters_touch s state).flags_eq) _ _
    · exact Effect.foldl_touch_eq Glyph.color
        (fun entry hentry s state => (entry.2.alters_touch s state).color_eq (hpaints entry hentry))
        _ _

end Renderer

end KineticText
