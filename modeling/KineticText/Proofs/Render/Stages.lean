import KineticText.Proofs.Render.InPlace
import KineticText.Proofs.Render.Visibility

/-! A frame as the stages of its glyphs.  A glyph begins with the static style of its character, and
each kept effect works on what the one before it has left.  A stage that fails leaves no trace on
the glyph, so the glyph comes out as if the effects that succeed had been the only ones.  Main
statement: this holds of every glyph, and there is one for each character. -/

namespace KineticText

/-- The glyph of a character as the styled walk shows it. -/
def StyledCharacter.glyph (shown : StyledCharacter) (f : Frame) : Glyph :=
  { f.blankGlyph shown.index shown.character with
    color := shown.style.color.getD f.base, flags := shown.style.flags }

/-- An effect whose turn has come, with what it sees and what it finds. -/
structure Stage where
  effect : Effect
  scope : Scope
  found : Glyph × TrackStore

namespace Stage

/-- The effect with the characters of its element. -/
def entry (st : Stage) : Extent × Effect := (st.scope.extent, st.effect)

/-- What the effect ends with, and the glyph and the tracks that it leaves. -/
def ended (st : Stage) : Except EffectError Unit × (Glyph × TrackStore) :=
  ((st.effect.work st.scope).on st.found).value

theorem ended_eq (st : Stage) : st.ended.2 = st.effect.touch st.scope st.found :=
  (Effect.touch_eq_work st.effect st.scope st.found).symm

def succeeds (st : Stage) : Bool := st.ended.1.isOk

/-- The effect on any glyph, with the tracks of the stage. -/
def apply (st : Stage) (g : Glyph) : Except EffectError Glyph :=
  let ended := ((st.effect.work st.scope).on (g, st.found.2)).value
  ended.1.map fun _ => ended.2.1

end Stage

/-- Effects one after the other, each on what the one before it leaves. -/
def stagesOf (scopeOf : Extent → Scope) :
    List (Extent × Effect) → Glyph × TrackStore → List Stage
  | [], _ => []
  | (extent, effect) :: rest, found =>
    let st : Stage := ⟨effect, scopeOf extent, found⟩
    st :: stagesOf scopeOf rest st.ended.2

section

variable (scopeOf : Extent → Scope)

theorem map_entry_stagesOf (hscope : ∀ extent, (scopeOf extent).extent = extent)
    (effects : List (Extent × Effect)) (found : Glyph × TrackStore) :
    (stagesOf scopeOf effects found).map Stage.entry = effects := by
  induction effects generalizing found with
  | nil => rfl
  | cons entry rest ih =>
    obtain ⟨extent, effect⟩ := entry
    rw [stagesOf, List.map_cons, ih, Stage.entry, hscope]

theorem exists_getElem?_stagesOf {effects : List (Extent × Effect)} {place : Nat}
    {entry : Extent × Effect} (h : effects[place]? = some entry) (found : Glyph × TrackStore) :
    ∃ found', (stagesOf scopeOf effects found)[place]? =
      some ⟨entry.2, scopeOf entry.1, found'⟩ := by
  induction effects generalizing place found with
  | nil => cases h
  | cons first rest ih =>
    cases place with
    | zero =>
      cases h
      exact ⟨found, rfl⟩
    | succ place => exact ih h _

/-- The effects that succeed, on their own, make of a glyph what all of them make of it. -/
theorem foldlM_succeeds (effects : List (Extent × Effect)) (found : Glyph × TrackStore) :
    ((stagesOf scopeOf effects found).filter Stage.succeeds).foldlM (fun g st => st.apply g)
        found.1 =
      .ok (effects.foldl (fun state entry => entry.2.touch (scopeOf entry.1) state) found).1 := by
  induction effects generalizing found with
  | nil => rfl
  | cons entry rest ih =>
    obtain ⟨extent, effect⟩ := entry
    rw [stagesOf, List.foldl_cons, Effect.touch_eq_work]
    have hrest := ih ((effect.work (scopeOf extent)).on found).value.2
    cases hended : ((effect.work (scopeOf extent)).on found).value.1 with
    | error error =>
      -- Nothing has happened to the glyph, and the others go on from there.
      rw [Effect.glyph_of_error hended] at hrest
      rw [List.filter_cons_of_neg]
      · exact hrest
      · simp [Stage.succeeds, Stage.ended, hended, Except.isOk, Except.toBool]
    | ok _ =>
      rw [List.filter_cons_of_pos, List.foldlM_cons]
      · have happly : Stage.apply ⟨effect, scopeOf extent, found⟩ found.1 =
            .ok ((effect.work (scopeOf extent)).on found).value.2.1 := by
          simp [Stage.apply, hended, Except.map]
        rw [happly]
        exact hrest
      · simp [Stage.succeeds, Stage.ended, hended, Except.isOk, Except.toBool]

end

namespace Renderer

variable (r : Renderer) (text : AttributedText) (frame : Frame) (now : Millis)

/-- The static style of a character in a frame. -/
def styleAt (index : Nat) : Style :=
  if r.config.suppresses frame then {} else ((r.look? text index).map (·.style)).getD {}

theorem getElem?_styled (index : Nat) : (r.styled text frame)[index]? =
    (text.raw.toList[index]?).map fun character =>
      { index, character, style := r.styleAt text frame index } := by
  have hstyle : ((text.owner text.owners index).bind
      ((if r.config.suppresses frame then #[] else
        (text.spans.map fun s => (r.config.appearance s).style).toArray : Array Style)[·]?)).getD
          {} = r.styleAt text frame index := by
    unfold styleAt look?
    rw [AttributedText.owner_owners]
    cases r.config.suppresses frame with
    | true => cases text.spanIndexAt? index <;> rfl
    | false =>
      cases text.spanIndexAt? index with
      | none => rfl
      | some place => cases hspan : text.spans[place]? <;> simp [hspan]
  rw [← hstyle, styled, List.getElem?_map, List.getElem?_zipIdx, Nat.zero_add, Option.map_map]
  rfl

/-- The stages of the glyph at a place of the text. -/
def stagesAt (tracks : TrackStore) (index : Nat) : List Stage :=
  match (r.styled text frame)[index]? with
  | none => []
  | some shown =>
    stagesOf (r.scope text frame now (r.shareIn text frame now tracks).1)
      (r.effectsAt text frame index) (shown.glyph frame, r.tracksAt text frame now tracks index)

/-- A character's effects are at work on its styled glyph. -/
theorem paint_eq (hon : r.config.suppresses frame = false) (shares : List (Extent × Nat))
    (tracks : TrackStore) (index : Nat) (c : Char) :
    r.paint text frame now shares tracks (c, index) =
      (r.effectsAt text frame index).foldl
        (fun state entry => entry.2.touch (r.scope text frame now shares entry.1) state)
        (StyledCharacter.glyph ⟨index, c, r.styleAt text frame index⟩ frame, tracks) := by
  have heffects := r.effects_look? text index
  rw [effectsAt, styleAt, hon, if_neg Bool.false_ne_true, if_neg Bool.false_ne_true, ← heffects,
    paint]
  cases r.look? text index with
  | none => rfl
  | some look => rfl

theorem length_paintAll (shares : List (Extent × Nat)) (tracks : TrackStore)
    (entries : List (Char × Nat)) :
    (r.paintAll text frame now shares tracks entries).1.length = entries.length := by
  induction entries generalizing tracks with
  | nil => rfl
  | cons entry rest ih => exact congrArg (· + 1) (ih _)

theorem size_render (tracks : TrackStore) :
    (r.render text frame now tracks).value.1.size = text.raw.toList.length := by
  rw [value_render]
  split
  · rw [List.size_toArray, List.length_map, List.length_zipIdx]
  · rw [value_draw, List.size_toArray, drawn, length_paintAll, List.length_zipIdx]

theorem stagesAt_eq (tracks : TrackStore) {index : Nat} {c : Char}
    (hc : text.raw.toList[index]? = some c) :
    r.stagesAt text frame now tracks index =
      stagesOf (r.scope text frame now (r.shareIn text frame now tracks).1)
        (r.effectsAt text frame index)
        (StyledCharacter.glyph ⟨index, c, r.styleAt text frame index⟩ frame,
          r.tracksAt text frame now tracks index) := by
  rw [stagesAt, getElem?_styled, hc]
  rfl

theorem map_entry_stagesAt (tracks : TrackStore) {index : Nat} {c : Char}
    (hc : text.raw.toList[index]? = some c) :
    (r.stagesAt text frame now tracks index).map Stage.entry = r.effectsAt text frame index := by
  rw [r.stagesAt_eq text frame now tracks hc]
  exact map_entry_stagesOf _ (fun _ => rfl) _ _

/-- A stage is that of a character, with the effect at its place among those of the character. -/
theorem entry_of_stagesAt {tracks : TrackStore} {index place : Nat} {st : Stage}
    (h : (r.stagesAt text frame now tracks index)[place]? = some st) :
    (∃ c, text.raw.toList[index]? = some c) ∧
      (r.effectsAt text frame index)[place]? = some st.entry := by
  cases hc : text.raw.toList[index]? with
  | none =>
    rw [stagesAt, getElem?_styled, hc] at h
    cases h
  | some c =>
    refine ⟨⟨c, rfl⟩, ?_⟩
    rw [← r.map_entry_stagesAt text frame now tracks hc, List.getElem?_map, h]
    rfl

/-- The glyph of a character is its styled glyph after its effects, of which a frame without effects
has none. -/
theorem getElem?_render_eq (tracks : TrackStore) {index : Nat} {c : Char}
    (hc : text.raw.toList[index]? = some c) :
    (r.render text frame now tracks).value.1[index]? =
      some ((r.effectsAt text frame index).foldl
        (fun state entry => entry.2.touch
          (r.scope text frame now (r.shareIn text frame now tracks).1 entry.1) state)
        (StyledCharacter.glyph ⟨index, c, r.styleAt text frame index⟩ frame,
          r.tracksAt text frame now tracks index)).1 := by
  obtain ⟨g, hg, hdrawn⟩ := r.getElem?_render text frame now tracks hc
  rw [hg]
  cases hon : r.config.suppresses frame with
  | true =>
    rw [hon, if_pos rfl] at hdrawn
    rw [effectsAt, styleAt, hon, if_pos rfl, if_pos rfl, hdrawn]
    rfl
  | false =>
    rw [hon, if_neg Bool.false_ne_true] at hdrawn
    rw [hdrawn.1, r.paint_eq text frame now hon]

/-- The glyph of a character comes out of its stages. -/
theorem foldlM_stagesAt (tracks : TrackStore) {index : Nat} {c : Char}
    (hc : text.raw.toList[index]? = some c) :
    ∃ g, (r.render text frame now tracks).value.1[index]? = some g ∧
      ((r.stagesAt text frame now tracks index).filter Stage.succeeds).foldlM
          (fun g st => st.apply g)
          (StyledCharacter.glyph ⟨index, c, r.styleAt text frame index⟩ frame) = .ok g := by
  refine ⟨_, r.getElem?_render_eq text frame now tracks hc, ?_⟩
  rw [r.stagesAt_eq text frame now tracks hc]
  exact foldlM_succeeds _ _ (_, _)

/-- However effects fail, they leave the glyph that they are applied to as it was.  There is one
glyph for each character, in order: the glyph of its static style, after the kept effects that
succeed. -/
theorem glyphs_render (tracks : TrackStore) :
    (∀ (e : Effect) (s : Scope) (state : Glyph × TrackStore) (error : EffectError),
      ((e.work s).on state).value.1 = .error error →
        ((e.work s).on state).value.2.1 = state.1) ∧
    (r.styled text frame).map (·.character) = text.raw.toList ∧
    List.Forall₂ (fun shown g =>
        let stages := r.stagesAt text frame now tracks shown.index
        stages.map Stage.entry = r.effectsAt text frame shown.index ∧
          (stages.filter Stage.succeeds).foldlM (fun g st => st.apply g) (shown.glyph frame) =
            .ok g)
      (r.styled text frame) (r.render text frame now tracks).value.1.toList := by
  have hlength : (r.styled text frame).length = text.raw.toList.length := by
    rw [styled, List.length_map, List.length_zipIdx]
  refine ⟨fun e s state error => Effect.glyph_of_error, ?_, ?_⟩
  · rw [styled, List.map_map]
    exact List.zipIdx_map_fst 0 _
  · refine List.forall₂_iff_get.mpr ⟨?_, fun index hshown hglyph => ?_⟩
    · exact hlength.trans (r.size_render text frame now tracks).symm
    · obtain ⟨c, hc⟩ : ∃ c, text.raw.toList[index]? = some c :=
        ⟨_, List.getElem?_eq_getElem (hlength ▸ hshown)⟩
      obtain ⟨g, hg, hstages⟩ := r.foldlM_stagesAt text frame now tracks hc
      have hshown : (r.styled text frame)[index] = ⟨index, c, r.styleAt text frame index⟩ := by
        have hget := r.getElem?_styled text frame index
        rw [hc, List.getElem?_eq_getElem hshown] at hget
        exact Option.some.inj hget
      have hglyph : (r.render text frame now tracks).value.1.toList[index] = g := by
        rw [← Array.getElem?_toList, List.getElem?_eq_getElem hglyph] at hg
        exact Option.some.inj hg
      rw [List.get_eq_getElem, List.get_eq_getElem, hshown, hglyph]
      exact ⟨r.map_entry_stagesAt text frame now tracks hc, hstages⟩

end Renderer

end KineticText
