import Mathlib.Data.List.Forall2
import KineticText.Proofs.Render.Styled

/-! The characters of glyphs.  Only scrambling puts another character into a glyph, a filler from its
alphabet, and it never does so for a blank; of several scrambles each replaces the filler of the one
before.  A filler is no blank, so a glyph that has one can be scrambled again.  Main statement: a
frame has a glyph for each character, at its place, which shows the character or the last filler
that was put in for it, and effects leave the place, the flags and the alpha of a glyph alone. -/

namespace KineticText

/-- A character that an alphabet may give as a filler: a printable one of ASCII, and for the
readable alphabet a letter or a digit. -/
structure Alphabet.Gives (a : Alphabet) (filler : Char) : Prop where
  printable : 33 ≤ filler.toNat ∧ filler.toNat ≤ 126
  readable : a = .readable → filler.isAlphanum = true

theorem Alphabet.gives_glyphset (hash : UInt64) :
    Alphabet.glyphset.Gives (Char.ofNat (33 + (hash % 94).toNat)) := by
  have hall : ∀ n < 94, 33 ≤ (Char.ofNat (33 + n)).toNat ∧ (Char.ofNat (33 + n)).toNat ≤ 126 := by
    decide
  have hlt : (hash % 94).toNat < 94 := by
    rw [UInt64.toNat_mod]
    exact Nat.mod_lt _ (by decide)
  exact ⟨hall _ hlt, fun h => (by cases h)⟩

theorem Alphabet.gives_readable (hash : UInt64) (c : Char) :
    Alphabet.readable.Gives (readableFiller.getD (hash % 62).toNat c) := by
  have hall : readableFiller.toList.all (fun filler =>
      filler.isAlphanum && decide (33 ≤ filler.toNat ∧ filler.toNat ≤ 126)) = true := by decide
  have hsize : readableFiller.size = 62 := by decide
  have hlt : (hash % 62).toNat < readableFiller.size := by
    rw [UInt64.toNat_mod, hsize]
    exact Nat.mod_lt _ (by decide)
  have hfiller := List.all_eq_true.mp hall _ (Array.getElem_mem_toList hlt)
  rw [Bool.and_eq_true, decide_eq_true_eq] at hfiller
  rw [Array.getD_eq_getD_getElem?, Array.getElem?_eq_getElem hlt]
  exact ⟨hfiller.2, fun _ => hfiller.1⟩

theorem ScrambleTrack.gives_filler (t : ScrambleTrack) (index : Nat) {c : Char}
    (h : Text.isBlank c = false) (alphabet : Alphabet) (now : Millis) :
    alphabet.Gives (t.filler index c alphabet now) := by
  unfold filler
  rw [if_neg (Bool.eq_false_iff.mp h)]
  cases alphabet with
  | glyphset => exact Alphabet.gives_glyphset _
  | readable => exact Alphabet.gives_readable _ c

theorem Scramble.gives_of_filler? {e : Scramble} {s : Scope} {state : Glyph × TrackStore}
    {filler : Char} (h : e.filler? s state = some filler) :
    Text.isBlank state.1.character = false ∧ e.alphabet.Gives filler := by
  unfold filler? at h
  simp only at h
  split at h
  · split at h
    · rename_i hfills
      rw [Bool.and_eq_true, Bool.not_eq_true'] at hfills
      cases h
      exact ⟨hfills.2, ScrambleTrack.gives_filler _ _ hfills.2 _ _⟩
    · cases h
  · cases h

/-! ### Stages -/

/-- The filler that an effect puts into the glyph when its turn has come, and its alphabet. -/
def Stage.filler? (st : Stage) : Option (Alphabet × Char) :=
  match st.effect with
  | .scramble e => (e.filler? st.scope st.found).map (e.alphabet, ·)
  | _ => none

/-- A stage leaves the character that it finds, or its filler. -/
theorem Stage.character_ended (st : Stage) :
    st.ended.2.1.character = (st.filler?.map Prod.snd).getD st.found.1.character := by
  rw [ended_eq]
  unfold filler?
  split
  · rename_i e heffect
    rw [heffect, e.glyph_touch]
    cases e.filler? st.scope st.found <;> rfl
  · rename_i hkind
    exact (st.effect.alters_touch st.scope st.found).character_eq hkind

theorem Stage.exists_of_filler? {st : Stage} {alphabet : Alphabet} {filler : Char}
    (h : st.filler? = some (alphabet, filler)) : (∃ e, st.effect = .scramble e) ∧
      Text.isBlank st.found.1.character = false ∧ alphabet.Gives filler := by
  unfold filler? at h
  split at h
  · rename_i e heffect
    obtain ⟨filler, hfiller, heq⟩ := Option.map_eq_some_iff.mp h
    cases heq
    exact ⟨⟨e, heffect⟩, Scramble.gives_of_filler? hfiller⟩
  · cases h

section

variable (scopeOf : Extent → Scope) (effects : List (Extent × Effect))
  (found : Glyph × TrackStore)

/-- The last filler stays. -/
theorem character_foldl_touch :
    (effects.foldl (fun state entry => entry.2.touch (scopeOf entry.1) state) found).1.character =
      (((stagesOf scopeOf effects found).filterMap Stage.filler?).getLast?.map Prod.snd).getD
        found.1.character := by
  induction effects generalizing found with
  | nil => rfl
  | cons entry rest ih =>
    obtain ⟨extent, effect⟩ := entry
    rw [List.foldl_cons, ih, stagesOf, List.filterMap_cons]
    have hcharacter := Stage.character_ended ⟨effect, scopeOf extent, found⟩
    rw [Stage.ended_eq] at hcharacter
    rw [Stage.ended_eq, hcharacter]
    cases Stage.filler? ⟨effect, scopeOf extent, found⟩ with
    | none => rfl
    | some filler =>
      cases hlast : ((stagesOf scopeOf rest (effect.touch (scopeOf extent) found)).filterMap
        Stage.filler?).getLast? <;> simp [List.getLast?_cons, hlast]

variable {found} in
/-- A blank stays. -/
theorem filterMap_filler?_of_blank (h : Text.isBlank found.1.character = true) :
    (stagesOf scopeOf effects found).filterMap Stage.filler? = [] := by
  induction effects generalizing found with
  | nil => rfl
  | cons entry rest ih =>
    obtain ⟨extent, effect⟩ := entry
    have hnone : Stage.filler? ⟨effect, scopeOf extent, found⟩ = none := by
      rw [Option.eq_none_iff_forall_ne_some]
      rintro ⟨alphabet, filler⟩ hfiller
      have hblank := (Stage.exists_of_filler? hfiller).2.1
      rw [h] at hblank
      cases hblank
    have hcharacter := Stage.character_ended ⟨effect, scopeOf extent, found⟩
    rw [hnone] at hcharacter
    rw [stagesOf, List.filterMap_cons, hnone]
    exact ih (hcharacter ▸ h)

end

/-! ### Frames -/

namespace Renderer

variable (r : Renderer) (text : AttributedText) (frame : Frame) (now : Millis)

/-- The fillers that are put into the glyph of a character in a frame, in order, with their
alphabets. -/
def fillersAt (tracks : TrackStore) (index : Nat) : List (Alphabet × Char) :=
  (r.stagesAt text frame now tracks index).filterMap Stage.filler?

/-- How the character `c` at a place of the text comes out as a glyph. -/
structure Redraws (tracks : TrackStore) (index : Nat) (c : Char) (g : Glyph) : Prop where
  index_eq : g.index = index
  latest : g.character =
    ((r.fillersAt text frame now tracks index).getLast?.map Prod.snd).getD c
  scrambled : g.character ≠ c → r.config.suppresses frame = false ∧
    ∃ extent e, (extent, .scramble e) ∈ r.effectsAt text frame index
  blank : Text.isBlank c = true → r.fillersAt text frame now tracks index = []
  gives : ∀ entry ∈ r.fillersAt text frame now tracks index, entry.1.Gives entry.2

variable {r text frame now} in
theorem exists_scramble_of_fillersAt {tracks : TrackStore} {index : Nat}
    {entry : Alphabet × Char} (h : entry ∈ r.fillersAt text frame now tracks index) :
    (r.config.suppresses frame = false ∧
      ∃ extent e, (extent, .scramble e) ∈ r.effectsAt text frame index) ∧
      entry.1.Gives entry.2 := by
  obtain ⟨st, hst, hfiller⟩ := List.mem_filterMap.mp h
  obtain ⟨⟨e, heffect⟩, -, hgives⟩ := Stage.exists_of_filler? hfiller
  obtain ⟨place, hplace⟩ := List.getElem?_of_mem hst
  have hentry := List.mem_of_getElem? (r.entry_of_stagesAt text frame now hplace).2
  refine ⟨⟨Bool.eq_false_iff.mpr fun hsuppressed => ?_, st.scope.extent, e, heffect ▸ hentry⟩,
    hgives⟩
  rw [effectsAt, if_pos hsuppressed] at hentry
  exact List.not_mem_nil hentry

theorem redraws_render (tracks : TrackStore) {index : Nat} {c : Char} {g : Glyph}
    (hc : text.raw.toList[index]? = some c)
    (hg : (r.render text frame now tracks).value.1[index]? = some g) :
    r.Redraws text frame now tracks index c g := by
  rw [r.getElem?_render_eq text frame now tracks hc, Option.some_inj] at hg
  have hstages := r.stagesAt_eq text frame now tracks hc
  have hlatest : g.character =
      ((r.fillersAt text frame now tracks index).getLast?.map Prod.snd).getD c := by
    rw [fillersAt, hstages, ← hg]
    exact character_foldl_touch _ _ _
  refine ⟨?_, hlatest, fun hne => ?_, fun hblank => ?_, fun entry hentry => ?_⟩
  · rw [← hg]
    exact Effect.foldl_touch_eq Glyph.index
      (fun entry _ s state => (entry.2.alters_touch s state).index_eq) _ _
  · cases hfillers : (r.fillersAt text frame now tracks index).getLast? with
    | none =>
      rw [hfillers] at hlatest
      exact absurd hlatest hne
    | some entry => exact (exists_scramble_of_fillersAt (List.mem_of_getLast? hfillers)).1
  · rw [fillersAt, hstages]
    exact filterMap_filler?_of_blank _ _ hblank
  · exact (exists_scramble_of_fillersAt hentry).2

/-- In every frame of every text, and for every store: an effect leaves the place, the flags and the
alpha of a glyph alone, and its character too unless it puts a filler there.  There is one glyph for
each character, in order, and it shows the last of its fillers or the character itself. -/
theorem glyphs_redraw (tracks : TrackStore) :
    (∀ (e : Effect) (s : Scope) (slot : Nat × Nat) (canvas : Canvas) (g : Glyph),
      let g' := (e.act s slot canvas g).value.2
      g'.index = g.index ∧ g'.flags = g.flags ∧ g'.color.alpha = g.color.alpha) ∧
    (∀ st : Stage, st.ended.2.1.character =
      (st.filler?.map Prod.snd).getD st.found.1.character) ∧
    (r.render text frame now tracks).value.1.size = text.length ∧
    List.Forall₂ (fun entry g => r.Redraws text frame now tracks entry.2 entry.1 g)
      text.raw.toList.zipIdx (r.render text frame now tracks).value.1.toList := by
  refine ⟨fun e s slot canvas g => ?_, Stage.character_ended, ?_, ?_⟩
  · obtain ⟨failed, hact⟩ := e.value_act s slot canvas g
    have halters := e.alters_touch s (g, canvas.tracks)
    simp only [hact]
    exact ⟨halters.index_eq, halters.flags_eq, halters.alpha_eq⟩
  · rw [size_render, String.length_toList, AttributedText.length]
  · have hall := r.forall₂_styled_render text frame now tracks
      (R := fun shown g => r.Redraws text frame now tracks shown.index shown.character g)
      fun index c hc g hg => r.redraws_render text frame now tracks hc hg
    rw [styled, List.forall₂_map_left_iff] at hall
    exact hall

end Renderer

end KineticText
