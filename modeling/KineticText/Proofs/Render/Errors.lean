import KineticText.Proofs.Effect.Orders
import KineticText.Proofs.Effect.Shading
import KineticText.Proofs.Render.Warnings
import KineticText.Proofs.Track.Scrambles

/-! Errors that a frame of a parsed text cannot meet.  A scrambled element brings its track up to
date before it asks, so the track covers as many characters as the element has, whoever used the
track before and for what.  The attributes of a parsed text lie over the characters that they
govern, so every place that is asked for is among those.  And a gradient that is read from an
attribute has a stop.  Main statement: in a frame of a parsed text nothing but a number that is not
finite makes an effect fail. -/

namespace KineticText

/-- The outcome is no error, or the one of a number that is not finite. -/
def FailsOnNumbers {α : Type} : Except EffectError α → Prop
  | .ok _ => True
  | .error error => ∃ effect parameter, error = .notFinite effect parameter

namespace FailsOnNumbers

variable {α β : Type} {x : Except EffectError α}

theorem bind {f : α → Except EffectError β} (h : FailsOnNumbers x)
    (hf : ∀ a, FailsOnNumbers (f a)) : FailsOnNumbers (x >>= f) := by
  cases x with
  | error error => exact h
  | ok a => exact hf a

theorem map (f : α → β) (h : FailsOnNumbers x) : FailsOnNumbers (x.map f) := by
  cases x with
  | error error => exact h
  | ok a => trivial

theorem requireFinite (effect : String) (numbers : List (String × Float)) :
    FailsOnNumbers (requireFinite effect numbers) := by
  induction numbers with
  | nil => trivial
  | cons first rest ih =>
    obtain ⟨name, x⟩ := first
    unfold KineticText.requireFinite
    split
    · exact ih
    · exact ⟨effect, name, rfl⟩

theorem ne_error (h : FailsOnNumbers x) : x ≠ .error .emptyGradient ∧
    ∀ covered place, x ≠ .error (.trackMismatch covered place) := by
  constructor
  · rintro rfl
    obtain ⟨_, _, herror⟩ := h
    cases herror
  · rintro covered place rfl
    obtain ⟨_, _, herror⟩ := h
    cases herror

end FailsOnNumbers

/-! ### Tracks -/

namespace ScrambleTrack

/-- A track that is put in order covers the characters that it is put in order for, whatever it was
before. -/
theorem size_rank_reorder (t : ScrambleTrack) (count : Nat) (direction : Direction)
    (seed : UInt64) : (t.reorder count direction seed).rank.size = count := by
  unfold reorder
  split
  · rename_i hordered
    simp only [isOrdered, Bool.and_eq_true, beq_iff_eq] at hordered
    exact hordered.1.1
  · exact (size_rankOf _).trans (length_order direction count seed)

theorem size_rank_sync (t : ScrambleTrack) (count : Nat) (direction : Direction) (seed : UInt64)
    (now : Millis) : (t.sync count direction seed now).value.rank.size = count := by
  rw [value_sync]
  exact size_rank_reorder _ count direction seed

/-- A track tells of every character that it covers whether it is scrambled. -/
theorem failsOnNumbers_isScrambled {t : ScrambleTrack} {index : Nat} (h : index < t.rank.size)
    (mode : ScrambleMode) (speed : Float) (now : Millis) :
    FailsOnNumbers (t.isScrambled index mode speed now) := by
  unfold isScrambled
  rw [Array.getElem?_eq_getElem h]
  trivial

end ScrambleTrack

theorem Scramble.size_rank_moved (e : Scramble) (s : Scope) (track : ScrambleTrack) :
    (e.moved s track).rank.size = s.length := by
  have hsynced := track.size_rank_sync s.length e.direction (e.seed.getD s.key.word) s.now
  unfold moved
  simp only
  split
  · obtain ⟨active, lastSpawn, generator, hstep⟩ := ScrambleTrack.exists_stepRandom s.now
      s.config.timing (track.sync s.length e.direction (e.seed.getD s.key.word) s.now).value
    rw [hstep]
    exact hsynced
  · exact hsynced

theorem Scope.place_lt {s : Scope} {g : Glyph} (h : s.extent.contains g.index = true) :
    s.place g < s.length := by
  rw [Extent.contains_iff] at h
  unfold place Scope.length Extent.localIndex Extent.length
  omega

/-! ### Gradients -/

theorem Gradient.keepStops_ne_nil (stops : List (Option Color)) : keepStops stops ≠ [] := by
  unfold keepStops
  split
  · exact List.cons_ne_nil _ _
  · rename_i hne
    exact hne

/-- If the effect is a gradient, it has a stop. -/
def Effect.HasStops (e : Effect) : Prop := ∀ g, e = .gradient g → g.stops ≠ []

theorem Effect.hasStops_of_attribute {a : Attribute} {e : Effect}
    (h : Effect.ofAttribute? a = some e) : e.HasStops := by
  rintro g rfl
  unfold ofAttribute? at h
  simp only at h
  split at h
  -- A font may lack its name, and only the stops of a gradient are left to look at.
  case h_6 =>
    obtain ⟨_, -, h⟩ := Option.map_eq_some_iff.mp h
    cases h
  case h_10 =>
    cases h
    exact Gradient.keepStops_ne_nil _
  all_goals cases h

/-! ### Effects -/

theorem Effect.failsOnNumbers_apply {e : Effect} {s : Scope} {g : Glyph}
    (hcontains : s.extent.contains g.index = true) (hstops : e.HasStops) (tracks : TrackStore) :
    FailsOnNumbers (e.apply s tracks g).value.1 := by
  cases e with
  | typewriter e =>
    show FailsOnNumbers (e.apply s tracks g).value.1
    rw [e.value_apply]
    split
    · split <;> trivial
    · exact ⟨_, _, rfl⟩
  | scramble e =>
    show FailsOnNumbers (e.apply s tracks g).value.1
    rw [e.value_apply]
    split
    · refine .map _ (ScrambleTrack.failsOnNumbers_isScrambled ?_ _ _ _)
      rw [e.size_rank_moved]
      exact Scope.place_lt hcontains
    · exact ⟨_, _, rfl⟩
  | shake e => exact (FailsOnNumbers.requireFinite _ _).bind fun _ => trivial
  | gradient e =>
    refine (FailsOnNumbers.requireFinite _ _).bind fun _ => ?_
    have hsize : 0 < (e.colors s.frame.base).toArray.size := by
      rw [List.size_toArray, Gradient.colors, List.length_map]
      exact List.length_pos_iff.mpr (hstops e rfl)
    obtain ⟨color, hcolor⟩ := exists_shade hsize (e.position (s.place g) s.length s.frame.ticks)
      e.repeating
    simp only [hcolor]
    trivial
  | rainbow e => exact (FailsOnNumbers.requireFinite _ _).bind fun _ => trivial
  | style toggle => trivial

theorem index_of_mem_stagesOf {scopeOf : Extent → Scope} {effects : List (Extent × Effect)}
    {found : Glyph × TrackStore} {st : Stage} (h : st ∈ stagesOf scopeOf effects found) :
    st.found.1.index = found.1.index := by
  induction effects generalizing found with
  | nil => exact absurd h List.not_mem_nil
  | cons entry rest ih =>
    obtain ⟨extent, effect⟩ := entry
    rcases List.mem_cons.mp h with rfl | hrest
    · rfl
    · rw [ih hrest, Stage.ended_eq, (effect.alters_touch _ _).index_eq]

/-! ### Frames -/

namespace Renderer

variable {r : Renderer} {text : AttributedText} {frame : Frame} {now : Millis}

/-- In a text whose attributes govern the characters of their extents, only numbers make an effect
fail. -/
theorem failsOnNumbers_stagesAt (hgoverned : text.Governed) {tracks : TrackStore} {index : Nat}
    {st : Stage} (h : st ∈ r.stagesAt text frame now tracks index) :
    FailsOnNumbers st.ended.1 := by
  obtain ⟨place, hst⟩ := List.getElem?_of_mem h
  obtain ⟨⟨c, hc⟩, hentry⟩ := r.entry_of_stagesAt text frame now hst
  rw [r.stagesAt_eq text frame now tracks hc] at h
  have hindex : st.found.1.index = index := index_of_mem_stagesOf h
  unfold effectsAt at hentry
  split at hentry
  · cases hentry
  · have hmem := List.mem_of_getElem? hentry
    obtain ⟨-, hcontains⟩ := (Config.Keeps.mem_effectsOf_attributesAt hgoverned).mp hmem
    obtain ⟨-, a, -, -, heffect, -⟩ := Config.exists_attribute_of_mem_effectsOf hmem
    rw [← hindex] at hcontains
    rw [Stage.ended, Effect.value_on_work]
    exact (Effect.failsOnNumbers_apply hcontains (Effect.hasStops_of_attribute heffect) _).map _

theorem exists_stage_of_mem_warnings {tracks : TrackStore} {family : String} {error : EffectError}
    (h : .effectFailed family error ∈ (r.render text frame now tracks).warnings) :
    ∃ index, ∃ st ∈ r.stagesAt text frame now tracks index, st.ended.1 = .error error := by
  rw [warnings_render] at h
  obtain ⟨⟨slot, warning⟩, hreport, rfl⟩ := List.mem_map.mp h
  obtain ⟨index, -, st, hst, hfailure⟩ := r.exists_failsAt_of_mem_reports text frame now hreport
  refine ⟨index, st, List.mem_of_getElem? hst, ?_⟩
  unfold Stage.failure? at hfailure
  split at hfailure
  · cases hfailure
  · rename_i hended
    cases hfailure
    exact hended

/-- No effect that is applied in a frame of a parsed text fails because a track does not cover a
character or a gradient has no stops, and no frame warns of it, whatever is in the store. -/
theorem stages_parse_ne_error (registry : Registry) (options : Markup.ParseOptions)
    (source : String) (r : Renderer) (frame : Frame) (now : Millis) (tracks : TrackStore) :
    let text := (Markup.parse registry options source).value
    (∀ index, ∀ st ∈ r.stagesAt text frame now tracks index,
      st.ended.1 ≠ .error .emptyGradient ∧
        ∀ covered place, st.ended.1 ≠ .error (.trackMismatch covered place)) ∧
    ∀ family, .effectFailed family .emptyGradient ∉ (r.render text frame now tracks).warnings ∧
      ∀ covered place, .effectFailed family (.trackMismatch covered place) ∉
        (r.render text frame now tracks).warnings := by
  have hstages : ∀ index, ∀ st ∈ r.stagesAt (Markup.parse registry options source).value frame now
      tracks index, st.ended.1 ≠ .error .emptyGradient ∧
        ∀ covered place, st.ended.1 ≠ .error (.trackMismatch covered place) :=
    fun index st hst =>
      (failsOnNumbers_stagesAt (Markup.governed_parse registry options source) hst).ne_error
  refine ⟨hstages, fun family => ⟨fun h => ?_, fun covered place h => ?_⟩⟩
  · obtain ⟨index, st, hst, hended⟩ := exists_stage_of_mem_warnings h
    exact (hstages index st hst).1 hended
  · obtain ⟨index, st, hst, hended⟩ := exists_stage_of_mem_warnings h
    exact (hstages index st hst).2 covered place hended

end Renderer

end KineticText
