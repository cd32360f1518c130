import Mathlib.Data.List.Nodup
import KineticText.Proofs.Render.Quiet
import KineticText.Proofs.Render.Stages

/-! What a frame warns of.  Drawing logs a warning for an effect that fails and for nothing else.
What has failed is known by the span and the place in its chain, so a frame warns once for every
place in a span at which an effect fails on some glyph, of the first such failure.  Main statement:
the warnings of a frame are the first failures of their slots. -/

namespace KineticText

/-! ### Failures and what is said of them -/

/-- A place in a span, by the place of the span and the place in its chain of effects. -/
abbrev Slot : Type := Nat × Nat

/-- The warning of a stage that fails. -/
def Stage.failure? (st : Stage) : Option Event :=
  match st.ended.1 with
  | .ok _ => none
  | .error error => some (.effectFailed st.effect.family error)

theorem Stage.failure?_of_error {st : Stage} {error : EffectError}
    (h : (st.effect.apply st.scope st.found.2 st.found.1).value.1 = .error error) :
    st.failure? = some (.effectFailed st.effect.family error) := by
  have hended : st.ended.1 = .error error := by
    rw [Stage.ended, Effect.value_on_work]
    unfold finished
    rw [h]
    rfl
  rw [Stage.failure?, hended]

/-- Reports a failure unless one of its slot has been reported. -/
def report (reported : List (Slot × Event)) (failure : Slot × Event) : List (Slot × Event) :=
  if failure.1 ∈ reported.map Prod.fst then reported else reported ++ [failure]

/-- The failures of stages of one span, the first of which has the given place in the chain. -/
def failuresOf (place : Nat) : Nat → List Stage → List (Slot × Event)
  | _, [] => []
  | first, st :: rest =>
    (st.failure?.map ((place, first), ·)).toList ++ failuresOf place (first + 1) rest

theorem mem_failuresOf {place first : Nat} {stages : List Stage} {failure : Slot × Event} :
    failure ∈ failuresOf place first stages ↔ ∃ k st, stages[k]? = some st ∧
      st.failure? = some failure.2 ∧ failure.1 = (place, first + k) := by
  induction stages generalizing first with
  | nil => simp [failuresOf]
  | cons st rest ih =>
    rw [failuresOf, List.mem_append, ih]
    constructor
    · rintro (hfirst | ⟨k, st', hst', hfailure, hslot⟩)
      · obtain ⟨warning, hwarning, rfl⟩ :=
          Option.map_eq_some_iff.mp (Option.mem_toList.mp hfirst)
        exact ⟨0, st, rfl, hwarning, rfl⟩
      · exact ⟨k + 1, st', hst', hfailure, by rw [hslot, Nat.add_right_comm, Nat.add_assoc]⟩
    · rintro ⟨k, st', hst', hfailure, hslot⟩
      cases k with
      | zero =>
        cases hst'
        exact .inl (Option.mem_toList.mpr
          (Option.map_eq_some_iff.mpr ⟨_, hfailure, Prod.ext hslot.symm rfl⟩))
      | succ k => exact .inr ⟨k, st', hst', hfailure, by rw [hslot, Nat.add_right_comm]; rfl⟩

section

variable {reported failures : List (Slot × Event)} {failure : Slot × Event} {slot : Slot}

theorem mem_foldl_report (h : failure ∈ failures.foldl report reported) :
    failure ∈ reported ∨ failure ∈ failures := by
  induction failures generalizing reported with
  | nil => exact .inl h
  | cons first rest ih =>
    rcases ih h with hreport | hrest
    · unfold report at hreport
      split at hreport
      · exact .inl hreport
      · exact (List.mem_append.mp hreport).imp_right fun hlast =>
          List.mem_cons.mpr (.inl (List.mem_singleton.mp hlast))
    · exact .inr (List.mem_cons_of_mem first hrest)

theorem mem_slots_foldl_report : slot ∈ (failures.foldl report reported).map Prod.fst ↔
    slot ∈ reported.map Prod.fst ∨ slot ∈ failures.map Prod.fst := by
  induction failures generalizing reported with
  | nil => simp
  | cons first rest ih =>
    have hreport : slot ∈ (report reported first).map Prod.fst ↔
        slot ∈ reported.map Prod.fst ∨ slot = first.1 := by
      unfold report
      split
      · rename_i hknown
        exact (or_iff_left_of_imp fun heq => heq ▸ hknown).symm
      · simp
    rw [List.foldl_cons, ih, hreport, List.map_cons, List.mem_cons, or_assoc]

theorem nodup_slots_foldl_report (h : (reported.map Prod.fst).Nodup) :
    ((failures.foldl report reported).map Prod.fst).Nodup := by
  induction failures generalizing reported with
  | nil => exact h
  | cons first rest ih =>
    refine ih ?_
    unfold report
    split
    · exact h
    · rename_i hnew
      rw [List.map_append]
      exact List.Nodup.append h (List.nodup_singleton _) (List.disjoint_singleton.mpr hnew)

end

/-! ### Drawing -/

theorem Logged.fold_cons {α σ : Type} (step : σ → α → Logged σ) (start : σ) (x : α)
    (xs : List α) : fold step start (x :: xs) = step start x >>= fun s => fold step s xs := by
  suffices h : ∀ acc : Logged σ, xs.foldl (fun acc x => acc >>= fun s => step s x) acc =
      acc >>= fun s => fold step s xs by
    rw [fold, List.foldl_cons, pure_bind, h]
  induction xs with
  | nil => intro acc; exact (bind_pure acc).symm
  | cons x xs ih =>
    intro acc
    rw [List.foldl_cons, ih, bind_assoc]
    refine bind_congr fun s => ?_
    rw [fold, List.foldl_cons, pure_bind, ih]

/-- Drawing goes through the given failures after those that are reported: the canvas comes to know
the slots of all, and the log has the warnings of those that are new. -/
structure Tells {α : Type} (x : Logged α) (canvasOf : α → Canvas)
    (reported failures : List (Slot × Event)) : Prop where
  failed : (canvasOf x.value).failed = ((failures.foldl report reported).map Prod.fst).reverse
  warnings : reported.map Prod.snd ++ x.warnings = (failures.foldl report reported).map Prod.snd

namespace Tells

variable {α β : Type} {x : Logged α} {f : α → Logged β} {canvasOf : α → Canvas}
  {canvasOf' : β → Canvas} {reported failures others : List (Slot × Event)}

theorem of_pure {a : α} (h : (canvasOf a).failed = (reported.map Prod.fst).reverse) :
    Tells (pure a) canvasOf reported [] := ⟨h, List.append_nil _⟩

theorem bind (h : Tells x canvasOf reported failures)
    (h' : Tells (f x.value) canvasOf' (failures.foldl report reported) others) :
    Tells (x >>= f) canvasOf' reported (failures ++ others) := by
  refine ⟨?_, ?_⟩
  · rw [List.foldl_append]
    exact h'.failed
  · rw [List.foldl_append, ← h'.warnings, ← h.warnings, Logged.warnings_bind, List.append_assoc]

theorem map {g : α → β} (h : Tells x canvasOf reported failures)
    (hg : (canvasOf' (g x.value)).failed = (canvasOf x.value).failed) :
    Tells (g <$> x) canvasOf' reported failures :=
  ⟨hg.trans h.failed, by rw [Logged.warnings_map, h.warnings]⟩

end Tells

theorem Effect.tells_act (e : Effect) (s : Scope) (slot : Slot) {canvas : Canvas} (g : Glyph)
    {reported : List (Slot × Event)} (h : canvas.failed = (reported.map Prod.fst).reverse) :
    Tells (e.act s slot canvas g) Prod.fst reported
      ((Stage.failure? ⟨e, s, (g, canvas.tracks)⟩).map (slot, ·)).toList := by
  have hquiet : ((e.work s).on (g, canvas.tracks)).warnings = [] := by
    rw [on_work, Logged.warnings_map, e.warnings_apply]
  rw [act_eq_work, Stage.failure?, Stage.ended]
  cases hended : ((e.work s).on (g, canvas.tracks)).value.1 with
  | ok _ => exact ⟨by simp [hended, h], by simp [hended, hquiet]⟩
  | error error =>
    have hmem : slot ∈ canvas.failed ↔ slot ∈ reported.map Prod.fst := by
      rw [h, List.mem_reverse]
    by_cases hknown : slot ∈ reported.map Prod.fst
    · have hfailed := hmem.mpr hknown
      exact ⟨by simp [hended, report, hknown, h],
        by simp [hended, hfailed, report, hknown, hquiet]⟩
    · have hfailed := mt hmem.mp hknown
      exact ⟨by simp [hended, report, hknown, h],
        by simp [hended, hfailed, report, hknown, hquiet, Logged.warnings_emit_effectFailed]⟩

/-- The glyph and the tracks after an effect are those that its stage leaves. -/
theorem Effect.value_act_ended (e : Effect) (s : Scope) (slot : Slot) (canvas : Canvas)
    (g : Glyph) :
    ((e.act s slot canvas g).value.2, (e.act s slot canvas g).value.1.tracks) =
      (Stage.ended ⟨e, s, (g, canvas.tracks)⟩).2 := by
  obtain ⟨failed, hact⟩ := e.value_act s slot canvas g
  rw [hact, touch_eq_work]
  rfl

theorem Appearance.tells_act (a : Appearance) (scopeOf : Extent → Scope) (place : Nat)
    {canvas : Canvas} (g : Glyph) {reported : List (Slot × Event)}
    (h : canvas.failed = (reported.map Prod.fst).reverse) :
    Tells (a.act scopeOf place canvas g) Prod.fst reported
      (failuresOf place 0 (stagesOf scopeOf a.effects (g, canvas.tracks))) := by
  unfold act
  generalize 0 = first
  generalize a.effects = effects
  induction effects generalizing first canvas g reported with
  | nil => exact .of_pure h
  | cons entry rest ih =>
    have hact := entry.2.tells_act (scopeOf entry.1) (place, first) g h
    have hrest := ih (entry.2.act (scopeOf entry.1) (place, first) canvas g).value.2 hact.failed
      (first + 1)
    rw [entry.2.value_act_ended] at hrest
    rw [List.zipIdx_cons, Logged.fold_cons]
    exact hact.bind hrest

namespace Renderer

section

variable (r : Renderer) (text : AttributedText) (frame : Frame) (now : Millis)

/-- The failures on the glyph of one character. -/
def failuresAt (shares : List (Extent × Nat)) (tracks : TrackStore) (entry : Char × Nat) :
    List (Slot × Event) :=
  match text.spanIndexAt? entry.2 with
  | none => []
  | some place => failuresOf place 0 (stagesOf (r.scope text frame now shares)
      (r.effectsAt text frame entry.2)
      (StyledCharacter.glyph ⟨entry.2, entry.1, r.styleAt text frame entry.2⟩ frame, tracks))

/-- The failures on the glyphs of characters one after the other. -/
def failuresFrom (shares : List (Extent × Nat)) :
    TrackStore → List (Char × Nat) → List (Slot × Event)
  | _, [] => []
  | tracks, entry :: rest =>
    r.failuresAt text frame now shares tracks entry ++
      failuresFrom shares (r.paint text frame now shares tracks entry).2 rest

/-- The failures of a frame in the order in which they happen. -/
def failures (tracks : TrackStore) : List (Slot × Event) :=
  r.failuresFrom text frame now (r.shareIn text frame now tracks).1
    (r.shareIn text frame now tracks).2 text.raw.toList.zipIdx

variable {r frame} in
theorem tells_drawCharacter (hon : r.config.suppresses frame = false)
    (shares : List (Extent × Nat)) {canvas : Canvas} (entry : Char × Nat)
    {reported : List (Slot × Event)} (h : canvas.failed = (reported.map Prod.fst).reverse) :
    Tells (drawCharacter (text.spans.map r.config.appearance).toArray
        (text.owner text.owners) frame (r.scope text frame now shares) canvas entry) id reported
      (r.failuresAt text frame now shares canvas.tracks entry) := by
  obtain ⟨c, index⟩ := entry
  have heffects := r.effects_look? text index
  unfold drawCharacter failuresAt effectsAt styleAt
  rw [hon, if_neg Bool.false_ne_true, if_neg Bool.false_ne_true, ← heffects]
  simp only [AttributedText.owner_owners, look?]
  cases text.spanIndexAt? index with
  | none => exact .of_pure h
  | some place =>
    cases hspan : text.spans[place]? with
    | none => simpa [hspan, stagesOf, failuresOf] using Tells.of_pure h
    | some span =>
      have hact := (r.config.appearance span).tells_act (r.scope text frame now shares) place
        ((r.config.appearance span).glyph frame index c) h
      have hglyph : StyledCharacter.glyph ⟨index, c, (r.config.appearance span).style⟩ frame =
          (r.config.appearance span).glyph frame index c := rfl
      simpa [hspan, hglyph] using hact.map rfl

variable {r frame} in
theorem tells_fold_drawCharacter (hon : r.config.suppresses frame = false)
    (shares : List (Extent × Nat)) {canvas : Canvas} (entries : List (Char × Nat))
    {reported : List (Slot × Event)} (h : canvas.failed = (reported.map Prod.fst).reverse) :
    Tells (Logged.fold (drawCharacter (text.spans.map r.config.appearance).toArray
        (text.owner text.owners) frame (r.scope text frame now shares)) canvas entries) id reported
      (r.failuresFrom text frame now shares canvas.tracks entries) := by
  induction entries generalizing canvas reported with
  | nil => exact .of_pure h
  | cons entry rest ih =>
    have hfirst := r.tells_drawCharacter text now hon shares entry h
    have hrest := ih hfirst.failed
    obtain ⟨failed, hcanvas⟩ := r.value_drawCharacter text frame now shares canvas entry
    rw [id, hcanvas] at hrest
    rw [Logged.fold_cons]
    refine hfirst.bind ?_
    rw [hcanvas]
    exact hrest

theorem mem_failuresFrom {shares : List (Extent × Nat)} {tracks : TrackStore}
    {entries : List (Char × Nat)} {failure : Slot × Event} :
    failure ∈ r.failuresFrom text frame now shares tracks entries ↔
      ∃ place entry, entries[place]? = some entry ∧ failure ∈ r.failuresAt text frame now shares
        (r.paintAll text frame now shares tracks (entries.take place)).2 entry := by
  induction entries generalizing tracks with
  | nil => simp [failuresFrom]
  | cons first rest ih =>
    rw [failuresFrom, List.mem_append, ih]
    constructor
    · rintro (hfirst | ⟨place, entry, hentry, hmem⟩)
      · exact ⟨0, first, rfl, hfirst⟩
      · exact ⟨place + 1, entry, hentry, hmem⟩
    · rintro ⟨place, entry, hentry, hmem⟩
      cases place with
      | zero =>
        cases hentry
        exact .inl hmem
      | succ place => exact .inr ⟨place, entry, hentry, hmem⟩

/-- The effect at a place in the chain of a character fails there, with the given warning. -/
def FailsAt (tracks : TrackStore) (index place : Nat) (warning : Event) : Prop :=
  ∃ st, (r.stagesAt text frame now tracks index)[place]? = some st ∧ st.failure? = some warning

variable {r text frame now} in
/-- An effect that fails on every glyph fails at every character that it is kept for. -/
theorem FailsAt.of_apply {tracks : TrackStore} {index place : Nat} {entry : Extent × Effect}
    {error : EffectError} (hindex : index < text.length)
    (hentry : (r.effectsAt text frame index)[place]? = some entry)
    (h : ∀ shares tracks g,
      (entry.2.apply (r.scope text frame now shares entry.1) tracks g).value.1 = .error error) :
    r.FailsAt text frame now tracks index place (.effectFailed entry.2.family error) := by
  obtain ⟨c, hc⟩ : ∃ c, text.raw.toList[index]? = some c :=
    ⟨_, List.getElem?_eq_getElem (by rwa [String.length_toList])⟩
  obtain ⟨found, hstage⟩ := exists_getElem?_stagesOf
    (r.scope text frame now (r.shareIn text frame now tracks).1) hentry
    (StyledCharacter.glyph ⟨index, c, r.styleAt text frame index⟩ frame,
      r.tracksAt text frame now tracks index)
  rw [← r.stagesAt_eq text frame now tracks hc] at hstage
  exact ⟨_, hstage, Stage.failure?_of_error (h _ found.2 found.1)⟩

variable {r text frame now} in
theorem FailsAt.effect {tracks : TrackStore} {index place : Nat} {warning : Event}
    (h : r.FailsAt text frame now tracks index place warning) :
    ∃ entry, (r.config.effectsOf (text.attributesAt index))[place]? = some entry := by
  obtain ⟨st, hst, -⟩ := h
  have heffect := (r.entry_of_stagesAt text frame now hst).2
  unfold effectsAt at heffect
  split at heffect
  · cases heffect
  · exact ⟨_, heffect⟩

variable {r text frame now} in
/-- A character with an effect has a span. -/
theorem FailsAt.exists_span {tracks : TrackStore} {index place : Nat} {warning : Event}
    (h : r.FailsAt text frame now tracks index place warning) :
    ∃ span, text.spanIndexAt? index = some span := by
  obtain ⟨entry, hentry⟩ := h.effect
  cases hindex : text.spanIndexAt? index with
  | some span => exact ⟨span, rfl⟩
  | none =>
    have hnone : text.attributesAt index = [] := by
      rw [AttributedText.attributesAt, hindex]
      rfl
    rw [hnone, Config.effectsOf_nil] at hentry
    cases hentry

theorem mem_failures {tracks : TrackStore} {slot : Slot} {warning : Event} :
    (slot, warning) ∈ r.failures text frame now tracks ↔
      ∃ index, text.spanIndexAt? index = some slot.1 ∧
        r.FailsAt text frame now tracks index slot.2 warning := by
  rw [failures, mem_failuresFrom]
  constructor
  · rintro ⟨index, ⟨c, index'⟩, hentry, hmem⟩
    obtain ⟨hc, rfl⟩ : text.raw.toList[index]? = some c ∧ index = index' := by
      simpa [and_comm] using hentry
    unfold failuresAt at hmem
    cases hplace : text.spanIndexAt? index with
    | none => simp [hplace] at hmem
    | some place =>
      simp only [hplace] at hmem
      obtain ⟨k, st, hst, hfailure, hslot⟩ := mem_failuresOf.mp hmem
      rw [Nat.zero_add] at hslot
      subst hslot
      refine ⟨index, hplace, st, ?_, hfailure⟩
      rw [r.stagesAt_eq text frame now tracks hc]
      exact hst
  · rintro ⟨index, hindex, st, hst, hfailure⟩
    obtain ⟨⟨c, hc⟩, -⟩ := r.entry_of_stagesAt text frame now hst
    rw [r.stagesAt_eq text frame now tracks hc] at hst
    refine ⟨index, (c, index), by simp [hc], ?_⟩
    unfold failuresAt
    simp only [hindex]
    exact mem_failuresOf.mpr ⟨slot.2, st, hst, hfailure, by rw [Nat.zero_add]⟩

/-- The warnings of a frame, each with its slot. -/
def reports (tracks : TrackStore) : List (Slot × Event) :=
  (r.failures text frame now tracks).foldl report []

/-- The warnings of a frame are the first failures of their slots. -/
theorem warnings_render (tracks : TrackStore) :
    (r.render text frame now tracks).warnings =
      (r.reports text frame now tracks).map Prod.snd := by
  unfold render reports
  cases hon : r.config.suppresses frame with
  | true =>
    -- No effect acts, so there is no stage to fail.
    have hnone : r.failures text frame now tracks = [] := by
      refine List.eq_nil_iff_forall_not_mem.mpr fun failure hfailure => ?_
      obtain ⟨index, -, st, hst, -⟩ := (r.mem_failures text frame now).mp hfailure
      have heffect := (r.entry_of_stagesAt text frame now hst).2
      rw [effectsAt, hon, if_pos rfl] at heffect
      cases heffect
    rw [hnone]
    rfl
  | false =>
    have hknown : ({ tracks := (r.shareIn text frame now tracks).2 } : Canvas).failed =
      (([] : List (Slot × Event)).map Prod.fst).reverse := rfl
    have htold := (r.tells_fold_drawCharacter text now hon (r.shareIn text frame now tracks).1
      text.raw.toList.zipIdx hknown).warnings
    rw [if_neg Bool.false_ne_true, failures, ← htold]
    unfold draw shareIn
    cases r.config.allocation with
    | independent =>
      simp only [Logged.warnings_bind, Logged.warnings_pure, List.append_nil, List.nil_append]
      rfl
    | container =>
      simp only [Logged.warnings_bind, Logged.warnings_pure, warnings_shareOut, List.append_nil,
        List.nil_append]
      rfl

theorem nodup_reports (tracks : TrackStore) :
    ((r.reports text frame now tracks).map Prod.fst).Nodup :=
  nodup_slots_foldl_report List.nodup_nil

theorem exists_failsAt_of_mem_reports {tracks : TrackStore} {slot : Slot} {warning : Event}
    (h : (slot, warning) ∈ r.reports text frame now tracks) :
    ∃ index, text.spanIndexAt? index = some slot.1 ∧
      r.FailsAt text frame now tracks index slot.2 warning :=
  (r.mem_failures text frame now).mp ((mem_foldl_report h).resolve_left List.not_mem_nil)

theorem mem_slots_reports {tracks : TrackStore} {index span place : Nat} {warning : Event}
    (hindex : text.spanIndexAt? index = some span)
    (h : r.FailsAt text frame now tracks index place warning) :
    (span, place) ∈ (r.reports text frame now tracks).map Prod.fst :=
  mem_slots_foldl_report.mpr (.inr (List.mem_map.mpr
    ⟨((span, place), warning), (r.mem_failures text frame now).mpr ⟨index, hindex, h⟩, rfl⟩))

end

end Renderer

end KineticText
