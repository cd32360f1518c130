import Mathlib.Data.Set.Card
import KineticText.Proofs.Markup.Occurrences
import KineticText.Proofs.Render.Ticks
import KineticText.Proofs.Render.Warnings

/-! Which effects of the markup a frame warns of.  An element's effect is kept for all characters
under the element, at one place of their chains.  What has failed is known by that place and the
span, though, and an inner element puts characters in a span of its own.  Main statement: a frame
warns of an effect of the markup once for each span under which the effect fails, so the warnings
are as many as the effects that fail exactly when none fails under two spans. -/

namespace KineticText

/-! ### Kept effects and where they occur -/

namespace Config

variable {α : Type} {c : Config} {labels labels' : List (α × Attribute)}

/-- The effects that are kept of attributes with labels, each with its label. -/
def keptOf (c : Config) (labels : List (α × Attribute)) : List (α × (Extent × Effect)) :=
  ((labels.take c.maxSpanDepth.toNat).filterMap fun label =>
    ((Effect.ofAttribute? label.2).filter (!·.isStatic)).map (label.1, label.2.extent, ·)).take
      c.maxEffectsPerGlyph.toNat

/-- Labels have no say in what is kept. -/
theorem map_snd_keptOf (c : Config) (labels : List (α × Attribute)) :
    (c.keptOf labels).map Prod.snd = c.effectsOf (labels.map Prod.snd) := by
  rw [keptOf, effectsOf, List.map_take, List.map_filterMap, ← List.map_take, List.filterMap_map]
  simp only [Option.map_map]
  rfl

theorem keptOf_prefix (c : Config) (h : labels <+: labels') :
    c.keptOf labels <+: c.keptOf labels' :=
  ((h.take _).filterMap _).take _

theorem sublist_keptOf (c : Config) (labels : List (α × Attribute)) :
    ((c.keptOf labels).map Prod.fst).Sublist (labels.map Prod.fst) := by
  suffices h : ∀ labels : List (α × Attribute), ((labels.filterMap fun label =>
      ((Effect.ofAttribute? label.2).filter (!·.isStatic)).map
        (label.1, label.2.extent, ·)).map Prod.fst).Sublist (labels.map Prod.fst) from
    ((List.take_sublist _ _).map _).trans ((h _).trans ((List.take_sublist _ _).map _))
  intro labels
  induction labels with
  | nil => exact List.Sublist.refl _
  | cons label rest ih =>
    rw [List.filterMap_cons]
    cases (Effect.ofAttribute? label.2).filter (!·.isStatic) with
    | none => exact ih.cons _
    | some effect => exact ih.cons_cons _

/-- An effect of a label that stands among the first attributes is one of their effects. -/
theorem getElem?_keptOf_of_prefix (hbegins : labels' <+: labels)
    (hnodup : (labels.map Prod.fst).Nodup) {place : Nat} {kept : α × (Extent × Effect)}
    (h : (c.keptOf labels)[place]? = some kept) (hlabel : kept.1 ∈ labels'.map Prod.fst) :
    (c.keptOf labels')[place]? = some kept := by
  obtain ⟨rest, rfl⟩ := hbegins
  rw [List.map_append] at hnodup
  rw [keptOf, List.take_append, List.filterMap_append, List.take_append, List.getElem?_append] at h
  split at h
  · exact h
  · -- An effect of a later attribute has another label.
    refine absurd ?_ (List.disjoint_of_nodup_append hnodup hlabel)
    have hmem := List.mem_of_mem_take (List.mem_of_getElem? h)
    obtain ⟨label, hrest, hkept⟩ := List.mem_filterMap.mp hmem
    obtain ⟨effect, -, rfl⟩ := Option.map_eq_some_iff.mp hkept
    exact List.mem_map_of_mem (List.mem_of_mem_take hrest)

theorem exists_label_of_mem_keptOf {kept : α × (Extent × Effect)} (h : kept ∈ c.keptOf labels) :
    ∃ label ∈ labels, label.1 = kept.1 ∧ label.2.extent = kept.2.1 := by
  obtain ⟨label, hlabel, hkept⟩ := List.mem_filterMap.mp (List.mem_of_mem_take h)
  obtain ⟨effect, -, rfl⟩ := Option.map_eq_some_iff.mp hkept
  exact ⟨label, List.mem_of_mem_take hlabel, rfl, rfl⟩

end Config

namespace Renderer

open Markup

section

variable (r : Renderer) (registry : Registry) (nodes : List Node)

/-- The effects that are kept for a character, each with where it occurs. -/
def keptAt (index : Nat) : List (Occurrence × (Extent × Effect)) :=
  r.config.keptOf (labelsAt registry nodes index)

variable {r registry nodes} {index index' place place' : Nat}
  {kept kept' : Occurrence × (Extent × Effect)}

/-- An effect that is kept for a character is kept wherever its element is, at one place. -/
theorem getElem?_keptAt_of_contains (h : (r.keptAt registry nodes index)[place]? = some kept)
    (hcontains : kept.2.1.contains index' = true) :
    (r.keptAt registry nodes index')[place]? = some kept := by
  obtain ⟨label, hlabel, hfst, hextent⟩ :=
    Config.exists_label_of_mem_keptOf (List.mem_of_getElem? h)
  rw [← hextent] at hcontains
  obtain ⟨common, hmem, hbegins, hbegins'⟩ := exists_common_labels hlabel hcontains
  -- The limits cut chains from the inner end, so what is kept of the common attributes is kept of
  -- both chains.
  have hcommon := Config.getElem?_keptOf_of_prefix hbegins (nodup_labelsAt nodes index) h
    (List.mem_map.mpr ⟨label, hmem, hfst⟩)
  obtain ⟨hlt, rfl⟩ := List.getElem?_eq_some_iff.mp hcommon
  exact List.prefix_iff_getElem?.mp (r.config.keptOf_prefix hbegins') place hlt

theorem contains_of_mem_keptAt (h : kept ∈ r.keptAt registry nodes index) :
    kept.2.1 = kept.1.element.extent ∧ kept.2.1.contains index = true := by
  obtain ⟨label, hlabel, hfst, hextent⟩ := Config.exists_label_of_mem_keptOf h
  rw [← hextent, ← hfst]
  exact extent_of_mem_labelsAt hlabel

/-- Wherever an element is, its effect has the same place. -/
theorem place_eq_of_keptAt (h : (r.keptAt registry nodes index)[place]? = some kept)
    (h' : (r.keptAt registry nodes index')[place']? = some kept') (heq : kept.1 = kept'.1) :
    place = place' := by
  obtain ⟨hextent, -⟩ := contains_of_mem_keptAt (List.mem_of_getElem? h)
  obtain ⟨hextent', hcontains'⟩ := contains_of_mem_keptAt (List.mem_of_getElem? h')
  rw [hextent', ← heq, ← hextent] at hcontains'
  have hsame := getElem?_keptAt_of_contains h hcontains'
  have hnodup : ((r.keptAt registry nodes index').map Prod.fst).Nodup :=
    (nodup_labelsAt nodes index').sublist (Config.sublist_keptOf _ _)
  obtain ⟨hlt, -⟩ := List.getElem?_eq_some_iff.mp hsame
  refine (List.getElem?_inj (by rwa [List.length_map]) hnodup).mp ?_
  rw [List.getElem?_map, List.getElem?_map, hsame, h', Option.map_some, Option.map_some, heq]

/-- The characters of a span lie under the same elements with effects. -/
theorem getElem?_keptAt_of_span {logUnknown : Bool} {span : Nat}
    (hindex : (flatten registry logUnknown nodes).value.spanIndexAt? index = some span)
    (hindex' : (flatten registry logUnknown nodes).value.spanIndexAt? index' = some span)
    (h : (r.keptAt registry nodes index)[place]? = some kept) :
    (r.keptAt registry nodes index')[place]? = some kept := by
  obtain ⟨label, hlabel, -, hextent⟩ :=
    Config.exists_label_of_mem_keptOf (List.mem_of_getElem? h)
  have hattribute : label.2 ∈ (flatten registry logUnknown nodes).value.attributesAt index := by
    rw [← map_snd_labelsAt]
    exact List.mem_map_of_mem hlabel
  obtain ⟨s, hs, -, hattributes⟩ := AttributedText.exists_span_of_spanIndexAt? hindex
  obtain ⟨s', hs', hcontains', -⟩ := AttributedText.exists_span_of_spanIndexAt? hindex'
  obtain rfl : s = s' := Option.some.inj (hs.symm.trans hs')
  rw [hattributes] at hattribute
  have hchained := (wellNested_flatten nodes).chained s (List.mem_of_getElem? hs)
  have hencloses := hchained.surrounds.encloses _ hattribute
  refine getElem?_keptAt_of_contains h ?_
  rw [← hextent]
  rw [Extent.encloses_iff] at hencloses
  rw [Extent.contains_iff] at hcontains' ⊢
  omega

end

/-! ### What warnings are about -/

section

variable (r : Renderer) (registry : Registry) (nodes : List Node) (text : AttributedText)
  (frame : Frame) (now : Millis) (tracks : TrackStore)

/-- The effect that occurs at a place of the markup fails at a character, with the given warning. -/
def Fails (o : Occurrence) (index : Nat) (warning : Event) : Prop :=
  ∃ place entry, (r.keptAt registry nodes index)[place]? = some (o, entry) ∧
    r.FailsAt text frame now tracks index place warning

/-- A warning, and the effect of the markup and the span that it is about. -/
structure Notice where
  occurrence : Occurrence
  span : Nat
  warning : Event

/-- The warnings of a frame are one for each effect of the markup and each span with a character at
which the effect fails. -/
structure AreNotices (notices : List Notice) : Prop where
  warnings : notices.map Notice.warning = (r.render text frame now tracks).warnings
  distinct : (notices.map fun n => (n.occurrence, n.span)).Nodup
  sound : ∀ n ∈ notices, ∃ index, text.spanIndexAt? index = some n.span ∧
    r.Fails registry nodes text frame now tracks n.occurrence index n.warning
  complete : ∀ o index warning, r.Fails registry nodes text frame now tracks o index warning →
    ∃ n ∈ notices, n.occurrence = o ∧ text.spanIndexAt? index = some n.span

end

section

variable {r : Renderer} {registry : Registry} {logUnknown : Bool} {nodes : List Node}
  {text : AttributedText} {frame : Frame} {now : Millis} {tracks : TrackStore}

/-- The effects of a character are those that are kept of the markup. -/
theorem effectsOf_attributesAt (htext : text = (flatten registry logUnknown nodes).value)
    (index : Nat) : r.config.effectsOf (text.attributesAt index) =
      (r.keptAt registry nodes index).map Prod.snd := by
  rw [htext, ← map_snd_labelsAt, ← Config.map_snd_keptOf]
  rfl

/-- What fails at a character is an effect of the markup. -/
theorem FailsAt.exists_occurrence (htext : text = (flatten registry logUnknown nodes).value)
    {index place : Nat} {warning : Event}
    (h : r.FailsAt text frame now tracks index place warning) :
    ∃ o effect, (r.keptAt registry nodes index)[place]? = some (o, effect) := by
  obtain ⟨entry, hentry⟩ := h.effect
  rw [effectsOf_attributesAt htext, List.getElem?_map] at hentry
  obtain ⟨⟨o, effect⟩, hkept, -⟩ := Option.map_eq_some_iff.mp hentry
  exact ⟨o, effect, hkept⟩

variable (r frame now tracks) in
theorem exists_notices (htext : text = (flatten registry logUnknown nodes).value) :
    ∃ notices, r.AreNotices registry nodes text frame now tracks notices := by
  have hoccurs : ∀ entry ∈ r.reports text frame now tracks, ∃ o index effect,
      text.spanIndexAt? index = some entry.1.1 ∧
        (r.keptAt registry nodes index)[entry.1.2]? = some (o, effect) ∧
        r.FailsAt text frame now tracks index entry.1.2 entry.2 := by
    intro entry hentry
    obtain ⟨index, hindex, hfails⟩ := r.exists_failsAt_of_mem_reports text frame now hentry
    obtain ⟨o, effect, hkept⟩ := hfails.exists_occurrence htext
    exact ⟨o, index, effect, hindex, hkept, hfails⟩
  -- A report is about what is kept at the character where it failed first.  Other characters of the
  -- span have the same at that place.
  have hnonempty : Nonempty Occurrence := ⟨⟨⟨"", [], 0, []⟩, 0⟩⟩
  choose! occurrence index effect hindex hkept hfails using hoccurs
  have hslots := r.nodup_reports text frame now tracks
  refine ⟨(r.reports text frame now tracks).map fun entry =>
    ⟨occurrence entry, entry.1.1, entry.2⟩, ?_, ?_, ?_, ?_⟩
  · rw [List.map_map, warnings_render]
    rfl
  · rw [List.map_map]
    refine List.Nodup.map_on (fun entry hentry entry' hentry' heq => ?_) (.of_map _ hslots)
    obtain ⟨hoccurrence, hspan⟩ := Prod.mk.inj heq
    have hplace := place_eq_of_keptAt (hkept entry hentry) (hkept entry' hentry') hoccurrence
    exact List.inj_on_of_nodup_map hslots hentry hentry' (Prod.ext hspan hplace)
  · intro n hn
    obtain ⟨entry, hentry, rfl⟩ := List.mem_map.mp hn
    exact ⟨index entry, hindex entry hentry, _, _, hkept entry hentry, hfails entry hentry⟩
  · rintro o index' warning ⟨place, effect', hkept', hfails'⟩
    obtain ⟨span, hspan⟩ := hfails'.exists_span
    obtain ⟨⟨slot, told⟩, hentry, rfl⟩ :=
      List.mem_map.mp (r.mem_slots_reports text frame now hspan hfails')
    refine ⟨_, List.mem_map_of_mem hentry, ?_, hspan⟩
    have hsame := getElem?_keptAt_of_span (htext ▸ hindex _ hentry) (htext ▸ hspan)
      (hkept _ hentry)
    exact congrArg Prod.fst (Option.some.inj (hsame.symm.trans hkept'))

namespace AreNotices

variable {notices : List Notice}

/-- The notices are about the effects of the markup that fail. -/
theorem mem_occurrences (h : r.AreNotices registry nodes text frame now tracks notices)
    {o : Occurrence} : o ∈ notices.map Notice.occurrence ↔
      ∃ index warning, r.Fails registry nodes text frame now tracks o index warning := by
  constructor
  · intro ho
    obtain ⟨n, hn, rfl⟩ := List.mem_map.mp ho
    obtain ⟨index, -, hfails⟩ := h.sound n hn
    exact ⟨index, n.warning, hfails⟩
  · rintro ⟨index, warning, hfails⟩
    obtain ⟨n, hn, hoccurrence, -⟩ := h.complete o index warning hfails
    exact List.mem_map.mpr ⟨n, hn, hoccurrence⟩

/-- There is one notice for each effect that fails when it does so under one span only. -/
theorem nodup_iff (h : r.AreNotices registry nodes text frame now tracks notices) :
    (notices.map Notice.occurrence).Nodup ↔ ∀ o index index' warning warning',
      r.Fails registry nodes text frame now tracks o index warning →
      r.Fails registry nodes text frame now tracks o index' warning' →
        text.spanIndexAt? index = text.spanIndexAt? index' := by
  constructor
  · intro hnodup o index index' warning warning' hfails hfails'
    obtain ⟨n, hn, hoccurrence, hspan⟩ := h.complete o index warning hfails
    obtain ⟨n', hn', hoccurrence', hspan'⟩ := h.complete o index' warning' hfails'
    have hsame : n = n' :=
      List.inj_on_of_nodup_map hnodup hn hn' (hoccurrence.trans hoccurrence'.symm)
    rw [hspan, hspan', hsame]
  · intro hone
    refine List.Nodup.map_on (fun n hn n' hn' hoccurrence => ?_) (.of_map _ h.distinct)
    obtain ⟨index, hspan, hfails⟩ := h.sound n hn
    obtain ⟨index', hspan', hfails'⟩ := h.sound n' hn'
    rw [← hoccurrence] at hfails'
    have hspans := hone _ index index' _ _ hfails hfails'
    rw [hspan, hspan'] at hspans
    exact List.inj_on_of_nodup_map h.distinct hn hn'
      (Prod.ext hoccurrence (Option.some.inj hspans))

/-- There are as many warnings as effects that fail when no two notices are about one. -/
theorem length_warnings_iff (h : r.AreNotices registry nodes text frame now tracks notices) :
    (r.render text frame now tracks).warnings.length =
        Set.ncard {o | ∃ index warning,
          r.Fails registry nodes text frame now tracks o index warning} ↔
      (notices.map Notice.occurrence).Nodup := by
  classical
  have hset : {o | ∃ index warning, r.Fails registry nodes text frame now tracks o index warning} =
      ((notices.map Notice.occurrence).toFinset : Set Occurrence) := by
    ext o
    rw [List.coe_toFinset]
    exact h.mem_occurrences.symm
  rw [hset, Set.ncard_coe_finset, ← h.warnings, List.length_map,
    ← List.length_map Notice.occurrence]
  constructor
  · intro hlength
    exact Multiset.toFinset_card_eq_card_iff_nodup.mp hlength.symm
  · intro hnodup
    exact (List.toFinset_card_of_nodup hnodup).symm

end AreNotices

end

/-! ### Parsed texts -/

/-- A frame of a parsed text warns once for each effect of the markup and each span with a character
at which the effect fails.  There is one warning for each effect that fails exactly when no effect
fails at characters of different spans. -/
theorem warnings_parse (r : Renderer) (registry : Registry) (options : ParseOptions)
    (source : String) (frame : Frame) (now : Millis) (tracks : TrackStore) :
    let text := (parse registry options source).value
    let fails := r.Fails registry (treeOf options source) text frame now tracks
    (∃ notices, r.AreNotices registry (treeOf options source) text frame now tracks notices) ∧
      ((r.render text frame now tracks).warnings.length =
          Set.ncard {o | ∃ index warning, fails o index warning} ↔
        ∀ o index index' warning warning', fails o index warning → fails o index' warning' →
          text.spanIndexAt? index = text.spanIndexAt? index') := by
  intro text fails
  obtain ⟨notices, hnotices⟩ := r.exists_notices frame now tracks
    (value_parse_treeOf registry options source)
  exact ⟨⟨notices, hnotices⟩, hnotices.length_warnings_iff.trans hnotices.nodup_iff⟩

/-! ### An element whose text is in two spans -/

/-- An element with an effect, part of whose text is in another element. -/
def shakenBold : String := "<shake>a<b>b</b></shake>"

/-- What is in the outer element of `shakenBold`. -/
def partlyBold : List Node := [.text "a", .element "b" [] [.text "b"]]

/-- The effect of the outer element. -/
def shaking : Occurrence := ⟨⟨"shake", [], 0, partlyBold⟩, 0⟩

theorem treeOf_shakenBold : treeOf {} shakenBold = [.element "shake" [] partlyBold] := by
  with_unfolding_all rfl

/-- At both characters the shaking is kept, and no shaking succeeds without finite ticks. -/
theorem shaking_fails (index : Nat) (h : index < 2) :
    ∃ warning, (⟨{}⟩ : Renderer).Fails .builtin (treeOf {} shakenBold)
      (parse .builtin {} shakenBold).value badFrame 0 (.ofConfig {}) shaking index warning := by
  have hkept : ∃ e, (⟨{}⟩ : Renderer).keptAt .builtin (treeOf {} shakenBold) index =
      [(shaking, (⟨0, 2⟩, .shake e))] := by
    rw [treeOf_shakenBold]
    match index, h with
    | 0, _ => exact ⟨_, by with_unfolding_all rfl⟩
    | 1, _ => exact ⟨_, by with_unfolding_all rfl⟩
  obtain ⟨e, hkept⟩ := hkept
  have heffects : (⟨{}⟩ : Renderer).effectsAt (parse .builtin {} shakenBold).value badFrame index =
      [(⟨0, 2⟩, .shake e)] := by
    have hon : (⟨{}⟩ : Renderer).config.suppresses badFrame = false := by decide
    rw [effectsAt, hon, if_neg Bool.false_ne_true,
      effectsOf_attributesAt (value_parse_treeOf .builtin {} shakenBold), hkept]
    rfl
  have hlength : index < (parse .builtin {} shakenBold).value.length := by
    rw [value_parse_treeOf, length_flatten, treeOf_shakenBold]
    exact h
  have hshake : ∀ s : Scope, s.frame = badFrame → ∀ tracks g,
      ((Effect.shake e).apply s tracks g).value.1 = .error (.notFinite "shake" "ticks") := by
    intro s hframe tracks g
    show e.apply s g = _
    unfold Shake.apply
    rw [requireFinite, hframe, isFinite_badFrame]
    rfl
  exact ⟨_, 0, _, by rw [hkept]; rfl,
    .of_apply hlength (by rw [heffects]; rfl) fun shares tracks g => hshake _ rfl tracks g⟩

/-- The shaking is one effect that fails, but there is a warning for each of its two spans. -/
theorem length_warnings_shakenBold :
    let text := (parse .builtin {} shakenBold).value
    ((⟨{}⟩ : Renderer).render text badFrame 0 (.ofConfig {})).warnings.length ≠
      Set.ncard {o | ∃ index warning, (⟨{}⟩ : Renderer).Fails .builtin (treeOf {} shakenBold) text
        badFrame 0 (.ofConfig {}) o index warning} := by
  intro text hlength
  obtain ⟨notices, hnotices⟩ := exists_notices ⟨{}⟩ badFrame 0 (.ofConfig {})
    (value_parse_treeOf .builtin {} shakenBold)
  have hone := hnotices.nodup_iff.mp (hnotices.length_warnings_iff.mp hlength)
  obtain ⟨warning, hfirst⟩ := shaking_fails 0 (by decide)
  obtain ⟨warning', hsecond⟩ := shaking_fails 1 (by decide)
  -- The second character has an attribute more than the first, so another span governs it.
  have hattributes : (text.attributesAt 0).length = (text.attributesAt 1).length :=
    congrArg (fun span => (text.attributesOf span).length)
      (hone shaking 0 1 warning warning' hfirst hsecond)
  have hcount : ∀ index, (text.attributesAt index).length =
      (labelsAt .builtin [.element "shake" [] partlyBold] index).length := by
    intro index
    rw [← treeOf_shakenBold, ← List.length_map Prod.snd, map_snd_labelsAt false]
    rfl
  rw [hcount, hcount] at hattributes
  have hfirst : (labelsAt .builtin [.element "shake" [] partlyBold] 0).length = 1 := by
    with_unfolding_all rfl
  have hsecond : (labelsAt .builtin [.element "shake" [] partlyBold] 1).length = 2 := by
    with_unfolding_all rfl
  rw [hfirst, hsecond] at hattributes
  cases hattributes

end Renderer

end KineticText
