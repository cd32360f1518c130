import Mathlib.Data.List.Sort
import KineticText.Proofs.Render.Outermost
import KineticText.Proofs.Render.Visibility

/-! Typewriters that share a count.  The frame asks the shared track once, by all characters that a
typewriter is over, and gives the count to the outermost typewriters front to back.  Main statement:
of the characters under a typewriter, exactly the first ones in document order show, as many as the
count says, however the typewriters lie in each other; all other characters show. -/

namespace KineticText

/-- The shares let the character at a place of the text wait. -/
def Hides (shares : List (Extent × Nat)) (index : Nat) : Prop :=
  ∃ share, shares.find? (fun share => share.1.contains index) = some share ∧
    share.2 ≤ share.1.localIndex index

theorem Typewriter.revealShare_sight (e : Typewriter) (s : Scope) (g : Glyph) :
    (e.revealShare s g).index = g.index ∧
      ((e.revealShare s g).visible = true ↔ g.visible = true ∧ ¬ Hides s.shares g.index) := by
  unfold revealShare Hides
  cases s.shares.find? fun share => share.1.contains g.index with
  | none => simp
  | some share =>
    refine ⟨e.index_reveal _ _ _ _ _, ?_⟩
    rw [e.visible_reveal]
    simp

/-- A share holds no more than its element, and the elements are apart and in order. -/
structure FrontToBack (shares : List (Extent × Nat)) : Prop where
  apart : shares.Pairwise fun a b => a.1.stop ≤ b.1.start
  fits : ∀ share ∈ shares, share.1.start + share.2 ≤ share.1.stop

namespace FrontToBack

variable {shares : List (Extent × Nat)} {index : Nat}

theorem eq_of_contains (h : FrontToBack shares) {share share' : Extent × Nat}
    (hshare : share ∈ shares) (hshare' : share' ∈ shares) (hin : share.1.contains index = true)
    (hin' : share'.1.contains index = true) : share = share' := by
  have hsymm : Std.Symm fun a b : Extent × Nat => a.1.stop ≤ b.1.start ∨ b.1.stop ≤ a.1.start :=
    ⟨fun _ _ => Or.symm⟩
  have hpairs : shares.Pairwise fun a b => a.1.stop ≤ b.1.start ∨ b.1.stop ≤ a.1.start :=
    h.apart.imp .inl
  by_contra hne
  have happart := hpairs.forall hshare hshare' hne
  rw [Extent.contains_iff] at hin hin'
  omega

/-- A character under one of the elements waits unless it is given out. -/
theorem mem_charactersOf_iff (h : FrontToBack shares)
    (hin : ∃ share ∈ shares, share.1.contains index = true) :
    index ∈ charactersOf shares ↔ ¬ Hides shares index := by
  obtain ⟨found, hfound⟩ := Option.isSome_iff_exists.mp (List.find?_isSome.mpr hin)
  have hcontains := List.find?_some hfound
  have hmem := List.mem_of_find?_eq_some hfound
  have hplace : Hides shares index ↔ found.2 ≤ found.1.localIndex index := by
    rw [Hides, hfound]
    simp
  rw [hplace, mem_charactersOf, Extent.localIndex]
  constructor
  · rintro ⟨share, hshare, hstart, hshown⟩
    have hfits := h.fits share hshare
    have hin : share.1.contains index = true := Extent.contains_iff.mpr (by omega)
    obtain rfl := h.eq_of_contains hshare hmem hin hcontains
    omega
  · intro hshown
    rw [Extent.contains_iff] at hcontains
    exact ⟨found, hmem, hcontains.1, by omega⟩

end FrontToBack

/-- No element is given more characters than it has. -/
theorem le_length_of_mem_allot (budget : Nat) (extents : List Extent) :
    ∀ share ∈ extents.zip (allot budget (extents.map Extent.length)),
      share.2 ≤ share.1.length := by
  induction extents generalizing budget with
  | nil => simp
  | cons e rest ih =>
    rw [List.map_cons, allot, List.zip_cons_cons]
    exact List.forall_mem_cons.mpr ⟨Nat.min_le_right _ _, ih _⟩

theorem length_charactersOf (extents : List Extent) :
    (charactersOf (extents.map fun e => (e, e.length))).length =
      totalLength (extents.map Extent.length) := by
  induction extents with
  | nil => rfl
  | cons e rest ih =>
    rw [charactersOf, List.map_cons, List.flatMap_cons, List.length_append, List.length_range',
      ← charactersOf, ih, List.map_cons, totalLength]

theorem map_fst_allot (budget : Nat) (extents : List Extent) :
    (extents.zip (allot budget (extents.map Extent.length))).map Prod.fst = extents :=
  List.map_fst_zip (by simp)

/-- What elements that are apart and in order are given. -/
theorem frontToBack_allot {extents : List Extent} (budget : Nat)
    (happart : extents.Pairwise fun a b => a.stop ≤ b.start)
    (hlt : ∀ e ∈ extents, e.start < e.stop) :
    FrontToBack (extents.zip (allot budget (extents.map Extent.length))) := by
  refine ⟨?_, fun share hshare => ?_⟩
  · rw [← map_fst_allot budget extents] at happart
    exact List.pairwise_map.mp happart
  · have hle := le_length_of_mem_allot budget extents share hshare
    have hstart := hlt share.1 (List.of_mem_zip hshare).1
    rw [Extent.length] at hle
    omega

namespace Renderer

section

variable (r : Renderer) (text : AttributedText) (frame : Frame) (now : Millis)

/-- The characters of a frame that a typewriter acts on, in document order. -/
def covered : List Nat :=
  (List.range text.length).filter fun index =>
    !(typewritersAmong (r.effectsAt text frame index)).isEmpty

/-- The number of characters that the shared track lets show, at the pace of the first outermost
typewriter. -/
def sharedCount (tracks : TrackStore) : Nat :=
  match outerTypewriters (text.spans.map r.config.appearance) with
  | [] => 0
  | (_, first) :: _ =>
    let total := (r.covered text frame).length
    let elapsed := (tracks.askTypewriter now (frame.key text.raw).container
      (frame.question r.config now total)).value.1
    visibleCount elapsed first.speed first.delay total

/-- The characters of the outermost typewriters. -/
def outerExtents : List Extent :=
  (outerTypewriters (text.spans.map r.config.appearance)).map Prod.fst

/-- The shares are what the outermost typewriters are given of the count. -/
theorem shareIn_fst (hcontainer : r.config.allocation = .container) (tracks : TrackStore)
    (hcovered : (r.covered text frame).length =
      totalLength ((r.outerExtents text).map Extent.length)) :
    (r.shareIn text frame now tracks).1 = (r.outerExtents text).zip
      (allot (r.sharedCount text frame now tracks) ((r.outerExtents text).map Extent.length)) := by
  unfold shareIn sharedCount
  simp only [hcontainer, hcovered]
  unfold outerExtents
  cases outerTypewriters (text.spans.map r.config.appearance) with
  | nil => rfl
  | cons first rest =>
    rw [value_shareOut_cons]
    simp only [lengthsOf, List.map_map, Function.comp_def]

end

variable {r : Renderer} {text : AttributedText} {frame : Frame}

theorem outerTypewriters_eq :
    outerTypewriters (text.spans.map r.config.appearance) =
      outermost ((r.typewriters text).mergeSort inDocumentOrder) := by
  unfold outerTypewriters
  rw [List.flatMap_map]
  rfl

theorem laminar_typewriters (r : Renderer) (hgoverned : text.Governed) :
    Laminar (r.typewriters text) :=
  ⟨fun _ he => (mem_typewriters.mp he).start_lt_stop hgoverned, fun _ he _ he' =>
    (mem_typewriters.mp he).laminar (mem_typewriters.mp he') hgoverned⟩

/-- The outermost typewriters are apart and in document order. -/
theorem pairwise_outerExtents (r : Renderer) (hgoverned : text.Governed) :
    (r.outerExtents text).Pairwise fun a b => a.stop ≤ b.start := by
  rw [outerExtents, outerTypewriters_eq, List.pairwise_map]
  exact pairwise_outermost ((r.laminar_typewriters hgoverned).subset
    fun e he => List.mem_mergeSort.mp he) (pairwise_inDocumentOrder _)

theorem mem_of_mem_outerExtents {extent : Extent} (h : extent ∈ r.outerExtents text) :
    ∃ e ∈ r.typewriters text, e.1 = extent := by
  rw [outerExtents, outerTypewriters_eq] at h
  obtain ⟨e, he, hextent⟩ := List.mem_map.mp h
  exact ⟨e, List.mem_mergeSort.mp ((outermost_sublist _).subset he), hextent⟩

theorem exists_outerExtent {e : Extent × Typewriter} (he : e ∈ r.typewriters text) :
    ∃ extent ∈ r.outerExtents text, extent.encloses e.1 = true := by
  obtain ⟨outer, houter, hencloses⟩ := exists_outermost (List.mem_mergeSort.mpr he)
  rw [outerExtents, outerTypewriters_eq]
  exact ⟨outer.1, List.mem_map_of_mem houter, hencloses⟩

theorem bounds_of_mem_outerExtents {extent : Extent} (h : extent ∈ r.outerExtents text)
    (hgoverned : text.Governed) :
    extent.start < extent.stop ∧ extent.stop ≤ text.length := by
  obtain ⟨e, he, rfl⟩ := mem_of_mem_outerExtents h
  exact ⟨(mem_typewriters.mp he).start_lt_stop hgoverned,
    (mem_typewriters.mp he).stop_le hgoverned⟩

/-- A character has a typewriter among its effects when an outermost typewriter is over it. -/
theorem exists_outerExtent_iff (r : Renderer) (hgoverned : text.Governed) (index : Nat) :
    (typewritersAmong (r.config.effectsOf (text.attributesAt index))).isEmpty = false ↔
      ∃ extent ∈ r.outerExtents text, extent.contains index = true := by
  rw [List.isEmpty_eq_false_iff_exists_mem]
  simp only [mem_typewritersAmong, Config.Keeps.mem_effectsOf_attributesAt hgoverned]
  constructor
  · rintro ⟨e, he, hin⟩
    obtain ⟨extent, hextent, hencloses⟩ := exists_outerExtent (mem_typewriters.mpr he)
    refine ⟨extent, hextent, ?_⟩
    rw [Extent.encloses_iff] at hencloses
    rw [Extent.contains_iff] at hin ⊢
    omega
  · rintro ⟨extent, hextent, hin⟩
    obtain ⟨e, he, rfl⟩ := mem_of_mem_outerExtents hextent
    exact ⟨e, mem_typewriters.mp he, hin⟩

theorem mem_covered (hgoverned : text.Governed)
    (hon : r.config.suppresses frame = false) {index : Nat} :
    index ∈ r.covered text frame ↔
      ∃ extent ∈ r.outerExtents text, extent.contains index = true := by
  rw [covered, List.mem_filter, List.mem_range, effectsAt, hon, if_neg Bool.false_ne_true,
    Bool.not_eq_true', r.exists_outerExtent_iff hgoverned index]
  refine ⟨And.right, fun h => ⟨?_, h⟩⟩
  obtain ⟨extent, hextent, hin⟩ := h
  have hbounds := bounds_of_mem_outerExtents hextent hgoverned
  rw [Extent.contains_iff] at hin
  omega

/-- The characters under a typewriter are those of the outermost ones, one after the other. -/
theorem covered_eq (hgoverned : text.Governed)
    (hon : r.config.suppresses frame = false) :
    r.covered text frame = charactersOf ((r.outerExtents text).map fun e => (e, e.length)) := by
  refine (List.pairwise_lt_range.filter _).eq_of_mem_iff
    (pairwise_charactersOf (List.pairwise_map.mpr (r.pairwise_outerExtents hgoverned))
      fun share hshare => ?_) fun index => ?_
  · obtain ⟨extent, hextent, rfl⟩ := List.mem_map.mp hshare
    have hlt := (bounds_of_mem_outerExtents hextent hgoverned).1
    show extent.start + (extent.stop - extent.start) ≤ extent.stop
    omega
  · rw [← covered, mem_covered hgoverned hon, mem_charactersOf]
    simp only [List.mem_map, exists_exists_and_eq_and]
    refine exists_congr fun extent => and_congr_right fun hextent => ?_
    have hlt := (bounds_of_mem_outerExtents hextent hgoverned).1
    rw [Extent.contains_iff, Extent.length]
    omega

/-! ### Glyphs -/

/-- In a frame that shares a count the typewriters of a character say all the same. -/
theorem sight_foldl_of_container (r : Renderer) (text : AttributedText) (now : Millis)
    (hcontainer : r.config.allocation = .container) (hticks : frame.ticks.isFinite = true)
    (shares : List (Extent × Nat)) (effects : List (Extent × Effect)) (state : Glyph × TrackStore) :
    (effects.foldl (fun state entry => entry.2.touch (r.scope text frame now shares entry.1) state)
        state).1.visible = true ↔
      state.1.visible = true ∧
        ((typewritersAmong effects).isEmpty = false → ¬ Hides shares state.1.index) := by
  induction effects generalizing state with
  | nil => simp [typewritersAmong]
  | cons entry rest ih =>
    rw [List.foldl_cons, ih]
    obtain ⟨extent, effect⟩ := entry
    by_cases htypewriter : ∃ t, effect = .typewriter t
    · obtain ⟨t, rfl⟩ := htypewriter
      obtain ⟨hindex, hvisible⟩ := t.revealShare_sight
        (r.scope text frame now shares extent) state.1
      have hsome : (typewritersAmong ((extent, .typewriter t) :: rest)).isEmpty = false := rfl
      rw [t.touch_of_container (s := r.scope text frame now shares extent) hcontainer hticks,
        hindex, hvisible, hsome]
      tauto
    · obtain ⟨hindex, hvisible⟩ := Effect.sameSight_touch (not_exists.mp htypewriter)
        (r.scope text frame now shares extent) state
      rw [hindex, hvisible, typewritersAmong_cons_of_ne (not_exists.mp htypewriter)]

theorem visible_iff_of_governed {text : AttributedText} (hgoverned : text.Governed) (r : Renderer)
    (frame : Frame) (now : Millis) (tracks : TrackStore)
    (hcontainer : r.config.allocation = .container) (hticks : frame.ticks.isFinite = true)
    (index : Nat) (hindex : index < text.length) :
    ∃ g, (r.render text frame now tracks).value.1[index]? = some g ∧
      (g.visible = true ↔ (index ∈ r.covered text frame →
        index ∈ (r.covered text frame).take (r.sharedCount text frame now tracks))) := by
  obtain ⟨c, g, hg, hdrawn⟩ := r.exists_glyph text frame now tracks hindex
  refine ⟨g, hg, ?_⟩
  cases hon : r.config.suppresses frame with
  | true =>
    rw [hon, if_pos rfl] at hdrawn
    have hnone : r.covered text frame = [] := by
      simp [covered, effectsAt, hon, typewritersAmong]
    rw [hdrawn, hnone]
    simp [Frame.blankGlyph]
  | false =>
    rw [hon, if_neg Bool.false_ne_true] at hdrawn
    obtain ⟨rfl, -⟩ := hdrawn
    obtain ⟨blank, hblank, hvisible, hpaint⟩ := r.exists_blank text frame now index c
    have hcovered := covered_eq (r := r) hgoverned hon
    have hlength : (r.covered text frame).length =
        totalLength ((r.outerExtents text).map Extent.length) := by
      rw [hcovered, length_charactersOf]
    rw [hpaint, r.sight_foldl_of_container text now hcontainer hticks,
      r.exists_outerExtent_iff hgoverned, mem_covered hgoverned hon, hblank, hvisible, hcovered,
      ← charactersOf_allot, ← r.shareIn_fst text frame now hcontainer tracks hlength,
      and_iff_right rfl]
    refine forall_congr' fun hin => ?_
    rw [r.shareIn_fst text frame now hcontainer tracks hlength]
    refine ((frontToBack_allot _ (r.pairwise_outerExtents hgoverned)
      fun e he => (bounds_of_mem_outerExtents he hgoverned).1).mem_charactersOf_iff ?_).symm
    obtain ⟨extent, hextent, hcontains⟩ := hin
    rw [← map_fst_allot (r.sharedCount text frame now tracks) (r.outerExtents text)] at hextent
    obtain ⟨share, hshare, rfl⟩ := List.mem_map.mp hextent
    exact ⟨share, hshare, hcontains⟩

/-- When typewriters share a count, the first characters under typewriters show, as many as the
count says, and all characters under none. -/
theorem visible_iff_of_container (registry : Registry) (options : Markup.ParseOptions)
    (source : String) (r : Renderer) (frame : Frame) (now : Millis) (tracks : TrackStore)
    (hcontainer : r.config.allocation = .container) (hticks : frame.ticks.isFinite = true) :
    let text := (Markup.parse registry options source).value
    ∀ index < text.length, ∃ g, (r.render text frame now tracks).value.1[index]? = some g ∧
      (g.visible = true ↔ (index ∈ r.covered text frame →
        index ∈ (r.covered text frame).take (r.sharedCount text frame now tracks))) :=
  fun index => visible_iff_of_governed (Markup.governed_parse registry options source) r frame now
    tracks hcontainer hticks index

/-- A typewriter in another one, and a character under neither. -/
theorem visible_iff_of_container_nested :
    let r : Renderer := ⟨{ allocation := .container }⟩
    let text := (Markup.parse .builtin {}
      "<typewriter>a<typewriter>b</typewriter></typewriter>c").value
    let frame : Frame := { ticks := 1.0 }
    text.length = 3 ∧ frame.ticks.isFinite = true ∧
      ∀ index < text.length, ∃ g, (r.render text frame 0 (.ofConfig r.config)).value.1[index]? =
        some g ∧ (g.visible = true ↔ (index ∈ r.covered text frame →
          index ∈ (r.covered text frame).take
            (r.sharedCount text frame 0 (.ofConfig r.config)))) := by
  refine ⟨by decide +kernel, by decide +kernel, ?_⟩
  exact visible_iff_of_container _ _ _ _ _ _ _ rfl (by decide +kernel)

end Renderer

end KineticText
