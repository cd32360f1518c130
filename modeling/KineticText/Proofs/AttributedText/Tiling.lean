import Mathlib.Data.List.Chain
import KineticText.Proofs.AttributedText.Runs
import KineticText.Proofs.Markup.Nesting

/-! Runs tile their text.  No span begins or ends between two neighbouring boundaries, so one span
governs all characters there, and uniting neighbours with one owner keeps that.  What is left are
ranges of which each has another owner than the next.  The spans may lie over each other in any way.
Main statement: the runs of a text are next to each other, and each has the attributes of the span
that governs its characters; when the text comes from a tree, no run could be longer. -/

namespace KineticText

/-- Extents next to each other, none of them empty, from `start` to `stop`. -/
def Tiles (start stop : Nat) : List Extent → Prop
  | [] => start = stop
  | e :: rest => e.start = start ∧ e.start < e.stop ∧ Tiles e.stop stop rest

theorem Tiles.nonempty {start stop : Nat} {extents : List Extent} (h : Tiles start stop extents) :
    ∀ e ∈ extents, e.start < e.stop := by
  induction extents generalizing start with
  | nil => simp
  | cons e rest ih => exact List.forall_mem_cons.mpr ⟨h.2.1, ih h.2.2⟩

namespace AttributedText

/-! ### The span that governs a character -/

/-- The span at a place governs a character and has the attributes `chain`.  It is over the
character, and every span that also is is longer, or as long and not before it.  Where there is no
such span there are no attributes. -/
def Governs (spans : List Span) (index : Nat) (chain : List Attribute) : Option Nat → Prop
  | none => (∀ s ∈ spans, s.extent.contains index = false) ∧ chain = []
  | some place => ∃ s, spans[place]? = some s ∧ s.extent.contains index = true ∧
      chain = s.attributes ∧ ∀ place' s', spans[place']? = some s' →
        s'.extent.contains index = true →
        s.extent.length < s'.extent.length ∨ s.extent.length = s'.extent.length ∧ place ≤ place'

theorem governs_spanIndexAt? (t : AttributedText) (index : Nat) :
    Governs t.spans index (t.attributesAt index) (t.spanIndexAt? index) := by
  obtain ⟨best, hindex, hbest⟩ := t.spanIndexAt?_isFirstShortest index
  match best, hbest with
  | none, hnone =>
    rw [hindex]
    exact ⟨hnone, attributesAt_eq_nil hnone⟩
  | some (place, length), ⟨s, hplace, hcontains, hlength, hfirst⟩ =>
    subst hlength
    obtain ⟨s', hplace', -, hattributes⟩ := exists_span_of_spanIndexAt? hindex
    obtain rfl : s' = s := Option.some.inj (hplace'.symm.trans hplace)
    rw [hindex]
    exact ⟨s', hplace, hcontains, hattributes, hfirst⟩

/-- Characters under the same spans have the same span to govern them. -/
theorem shortestFrom_congr {index index' : Nat} {spans : List Span}
    (h : ∀ s ∈ spans, s.extent.contains index = s.extent.contains index') (place : Nat)
    (best : Option (Nat × Nat)) :
    shortestFrom index place best spans = shortestFrom index' place best spans := by
  induction spans generalizing place best with
  | nil => rfl
  | cons s rest ih =>
    obtain ⟨hs, hrest⟩ := List.forall_mem_cons.mp h
    rw [shortestFrom, shortestFrom, hs, ih hrest, ih hrest]

theorem shortestFrom_of_not_contains {index : Nat} {spans : List Span}
    (h : ∀ s ∈ spans, s.extent.contains index = false) (place : Nat) (best : Option (Nat × Nat)) :
    shortestFrom index place best spans = best.map Prod.fst := by
  induction spans generalizing place with
  | nil => rfl
  | cons s rest ih =>
    obtain ⟨hs, hrest⟩ := List.forall_mem_cons.mp h
    rw [shortestFrom, hs, Bool.false_and, if_neg Bool.false_ne_true, ih hrest]

/-- Among spans in order, only those that begin no later than a character can govern it. -/
theorem shortestFrom_takeWhile {spans : List Span} (h : spans.Pairwise (Span.inOrder · ·))
    (index place : Nat) (best : Option (Nat × Nat)) :
    shortestFrom index place best (spans.takeWhile (·.extent.start ≤ index)) =
      shortestFrom index place best spans := by
  induction spans generalizing place best with
  | nil => rfl
  | cons s rest ih =>
    obtain ⟨hs, hrest⟩ := List.pairwise_cons.mp h
    by_cases hstart : s.extent.start ≤ index
    · rw [List.takeWhile_cons_of_pos (by simpa using hstart), shortestFrom, shortestFrom,
        ih hrest, ih hrest]
    · have hlater : ∀ s' ∈ s :: rest, s'.extent.contains index = false := by
        intro s' hs'
        refine Bool.eq_false_iff.mpr fun hcontains => ?_
        have hle := (Extent.contains_iff.mp hcontains).1
        rcases List.mem_cons.mp hs' with rfl | hs'
        · exact hstart hle
        · have hinOrder := Span.inOrder_iff.mp (hs s' hs')
          omega
      rw [List.takeWhile_cons_of_neg (by simpa using hstart), shortestFrom_of_not_contains hlater]
      rfl

/-! ### Ranges with one owner -/

/-- The range is not empty, and its owner governs all its characters. -/
def Owned (t : AttributedText) (range : Extent × Option Nat) : Prop :=
  range.1.start < range.1.stop ∧
    ∀ index, range.1.contains index = true → t.spanIndexAt? index = range.2

/-- Between neighbours in a list in order there is nothing of the list. -/
theorem between_of_mem_zip {first start stop : Nat} {places : List Nat}
    (hsorted : (first :: places).Pairwise (· < ·))
    (h : (start, stop) ∈ (first :: places).zip places) :
    start < stop ∧ ∀ place ∈ first :: places, place ≤ start ∨ stop ≤ place := by
  induction places generalizing first with
  | nil => exact absurd h (by simp)
  | cons next places ih =>
    obtain ⟨hfirst, hrest⟩ := List.pairwise_cons.mp hsorted
    have hnext := hfirst next List.mem_cons_self
    rcases List.mem_cons.mp h with heq | hlater
    · cases heq
      refine ⟨hnext, List.forall_mem_cons.mpr ⟨.inl (Nat.le_refl _), fun place hplace => ?_⟩⟩
      rcases List.mem_cons.mp hplace with rfl | hplace
      · exact .inr (Nat.le_refl _)
      · exact .inr (Nat.le_of_lt ((List.pairwise_cons.mp hrest).1 place hplace))
    · obtain ⟨hlt, hbetween⟩ := ih hrest hlater
      have hstart := hfirst start (List.of_mem_zip hlater).1
      exact ⟨hlt, List.forall_mem_cons.mpr ⟨.inl (Nat.le_of_lt hstart), hbetween⟩⟩

/-- No span begins or ends between neighbouring boundaries, so one governs all that is there. -/
theorem owned_boundaries (t : AttributedText) :
    ∀ range ∈ (t.boundaries.zip t.boundaries.tail).map fun (start, stop) =>
      (⟨start, stop⟩, t.owner t.owners start), t.Owned range := by
  obtain ⟨rest, hbounds, hsorted, hmem⟩ := t.boundaries_eq
  rw [hbounds]
  intro range hrange
  obtain ⟨⟨start, stop⟩, hzip, rfl⟩ := List.mem_map.mp hrange
  obtain ⟨hlt, hbetween⟩ := between_of_mem_zip hsorted hzip
  refine ⟨hlt, fun index hindex => ?_⟩
  show t.spanIndexAt? index = t.owner t.owners start
  rw [owner_owners]
  refine shortestFrom_congr (fun s hs => Bool.eq_iff_iff.mpr ?_) 0 none
  have hstart := hbetween _ ((hmem _).mpr (.inr (.inr ⟨s, hs, .inl rfl⟩)))
  have hstop := hbetween _ ((hmem _).mpr (.inr (.inr ⟨s, hs, .inr rfl⟩)))
  simp only [Extent.contains_iff] at *
  omega

/-- Uniting ranges next to each other keeps their owners. -/
theorem owned_joinOwned {t : AttributedText} {start stop : Nat}
    {ranges : List (Extent × Option Nat)} (hcovers : Covers start stop ranges)
    (howned : ∀ range ∈ ranges, t.Owned range) : ∀ range ∈ joinOwned [] ranges, t.Owned range := by
  refine (joinOwned_induction (P := fun ranges => Covers start stop ranges ∧
    ∀ range ∈ ranges, t.Owned range) ?_ [] ranges ⟨hcovers, howned⟩).2
  rintro front before extent owner rest ⟨hcovers, howned⟩
  -- The ranges cover, so the second of the two begins where the first ends.
  obtain ⟨mid, hfront, hstart, hle, hnext, hle', hrest⟩ := covers_append.mp hcovers
  simp only [List.forall_mem_append, List.forall_mem_cons, Owned] at howned
  obtain ⟨hownedFront, ⟨hlt, hbefore⟩, ⟨hlt', hextent⟩, hownedRest⟩ := howned
  refine ⟨covers_append.mpr ⟨mid, hfront, hstart, Nat.le_trans hle hle', hrest⟩,
    List.forall_mem_append.mpr ⟨hownedFront, List.forall_mem_cons.mpr ⟨⟨?_, ?_⟩, hownedRest⟩⟩⟩
  · show before.start < extent.stop
    omega
  · intro index hindex
    replace hindex : (⟨before.start, extent.stop⟩ : Extent).contains index = true := hindex
    obtain ⟨hfirst, hlast⟩ := Extent.contains_iff.mp hindex
    by_cases hside : index < before.stop
    · exact hbefore index (Extent.contains_iff.mpr ⟨hfirst, hside⟩)
    · exact hextent index (Extent.contains_iff.mpr ⟨by omega, hlast⟩)

/-- Neighbours with one owner are united. -/
theorem isChain_joinOwned (done ranges : List (Extent × Option Nat))
    (h : (done.map Prod.snd).IsChain (· ≠ ·)) :
    ((joinOwned done ranges).map Prod.snd).IsChain (· ≠ ·) := by
  -- The last owner of what is done is the one that the next range is compared with.
  fun_induction AttributedText.joinOwned done ranges with
  | case1 done =>
    rw [List.map_reverse, List.isChain_reverse]
    exact h.imp fun _ _ hne => hne.symm
  | case2 extent rest before owner done ih => exact ih h
  | case3 extent owner rest before owner' done hne ih =>
    exact ih (List.isChain_cons_cons.mpr ⟨hne, h⟩)
  | case4 extent owner rest ih => exact ih (List.isChain_singleton owner)

/-- The owned ranges cover the text, each with its owner, and neighbours have different ones. -/
theorem owned_ownedRanges {t : AttributedText} (h : t.InBounds) :
    Covers 0 t.length t.ownedRanges ∧ (∀ range ∈ t.ownedRanges, t.Owned range) ∧
      (t.ownedRanges.map Prod.snd).IsChain (· ≠ ·) := by
  by_cases hempty : t.isEmpty = true
  · have hranges : t.ownedRanges = [] := if_pos hempty
    have hlength : t.length = 0 := beq_iff_eq.mp hempty
    rw [hranges, hlength]
    exact ⟨rfl, by simp, List.isChain_nil⟩
  · refine ⟨covers_ownedRanges h (Bool.eq_false_iff.mpr hempty), ?_⟩
    unfold ownedRanges
    rw [if_neg hempty]
    exact ⟨owned_joinOwned (covers_boundaries h _) t.owned_boundaries,
      isChain_joinOwned [] _ List.isChain_nil⟩

/-! ### The runs -/

/-- The run over a range. -/
def runOf (t : AttributedText) (range : Extent × Option Nat) : Run :=
  ⟨range.1, String.ofList ((t.raw.toList.drop range.1.start).take range.1.length),
    t.attributesOf range.2⟩

theorem cut_eq (t : AttributedText) {start stop : Nat} {ranges : List (Extent × Option Nat)}
    (h : Covers start stop ranges) :
    cut (t.spans.map Span.attributes).toArray (t.raw.toList.drop start) ranges =
      ranges.map t.runOf := by
  induction ranges generalizing start with
  | nil => rfl
  | cons range ranges ih =>
    obtain ⟨extent, owner⟩ := range
    obtain ⟨rfl, hle, hrest⟩ := h
    have hdrop : extent.start + extent.length = extent.stop := by
      unfold Extent.length
      omega
    have hchain : (owner.bind ((t.spans.map Span.attributes).toArray[·]?)).getD [] =
        t.attributesOf owner := by
      cases owner <;> simp [attributesOf]
    rw [cut, List.drop_drop, hdrop, ih hrest, hchain]
    rfl

theorem runs_eq {t : AttributedText} (h : t.InBounds) : t.runs = t.ownedRanges.map t.runOf :=
  t.cut_eq (owned_ownedRanges h).1

theorem Covers.tiles {t : AttributedText} {start stop : Nat} {ranges : List (Extent × Option Nat)}
    (h : Covers start stop ranges) (howned : ∀ range ∈ ranges, t.Owned range) :
    Tiles start stop (ranges.map Prod.fst) := by
  induction ranges generalizing start with
  | nil => exact h
  | cons range ranges ih =>
    obtain ⟨hrange, howned⟩ := List.forall_mem_cons.mp howned
    exact ⟨h.1, hrange.1, ih h.2.2 howned⟩

/-- The runs of the text lie next to each other from its start to its end.  Each has its part of the
characters and the attributes of all of them, which one span governs, and that of the next run is
another one. -/
structure Tiled (t : AttributedText) : Prop where
  sorted : t.spans.Pairwise (Span.inOrder · ·)
  governing : ∀ index, Governs t.spans index (t.attributesAt index) (t.spanIndexAt? index)
  early : ∀ index, t.spanIndexAt? index =
    shortestFrom index 0 none (t.spans.takeWhile (·.extent.start ≤ index))
  tiles : Tiles 0 t.length (t.runs.map Run.extent)
  joined : String.join (t.runs.map Run.text) = t.raw
  texts : ∀ r ∈ t.runs,
    r.text = String.ofList ((t.raw.toList.drop r.extent.start).take r.extent.length)
  governed : ∀ r ∈ t.runs, ∀ index, r.extent.contains index = true →
    t.attributesAt index = r.attributes ∧ t.spanIndexAt? index = t.spanIndexAt? r.extent.start
  differ : (t.runs.map fun r => t.spanIndexAt? r.extent.start).IsChain (· ≠ ·)

theorem Owned.spanIndexAt?_start {t : AttributedText} {range : Extent × Option Nat}
    (h : t.Owned range) : t.spanIndexAt? range.1.start = range.2 :=
  h.2 _ (Extent.contains_iff.mpr ⟨Nat.le_refl _, h.1⟩)

theorem tiled_of_inBounds {t : AttributedText} (h : t.InBounds)
    (hsorted : t.spans.Pairwise (Span.inOrder · ·)) : t.Tiled := by
  obtain ⟨hcovers, howned, hchain⟩ := owned_ownedRanges h
  refine ⟨hsorted, t.governs_spanIndexAt?,
    fun index => (shortestFrom_takeWhile hsorted index 0 none).symm, ?_, join_runs h, ?_, ?_, ?_⟩
  · rw [runs_eq h, List.map_map]
    exact hcovers.tiles howned
  · rw [runs_eq h]
    exact List.forall_mem_map.mpr fun range _ => rfl
  · rw [runs_eq h]
    refine List.forall_mem_map.mpr fun range hrange index hindex => ?_
    have hindex := (howned range hrange).2 index hindex
    refine ⟨?_, hindex.trans (howned range hrange).spanIndexAt?_start.symm⟩
    rw [attributesAt, hindex]
    rfl
  · have howners : (t.ownedRanges.map t.runOf).map (fun r => t.spanIndexAt? r.extent.start) =
        t.ownedRanges.map Prod.snd := by
      rw [List.map_map]
      exact List.map_congr_left fun range hrange => (howned range hrange).spanIndexAt?_start
    rw [runs_eq h, howners]
    exact hchain

theorem tiled_ofSpans (raw : String) (spans : List Span) : (ofSpans raw spans).Tiled :=
  tiled_of_inBounds (inBounds_ofSpans raw spans) (Span.pairwise_mergeSort _)

/-! ### Texts of trees -/

/-- Spans of which each precedes the next are at one place each. -/
theorem place_eq_of_extent_eq {spans : List Span} (h : spans.Pairwise Span.Precedes)
    {place place' : Nat} {s s' : Span} (hplace : spans[place]? = some s)
    (hplace' : spans[place']? = some s') (hextent : s.extent = s'.extent) : place = place' := by
  obtain rfl := Span.eq_of_extent_eq h (List.mem_of_getElem? hplace)
    (List.mem_of_getElem? hplace') hextent
  have hnodup : spans.Nodup := by
    refine h.imp fun {a b} hprecedes heq => ?_
    rw [heq, Span.Precedes] at hprecedes
    omega
  have hlt := (List.getElem?_eq_some_iff.mp hplace).1
  exact (List.getElem?_inj hlt hnodup).mp (hplace.trans hplace'.symm)

/-- In a well nested text the attributes of a character tell which span governs it: the last of them
is over the characters of that span. -/
theorem WellNested.spanIndexAt?_eq {t : AttributedText} (h : t.WellNested) {index index' : Nat}
    (heq : t.attributesAt index = t.attributesAt index') :
    t.spanIndexAt? index = t.spanIndexAt? index' := by
  have hgoverns := t.governs_spanIndexAt? index
  have hgoverns' := t.governs_spanIndexAt? index'
  rw [heq] at hgoverns
  generalize t.attributesAt index' = chain at hgoverns hgoverns'
  match t.spanIndexAt? index, t.spanIndexAt? index', hgoverns, hgoverns' with
  | none, none, _, _ => rfl
  | none, some _, ⟨_, hnil⟩, ⟨s, hplace, _, hchain, _⟩ =>
    exact absurd (hchain.symm.trans hnil) (h.chained s (List.mem_of_getElem? hplace)).nonempty
  | some _, none, ⟨s, hplace, _, hchain, _⟩, ⟨_, hnil⟩ =>
    exact absurd (hchain.symm.trans hnil) (h.chained s (List.mem_of_getElem? hplace)).nonempty
  | some place, some place', ⟨s, hplace, _, hchain, _⟩, ⟨s', hplace', _, hchain', _⟩ =>
    have hs := h.chained s (List.mem_of_getElem? hplace)
    have hs' := h.chained s' (List.mem_of_getElem? hplace')
    have hlast := List.getLast?_eq_some_getLast hs.nonempty
    have hextent : s.extent = s'.extent := by
      rw [← hs.last _ hlast]
      refine hs'.last _ ?_
      rwa [← hchain', hchain]
    rw [place_eq_of_extent_eq h.inOrder hplace hplace' hextent]

/-- Neighbouring runs of a well nested text have different attributes. -/
theorem WellNested.isChain_attributes {t : AttributedText} (h : t.WellNested) (htiled : t.Tiled) :
    (t.runs.map Run.attributes).IsChain (· ≠ ·) := by
  have hattributes : t.runs.map Run.attributes =
      t.runs.map fun r => t.attributesAt r.extent.start := by
    refine List.map_congr_left fun r hr => ?_
    have hnonempty := htiled.tiles.nonempty _ (List.mem_map_of_mem hr)
    have hstart := Extent.contains_iff.mpr ⟨Nat.le_refl _, hnonempty⟩
    exact (htiled.governed r hr _ hstart).1.symm
  rw [hattributes, List.isChain_map]
  refine ((List.isChain_map _).mp htiled.differ).imp fun r r' hdiffer heq => ?_
  exact hdiffer (h.spanIndexAt?_eq heq)

end AttributedText

namespace Markup

/-- The runs of a text tile it, whatever its spans are.  When the text comes from a tree,
neighbouring runs have different attributes, so that no run could be longer. -/
theorem runs_tile :
    (∀ raw spans, (AttributedText.ofSpans raw spans).Tiled) ∧
    ∀ registry logUnknown nodes, (flatten registry logUnknown nodes).value.Tiled ∧
      ((flatten registry logUnknown nodes).value.runs.map Run.attributes).IsChain (· ≠ ·) := by
  refine ⟨AttributedText.tiled_ofSpans, fun registry logUnknown nodes => ?_⟩
  have htiled : (flatten registry logUnknown nodes).value.Tiled :=
    AttributedText.tiled_ofSpans _ _
  exact ⟨htiled, (wellNested_flatten nodes).isChain_attributes htiled⟩

end Markup

end KineticText
