import KineticText.Proofs.Render.Occurrences

/-! Limits and elements.  The limits on attributes and effects cut every chain from its inner end,
each at a place of its own, so spans of one element might be cut before and after an attribute of
the element.  They are not: at all characters under an element the element's attributes come after
the same attributes.  Main statement: what the limits leave of an element is the same at all of its
characters, whatever elements are in it. -/

namespace KineticText

/-- The property holds of all characters in a range or of none of them. -/
def Extent.AllOrNone (e : Extent) (P : Nat → Prop) : Prop :=
  (∀ index, e.contains index = true → P index) ∨ ∀ index, e.contains index = true → ¬ P index

/-- What passes from each character in a range to every other holds of all or of none. -/
theorem Extent.allOrNone_of_imp {e : Extent} {P : Nat → Prop}
    (h : ∀ index index', e.contains index = true → e.contains index' = true → P index → P index') :
    e.AllOrNone P := by
  by_cases hsome : ∃ index, e.contains index = true ∧ P index
  · obtain ⟨index, hindex, hP⟩ := hsome
    exact .inl fun index' hindex' => h index index' hindex hindex' hP
  · exact .inr fun index hindex hP => hsome ⟨index, hindex, hP⟩

/-- Of lists that begin alike, what is common to both is among the first `n` of both. -/
theorem mem_take_of_begin_alike {α : Type} {common xs ys : List α} {a : α} {n : Nat}
    (hxs : common <+: xs) (hys : common <+: ys) (hnodup : xs.Nodup) (hmem : a ∈ common)
    (htake : a ∈ xs.take n) : a ∈ ys.take n := by
  obtain ⟨rest, rfl⟩ := hxs
  rw [List.take_append] at htake
  rcases List.mem_append.mp htake with hfirst | hlater
  · exact (hys.take n).subset hfirst
  · exact absurd (List.mem_of_mem_take hlater) (List.disjoint_of_nodup_append hnodup hmem)

namespace Renderer

open Markup

section

variable (r : Renderer) (registry : Registry) (nodes : List Node)

/-- The attributes within the limit on depth at a character, each with where it occurs. -/
def reachedAt (index : Nat) : List (Occurrence × Attribute) :=
  (labelsAt registry nodes index).take r.config.maxSpanDepth.toNat

/-- What the limits of a configuration leave of an element of a tree is the same at all characters
under the element. -/
structure LeavesWhole (text : AttributedText) : Prop where
  /-- At all characters under an element its attributes come after the same attributes. -/
  own : ∀ index, ∀ e ∈ Node.listElementsAt index 0 nodes, ∃ before, ∀ index',
    e.extent.contains index' = true →
      before ++ e.labels registry (before.map Prod.snd) <+: labelsAt registry nodes index'
  /-- The static style of a character is that of the attributes within the limit on depth. -/
  style : ∀ index, ((r.look? text index).map (·.style)).getD {} =
    .ofAttributes ((r.reachedAt registry nodes index).map Prod.snd)
  /-- The effects that act on a character are those within both limits. -/
  effects : ∀ index, ((r.look? text index).map (·.effects)).getD [] =
    (r.keptAt registry nodes index).map Prod.snd
  /-- An attribute is within the limit on depth for its whole element, or nowhere. -/
  depth : ∀ o : Occurrence, o.element.extent.AllOrNone fun index =>
    o ∈ (r.reachedAt registry nodes index).map Prod.fst
  /-- An effect is within the limit on effects for its whole element, or nowhere. -/
  effect : ∀ o : Occurrence, o.element.extent.AllOrNone fun index =>
    o ∈ (r.keptAt registry nodes index).map Prod.fst

end

variable {r : Renderer} {registry : Registry} {nodes : List Node}

theorem reachedAt_of_contains {index index' : Nat} {o : Occurrence}
    (h : o ∈ (r.reachedAt registry nodes index).map Prod.fst)
    (hindex' : o.element.extent.contains index' = true) :
    o ∈ (r.reachedAt registry nodes index').map Prod.fst := by
  obtain ⟨label, hlabel, rfl⟩ := List.mem_map.mp h
  have hmem : label ∈ labelsAt registry nodes index := List.mem_of_mem_take hlabel
  rw [← (extent_of_mem_labelsAt hmem).1] at hindex'
  obtain ⟨common, hcommon, hbegins, hbegins'⟩ := exists_common_labels hmem hindex'
  exact List.mem_map_of_mem (mem_take_of_begin_alike hbegins hbegins'
    (.of_map _ (nodup_labelsAt nodes index)) hcommon hlabel)

theorem keptAt_of_contains {index index' : Nat} {o : Occurrence}
    (h : o ∈ (r.keptAt registry nodes index).map Prod.fst)
    (hindex' : o.element.extent.contains index' = true) :
    o ∈ (r.keptAt registry nodes index').map Prod.fst := by
  obtain ⟨kept, hkept, rfl⟩ := List.mem_map.mp h
  rw [← (contains_of_mem_keptAt hkept).1] at hindex'
  obtain ⟨place, hplace⟩ := List.mem_iff_getElem?.mp hkept
  exact List.mem_map_of_mem (List.mem_of_getElem? (getElem?_keptAt_of_contains hplace hindex'))

/-- The static style with which a character is drawn is that of the attributes that govern it. -/
theorem style_look? (r : Renderer) (text : AttributedText) (index : Nat) :
    ((r.look? text index).map (·.style)).getD {} =
      .ofAttributes ((text.attributesAt index).take r.config.maxSpanDepth.toNat) := by
  unfold look? AttributedText.attributesAt AttributedText.attributesOf
  cases (text.spanIndexAt? index).bind (text.spans[·]?) with
  | none =>
    have hnone : (none : Option Span).map Span.attributes = none := rfl
    rw [hnone, Option.getD_none, List.take_nil]
    rfl
  | some s => rfl

/-- The limits of a configuration split no element: in every parsed text an attribute is within the
limit on depth at all characters under its element or at none, and so is an effect within the limit
on effects. -/
theorem leavesWhole_parse (r : Renderer) (registry : Registry) (options : ParseOptions)
    (source : String) :
    r.LeavesWhole registry (treeOf options source) (parse registry options source).value := by
  refine ⟨fun _ _ => exists_labels_before, fun index => ?_, fun index => ?_, fun o => ?_,
    fun o => ?_⟩
  · rw [style_look?, value_parse_treeOf, ← map_snd_labelsAt, ← List.map_take]
    rfl
  · rw [effects_look?]
    exact effectsOf_attributesAt (value_parse_treeOf registry options source) index
  · exact Extent.allOrNone_of_imp fun _ _ _ hindex' h => reachedAt_of_contains h hindex'
  · exact Extent.allOrNone_of_imp fun _ _ _ hindex' h => keptAt_of_contains h hindex'

end Renderer

end KineticText
