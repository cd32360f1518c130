import KineticText.AttributedText

/-! Lists of spans in order.  Putting spans in order leaves those over the same characters as they
stand to each other, so dropping repeats keeps the first of them, and no two spans that are left
have the same characters.  Over a character that some spans govern, the shortest of them tells its
attributes. -/

namespace KineticText

theorem Extent.eq_iff {e e' : Extent} : e = e' ↔ e.start = e'.start ∧ e.stop = e'.stop := by
  cases e
  cases e'
  simp

theorem Extent.contains_iff {e : Extent} {index : Nat} :
    e.contains index = true ↔ e.start ≤ index ∧ index < e.stop := by
  simp [contains]

theorem Extent.encloses_iff {e e' : Extent} :
    e.encloses e' = true ↔ e.start ≤ e'.start ∧ e'.stop ≤ e.stop := by
  simp [encloses]

theorem Extent.encloses_self (e : Extent) : e.encloses e = true :=
  encloses_iff.mpr ⟨Nat.le_refl _, Nat.le_refl _⟩

namespace Span

theorem inOrder_iff {a b : Span} : inOrder a b = true ↔ a.extent.start < b.extent.start ∨
    a.extent.start = b.extent.start ∧ a.extent.stop ≤ b.extent.stop := by
  simp [inOrder]

theorem inOrder_trans (a b c : Span) (hab : inOrder a b = true) (hbc : inOrder b c = true) :
    inOrder a c = true := by
  rw [inOrder_iff] at *
  omega

theorem inOrder_total (a b : Span) : (inOrder a b || inOrder b a) = true := by
  rw [Bool.or_eq_true, inOrder_iff, inOrder_iff]
  omega

theorem inOrder_of_extent_eq {a b : Span} (h : a.extent = b.extent) : inOrder a b = true := by
  rw [inOrder_iff, h]
  omega

theorem pairwise_mergeSort (spans : List Span) :
    (spans.mergeSort inOrder).Pairwise (inOrder · ·) :=
  List.pairwise_mergeSort inOrder_trans inOrder_total spans

/-- Putting spans in order keeps those over the same characters as they are. -/
theorem filter_mergeSort (e : Extent) (spans : List Span) :
    (spans.mergeSort inOrder).filter (·.extent = e) = spans.filter (·.extent = e) := by
  have hsame : (spans.filter (·.extent = e)).Pairwise (inOrder · ·) := by
    refine List.pairwise_of_forall_mem_list fun a ha b hb => inOrder_of_extent_eq ?_
    have ha := (List.mem_filter.mp ha).2
    have hb := (List.mem_filter.mp hb).2
    rw [decide_eq_true_eq] at ha hb
    rw [ha, hb]
  have hsub : (spans.filter (·.extent = e)).Sublist (spans.mergeSort inOrder) :=
    List.sublist_mergeSort inOrder_trans inOrder_total hsame List.filter_sublist
  have hperm := (List.mergeSort_perm spans inOrder).filter (·.extent = e)
  have hfilter := hsub.filter (·.extent = e)
  rw [List.filter_filter] at hfilter
  simp only [Bool.and_self] at hfilter
  exact (hfilter.eq_of_length hperm.length_eq.symm).symm

theorem find?_mergeSort (e : Extent) (spans : List Span) :
    (spans.mergeSort inOrder).find? (·.extent = e) = spans.find? (·.extent = e) := by
  rw [← List.head?_filter, filter_mergeSort, List.head?_filter]

/-! ### Dropping repeats -/

theorem find?_dropRepeats (e : Extent) (spans : List Span) :
    (dropRepeats spans).find? (·.extent = e) = spans.find? (·.extent = e) := by
  fun_induction dropRepeats spans with
  | case1 a b rest h ih =>
    rw [ih]
    simp only [List.find?_cons, h]
    split <;> rfl
  | case2 a b rest h ih =>
    rw [List.find?_cons, List.find?_cons, ih]
  | case3 spans h => rfl

theorem dropRepeats_sublist (spans : List Span) : (dropRepeats spans).Sublist spans := by
  fun_induction dropRepeats spans with
  | case1 a b rest h ih => exact ih.trans ((List.sublist_cons_self b rest).cons_cons a)
  | case2 a b rest h ih => exact ih.cons_cons a
  | case3 spans h => exact List.Sublist.refl spans

/-- The span begins earlier, or at the same place and ends earlier. -/
def Precedes (a b : Span) : Prop := a.extent.start < b.extent.start ∨
  a.extent.start = b.extent.start ∧ a.extent.stop < b.extent.stop

theorem pairwise_dropRepeats {spans : List Span} (h : spans.Pairwise (inOrder · ·)) :
    (dropRepeats spans).Pairwise Precedes := by
  fun_induction dropRepeats spans with
  | case1 a b rest hab ih =>
    rw [List.pairwise_cons, List.pairwise_cons] at h
    obtain ⟨ha, -, hrest⟩ := h
    exact ih (List.pairwise_cons.mpr ⟨fun s hs => ha s (List.mem_cons_of_mem b hs), hrest⟩)
  | case2 a b rest hab ih =>
    rw [List.pairwise_cons] at h
    obtain ⟨ha, hrest⟩ := h
    refine List.pairwise_cons.mpr ⟨fun s hs => ?_, ih hrest⟩
    have hfirst : Precedes a b := by
      have hinOrder := inOrder_iff.mp (ha b List.mem_cons_self)
      rw [Extent.eq_iff] at hab
      unfold Precedes
      omega
    rcases List.mem_cons.mp ((dropRepeats_sublist _).subset hs) with rfl | hlater
    · exact hfirst
    · have hinOrder := inOrder_iff.mp (List.rel_of_pairwise_cons hrest hlater)
      unfold Precedes at *
      omega
  | case3 spans hshort =>
    match spans, hshort with
    | [], _ => exact List.Pairwise.nil
    | [a], _ => exact List.pairwise_singleton Precedes a
    | a :: b :: rest, hshort => exact (hshort a b rest rfl).elim

/-- Of the spans that are put in order, each precedes the next. -/
theorem pairwise_precedes (spans : List Span) :
    (dropRepeats (spans.mergeSort inOrder)).Pairwise Precedes :=
  pairwise_dropRepeats (pairwise_mergeSort spans)

theorem mem_of_mem_dropRepeats {spans : List Span} {s : Span}
    (hs : s ∈ dropRepeats (spans.mergeSort inOrder)) : s ∈ spans :=
  List.mem_mergeSort.mp ((dropRepeats_sublist _).subset hs)

theorem Precedes.inOrder {a b : Span} (h : Precedes a b) : Span.inOrder a b = true := by
  rw [inOrder_iff]
  unfold Precedes at h
  omega

/-- Among spans of which each precedes the next, one is known by its characters. -/
theorem eq_of_extent_eq {spans : List Span} (h : spans.Pairwise Precedes) {a b : Span}
    (ha : a ∈ spans) (hb : b ∈ spans) (hextent : a.extent = b.extent) : a = b := by
  induction spans with
  | nil => exact absurd ha List.not_mem_nil
  | cons s rest ih =>
    obtain ⟨hs, hrest⟩ := List.pairwise_cons.mp h
    have hother : ∀ t ∈ rest, t.extent ≠ s.extent := by
      intro t ht heq
      have hprecedes := hs t ht
      rw [Precedes, heq] at hprecedes
      omega
    rcases List.mem_cons.mp ha with rfl | ha' <;> rcases List.mem_cons.mp hb with rfl | hb'
    · rfl
    · exact absurd hextent.symm (hother b hb')
    · exact absurd hextent (hother a ha')
    · exact ih hrest ha' hb'

/-! ### Inner spans before outer ones -/

/-- The earlier span ends before the later one begins, or lies in it. -/
def Nests (earlier later : Span) : Prop :=
  earlier.extent.stop ≤ later.extent.start ∨ later.extent.encloses earlier.extent = true

/-- What spans of which each nests with the later ones say about a character inside `chain`. -/
def innermost (index : Nat) (chain : List Attribute) (spans : List Span) : List Attribute :=
  ((spans.find? (·.extent.contains index)).map attributes).getD chain

theorem innermost_of_not_contains {index : Nat} {chain : List Attribute} {spans : List Span}
    (h : ∀ s ∈ spans, ¬ s.extent.contains index = true) : innermost index chain spans = chain := by
  rw [innermost, List.find?_eq_none.mpr h]
  rfl

theorem innermost_append (index : Nat) (chain : List Attribute) (first others : List Span) :
    innermost index chain (first ++ others) =
      innermost index (innermost index chain others) first := by
  unfold innermost
  rw [List.find?_append]
  cases first.find? (·.extent.contains index) <;> rfl

end Span

namespace AttributedText

/-- Spans that are in order and lie in the text stay as they are. -/
theorem spans_ofSpans {raw : String} {spans : List Span} (h : spans.Pairwise (Span.inOrder · ·))
    (hin : ∀ s ∈ spans, s.extent.start < s.extent.stop ∧ s.extent.stop ≤ raw.length) :
    (ofSpans raw spans).spans = spans := by
  have hclamp : spans.map (Span.clamp raw.length) = spans := by
    refine (List.map_congr_left fun s hs => ?_).trans (List.map_id spans)
    obtain ⟨hlt, hle⟩ := hin s hs
    have hstop : Nat.min s.extent.stop raw.length = s.extent.stop := Nat.min_eq_left hle
    have hstart : Nat.min s.extent.start s.extent.stop = s.extent.start :=
      Nat.min_eq_left (Nat.le_of_lt hlt)
    rw [Span.clamp, hstop, hstart, id]
  have hfilter : spans.filter (!·.isEmpty) = spans := by
    refine List.filter_eq_self.mpr fun s hs => ?_
    obtain ⟨hlt, -⟩ := hin s hs
    simp only [Span.isEmpty, Bool.not_eq_true', beq_eq_false_iff_ne]
    omega
  rw [ofSpans, hclamp, hfilter]
  exact List.mergeSort_of_pairwise h

/-! ### The governing span -/

/-- The place and the length of a shortest span over a character among those that have been seen, if
there is one. -/
def IsShortest (index : Nat) (spans seen : List Span) : Option (Nat × Nat) → Prop
  | none => ∀ s ∈ seen, s.extent.contains index = false
  | some (place, length) => ∃ s, spans[place]? = some s ∧ s.extent.contains index = true ∧
      s.extent.length = length ∧
      ∀ s' ∈ seen, s'.extent.contains index = true → length ≤ s'.extent.length

/-- The place and the length of the shortest span over a character, the first of several, if there
is one. -/
def IsFirstShortest (index : Nat) (spans : List Span) : Option (Nat × Nat) → Prop
  | none => ∀ s ∈ spans, s.extent.contains index = false
  | some (place, length) => ∃ s, spans[place]? = some s ∧ s.extent.contains index = true ∧
      s.extent.length = length ∧ ∀ place' s', spans[place']? = some s' →
        s'.extent.contains index = true →
        length < s'.extent.length ∨ length = s'.extent.length ∧ place ≤ place'

theorem IsFirstShortest.isShortest {index : Nat} {spans : List Span} {best : Option (Nat × Nat)}
    (h : IsFirstShortest index spans best) : IsShortest index spans spans best := by
  match best, h with
  | none, h => exact h
  | some (place, length), ⟨s, hplace, hcontains, hlength, hfirst⟩ =>
    refine ⟨s, hplace, hcontains, hlength, fun s' hs' hcontains' => ?_⟩
    obtain ⟨place', hplace'⟩ := List.getElem?_of_mem hs'
    rcases hfirst place' s' hplace' hcontains' with hlt | ⟨heq, -⟩
    · exact Nat.le_of_lt hlt
    · exact Nat.le_of_eq heq

/-- One more span takes the place of the shortest so far when it is shorter. -/
theorem IsFirstShortest.snoc {index : Nat} {seen : List Span} {best : Option (Nat × Nat)}
    (h : IsFirstShortest index seen best) (s : Span) :
    IsFirstShortest index (seen ++ [s])
      (if s.extent.contains index && best.all (s.extent.length < ·.2) then
        some (seen.length, s.extent.length) else best) := by
  have hplaces : ∀ {place s'}, (seen ++ [s])[place]? = some s' →
      seen[place]? = some s' ∨ place = seen.length ∧ s' = s := by
    intro place s' hplace
    rw [List.getElem?_append] at hplace
    grind
  split
  · rename_i hbetter
    rw [Bool.and_eq_true] at hbetter
    obtain ⟨hcontains, hshorter⟩ := hbetter
    refine ⟨s, by simp, hcontains, rfl, fun place' s' hplace' hcontains' => ?_⟩
    rcases hplaces hplace' with hseen | ⟨rfl, rfl⟩
    · left
      match best, h, hshorter with
      | none, h, _ =>
        rw [h s' (List.mem_of_getElem? hseen)] at hcontains'
        cases hcontains'
      | some (place, length), ⟨_, _, _, _, hfirst⟩, hshorter =>
        have hlt : s.extent.length < length := by simpa using hshorter
        have := hfirst place' s' hseen hcontains'
        omega
    · exact .inr ⟨rfl, Nat.le_refl _⟩
  · rename_i hworse
    match best, h, hworse with
    | none, h, hworse =>
      have hcontains : s.extent.contains index = false := by simpa using hworse
      exact List.forall_mem_append.mpr ⟨h, List.forall_mem_singleton.mpr hcontains⟩
    | some (place, length), ⟨t, hplace, hcontains, hlength, hfirst⟩, hworse =>
      have hlt := (List.getElem?_eq_some_iff.mp hplace).1
      refine ⟨t, (List.getElem?_append_left hlt).trans hplace, hcontains, hlength,
        fun place' s' hplace' hcontains' => ?_⟩
      rcases hplaces hplace' with hseen | ⟨rfl, rfl⟩
      · exact hfirst place' s' hseen hcontains'
      · have hle : length ≤ s'.extent.length := by simpa [hcontains'] using hworse
        omega

theorem shortestFrom_isFirstShortest (index : Nat) (rest seen : List Span)
    (best : Option (Nat × Nat)) (h : IsFirstShortest index seen best) :
    ∃ best', shortestFrom index seen.length best rest = best'.map Prod.fst ∧
      IsFirstShortest index (seen ++ rest) best' := by
  induction rest generalizing seen best with
  | nil => exact ⟨best, rfl, by rwa [List.append_nil]⟩
  | cons s rest ih =>
    have hassoc : seen ++ s :: rest = (seen ++ [s]) ++ rest := by simp
    have hlength : (seen ++ [s]).length = seen.length + 1 := by simp
    have hnext := ih (seen ++ [s]) _ (h.snoc s)
    rw [hlength] at hnext
    rw [hassoc, shortestFrom]
    split
    · rename_i hbetter
      rwa [if_pos hbetter] at hnext
    · rename_i hworse
      rwa [if_neg hworse] at hnext

theorem spanIndexAt?_isFirstShortest (t : AttributedText) (index : Nat) :
    ∃ best, t.spanIndexAt? index = best.map Prod.fst ∧ IsFirstShortest index t.spans best :=
  shortestFrom_isFirstShortest index t.spans [] none fun _ hs => absurd hs List.not_mem_nil

/-- The governing span of a character is a shortest one over it. -/
theorem spanIndexAt?_isShortest (t : AttributedText) (index : Nat) :
    ∃ best, t.spanIndexAt? index = best.map Prod.fst ∧ IsShortest index t.spans t.spans best := by
  obtain ⟨best, hindex, hfirst⟩ := t.spanIndexAt?_isFirstShortest index
  exact ⟨best, hindex, hfirst.isShortest⟩

/-- The governing span of a character is over it, and its attributes are those of the character. -/
theorem exists_span_of_spanIndexAt? {t : AttributedText} {index place : Nat}
    (h : t.spanIndexAt? index = some place) :
    ∃ s, t.spans[place]? = some s ∧ s.extent.contains index = true ∧
      t.attributesAt index = s.attributes := by
  obtain ⟨best, hindex, hbest⟩ := t.spanIndexAt?_isShortest index
  match best, hbest with
  | none, _ =>
    rw [hindex] at h
    cases h
  | some (_, length), ⟨s, hplace, hcontains, _, _⟩ =>
    rw [hindex] at h
    cases h
    refine ⟨s, hplace, hcontains, ?_⟩
    rw [attributesAt, hindex, attributesOf, Option.map_some, Option.bind_some, hplace]
    rfl

theorem attributesAt_eq_nil_or (t : AttributedText) (index : Nat) :
    t.attributesAt index = [] ∨ ∃ s ∈ t.spans, t.attributesAt index = s.attributes := by
  unfold attributesAt attributesOf
  cases hspan : (t.spanIndexAt? index).bind (t.spans[·]?) with
  | none => exact .inl rfl
  | some s =>
    obtain ⟨place, -, hplace⟩ := Option.bind_eq_some_iff.mp hspan
    exact .inr ⟨s, List.mem_of_getElem? hplace, rfl⟩

theorem attributesAt_eq_nil {t : AttributedText} {index : Nat}
    (h : ∀ s ∈ t.spans, s.extent.contains index = false) : t.attributesAt index = [] := by
  obtain ⟨best, hindex, hbest⟩ := t.spanIndexAt?_isShortest index
  match best, hbest with
  | none, _ =>
    rw [attributesAt, hindex]
    rfl
  | some (place, length), ⟨s, hplace, hcontains, _, _⟩ =>
    rw [h s (List.mem_of_getElem? hplace)] at hcontains
    cases hcontains

/-- A span that is shorter than all other spans over a character tells the attributes there. -/
theorem attributesAt_eq {t : AttributedText} {index : Nat} {s : Span} (hs : s ∈ t.spans)
    (hcontains : s.extent.contains index = true)
    (hshortest : ∀ s' ∈ t.spans, s'.extent.contains index = true →
      s'.extent.length ≤ s.extent.length → s' = s) : t.attributesAt index = s.attributes := by
  obtain ⟨best, hindex, hbest⟩ := t.spanIndexAt?_isShortest index
  match best, hbest with
  | none, hnone =>
    rw [hnone s hs] at hcontains
    cases hcontains
  | some (place, length), ⟨s', hplace, hcontains', hlength, hmin⟩ =>
    have hle : s'.extent.length ≤ s.extent.length := by
      rw [hlength]
      exact hmin s hs hcontains
    have heq := hshortest s' (List.mem_of_getElem? hplace) hcontains' hle
    rw [attributesAt, hindex, attributesOf, Option.map_some, Option.bind_some, hplace, heq]
    rfl

/-- Putting nested spans in order does not change which of them governs a character: the first over
it, the innermost, becomes the shortest. -/
theorem attributesAt_eq_innermost {t : AttributedText} {spans : List Span}
    (hspans : t.spans = Span.dropRepeats (spans.mergeSort Span.inOrder))
    (hnests : spans.Pairwise Span.Nests) (index : Nat) :
    t.attributesAt index = Span.innermost index [] spans := by
  have hmem : ∀ s ∈ t.spans, s ∈ spans := by
    intro s hs
    rw [hspans] at hs
    exact Span.mem_of_mem_dropRepeats hs
  have hprecedes : t.spans.Pairwise Span.Precedes := by
    rw [hspans]
    exact Span.pairwise_precedes spans
  unfold Span.innermost
  cases hfind : spans.find? (·.extent.contains index) with
  | none =>
    exact attributesAt_eq_nil fun s hs =>
      Bool.eq_false_iff.mpr (List.find?_eq_none.mp hfind s (hmem s hs))
  | some s =>
    obtain ⟨hcontains, before, after, rfl, hbefore⟩ := List.find?_eq_some_iff_append.mp hfind
    have hfirst : t.spans.find? (·.extent = s.extent) = some s := by
      rw [hspans, Span.find?_dropRepeats, Span.find?_mergeSort, List.find?_eq_some_iff_append]
      refine ⟨by simp, before, after, rfl, fun a ha => ?_⟩
      have hout := hbefore a ha
      simp only [Bool.not_eq_true', decide_eq_false_iff_not] at hout ⊢
      intro hextent
      rw [hextent, hcontains] at hout
      cases hout
    refine attributesAt_eq (List.mem_of_find?_eq_some hfirst) hcontains
      fun s' hs' hcontains' hlength => ?_
    have hextent : s'.extent = s.extent := by
      rcases List.mem_append.mp (hmem s' hs') with hearlier | hlater
      · have hout := hbefore s' hearlier
        rw [hcontains'] at hout
        cases hout
      rcases List.mem_cons.mp hlater with rfl | hafter
      · rfl
      have hnest := List.rel_of_pairwise_cons (List.pairwise_append.mp hnests).2.1 hafter
      rw [Extent.contains_iff] at hcontains hcontains'
      rw [Span.Nests, Extent.encloses_iff] at hnest
      rw [Extent.eq_iff]
      unfold Extent.length at hlength
      omega
    exact Span.eq_of_extent_eq hprecedes hs' (List.mem_of_find?_eq_some hfirst) hextent

end AttributedText

end KineticText
