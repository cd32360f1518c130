import KineticText.Wire.Message

/-! The spans of runs.  The attributes of a run add to its span one by one.  What they can touch is
known beforehand: the tags and the effects; everything else is the text and the style of the run, or
is never set. -/

namespace KineticText

/-! ### Style flags -/

theorem StyleFlags.contains_union {flags flags' : StyleFlags} (h : all.contains flags = true)
    (h' : all.contains flags' = true) : all.contains (flags.union flags') = true := by
  rw [contains, beq_iff_eq] at *
  have hand : all.bits &&& (flags.bits ||| flags'.bits) =
      (all.bits &&& flags.bits) ||| (all.bits &&& flags'.bits) :=
    UInt8.toBitVec_inj.mp BitVec.and_or_distrib_left
  rw [union, hand, h, h']

theorem Style.contains_toggle {s : Style} (h : StyleFlags.all.contains s.flags = true)
    (toggle : Toggle) : StyleFlags.all.contains (s.toggle toggle).flags = true := by
  cases toggle with
  | bold | italic | underline | strikethrough => exact StyleFlags.contains_union h (by decide)
  | color | font => exact h

/-- Attributes set known flags only. -/
theorem Style.contains_ofAttributes (chain : List Attribute) :
    StyleFlags.all.contains (Style.ofAttributes chain).flags = true := by
  have hnone : StyleFlags.all.contains ({} : Style).flags = true := by decide
  refine List.foldlRecOn (motive := fun s => StyleFlags.all.contains (Style.flags s) = true)
    (chain.filterMap Effect.ofAttribute?) _ hnone fun s hs e _ => ?_
  cases e with
  | style toggle => exact Style.contains_toggle hs toggle
  | typewriter | scramble | shake | gradient | rainbow => exact hs

namespace Wire.SpanOf

/-! ### What an attribute leaves alone -/

/-- The span has the fields of `base` but for those that attributes add. -/
def Extends (base s : Span) : Prop :=
  ∃ tags gradient typewriter charShake scramble,
    s = { base with tags, gradient, typewriter, charShake, scramble }

theorem Extends.refl (base : Span) : Extends base base := ⟨_, _, _, _, _, rfl⟩

theorem Extends.withEffect {base s : Span} (h : Extends base s) (e : Effect) :
    Extends base (s.withEffect e) := by
  obtain ⟨tags, gradient, typewriter, charShake, scramble, rfl⟩ := h
  cases e with
  | typewriter | shake | scramble | gradient | rainbow | style => exact ⟨_, _, _, _, _, rfl⟩

theorem Extends.withAttribute {base s : Span} (h : Extends base s) (a : Attribute) :
    Extends base (s.withAttribute a) := by
  have htags : Extends base
      (if s.tags.contains a.id then s else { s with tags := s.tags ++ [a.id] }) := by
    split
    · exact h
    · obtain ⟨tags, gradient, typewriter, charShake, scramble, rfl⟩ := h
      exact ⟨_, _, _, _, _, rfl⟩
  unfold SpanOf.withAttribute
  cases Effect.ofAttribute? a with
  | none => exact htags
  | some e => exact htags.withEffect e

/-- The span of a run before its attributes add to it. -/
def ofRunBase (r : Run) : Span :=
  let style := Style.ofAttributes r.attributes
  { content := r.text
    style := if style.flags.isEmpty then none else some style.flags
    color := style.color
    font := style.font }

theorem extends_ofRun (r : Run) : Extends (ofRunBase r) (ofRun r) :=
  List.foldlRecOn r.attributes withAttribute (Extends.refl _) fun _ h a _ => h.withAttribute a

theorem content_ofRun (r : Run) : (ofRun r).content = r.text := by
  obtain ⟨_, _, _, _, _, h⟩ := extends_ofRun r
  rw [h]
  rfl

theorem font_ofRun (r : Run) : (ofRun r).font = (Style.ofAttributes r.attributes).font := by
  obtain ⟨_, _, _, _, _, h⟩ := extends_ofRun r
  rw [h]
  rfl

theorem contains_style_ofRun (r : Run) :
    ∀ flags ∈ (ofRun r).style, StyleFlags.all.contains flags = true := by
  obtain ⟨_, _, _, _, _, h⟩ := extends_ofRun r
  intro flags hflags
  rw [h] at hflags
  change flags ∈ if _ then _ else _ at hflags
  split at hflags
  · cases hflags
  · cases hflags
    exact Style.contains_ofAttributes r.attributes

/-! ### Tags -/

theorem tags_withEffect (s : Span) (e : Effect) : (s.withEffect e).tags = s.tags := by
  cases e <;> rfl

theorem tags_withAttribute (s : Span) (a : Attribute) : (s.withAttribute a).tags =
    if s.tags.contains a.id then s.tags else s.tags ++ [a.id] := by
  unfold withAttribute
  cases Effect.ofAttribute? a with
  | none => split <;> rfl
  | some e =>
    simp only [tags_withEffect]
    split <;> rfl

/-- The tags of a run's span are names of its attributes, each once. -/
theorem tags_ofRun (r : Run) :
    (ofRun r).tags.Nodup ∧ ∀ tag ∈ (ofRun r).tags, ∃ a ∈ r.attributes, a.id = tag := by
  refine List.foldlRecOn (motive := fun s => s.tags.Nodup ∧
    ∀ tag ∈ s.tags, ∃ a ∈ r.attributes, a.id = tag) r.attributes withAttribute ?_
    fun s hs a ha => ?_
  · exact ⟨List.nodup_nil, List.forall_mem_nil _⟩
  · obtain ⟨hnodup, hnames⟩ := hs
    rw [tags_withAttribute]
    split
    · exact ⟨hnodup, hnames⟩
    · rename_i hnew
      rw [List.contains_iff_mem] at hnew
      refine ⟨List.nodup_append.mpr ⟨hnodup, List.pairwise_singleton _ _, ?_⟩, ?_⟩
      · rintro tag htag _ hid rfl
        exact hnew (List.mem_singleton.mp hid ▸ htag)
      · exact List.forall_mem_append.mpr ⟨hnames, List.forall_mem_singleton.mpr ⟨a, ha, rfl⟩⟩

/-! ### Gradients -/

theorem length_keepStops_le (stops : List (Option Color)) :
    (Gradient.keepStops stops).length ≤ 256 := by
  unfold Gradient.keepStops
  split
  · decide
  · rw [List.length_take]
    exact Nat.min_le_left _ _

theorem length_stops_le {a : Attribute} {g : Gradient}
    (h : Effect.ofAttribute? a = some (.gradient g)) : g.stops.length ≤ 256 := by
  unfold Effect.ofAttribute? at h
  simp only at h
  split at h
  case h_6 =>
    obtain ⟨id, -, hfont⟩ := Option.map_eq_some_iff.mp h
    cases hfont
  case h_10 =>
    cases h
    exact length_keepStops_le _
  all_goals cases h

theorem length_gradient_withAttribute_le {s : Span}
    (hs : ∀ colors ∈ s.gradient, colors.length ≤ 256) (a : Attribute) :
    ∀ colors ∈ (s.withAttribute a).gradient, colors.length ≤ 256 := by
  have htags : ∀ colors ∈ SpanOf.gradient
      (if s.tags.contains a.id then s else { s with tags := s.tags ++ [a.id] }),
      colors.length ≤ 256 := by
    split
    · exact hs
    · exact hs
  unfold withAttribute
  cases heffect : Effect.ofAttribute? a with
  | none => exact htags
  | some e =>
    cases e with
    | typewriter | shake | scramble | rainbow | style => exact htags
    | gradient g =>
      intro colors hcolors
      change colors ∈ if _ then none else some _ at hcolors
      split at hcolors
      · cases hcolors
      · cases hcolors
        exact Nat.le_trans (List.length_filterMap_le _ _) (length_stops_le heffect)

theorem length_gradient_ofRun_le (r : Run) :
    ∀ colors ∈ (ofRun r).gradient, colors.length ≤ 256 := by
  refine List.foldlRecOn (motive := fun s => ∀ colors ∈ s.gradient, colors.length ≤ 256)
    r.attributes withAttribute ?_ fun s hs a _ => length_gradient_withAttribute_le hs a
  exact fun _ h => nomatch h

end Wire.SpanOf

end KineticText
