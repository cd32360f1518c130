import KineticText.Proofs.Registry.Typewriters

/-! Attributes of built-in tags are normal forms.  Whatever is written on a built-in tag, what its
resolver gives is the attribute that is written for some effect in range; resolving that attribute
again gives it unchanged, and reading its effect gives all of it back.  The numbers that a
typewriter takes from one around it are in range as long as that one was resolved too. -/

namespace KineticText.Registry

open Params

variable {params : Params} {enclosing : List Attribute}

/-! ### What the resolvers give -/

theorem value_readChoice {α : Type} [Choice α] (effect key : String) (params : Params) :
    (readChoice effect key params : Logged α).value = Choice.ofParams params key := by
  unfold readChoice Choice.ofParams
  cases params.text? key with
  | none => rfl
  | some word =>
    simp only [Option.bind_some]
    split
    · rename_i a hread
      rw [hread]
      rfl
    · rename_i hread
      rw [hread]
      rfl

theorem value_shakeTag (preset : Option Motion) (params : Params) (enclosing : List Attribute) :
    (shakeTag preset params enclosing).value = [{
      id := "shake"
      params := .ofList { Shake.ofParams params with
        motion := preset.getD (Choice.ofParams params "type") : Shake }.entries }] := by
  unfold shakeTag
  cases preset <;>
    simp only [Logged.value_bind, Logged.value_pure, value_readChoice, Parameter.value_read] <;> rfl

theorem value_rainbowTag (params : Params) (enclosing : List Attribute) :
    (rainbowTag params enclosing).value =
      [{ id := "rainbow", params := .ofList (Rainbow.ofParams params).entries }] := by
  unfold rainbowTag
  simp only [Logged.value_bind, Logged.value_pure, Parameter.value_read]
  rfl

/-- The seed that is written for the one that parameters give. -/
def writtenSeed (params : Params) : Option Float :=
  (params.number? "seed").map fun n => Double.truncate n.abs

theorem value_scrambleTag (params : Params) (enclosing : List Attribute) :
    (scrambleTag params enclosing).value = [{
      id := "obfuscate"
      params := .ofList ((Scramble.ofParams params).entries (writtenSeed params)) }] := by
  unfold scrambleTag writtenSeed
  simp only [Logged.value_bind, Logged.value_pure, value_readChoice, Parameter.value_read]
  cases params.number? "seed" <;> rfl

theorem value_gradientTag (params : Params) (enclosing : List Attribute) :
    (gradientTag params enclosing).value = [{
      id := "gradient"
      params := .ofList { Gradient.ofParams params with
        stops := Gradient.keepStops (writtenStops params) : Gradient }.entries }] := by
  unfold gradientTag
  simp only [Logged.value_bind, Logged.value_pure, Parameter.value_read, Parameter.value_read?]
  unfold Gradient.entries Gradient.ofParams
  cases Parameter.gradientSpread.lookup? params <;> rfl

/-! ### What they give is written for effects -/

/-- What a typewriter does not have itself is in range where it comes from, the nearest typewriter
around. -/
def Inheritable (params : Params) (enclosing : List Attribute) : Prop :=
  ∀ p, p = Parameter.typewriterSpeed ∨ p = Parameter.typewriterDelay →
    p.isPresent params = false →
    ∀ x, (nearestTypewriter enclosing).bind (·.params.number? p.name) = some x → p.Admits x

theorem Inheritable.admits_taken (h : Inheritable params enclosing) {p : Parameter}
    (hp : p = Parameter.typewriterSpeed ∨ p = Parameter.typewriterDelay) :
    p.Admits (taken p enclosing params) := by
  have hdeclared := Parameter.mem_declared_of_typewriter hp
  unfold taken inherited
  split
  · exact Parameter.admits_quiet hdeclared params
  · rename_i habsent
    cases hx : (nearestTypewriter enclosing).bind (·.params.number? p.name) with
    | none => exact (Parameter.admits_declared p hdeclared).1
    | some x => exact h p hp (Bool.eq_false_iff.mpr habsent) x hx

/-- Around an element are only attributes that were resolved, whose numbers are in range. -/
theorem inheritable_chainOf (elements : List Markup.Element) (params : Params) :
    Inheritable params (Markup.chainOf builtin [] elements) := by
  intro p hp _ x hx
  have hdeclared := Parameter.mem_declared_of_typewriter hp
  have hinherited := Markup.inherited_chainOf hp elements
  rw [inherited, hx, Option.getD_some] at hinherited
  rw [hinherited]
  exact Markup.admits_inForce hdeclared elements

/-- The resolver gives attributes that are written for effects in range. -/
def Writes (resolver : Resolver) : Prop :=
  ∀ params enclosing, ∀ a ∈ (resolver params enclosing).value,
    (a.id = "typewriter" → Inheritable params enclosing) → ∃ e : Effect, e.IsWritten a

theorem writes_plainTag {toggle : Toggle}
    (h : toggle ∈ [Toggle.bold, .italic, .underline, .strikethrough]) :
    Writes (plainTag toggle.name) :=
  fun _ _ => List.forall_mem_singleton.mpr fun _ => ⟨_, .flag h⟩

theorem writes_groupTag : Writes groupTag := fun _ _ => List.forall_mem_nil _

theorem writes_colorTag : Writes colorTag := by
  intro params enclosing
  unfold colorTag
  simp only
  split
  · exact List.forall_mem_singleton.mpr fun _ => ⟨_, .color _⟩
  · exact List.forall_mem_singleton.mpr fun _ => ⟨_, .noColor⟩

theorem writes_fontTag : Writes fontTag := by
  intro params enclosing
  unfold fontTag
  split
  · split
    · exact List.forall_mem_nil _
    · rename_i hfont
      exact List.forall_mem_singleton.mpr fun _ => ⟨_, .font (Bool.eq_false_iff.mpr hfont)⟩
  · exact List.forall_mem_nil _

theorem writes_typewriterTag : Writes typewriterTag := by
  intro params enclosing
  rw [value_typewriterTag]
  refine List.forall_mem_singleton.mpr fun h => ?_
  have hinheritable : Inheritable params enclosing := h rfl
  exact ⟨_, .typewriter
    ⟨hinheritable.admits_taken (.inl rfl), hinheritable.admits_taken (.inr rfl)⟩⟩

theorem rel_writtenSeed (params : Params) :
    Option.Rel (fun x n => Double.IsWhole x ∧ Double.ClampsTo x n) (writtenSeed params)
      ((writtenSeed params).map (·.toUInt64)) := by
  unfold writtenSeed
  cases hseed : params.number? "seed" with
  | none => exact .none
  | some n =>
    have hwhole := Double.isWhole_truncate_abs (isNaN_of_number? hseed)
    exact .some ⟨hwhole, hwhole.clampsTo⟩

theorem writes_scrambleTag : Writes scrambleTag := by
  intro params enclosing
  have hspeed : Parameter.scrambleSpeed.Admits (Scramble.ofParams params).speed :=
    Parameter.admits_quiet (by simp [Parameter.declared]) params
  rw [value_scrambleTag]
  exact List.forall_mem_singleton.mpr fun _ =>
    ⟨.scramble { Scramble.ofParams params with seed := (writtenSeed params).map (·.toUInt64) },
      .scramble ⟨hspeed, rel_writtenSeed params⟩⟩

theorem writes_shakeTag (preset : Option Motion) : Writes (shakeTag preset) := by
  intro params enclosing
  obtain ⟨hamplitude, hspeed, hwavelength⟩ := Shake.inRange_ofParams params
  rw [value_shakeTag]
  exact List.forall_mem_singleton.mpr fun _ => ⟨_, .shake ⟨hamplitude, hspeed, hwavelength⟩⟩

theorem writes_gradientTag : Writes gradientTag := by
  intro params enclosing
  obtain ⟨-, hflow, hspread⟩ := Gradient.inRange_ofParams params
  rw [value_gradientTag]
  exact List.forall_mem_singleton.mpr fun _ =>
    ⟨_, .gradient ⟨Gradient.keepStops_keepStops _, hflow, hspread⟩⟩

theorem writes_rainbowTag : Writes rainbowTag := by
  intro params enclosing
  rw [value_rainbowTag]
  exact List.forall_mem_singleton.mpr fun _ => ⟨_, .rainbow (Rainbow.inRange_ofParams params)⟩

theorem writes_builtinTags : ∀ entry ∈ builtinTags, Writes entry.2 := by
  have hflag : ∀ toggle ∈ [Toggle.bold, .italic, .underline, .strikethrough],
      Writes (plainTag toggle.name) := fun _ => writes_plainTag
  simp only [List.forall_mem_cons] at hflag
  obtain ⟨hbold, hitalic, hunderline, hstrikethrough, -⟩ := hflag
  simp only [builtinTags, List.forall_mem_cons]
  exact ⟨hbold, hitalic, hunderline, hstrikethrough, writes_colorTag, writes_fontTag,
    writes_typewriterTag, writes_scrambleTag, writes_shakeTag _, writes_shakeTag _,
    writes_shakeTag _, writes_shakeTag _, writes_gradientTag, writes_rainbowTag, writes_groupTag,
    writes_groupTag, List.forall_mem_nil _⟩

/-! ### Resolving again -/

theorem value_resolve_of_mem {name : String} {resolver : Resolver}
    (hmem : (name, resolver) ∈ builtinTags) (params : Params) (enclosing : List Attribute) :
    (builtin.resolve name params enclosing).value = some (resolver params enclosing).value := by
  rw [resolve_of_mem hmem, Logged.value_map]

theorem mem_builtinTags_of_flag {toggle : Toggle}
    (h : toggle ∈ [Toggle.bold, .italic, .underline, .strikethrough]) :
    (toggle.name, plainTag toggle.name) ∈ builtinTags := by
  simp only [List.mem_cons, List.not_mem_nil, or_false] at h
  rcases h with rfl | rfl | rfl | rfl <;> simp [builtinTags, Toggle.name]

theorem typewriterWithin_entries {e : Typewriter} (h : e.InRange) (enclosing : List Attribute) :
    typewriterWithin enclosing (.ofList e.entries) = e := by
  have hpresent : ∀ {p : Parameter} {value : Value}, (p.name, value) ∈ e.entries →
      p.isPresent (.ofList e.entries) = true := by
    intro p value hmem
    rw [Parameter.isPresent, Params.contains, e.get?_entries hmem]
    rfl
  have hspeed := hpresent (p := .typewriterSpeed) (.head _)
  have hdelay := hpresent (p := .typewriterDelay) (.tail _ (.head _))
  rw [typewriterWithin, taken, taken, if_pos hspeed, if_pos hdelay]
  exact Typewriter.ofParams_entries h

theorem writtenSeed_entries {e : Scramble} {seed : Option Float} (h : e.InRange seed) :
    writtenSeed (.ofList (e.entries seed)) = seed := by
  have hrel := h.seed
  unfold writtenSeed
  cases seed with
  | none =>
    rw [e.number?_entries (by simp)]
    rfl
  | some x =>
    generalize e.seed = word at hrel
    cases hrel with
    | some hx =>
      rw [e.number?_entries (by simpa using hx.1.isNaN_eq), Option.map_some, hx.1.truncate_abs]

theorem writtenStops_entries (e : Gradient) : writtenStops (.ofList e.entries) = e.stops := by
  have hcolors : (Params.ofList e.entries).text? "colors" = some (Gradient.writeStops e.stops) :=
    text?_of_get? (e.tidy_entries.get?_of_mem (.head _))
  rw [writtenStops, hcolors]
  exact Gradient.readStops_writeStops e.stops

/-- What is written for an effect resolves to itself, whatever stands around it. -/
theorem resolve_of_isWritten {e : Effect} {a : Attribute} (h : e.IsWritten a)
    (enclosing : List Attribute) :
    (builtin.resolve a.id a.params enclosing).value = some [a] := by
  cases h with
  | flag h => exact value_resolve_of_mem (mem_builtinTags_of_flag h) _ _
  | color color =>
    have hread : ((Params.ofList [("value", .text color.hex)]).text? "value" <|>
        (Params.ofList [("value", .text color.hex)]).text? "color").bind Color.read? =
        some color := by
      rw [text?_value]
      exact Color.read?_hex color
    rw [value_resolve_of_mem colorTag_mem, colorTag]
    simp only [hread]
    rfl
  | noColor =>
    rw [value_resolve_of_mem colorTag_mem, colorTag]
    rfl
  | @font font h =>
    have htext : ((Params.ofList [("value", .text font)]).text? "value" <|>
        (Params.ofList [("value", .text font)]).text? "id") = some font := by
      rw [text?_value]
      rfl
    have hmem : ("font", fontTag) ∈ builtinTags := by simp [builtinTags]
    rw [value_resolve_of_mem hmem, fontTag]
    simp only [htext, h]
    rfl
  | typewriter h =>
    rw [value_resolve_of_mem typewriterTag_mem, value_typewriterTag, typewriterWithin_entries h]
  | scramble h =>
    rw [value_resolve_of_mem scrambleTag_mem, value_scrambleTag, Scramble.ofParams_entries h,
      writtenSeed_entries h]
  | @shake e h =>
    have hread := Shake.ofParams_entries h
    have hmotion : Choice.ofParams (.ofList e.entries) "type" = e.motion :=
      congrArg Shake.motion hread
    have hmem : ("shake", shakeTag none) ∈ builtinTags := by simp [builtinTags]
    rw [value_resolve_of_mem hmem, value_shakeTag, hread, hmotion]
    rfl
  | gradient h =>
    -- The tag keeps the stops that it has read, which are those of the text and are kept already.
    rw [value_resolve_of_mem gradientTag_mem, value_gradientTag, Gradient.ofParams_entries h,
      writtenStops_entries, h.stops]
  | rainbow h =>
    have hmem : ("rainbow", rainbowTag) ∈ builtinTags := by simp [builtinTags]
    rw [value_resolve_of_mem hmem, value_rainbowTag, Rainbow.ofParams_entries h]

/-- An attribute of a built-in tag resolves to itself, and its effect is read back as it was
written.  The numbers that a typewriter takes are in range wherever tags have been resolved from the
outside in, and reading with and without the log agree. -/
theorem resolve_normalForm :
    (∀ elements params, Inheritable params (Markup.chainOf builtin [] elements)) ∧
      (∀ tag params enclosing own, (builtin.resolve tag params enclosing).value = some own →
        ∀ a ∈ own, (a.id = "typewriter" → Inheritable params enclosing) →
          (∀ enclosing', (builtin.resolve a.id a.params enclosing').value = some [a]) ∧
            ∃ e : Effect, Effect.ofAttribute? a = some e ∧ e.IsWritten a) ∧
      (∀ (p : Parameter) effect params, (p.read effect params).value = p.quiet params) ∧
      ∀ (α : Type) [Choice α] effect key params,
        (readChoice effect key params : Logged α).value = Choice.ofParams params key := by
  refine ⟨inheritable_chainOf, fun tag params enclosing own hown a ha hinheritable => ?_,
    Parameter.value_read, fun α _ => value_readChoice⟩
  have hwrites : builtin.Every Writes := every_builtin writes_builtinTags
  obtain ⟨resolver, hresolver, rfl⟩ := hwrites.resolve hown
  obtain ⟨e, he⟩ := hresolver params enclosing a ha hinheritable
  exact ⟨fun enclosing' => resolve_of_isWritten he enclosing', e, he.ofAttribute?_eq, he⟩

/-- A typewriter in another one, with a number beyond its range. -/
theorem resolve_normalForm_typewriter :
    let enclosing := Markup.chainOf builtin [] [⟨"typewriter", [("speed", "3")], 0, []⟩]
    let a : Attribute := { id := "typewriter", params := .ofList [("speed", .number 3.0),
      ("delay", .number 10000.0), ("center", .flag false)] }
    Inheritable (.ofTexts [("delay", "20000")]) enclosing ∧
      (builtin.resolve "typewriter" (.ofTexts [("delay", "20000")]) enclosing).value = some [a] ∧
      (∀ enclosing', (builtin.resolve a.id a.params enclosing').value = some [a]) ∧
      ∃ e : Effect, Effect.ofAttribute? a = some e ∧ e.IsWritten a := by
  intro enclosing a
  obtain ⟨hchains, hnormal, -⟩ := resolve_normalForm
  have hinheritable : Inheritable (.ofTexts [("delay", "20000")]) enclosing := hchains _ _
  have hparent : enclosing = [{ id := "typewriter", params := .ofList [("speed", .number 3.0),
      ("delay", .number 0.0), ("center", .flag false)] }] := by decide +kernel
  have hown : (builtin.resolve "typewriter" (.ofTexts [("delay", "20000")]) enclosing).value =
      some [a] := by
    rw [value_resolve_of_mem typewriterTag_mem, hparent]
    decide +kernel
  exact ⟨hinheritable, hown,
    hnormal _ _ _ _ hown a List.mem_cons_self fun _ => hinheritable⟩

/-- A seed beyond the words is not read back as it is written, and a typewriter takes a number out
of range from an attribute that was not resolved, which changes when it is resolved again. -/
theorem resolve_not_normalForm :
    (∃ a e, (builtin.resolve "obfuscate" (.ofTexts [("seed", "1e20")]) []).value = some [a] ∧
      Effect.ofAttribute? a = some (.scramble e) ∧ ∃ x n, a.params.number? "seed" = some x ∧
        e.seed = some n ∧ n.toNat * 2 ^ 1074 ≠ Double.magnitude x) ∧
      ∃ enclosing a a', (builtin.resolve "typewriter" {} enclosing).value = some [a] ∧
        (builtin.resolve a.id a.params []).value = some [a'] ∧ a' ≠ a := by
  constructor
  · let a : Attribute := { id := "obfuscate", params := .ofList [("mode", .text "constant"),
      ("speed", .number 100.0), ("direction", .text "left"), ("alphabet", .text "glyphset"),
      ("seed", .number 1e20)] }
    have hown : (builtin.resolve "obfuscate" (.ofTexts [("seed", "1e20")]) []).value =
        some [a] := by
      rw [value_resolve_of_mem scrambleTag_mem]
      decide +kernel
    have hwritten : a.params.number? "seed" = some 1e20 := by decide +kernel
    have hread : (Scramble.ofParams a.params).seed = some 18446744073709551615 := by
      decide +kernel
    exact ⟨a, .ofParams a.params, hown, rfl, 1e20, _, hwritten, hread, by decide +kernel⟩
  · let parent : Attribute := { id := "typewriter", params := .ofList [("speed", .number 1000.0)] }
    let child (speed : Float) : Attribute := { id := "typewriter", params := .ofList [
      ("speed", .number speed), ("delay", .number 0.0), ("center", .flag false)] }
    have hown : (builtin.resolve "typewriter" {} [parent]).value = some [child 1000.0] := by
      rw [value_resolve_of_mem typewriterTag_mem]
      decide +kernel
    have hagain : (builtin.resolve (child 1000.0).id (child 1000.0).params []).value =
        some [child 100.0] := by
      rw [value_resolve_of_mem typewriterTag_mem]
      decide +kernel
    exact ⟨[parent], child 1000.0, child 100.0, hown, hagain, by decide +kernel⟩

/-! ### The stops of a gradient -/

/-- A color is read back from its digits and stops from their text, so a gradient has the stops that
are listed, up to the limit and each in its place. -/
theorem stops_of_list :
    (∀ color : Color, Color.read? color.hex = some color) ∧
      (∀ stops, Gradient.readStops (Gradient.writeStops stops) = stops) ∧
      ∀ tag params enclosing list, builtin.canonical? tag = some "gradient" →
        (params.text? "colors" <|> params.text? "value") = some list →
        ∃ a g, (builtin.resolve tag params enclosing).value = some [a] ∧
          Effect.ofAttribute? a = some (.gradient g) ∧
          let entries := (list.toList.splitOnP Gradient.isSeparator).filter (· ≠ [])
          g.stops = if entries = [] then [none]
            else (entries.map fun entry => Color.read? (String.ofList entry)).take 256 := by
  refine ⟨Color.read?_hex, Gradient.readStops_writeStops,
    fun tag params enclosing list htag hlist => ?_⟩
  have hown : (builtin.resolve tag params enclosing).value =
      some (gradientTag params enclosing).value := by
    rw [resolve_of_canonical? htag gradientTag_mem, Logged.value_map]
  rw [value_gradientTag] at hown
  obtain ⟨-, hflow, hspread⟩ := Gradient.inRange_ofParams params
  have hwritten := Effect.IsWritten.gradient
    (e := { Gradient.ofParams params with stops := Gradient.keepStops (writtenStops params) })
    ⟨Gradient.keepStops_keepStops _, hflow, hspread⟩
  refine ⟨_, _, hown, hwritten.ofAttribute?_eq, ?_⟩
  have hstops : writtenStops params = Gradient.readStops list := by rw [writtenStops, hlist]
  simp only [hstops, Gradient.keepStops_eq, Gradient.readStops_eq, List.map_eq_nil_iff]
  rfl

/-- A list with a name, a word that is no color and an entry between two commas. -/
theorem stops_of_list_mauve :
    let params : Params := .ofTexts [("Colors", "gold,,mauve #FFF")]
    builtin.canonical? "grad" = some "gradient" ∧
      (params.text? "colors" <|> params.text? "value") = some "gold,,mauve #FFF" ∧
      ∃ a g, (builtin.resolve "grad" params []).value = some [a] ∧
        Effect.ofAttribute? a = some (.gradient g) ∧
        g.stops = [some ⟨0xFFFFAA00⟩, none, some ⟨0xFFFFFFFF⟩] := by
  intro params
  have htag : builtin.canonical? "grad" = some "gradient" := by decide +kernel
  have hlist : (params.text? "colors" <|> params.text? "value") = some "gold,,mauve #FFF" := by
    decide +kernel
  obtain ⟨a, g, hown, hread, hstops⟩ := stops_of_list.2.2 "grad" params [] _ htag hlist
  refine ⟨htag, hlist, a, g, hown, hread, hstops.trans ?_⟩
  decide +kernel

end KineticText.Registry
