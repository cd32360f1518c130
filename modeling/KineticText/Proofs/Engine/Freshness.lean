import KineticText.Proofs.Engine.Runs
import KineticText.Proofs.Markup.ParseLimits

/-! When layouts are fresh.  A stored layout is handed out as long as the fingerprint stays, so a
run sees no stale one exactly when configurations with one fingerprint read every source alike.  The
fingerprint leaves out the limit on the length of sources, so it takes a promise about the
configurations of the run.  Main statement: what that promise is, in terms of the limits. -/

namespace KineticText

variable {ω σ : Type} {allowed : Config → Prop}

/-- The limits of two configurations read every source alike. -/
def Config.LimitsAgree (c c' : Config) : Prop :=
  Markup.LimitsAgree c.maxParseLength.toNat c.maxNestingDepth.toNat c'.maxParseLength.toNat
    c'.maxNestingDepth.toNat

theorem Config.LimitsAgree.of_beq {c c' : Config} (h : (c' == c) = true) : c.LimitsAgree c' := by
  have hlimits : c'.maxNestingDepth = c.maxNestingDepth ∧ c'.maxParseLength = c.maxParseLength := by
    cases c
    cases c'
    simp only [BEq.beq, instBEqConfig.beq, Bool.and_eq_true, decide_eq_true_eq] at h
    exact ⟨h.2.1, h.2.2.1⟩
  obtain ⟨hdepth, hlength⟩ := hlimits
  rw [LimitsAgree, hdepth, hlength]
  exact ⟨rfl, .inl rfl⟩

namespace Engine

theorem textOf_eq_iff {c c' : Config} :
    (∀ registry source, textOf registry c source = textOf registry c' source) ↔
      c.LimitsAgree c' := Markup.textWithin_eq_iff

/-! ### Runs that stay fresh -/

theorem Stored.givenText_layoutWith {e : Engine ω σ} (h : Stored allowed e)
    (hagree : ∀ c, allowed c → c.fingerprint = e.config.fingerprint → c.LimitsAgree e.config)
    (source : String) (width : UInt32) (seed : UInt64)
    (shape : AttributedText → ω → Sequence ω σ × ω) (host : ω) :
    givenText (e.layoutWith source width seed shape host) = some (e.parse source).value := by
  unfold givenText
  rcases e.layoutWith_cases source width seed shape host with
    ⟨place, hplace, heq⟩ | ⟨-, layout, hlayout, host', heq⟩ <;> rw [heq]
  · obtain ⟨config, hallowed, hversion, htext⟩ := h.parsed _ hplace
    have hsame := textOf_eq_iff.mpr (hagree config hallowed hversion) e.registry source
    exact htext.trans (congrArg some hsame)
  · rw [← hlayout]
    exact e.shelf.text?_add_new layout

theorem Stored.fresh {e : Engine ω σ} (h : Stored allowed e)
    (hagree : ∀ c, allowed c → c.fingerprint = e.config.fingerprint → c.LimitsAgree e.config) :
    e.Fresh :=
  fun source width seed host =>
    ⟨fun _ => h.givenText_layoutWith hagree source width seed _ host,
      fun _ => h.givenText_layoutWith hagree source width seed _ host⟩

/-! ### Runs that need not -/

section

variable (registry : Registry) (source : String) (shape : AttributedText → ω → σ × ω) (host : ω)

/-- An engine that has laid out one source. -/
def laidOut (config : Config) : Engine ω σ :=
  ((ofConfig config).after (.withRegistry registry)).after (.layout source 0 0 shape host)

/-- An engine that has laid out one source before it took on another configuration. -/
def reconfigured (before now : Config) : Engine ω σ :=
  (laidOut registry source shape host before).after (.applyConfig now)

variable {before now : Config}

theorem reachable_reconfigured (hbefore : allowed before) (hnow : allowed now) :
    Reachable allowed (reconfigured registry source shape host before now) := by
  refine .step (.step (.step (.start hbefore) _ ?_) _ ?_) _ ?_
  · intro config h
    cases h
  · intro config h
    cases h
  · intro config h
    cases h
    exact hnow

/-- The first request finds nothing stored. -/
theorem laidOut_eq (config : Config) : ∃ (layout : Layout ω σ) (misses : Nat),
    layout.text = textOf registry config source ∧
      laidOut registry source shape host config =
        let e : Engine ω σ := (ofConfig config).after (.withRegistry registry)
        { e with
          layouts := { e.layouts with
            entries := e.layouts.entries.put (e.layoutKey source 0 0) (e.shelf.add layout).1
            misses }
          shelf := (e.shelf.add layout).2 } := by
  rcases layoutWith_cases ((ofConfig config).after (.withRegistry registry) : Engine ω σ) source 0 0
    (fun text host => (.made (shape text host).1, (shape text host).2)) host with
    ⟨place, hplace, -⟩ | ⟨-, layout, hlayout, host', heq⟩
  · exact absurd hplace List.not_mem_nil
  · exact ⟨layout, _, hlayout, congrArg (·.2.1) heq⟩

theorem config_laidOut (config : Config) :
    (laidOut registry source shape host config).config = config := by
  obtain ⟨layout, misses, -, heq⟩ := laidOut_eq registry source shape host config
  rw [heq]
  rfl

theorem reconfigured_eq (hother : (now == before) = false) :
    reconfigured registry source shape host before now =
      { laidOut registry source shape host before with
        config := now
        renderer := ⟨now⟩
        tracks := if tracksDiffer now before then .ofConfig now
          else (laidOut registry source shape host before).tracks
        layouts := (((laidOut registry source shape host before).layouts.resize
          now.layoutCapacity.toNat).setFingerprint now.fingerprint).value.2 } := by
  have hafter : (now == (laidOut registry source shape host before).config) = false := by
    rw [config_laidOut]
    exact hother
  rw [reconfigured, after, value_applyConfig _ hafter, config_laidOut]

/-- The layout is still stored when the fingerprint has not changed. -/
theorem stored_reconfigured (hother : (now == before) = false)
    (hversion : now.fingerprint = before.fingerprint) :
    ∃ place, (reconfigured registry source shape host before now).shelf.text? place =
        some (textOf registry before source) ∧
      (reconfigured registry source shape host before now).layouts.entries.entries =
        [((reconfigured registry source shape host before now).layoutKey source 0 0, place)] := by
  obtain ⟨layout, misses, hlayout, heq⟩ := laidOut_eq registry source shape host before
  refine ⟨(({} : Shelf ω σ).add layout).1, ?_, ?_⟩
  · rw [← hlayout, ← ({} : Shelf ω σ).text?_add_new layout,
      reconfigured_eq registry source shape host hother, heq]
    rfl
  · have hfingerprint : ((laidOut registry source shape host before).layouts.resize
        now.layoutCapacity.toNat).fingerprint = some now.fingerprint := by
      rw [heq, hversion]
      rfl
    rw [reconfigured_eq registry source shape host hother, LayoutCache.value_setFingerprint,
      if_pos hfingerprint, heq]
    have hkey :
        ((ofConfig before : Engine ω σ).after (.withRegistry registry)).layoutKey source 0 0 =
        ⟨source, 0, (1.0 : Float).toBits, defaultLanguage, 0, now.fingerprint⟩ := by
      rw [hversion]
      rfl
    simp only [LayoutCache.resize, hkey]
    exact Recency.entries_resize_put_empty rfl _ _ _

theorem givenText_reconfigured (hother : (now == before) = false)
    (hversion : now.fingerprint = before.fingerprint) :
    givenText ((reconfigured registry source shape host before now).layout source 0 0 shape host) =
      some (textOf registry before source) := by
  obtain ⟨place, htext, hentries⟩ :=
    stored_reconfigured registry source shape host hother hversion
  unfold givenText
  rcases layoutWith_cases (reconfigured registry source shape host before now) source 0 0
    (fun text host => ((Sequence.made (shape text host).1, (shape text host).2))) host with
    ⟨place', hplace, heq⟩ | ⟨hmiss, -⟩
  · rw [layout, heq]
    rw [hentries, List.mem_singleton, Prod.mk.injEq] at hplace
    rw [hplace.2]
    exact htext
  · rw [Recency.peek?, hentries, List.lookup_cons_self] at hmiss
    cases hmiss

theorem parse_reconfigured (hother : (now == before) = false) :
    ((reconfigured registry source shape host before now).parse source).value =
      textOf registry now source := by
  obtain ⟨layout, misses, -, heq⟩ := laidOut_eq registry source shape host before
  rw [reconfigured_eq registry source shape host hother, heq]
  rfl

end

/-- In runs through `allowed` configurations all layouts are fresh exactly when the limits agree
wherever the fingerprints do. -/
theorem fresh_iff [Inhabited ω] [Inhabited σ] (allowed : Config → Prop) :
    (∀ e : Engine ω σ, Reachable allowed e → e.Fresh) ↔
      ∀ c c', allowed c → allowed c' → c.fingerprint = c'.fingerprint → c.LimitsAgree c' := by
  constructor
  · intro hfresh c c' hc hc' hversion
    cases hother : c' == c with
    | true => exact .of_beq hother
    | false =>
      refine textOf_eq_iff.mp fun registry source => ?_
      have hshape : AttributedText → ω → σ × ω := fun _ host => (default, host)
      have hgiven := (hfresh _ (reachable_reconfigured registry source hshape default hc hc')
        source 0 0 default).1 hshape
      rw [givenText_reconfigured registry source hshape default hother hversion.symm,
        parse_reconfigured registry source hshape default hother] at hgiven
      exact Option.some.inj hgiven
  · intro hagree e he
    exact he.stored.fresh fun c hc hversion => hagree c e.config hc he.stored.config hversion

/-! ### A stale layout -/

/-- An engine that has laid out `abc` before only two characters were to be read. -/
def shortened : Engine Unit Unit :=
  reconfigured .builtin "abc" (fun _ _ => ((), ())) () {} { maxParseLength := 2 }

theorem raw_textOf_abc (config : Config) :
    (textOf .builtin config "abc").raw =
      String.ofList (['a', 'b', 'c'].take config.maxParseLength.toNat) := by
  have hsource : "abc" = String.ofList ['a', 'b', 'c'] := by decide
  rw [hsource]
  exact Markup.raw_textWithin (by simp)

/-- The limit on the length of sources is not in the fingerprint, so a run can reach an engine that
still gives the layout of `abc` but means `ab` by it. -/
theorem not_fresh_shortened :
    Reachable (fun _ => True) shortened ∧
      (givenText (shortened.layout "abc" 0 0 (fun _ _ => ((), ())) ())).map (·.raw) = some "abc" ∧
      (shortened.parse "abc").value.raw = "ab" ∧ ¬ shortened.Fresh := by
  have hother : (({ maxParseLength := 2 } : Config) == {}) = false := by decide
  have hgiven : givenText (shortened.layout "abc" 0 0 (fun _ _ => ((), ())) ()) =
      some (textOf .builtin {} "abc") :=
    givenText_reconfigured .builtin "abc" _ () hother rfl
  have hparse : (shortened.parse "abc").value = textOf .builtin { maxParseLength := 2 } "abc" :=
    parse_reconfigured .builtin "abc" _ () hother
  have hlong : (textOf .builtin {} "abc").raw = "abc" := (raw_textOf_abc {}).trans (by decide)
  have hshort : (textOf .builtin { maxParseLength := 2 } "abc").raw = "ab" :=
    (raw_textOf_abc { maxParseLength := 2 }).trans (by decide)
  refine ⟨reachable_reconfigured .builtin "abc" _ () trivial trivial, ?_, ?_, fun hfresh => ?_⟩
  · rw [hgiven, Option.map_some, hlong]
  · rw [hparse, hshort]
  · have hsame := (hfresh "abc" 0 0 ()).1 fun _ _ => ((), ())
    rw [hgiven, hparse] at hsame
    have hraw := congrArg AttributedText.raw (Option.some.inj hsame)
    rw [hlong, hshort] at hraw
    exact absurd hraw (by decide)

end Engine

end KineticText
