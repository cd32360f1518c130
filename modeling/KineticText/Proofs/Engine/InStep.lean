import KineticText.Proofs.Engine.Runs
import KineticText.Proofs.Layout.Requests
import KineticText.Proofs.Render.Apart
import KineticText.Proofs.Render.Sweeping

/-! The parts of an engine in step.  The renderer, the cache of layouts and the store of tracks have
their own copies of what the engine goes by, and every operation updates the ones that it concerns.
Main statement: after any run the copies agree, and a report of a change drops the layouts exactly
when there is one. -/

namespace KineticText

/-! ### Drawing and limits -/

/-- An action that leaves the limits of a store as they are. -/
def KeepsLimits {α : Type} (act : StoreAction α) : Prop :=
  ∀ s : TrackStore, s.SameLimits (act s).2

theorem composes_keepsLimits : Composes KeepsLimits where
  answer _ s := .refl s
  andThen hact hnext s := (hact s).trans (hnext _ _)

theorem keepsLimits_askTypewriter {α : Type} (now : Millis) (key : TrackKey)
    (question : TypewriterTrack Float → Logged (α × TypewriterTrack Float)) :
    KeepsLimits fun tracks => (tracks.askTypewriter now key question).value := by
  simp only [TrackStore.value_askTypewriter]
  exact fun _ => ⟨rfl, rfl, rfl, rfl, rfl⟩

theorem Drawing.keepsLimits_outcome (d : Drawing) : KeepsLimits d.outcome :=
  Renderer.EachStep.render
    ⟨fun _ => keepsLimits_askTypewriter d.now _ _, fun _ _ _ _ =>
      keepsLimits_askTypewriter d.now _ _, fun _ _ _ _ _ _ => ⟨rfl, rfl, rfl, rfl, rfl⟩⟩
    composes_keepsLimits

theorem Config.fingerprint_eq_of_beq {c c' : Config} (h : (c' == c) = true) :
    c'.fingerprint = c.fingerprint := by
  cases c
  cases c'
  change instBEqConfig.beq _ _ = true at h
  simp only [instBEqConfig.beq, Bool.and_eq_true, beq_iff_eq] at h
  obtain ⟨rfl, rfl, -, rfl, rfl, rfl, rfl, -⟩ := h
  rfl

namespace Engine

variable {ω σ : Type}

/-- What the parts of the engine remember is what the engine goes by. -/
structure InStep (e : Engine ω σ) : Prop where
  renderer : e.renderer = ⟨e.config⟩
  language : e.layouts.language = some e.language
  scaleBits : e.layouts.scaleBits = some e.scale.toBits
  fingerprint : e.layouts.fingerprint = some e.config.fingerprint
  layoutRoom : e.layouts.capacity = max e.config.layoutCapacity.toNat 1
  layouts_le : e.layouts.size ≤ e.layouts.capacity
  typewriterRoom : e.tracks.typewriters.capacity = max e.config.trackCapacity.toNat 1
  scrambleRoom : e.tracks.scrambles.capacity = max e.config.trackCapacity.toNat 1
  timeout : e.tracks.timeout = e.config.trackTimeout
  typewriterReset : e.tracks.typewriterReset = e.config.typewriterReset
  scrambleReset : e.tracks.scrambleReset = e.config.scrambleReset

namespace InStep

variable {e : Engine ω σ}

theorem ofConfig (config : Config) : (ofConfig config : Engine ω σ).InStep :=
  ⟨rfl, rfl, rfl, rfl, rfl, Nat.zero_le _, rfl, rfl, rfl, rfl, rfl⟩

theorem layoutWith (h : e.InStep) (source : String) (width : UInt32) (seed : UInt64)
    (shape : AttributedText → ω → Sequence ω σ × ω) (host : ω) :
    (e.layoutWith source width seed shape host).value.2.1.InStep := by
  rcases e.layoutWith_cases source width seed shape host with
    ⟨place, hplace, heq⟩ | ⟨-, layout, hlayout, host', heq⟩ <;> rw [heq]
  all_goals exact { h with layouts_le := Recency.length_le _ }

theorem render (h : e.InStep) (text : AttributedText) (frame : Frame) (now : Millis) :
    (e.render text frame now).value.2.InStep := by
  have hdrawn := Drawing.keepsLimits_outcome ⟨e.renderer, text, frame, now⟩
    (e.tracks.sweep now).value.2
  rw [value_render]
  exact { h with
    typewriterRoom := hdrawn.typewriters.symm.trans h.typewriterRoom
    scrambleRoom := hdrawn.scrambles.symm.trans h.scrambleRoom
    timeout := hdrawn.timeout.symm.trans h.timeout
    typewriterReset := hdrawn.typewriterReset.symm.trans h.typewriterReset
    scrambleReset := hdrawn.scrambleReset.symm.trans h.scrambleReset }

theorem setLanguage (h : e.InStep) (language : String) :
    (e.setLanguage language).value.2.InStep := by
  simp only [Engine.setLanguage, Logged.value_bind, LayoutCache.report_setLanguage]
  split
  · rename_i hsame
    exact { h with language := hsame }
  · exact { h with language := rfl, layouts_le := Recency.length_le _ }

theorem setScale (h : e.InStep) (scale : Float) : (e.setScale scale).value.2.InStep := by
  simp only [Engine.setScale, Logged.value_bind, LayoutCache.report_setScale]
  split
  · rename_i hsame
    exact { h with scaleBits := hsame }
  · exact { h with scaleBits := rfl, layouts_le := Recency.length_le _ }

/-- Tracks are made anew when the configuration asks for other ones. -/
theorem sameLimits_tracks (h : e.InStep) (config : Config) :
    (if tracksDiffer config e.config then TrackStore.ofConfig config else e.tracks).SameLimits
      (.ofConfig config) := by
  split
  · exact .refl _
  · rename_i hsame
    simp only [tracksDiffer, Bool.or_eq_true, bne_iff_ne, not_or, not_not] at hsame
    obtain ⟨⟨⟨hcapacity, htimeout⟩, htypewriter⟩, hscramble⟩ := hsame
    refine ⟨?_, ?_, ?_, ?_, ?_⟩
    · rw [h.timeout, ← htimeout]
      rfl
    · rw [h.typewriterReset, ← htypewriter]
      rfl
    · rw [h.scrambleReset, ← hscramble]
      rfl
    · rw [h.typewriterRoom, ← hcapacity]
      rfl
    · rw [h.scrambleRoom, ← hcapacity]
      rfl

theorem applyConfig (h : e.InStep) (config : Config) :
    (e.applyConfig config).value.2.InStep := by
  cases hsame : config == e.config with
  | true =>
    simp only [Engine.applyConfig, hsame, if_true]
    exact h
  | false =>
    have htracks := h.sameLimits_tracks config
    obtain ⟨hfingerprint, hlanguage, hscaleBits, hroom⟩ :=
      (e.layouts.resize config.layoutCapacity.toNat).remembers_setFingerprint config.fingerprint
    rw [e.value_applyConfig hsame]
    exact {
      renderer := rfl
      language := hlanguage.trans h.language
      scaleBits := hscaleBits.trans h.scaleBits
      fingerprint := hfingerprint
      layoutRoom := hroom
      layouts_le := Recency.length_le _
      typewriterRoom := htracks.typewriters
      scrambleRoom := htracks.scrambles
      timeout := htracks.timeout
      typewriterReset := htracks.typewriterReset
      scrambleReset := htracks.scrambleReset }

theorem after (h : e.InStep) (op : Operation ω σ) : (e.after op).InStep := by
  cases op with
  | withRegistry registry => exact { h with layouts_le := Recency.length_le _ }
  | parse source => exact h
  | layout source width seed shape host => exact h.layoutWith _ _ _ _ _
  | layoutDeferred source width seed shape host => exact h.layoutWith _ _ _ _ _
  | sequence place host => exact { h with }
  | render text frame now => exact h.render text frame now
  | setLanguage language => exact h.setLanguage language
  | setScale scale => exact h.setScale scale
  | applyConfig config => exact h.applyConfig config

end InStep

/-! ### Reports -/

/-- A report says whether something differs.  If so no layout is stored any more; else those stay
that there is room for, the ones that were used last. -/
structure Announces (e : Engine ω σ) (report : Bool × Engine ω σ) (differs : Prop) : Prop where
  changed : report.1 = true ↔ differs
  dropped : report.1 = true → report.2.layouts.entries.entries = []
  kept : report.1 = false → report.2.layouts.entries.entries =
    e.layouts.entries.entries.take report.2.layouts.capacity
  keptAll : report.1 = false → e.layouts.capacity ≤ report.2.layouts.capacity →
    report.2.layouts.entries.entries = e.layouts.entries.entries

section

variable {e : Engine ω σ}

theorem announces_of_entries {report : Bool × Engine ω σ} {differs : Prop}
    (hchanged : report.1 = true ↔ differs) {m : Recency LayoutKey LayoutPlace}
    (hm : m.entries = e.layouts.entries.entries.take m.capacity)
    (hentries : report.2.layouts.entries = if report.1 then m.clear else m) :
    e.Announces report differs := by
  have hkept : report.1 = false → report.2.layouts.entries.entries =
      e.layouts.entries.entries.take report.2.layouts.capacity := by
    intro hsame
    rw [LayoutCache.capacity, hentries, hsame]
    exact hm
  refine ⟨hchanged, fun hdiffers => ?_, hkept, fun hsame hroom => ?_⟩
  · rw [hentries, hdiffers]
    rfl
  · rw [hkept hsame]
    exact List.take_of_length_le (e.layouts.entries.length_le.trans hroom)

theorem changed_iff {α β : Type} [DecidableEq β] {last now : β} {same other : α} :
    (if some last = some now then (false, same) else (true, other)).1 = true ↔ now ≠ last := by
  by_cases hsame : last = now
  · simp [hsame]
  · simp [hsame, Ne.symm hsame]

theorem entries_eq_take (m : Recency LayoutKey LayoutPlace) :
    m.entries = m.entries.take m.capacity := (List.take_of_length_le m.length_le).symm

theorem InStep.announces_setLanguage (h : e.InStep) (language : String) :
    e.Announces (e.setLanguage language).value (language ≠ e.language) := by
  refine announces_of_entries ?_ (entries_eq_take e.layouts.entries)
    (e.layouts.reports_setLanguage language).entries
  simp only [Engine.setLanguage, Logged.value_bind, LayoutCache.report_setLanguage, h.language]
  exact changed_iff

theorem InStep.announces_setScale (h : e.InStep) (scale : Float) :
    e.Announces (e.setScale scale).value (scale.toBits ≠ e.scale.toBits) := by
  refine announces_of_entries ?_ (entries_eq_take e.layouts.entries)
    (e.layouts.reports_setScale scale).entries
  simp only [Engine.setScale, Logged.value_bind, LayoutCache.report_setScale, h.scaleBits]
  exact changed_iff

theorem InStep.announces_applyConfig (h : e.InStep) (config : Config) :
    e.Announces (e.applyConfig config).value (config.fingerprint ≠ e.config.fingerprint) := by
  cases hother : config == e.config with
  | true =>
    have hvalue : (e.applyConfig config).value = (false, e) := by
      simp only [Engine.applyConfig, hother, if_true, Logged.value_pure]
    rw [hvalue]
    refine announces_of_entries ?_ (entries_eq_take e.layouts.entries) rfl
    simp [Config.fingerprint_eq_of_beq hother]
  | false =>
    let resized := e.layouts.resize config.layoutCapacity.toNat
    have hreport : (e.applyConfig config).value.1 =
        (resized.setFingerprint config.fingerprint).value.1 := by
      simp only [Engine.applyConfig, hother]
      rfl
    have hlayouts : (e.applyConfig config).value.2.layouts =
        (resized.setFingerprint config.fingerprint).value.2 := by
      rw [e.value_applyConfig hother]
    refine announces_of_entries ?_ (m := resized.entries) (Recency.firstEntries_eq_take _ _) ?_
    · have hbefore : resized.fingerprint = some e.config.fingerprint := h.fingerprint
      rw [hreport, LayoutCache.report_setFingerprint, hbefore]
      exact changed_iff
    · rw [hlayouts, hreport]
      exact (resized.reports_setFingerprint config.fingerprint).entries

end

/-- The engine after operations. -/
def run (e : Engine ω σ) (ops : List (Operation ω σ)) : Engine ω σ := ops.foldl after e

theorem InStep.run {e : Engine ω σ} (h : e.InStep) (ops : List (Operation ω σ)) :
    (e.run ops).InStep := by
  induction ops generalizing e with
  | nil => exact h
  | cons op rest ih => exact ih (h.after op)

/-- In every state that a run leads to the parts are in step, and reports of a change are right. -/
theorem inStep_run (config : Config) (ops : List (Operation ω σ)) :
    let e := (ofConfig config : Engine ω σ).run ops
    e.InStep ∧
    (∀ language, e.Announces (e.setLanguage language).value (language ≠ e.language)) ∧
    (∀ scale : Float, e.Announces (e.setScale scale).value (scale.toBits ≠ e.scale.toBits)) ∧
    ∀ config', e.Announces (e.applyConfig config').value
      (config'.fingerprint ≠ e.config.fingerprint) := by
  intro e
  have h : e.InStep := (InStep.ofConfig config).run ops
  exact ⟨h, h.announces_setLanguage, h.announces_setScale, h.announces_applyConfig⟩

/-- There is room for a track when the configuration asks for none. -/
theorem trackRoom_ne_zero :
    let e : Engine Unit Unit := (ofConfig { trackCapacity := 0 }).run []
    e.config.trackCapacity = 0 ∧ e.tracks.capacity = 1 ∧
      e.tracks.capacity ≠ e.config.trackCapacity.toNat := by
  decide

end Engine

end KineticText
