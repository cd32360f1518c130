import KineticText.Engine

/-! Runs of the engine.  A host asks an engine for one thing after the other, and the layouts that
the engine stores are those that some earlier state parsed.  `Stored` says of which states: every
stored layout was parsed with the registry of now, under a configuration with the fingerprint of
now.  Main statement: `Stored` holds in every state that a run leads to. -/

namespace KineticText

variable {ω σ : Type}

/-! ### What lookups do to a map -/

namespace Recency

variable {κ α : Type} [BEq κ] [LawfulBEq κ]

theorem mem_put {m : Recency κ α} {key : κ} {value : α} {entry : κ × α}
    (h : entry ∈ (m.put key value).entries) : entry = (key, value) ∨ entry ∈ m.entries := by
  rcases List.mem_cons.mp h with rfl | hold
  · exact .inl rfl
  · rw [firstEntries_eq_take] at hold
    exact .inr (List.eraseP_subset (List.mem_of_mem_take hold))

theorem forall_mem_put {P : α → Prop} {m : Recency κ α} {key : κ} {value : α} (hvalue : P value)
    (h : ∀ entry ∈ m.entries, P entry.2) : ∀ entry ∈ (m.put key value).entries, P entry.2 := by
  intro entry hentry
  rcases mem_put hentry with rfl | hold
  · exact hvalue
  · exact h entry hold

theorem mem_of_peek? {m : Recency κ α} {key : κ} {value : α} (h : m.peek? key = some value) :
    (key, value) ∈ m.entries := by
  obtain ⟨l₁, l₂, heq, -⟩ := List.lookup_eq_some_iff.mp h
  rw [heq]
  simp

/-- A map with one entry keeps it when it gets another size. -/
theorem entries_resize_put_empty {m : Recency κ α} (h : m.entries = []) (key : κ) (value : α)
    (capacity : Nat) : ((m.put key value).resize capacity).entries = [(key, value)] := by
  have hput : (m.put key value).entries = [(key, value)] := by
    simp [put, others, h]
  simp only [resize, hput, firstEntries_eq_take]
  exact List.take_of_length_le (Nat.le_max_right capacity 1)

end Recency

theorem LayoutCache.value_setFingerprint {α : Type} (c : LayoutCache α) (fingerprint : UInt64) :
    (c.setFingerprint fingerprint).value.2 =
      if c.fingerprint = some fingerprint then c
      else { c with entries := c.entries.clear, fingerprint := some fingerprint } := by
  unfold setFingerprint
  split <;> rfl

/-- The text of a layout on the shelf. -/
def Shelf.text? (s : Shelf ω σ) (place : LayoutPlace) : Option AttributedText :=
  (s.get? place).map Layout.text

namespace Shelf

theorem text?_add_new (s : Shelf ω σ) (layout : Layout ω σ) :
    (s.add layout).2.text? (s.add layout).1 = some layout.text := by
  simp [text?, get?, add]

theorem text?_add_old {s : Shelf ω σ} {place : LayoutPlace} {text : AttributedText}
    (layout : Layout ω σ) (h : s.text? place = some text) :
    (s.add layout).2.text? place = some text := by
  simp only [text?, get?, add, Option.map_eq_some_iff] at h ⊢
  obtain ⟨old, hold, rfl⟩ := h
  have hlt := (Array.getElem?_eq_some_iff.mp hold).1
  exact ⟨old, by rw [Array.getElem?_push_lt hlt, ← Array.getElem?_eq_getElem hlt, hold], rfl⟩

/-- Making a sequence leaves all texts alone. -/
theorem text?_sequence (s : Shelf ω σ) (place place' : LayoutPlace) (host : ω) :
    (s.sequence place host).2.1.text? place' = s.text? place' := by
  unfold sequence
  split
  · rfl
  · rfl
  · rename_i text make hplace
    simp only [text?, get?, Array.getElem?_setIfInBounds]
    by_cases hsame : place.index = place'.index
    · rw [if_pos hsame, ← hsame]
      simp only [get?] at hplace
      rw [if_pos (Array.getElem?_eq_some_iff.mp hplace).1, hplace]
      rfl
    · rw [if_neg hsame]

end Shelf

namespace Engine

/-! ### Operations -/

/-- What a host asks of an engine; `host` is the host's own state at the time. -/
inductive Operation (ω σ : Type)
  | withRegistry (registry : Registry)
  | parse (source : String)
  | layout (source : String) (width : UInt32) (seed : UInt64)
    (shape : AttributedText → ω → σ × ω) (host : ω)
  | layoutDeferred (source : String) (width : UInt32) (seed : UInt64) (shape : ω → σ × ω)
    (host : ω)
  | sequence (place : LayoutPlace) (host : ω)
  | render (text : AttributedText) (frame : Frame) (now : Millis)
  | setLanguage (language : String)
  | setScale (scale : Float)
  | applyConfig (config : Config)

/-- The engine after an operation. -/
def after (e : Engine ω σ) : Operation ω σ → Engine ω σ
  | .withRegistry registry => (e.withRegistry registry).value
  | .parse _ => e
  | .layout source width seed shape host => (e.layout source width seed shape host).value.2.1
  | .layoutDeferred source width seed shape host =>
    (e.layoutDeferred source width seed shape host).value.2.1
  | .sequence place host => (e.sequence place host).2.1
  | .render text frame now => (e.render text frame now).value.2
  | .setLanguage language => (e.setLanguage language).value.2
  | .setScale scale => (e.setScale scale).value.2
  | .applyConfig config => (e.applyConfig config).value.2

/-- The states that runs lead to, when all configurations on the way are `allowed`. -/
inductive Reachable (allowed : Config → Prop) : Engine ω σ → Prop
  | start {config : Config} (h : allowed config) : Reachable allowed (.ofConfig config)
  | step {e : Engine ω σ} (h : Reachable allowed e) (op : Operation ω σ)
    (hop : ∀ config, op = .applyConfig config → allowed config) : Reachable allowed (e.after op)

/-- The text of the layout that a request gave. -/
def givenText (given : Logged (LayoutPlace × Engine ω σ × ω)) : Option AttributedText :=
  given.value.2.1.shelf.text? given.value.1

/-- Layouts show what the source means in the same state. -/
def Fresh (e : Engine ω σ) : Prop :=
  ∀ (source : String) (width : UInt32) (seed : UInt64) (host : ω),
    (∀ shape, givenText (e.layout source width seed shape host) = some (e.parse source).value) ∧
    ∀ shape, givenText (e.layoutDeferred source width seed shape host) =
      some (e.parse source).value

/-! ### What is stored -/

/-- The text of a source with a registry under a configuration. -/
def textOf (registry : Registry) (config : Config) (source : String) : AttributedText :=
  (Markup.parse registry (.ofConfig config) source).value

/-- Every stored layout was parsed with the engine's registry under an allowed configuration with
the fingerprint of the engine's own. -/
structure Stored (allowed : Config → Prop) (e : Engine ω σ) : Prop where
  config : allowed e.config
  fingerprint : e.layouts.fingerprint = some e.config.fingerprint
  parsed : ∀ entry ∈ e.layouts.entries.entries, ∃ config, allowed config ∧
    config.fingerprint = e.config.fingerprint ∧
    e.shelf.text? entry.2 = some (textOf e.registry config entry.1.text)

/-- A request finds a stored layout under its key, or stores a new one there if there is none. -/
theorem layoutWith_cases (e : Engine ω σ) (source : String) (width : UInt32) (seed : UInt64)
    (shape : AttributedText → ω → Sequence ω σ × ω) (host : ω) :
    (∃ place, (e.layoutKey source width seed, place) ∈ e.layouts.entries.entries ∧
      (e.layoutWith source width seed shape host).value = (place, { e with
        layouts := { e.layouts with
          entries := e.layouts.entries.put (e.layoutKey source width seed) place
          hits := e.layouts.hits + 1 } }, host)) ∨
    e.layouts.entries.peek? (e.layoutKey source width seed) = none ∧
      ∃ layout : Layout ω σ, layout.text = (e.parse source).value ∧ ∃ host',
      (e.layoutWith source width seed shape host).value = ((e.shelf.add layout).1, { e with
        layouts := { e.layouts with
          entries := e.layouts.entries.put (e.layoutKey source width seed) (e.shelf.add layout).1
          misses := e.layouts.misses + 1 }
        shelf := (e.shelf.add layout).2 }, host') := by
  cases hpeek : e.layouts.entries.peek? (e.layoutKey source width seed) with
  | some place =>
    refine .inl ⟨place, Recency.mem_of_peek? hpeek, ?_⟩
    simp [layoutWith, LayoutCache.getOrMake, LayoutCache.get, Recency.get?, hpeek]
  | none =>
    refine .inr ⟨rfl, ⟨(e.parse source).value, (shape (e.parse source).value host).1⟩, rfl,
      (shape (e.parse source).value host).2, ?_⟩
    simp [layoutWith, LayoutCache.getOrMake, LayoutCache.get, LayoutCache.keep, LayoutCache.put,
      Recency.get?, hpeek]

/-- Taking on another configuration gives the cache its room and reports its fingerprint. -/
theorem value_applyConfig (e : Engine ω σ) {config : Config} (h : (config == e.config) = false) :
    (e.applyConfig config).value.2 = { e with
      config
      renderer := ⟨config⟩
      tracks := if tracksDiffer config e.config then .ofConfig config else e.tracks
      layouts := ((e.layouts.resize config.layoutCapacity.toNat).setFingerprint
        config.fingerprint).value.2 } := by
  simp only [applyConfig, h]
  rfl

namespace Stored

variable {allowed : Config → Prop} {e e' : Engine ω σ}

theorem ofConfig {config : Config} (h : allowed config) :
    Stored allowed (.ofConfig config : Engine ω σ) where
  config := h
  fingerprint := rfl
  parsed _ hentry := absurd hentry List.not_mem_nil

theorem of_no_entries (h : allowed e.config)
    (hfingerprint : e.layouts.fingerprint = some e.config.fingerprint)
    (hentries : e.layouts.entries.entries = []) : Stored allowed e where
  config := h
  fingerprint := hfingerprint
  parsed entry hentry := absurd hentry (by rw [hentries]; exact List.not_mem_nil)

/-- Layouts may be dropped and others put on the shelf, while the registry and the fingerprint
stay. -/
theorem of_fewer (h : Stored allowed e) (hconfig : allowed e'.config)
    (hversion : e'.config.fingerprint = e.config.fingerprint)
    (hregistry : e'.registry = e.registry)
    (hfingerprint : e'.layouts.fingerprint = e.layouts.fingerprint)
    (hentries : ∀ entry ∈ e'.layouts.entries.entries, entry ∈ e.layouts.entries.entries)
    (hshelf : ∀ place, e'.shelf.text? place = e.shelf.text? place) : Stored allowed e' where
  config := hconfig
  fingerprint := by rw [hfingerprint, h.fingerprint, hversion]
  parsed entry hentry := by
    rw [hshelf, hversion, hregistry]
    exact h.parsed entry (hentries entry hentry)

theorem layoutWith (h : Stored allowed e) (source : String) (width : UInt32) (seed : UInt64)
    (shape : AttributedText → ω → Sequence ω σ × ω) (host : ω) :
    Stored allowed (e.layoutWith source width seed shape host).value.2.1 := by
  rcases e.layoutWith_cases source width seed shape host with
    ⟨place, hplace, heq⟩ | ⟨-, layout, hlayout, host', heq⟩ <;> rw [heq]
  · refine h.of_fewer h.config rfl rfl rfl (fun entry hentry => ?_) fun _ => rfl
    rcases Recency.mem_put hentry with rfl | hold
    · exact hplace
    · exact hold
  · refine ⟨h.config, h.fingerprint, fun entry hentry => ?_⟩
    rcases Recency.mem_put hentry with rfl | hold
    · refine ⟨e.config, h.config, rfl, ?_⟩
      rw [Shelf.text?_add_new, hlayout]
      rfl
    · obtain ⟨config, hallowed, hversion, htext⟩ := h.parsed entry hold
      exact ⟨config, hallowed, hversion, Shelf.text?_add_old layout htext⟩

theorem setLanguage (h : Stored allowed e) (language : String) :
    Stored allowed (e.setLanguage language).value.2 := by
  simp only [Engine.setLanguage, LayoutCache.setLanguage]
  split
  · exact h.of_fewer h.config rfl rfl rfl (fun _ hentry => hentry) fun _ => rfl
  · exact of_no_entries h.config h.fingerprint rfl

theorem setScale (h : Stored allowed e) (scale : Float) :
    Stored allowed (e.setScale scale).value.2 := by
  simp only [Engine.setScale, LayoutCache.setScale]
  split
  · exact h.of_fewer h.config rfl rfl rfl (fun _ hentry => hentry) fun _ => rfl
  · exact of_no_entries h.config h.fingerprint rfl

theorem applyConfig (h : Stored allowed e) {config : Config} (hconfig : allowed config) :
    Stored allowed (e.applyConfig config).value.2 := by
  cases hsame : config == e.config with
  | true =>
    simp only [Engine.applyConfig, hsame, if_true]
    exact h
  | false =>
    rw [e.value_applyConfig hsame, LayoutCache.value_setFingerprint]
    by_cases hversion : (e.layouts.resize config.layoutCapacity.toNat).fingerprint =
        some config.fingerprint
    · rw [if_pos hversion]
      have hversion : some e.config.fingerprint = some config.fingerprint :=
        h.fingerprint.symm.trans hversion
      rw [Option.some.injEq] at hversion
      refine h.of_fewer hconfig hversion.symm rfl rfl (fun entry hentry => ?_) fun _ => rfl
      simp only [LayoutCache.resize, Recency.resize, Recency.firstEntries_eq_take] at hentry
      exact List.mem_of_mem_take hentry
    · rw [if_neg hversion]
      exact of_no_entries hconfig rfl rfl

/-- Every operation keeps what is stored right. -/
theorem after (h : Stored allowed e) (op : Operation ω σ)
    (hop : ∀ config, op = .applyConfig config → allowed config) : Stored allowed (e.after op) := by
  cases op with
  | withRegistry registry => exact of_no_entries h.config h.fingerprint rfl
  | parse source => exact h
  | layout source width seed shape host => exact h.layoutWith _ _ _ _ _
  | layoutDeferred source width seed shape host => exact h.layoutWith _ _ _ _ _
  | sequence place host =>
    exact h.of_fewer h.config rfl rfl rfl (fun _ hentry => hentry)
      (e.shelf.text?_sequence place · host)
  | render text frame now =>
    exact h.of_fewer h.config rfl rfl rfl (fun _ hentry => hentry) fun _ => rfl
  | setLanguage language => exact h.setLanguage language
  | setScale scale => exact h.setScale scale
  | applyConfig config => exact h.applyConfig (hop config rfl)

end Stored

theorem Reachable.stored {allowed : Config → Prop} {e : Engine ω σ} (h : Reachable allowed e) :
    Stored allowed e := by
  induction h with
  | start h => exact Stored.ofConfig h
  | step _ op hop ih => exact ih.after op hop

end Engine

end KineticText
