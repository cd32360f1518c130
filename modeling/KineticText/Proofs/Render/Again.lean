import KineticText.Proofs.Render.Settling
import KineticText.Proofs.Render.Upkeep

/-! Drawing a frame again.  The first question of a frame settles a track, and in a store with room
for all keys of the frame no settled track is dropped while the frame asks others.  So the store
that a frame leaves holds what every question of the frame was answered from.  Main statement: a
store that still has what a frame has settled gives the frame again. -/

namespace KineticText

open TrackStore

/-- The keys of the elements that are scrambled at random. -/
def Drawing.randomKeys (d : Drawing) : Finset TrackKey :=
  (d.kept.filterMap fun
    | (extent, .scramble e) => if e.mode = .random then some (d.key.element extent) else none
    | _ => none).toFinset

theorem Drawing.element_mem_randomKeys {d : Drawing} {extent : Extent} {e : Scramble}
    (h : d.renderer.config.Keeps d.text (extent, .scramble e)) (hrandom : e.mode = .random) :
    d.key.element extent ∈ d.randomKeys := by
  rw [randomKeys, List.mem_toFinset]
  exact List.mem_filterMap.mpr ⟨_, List.mem_flatMap.mpr h, if_pos hrandom⟩

namespace TrackStore

/-- The store is sound for what changes at random, and has room for the tracks of a drawing. -/
structure Serves (s : TrackStore) (d : Drawing) : Prop where
  sound : s.Sound d.randomKeys
  typewriters : d.typewriterKeys.card ≤ s.typewriters.capacity
  scrambles : d.scrambleKeys.card ≤ s.scrambles.capacity

theorem Serves.of_maintains {s : TrackStore} {d : Drawing} {α : Type} {act : StoreAction α}
    (h : s.Serves d) (hact : Maintains d.randomKeys act) : (act s).2.Serves d := by
  obtain ⟨hsound, hlimits⟩ := hact s h.sound
  exact ⟨hsound, hlimits.typewriters ▸ h.typewriters, hlimits.scrambles ▸ h.scrambles⟩

/-- A track that has been asked at a time is not stale then. -/
theorem isStale_eq_false {τ : Type} [Timed τ] {now : Millis} {track : τ}
    (h : Timed.lastAccess track = now) (timeout : Millis) : isStale now timeout track = false := by
  rw [isStale, h, Millis.since_self]
  exact decide_eq_false (UInt64.not_lt.mpr UInt64.zero_le)

variable {s : TrackStore} {now : Millis} {key : TrackKey} {keys : Finset TrackKey}

theorem typewriterAt_of_recent {track : TypewriterTrack Float}
    (h : s.typewriters.Recent keys key track) (hcurrent : track.lastAccess = now) :
    s.typewriterAt now key = track := by
  rw [typewriterAt, Tracks.live?, h.peek?_eq, Option.filter_some, isStale_eq_false hcurrent]
  rfl

theorem scrambleAt_of_recent {track : ScrambleTrack} (h : s.scrambles.Recent keys key track)
    (hcurrent : track.lastAccess = now) : s.scrambleAt now key = track := by
  rw [scrambleAt, Tracks.live?, h.peek?_eq, Option.filter_some, isStale_eq_false hcurrent]
  rfl

end TrackStore

namespace Drawing

variable (d : Drawing)

/-! ### What is settled -/

/-- The family in which an effect has the track of its element. -/
def family? : Effect → Option Family
  | .typewriter _ =>
    if d.renderer.config.allocation = .independent then some .typewriter else none
  | .scramble _ => some .obfuscate
  | _ => none

/-- The number of characters of the element with a track. -/
def lengthAt (family : Family) (key : TrackKey) : Nat :=
  ((d.kept.find? fun entry =>
    d.family? entry.2 = some family ∧ d.key.element entry.1 = key).map (·.1.length)).getD 0

/-- The number of characters for which the drawing asks the track of a typewriter. -/
def totalAt (key : TrackKey) : Nat :=
  match d.renderer.config.allocation with
  | .container => d.renderer.sharedTotal d.text
  | .independent => d.lengthAt .typewriter key

/-- The track of a typewriter is settled, and has been used since any but those of the drawing. -/
def TypewriterSettled (s : TrackStore) (key : TrackKey) (origin : Float) : Prop :=
  ∃ track, s.typewriters.Recent d.typewriterKeys key track ∧
    track.Settled d.frame d.renderer.config d.now (d.totalAt key) origin

/-- The track of a scrambled element is settled, and has been used since any but those of the
drawing. -/
def ScrambleSettled (s : TrackStore) (key : TrackKey) (origin : Millis)
    (drifting : Option (List (Nat × Millis))) : Prop :=
  ∃ track, s.scrambles.Recent d.scrambleKeys key track ∧
    track.Settled d.now d.renderer.config.timing (d.lengthAt .obfuscate key) origin drifting

/-- What is settled in the first store is so in the second. -/
structure Recalls (s s' : TrackStore) : Prop where
  typewriters : ∀ key ∈ d.typewriterKeys, ∀ origin,
    d.TypewriterSettled s key origin → d.TypewriterSettled s' key origin
  scrambles : ∀ key ∈ d.scrambleKeys, ∀ origin drifting,
    d.ScrambleSettled s key origin drifting → d.ScrambleSettled s' key origin drifting

variable {d}

theorem Recalls.refl (s : TrackStore) : d.Recalls s s :=
  ⟨fun _ _ _ h => h, fun _ _ _ _ h => h⟩

theorem Recalls.trans {s s' s'' : TrackStore} (h : d.Recalls s s') (h' : d.Recalls s' s'') :
    d.Recalls s s'' :=
  ⟨fun key hkey origin hs => h'.typewriters key hkey origin (h.typewriters key hkey origin hs),
    fun key hkey origin drifting hs =>
      h'.scrambles key hkey origin drifting (h.scrambles key hkey origin drifting hs)⟩

variable (d) in
/-- An action that settles what it asks: a store that recalls what it has left gives its answer. -/
structure Repeats {α : Type} (act : StoreAction α) : Prop where
  maintains : Maintains d.randomKeys act
  recalls : ∀ s, s.Serves d → d.Recalls s (act s).2
  again : ∀ s s', s.Serves d → s'.Serves d → d.Recalls (act s).2 s' → (act s').1 = (act s).1

theorem composes_repeats : Composes d.Repeats where
  answer a := ⟨composes_maintains.answer a, fun s _ => .refl s, fun _ _ _ _ _ => rfl⟩
  andThen {_ _ act next} hact hnext := by
    refine ⟨composes_maintains.andThen hact.maintains fun a => (hnext a).maintains,
      fun s h => (hact.recalls s h).trans ((hnext _).recalls _ (h.of_maintains hact.maintains)),
      fun s s' h h' hrecalls => ?_⟩
    have hafter := h.of_maintains hact.maintains
    have hafter' := h'.of_maintains hact.maintains
    -- What the first part has settled stays so in the second part, and so in the other store.
    have hanswer := hact.again s s' h h' (((hnext _).recalls _ hafter).trans hrecalls)
    rw [hanswer]
    exact (hnext _).again _ _ hafter hafter' (hrecalls.trans (hact.recalls s' h'))

/-! ### The steps of a frame -/

/-- Asking the track of a typewriter for the characters of its element. -/
theorem repeats_askTypewriter {key : TrackKey} (hkey : key ∈ d.typewriterKeys) :
    d.Repeats fun tracks => (tracks.askTypewriter d.now key
      (d.frame.question d.renderer.config d.now (d.totalAt key))).value := by
  refine ⟨maintains_askTypewriter d.now key _, fun s h => ⟨?_, ?_⟩, fun s s' h _ hrecalls => ?_⟩
  · intro key' hkey' origin hsettled
    rw [value_askTypewriter]
    refine Recency.exists_recent_put hkey hkey' h.typewriters (fun track heq hrecent htrack => ?_)
      hsettled
    rw [typewriterAt_of_recent hrecent htrack.current, ← heq]
    exact htrack.question.2
  · rw [value_askTypewriter]
    exact fun _ _ _ _ hsettled => hsettled
  · -- The track has settled on the origin that it answered from, and still has it.
    have hsettled := TypewriterTrack.settled_question (t := s.typewriterAt d.now key) d.frame
      d.renderer.config d.now (d.totalAt key)
    obtain ⟨track, hrecent, htrack⟩ := hrecalls.typewriters key hkey _ (by
      rw [value_askTypewriter]
      exact ⟨_, Recency.recent_put _ _ _ _, hsettled⟩)
    rw [value_askTypewriter, value_askTypewriter,
      typewriterAt_of_recent hrecent htrack.current, htrack.question.1]
    rfl

/-- Scrambling a character of an element. -/
theorem repeats_draw (htimely : ScrambleTrack.Timely d.now d.renderer.config.timing)
    {extent : Extent} {e : Scramble} (he : d.renderer.config.Keeps d.text (extent, .scramble e))
    (hlength : d.lengthAt .obfuscate (d.key.element extent) = extent.length)
    (shares : List (Extent × Nat)) (g : Glyph) :
    d.Repeats (e.draw (d.renderer.scope d.text d.frame d.now shares extent) g) := by
  let scope := d.renderer.scope d.text d.frame d.now shares extent
  have hkey := element_mem_scrambleKeys he
  have hlasting : ∀ s : TrackStore, s.Serves d → e.mode = .random →
      0 < (s.scrambleAt d.now (d.key.element extent)).resetDelay := fun s h hrandom =>
    h.sound.lasting_scrambleAt d.now (element_mem_randomKeys he hrandom)
  refine ⟨maintains_draw scope e g, fun s h => ⟨fun _ _ _ hsettled => hsettled, ?_⟩,
    fun s s' h _ hrecalls => ?_⟩
  · intro key' hkey' origin drifting hsettled
    refine Recency.exists_recent_put hkey hkey' h.scrambles (fun track heq hrecent htrack => ?_)
      hsettled
    have hat : s.scrambleAt d.now (d.key.element extent) = track :=
      scrambleAt_of_recent hrecent htrack.current
    have hkeyed : d.lengthAt .obfuscate key' = extent.length :=
      (congrArg (d.lengthAt .obfuscate) heq).trans hlength
    rw [hkeyed] at htrack ⊢
    have hmoved := Scramble.Settled.moved (s := scope) htrack (hat ▸ hlasting s h) htimely
    rwa [← hat] at hmoved
  · have hsound := (h.sound.reachable_scrambleAt d.now (d.key.element extent)).sound
    have hsettled := Scramble.settled_moved (e := e) (s := scope) hsound (hlasting s h) htimely
    obtain ⟨track, hrecent, htrack⟩ := hrecalls.scrambles _ hkey _ _
      ⟨_, Recency.recent_put _ _ _ _, by rw [hlength]; exact hsettled⟩
    have hat : s'.scrambleAt d.now (d.key.element extent) = track :=
      scrambleAt_of_recent hrecent htrack.current
    rw [hlength] at htrack
    have hglyph := Scramble.redraw_moved hsound hsettled htrack htimely g
    exact congrArg (fun glyph => glyph.toOption.getD g) (hat ▸ hglyph)

/-! ### Frames -/

variable (d) in
/-- Elements that share a track are equally long. -/
def TellsApart : Prop :=
  ∀ family entry other, d.renderer.config.Keeps d.text entry →
    d.renderer.config.Keeps d.text other → d.family? entry.2 = some family →
    d.family? other.2 = some family → d.key.element entry.1 = d.key.element other.1 →
    entry.1.length = other.1.length

theorem TellsApart.lengthAt_element (h : d.TellsApart) {family : Family}
    {entry : Extent × Effect} (hentry : d.renderer.config.Keeps d.text entry)
    (hfamily : d.family? entry.2 = some family) :
    d.lengthAt family (d.key.element entry.1) = entry.1.length := by
  have hmem : entry ∈ d.kept := List.mem_flatMap.mpr hentry
  unfold lengthAt
  generalize hkey : d.key.element entry.1 = key
  cases hfound : d.kept.find? fun other =>
      d.family? other.2 = some family ∧ d.key.element other.1 = key with
  | none =>
    exact absurd (decide_eq_true ⟨hfamily, hkey⟩) (List.find?_eq_none.mp hfound entry hmem)
  | some other =>
    have hother := List.find?_some hfound
    rw [decide_eq_true_eq] at hother
    obtain ⟨hfamily', hkey'⟩ := hother
    have hkept : d.renderer.config.Keeps d.text other :=
      List.mem_flatMap.mp (List.mem_of_find?_eq_some hfound)
    exact h family other entry hkept hentry hfamily' hfamily (hkey'.trans hkey.symm)

theorem repeats_outcome (happart : d.TellsApart)
    (htimely : ScrambleTrack.Timely d.now d.renderer.config.timing) : d.Repeats d.outcome := by
  refine Renderer.EachStep.render ⟨fun hcontainer => ?_, fun hindependent extent e he => ?_,
    fun extent e he shares g => ?_⟩ composes_repeats
  · have hkey : d.key.container ∈ d.typewriterKeys := by
      rw [typewriterKeys, hcontainer]
      exact Finset.mem_singleton_self _
    have hask := repeats_askTypewriter hkey
    rwa [totalAt, hcontainer] at hask
  · have hlengthAt := happart.lengthAt_element he (if_pos hindependent)
    have hask := repeats_askTypewriter (element_mem_typewriterKeys hindependent he)
    rwa [totalAt, hindependent, hlengthAt] at hask
  · have hlengthAt := happart.lengthAt_element he rfl
    exact repeats_draw htimely he hlengthAt shares g

/-- A store that a frame has left gives the frame again. -/
theorem glyphs_outcome_again (happart : d.TellsApart)
    (htimely : ScrambleTrack.Timely d.now d.renderer.config.timing) {tracks : TrackStore}
    (hserves : tracks.Serves d) : (d.outcome (d.outcome tracks).2).1 = (d.outcome tracks).1 := by
  have hrepeats := repeats_outcome happart htimely
  exact hrepeats.again tracks _ hserves (hserves.of_maintains hrepeats.maintains) (.refl _)

end Drawing

end KineticText
