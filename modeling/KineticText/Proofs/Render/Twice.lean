import KineticText.Proofs.Render.Overflow
import KineticText.Proofs.Render.SharedKeys

/-! Drawing a text twice at one time.  The store may hold tracks with reset delays of their own.  A
scrambled element whose track has none is reset whenever it is asked at the time of its last access,
and its random choices begin anew.  Main statement: when what changes at random has reset delays and
no two elements of different lengths share a track, the second frame is the first one again. -/

namespace KineticText

namespace Drawing

variable {d : Drawing} {tracks : TrackStore} {traced : Bool}

/-- The glyphs and the tracks after them, unless the program stops on the way. -/
def drawn? (d : Drawing) (tracks : TrackStore) (traced : Bool) :
    Option (Array Glyph × TrackStore) :=
  (d.renderer.render d.text d.frame d.now tracks).outcome? traced

/-- A parsed text, under a configuration that lets tracks wait, at a time from which every deadline
is a word.  The store has room for the text, and a host can come to its tracks. -/
structure WellPosed (d : Drawing) (tracks : TrackStore) : Prop where
  parsed : ∃ (registry : Registry) (options : Markup.ParseOptions) (source : String),
    d.text = (Markup.parse registry options source).value
  typewriterReset : 0 < d.renderer.config.typewriterReset
  scrambleReset : 0 < d.renderer.config.scrambleReset
  timely : ScrambleTrack.Timely d.now d.renderer.config.timing
  typewriters : d.typewriterKeys.card ≤ tracks.typewriters.capacity
  scrambles : d.scrambleKeys.card ≤ tracks.scrambles.capacity
  reachable : ∀ entry ∈ tracks.scrambles.entries, entry.2.Reachable

/-- The elements of a text have keys of their own unless the text is very long. -/
theorem WellPosed.tellsApart (h : d.WellPosed tracks) (hlength : d.text.length < 2 ^ 32) :
    d.TellsApart := by
  obtain ⟨registry, options, source, hparsed⟩ := h.parsed
  exact tellsApart_of_length_lt (hparsed ▸ Markup.governed_parse registry options source) hlength

/-- The text is drawn twice, with the same glyphs. -/
def GivesTwice (d : Drawing) (tracks : TrackStore) (traced : Bool) : Prop :=
  ∃ glyphs after after', d.drawn? tracks traced = some (glyphs, after) ∧
    d.drawn? after traced = some (glyphs, after')

theorem outcome_of_drawn? {drawn : Array Glyph × TrackStore}
    (h : d.drawn? tracks traced = some drawn) : d.outcome tracks = drawn := by
  unfold drawn? Logged.outcome? at h
  split at h
  · cases h
  · exact Option.some_inj.mp h

theorem GivesTwice.glyphs_eq (h : d.GivesTwice tracks traced) :
    (d.outcome (d.outcome tracks).2).1 = (d.outcome tracks).1 := by
  obtain ⟨glyphs, after, after', hfirst, hsecond⟩ := h
  rw [outcome_of_drawn? hfirst, outcome_of_drawn? hsecond]

/-- A frame that is drawn twice at one time ends both times, with the same glyphs. -/
theorem outcome_again (h : d.WellPosed tracks) (happart : d.TellsApart)
    (hwaits : tracks.Waits d.randomKeys) (hreports : tracks.ReportsFit traced d.now) :
    d.GivesTwice tracks traced := by
  have hserves : tracks.Serves d := ⟨⟨h.reachable, hwaits⟩, h.typewriters, h.scrambles⟩
  have hfirst := d.renderer.runs_render d.text d.frame h.timely.fits hreports
  have hsecond := d.renderer.runs_render d.text d.frame h.timely.fits hfirst.value
  refine ⟨(d.outcome tracks).1, (d.outcome tracks).2, (d.outcome (d.outcome tracks).2).2,
    hfirst.outcome?_eq, ?_⟩
  rw [← glyphs_outcome_again happart h.timely hserves]
  exact hsecond.outcome?_eq

/-- The built-in tags, and one for text that appears among changing characters. -/
def cipherRegistry : Registry :=
  Registry.builtin.register "cipher" fun _ _ => pure [{ id := "typewriter" },
    { id := "obfuscate", params := .ofList [("mode", .text "random")] }]

/-- A drawing of such a text at a time. -/
def cipherAt (now : Millis) : Drawing where
  renderer := {}
  text := (Markup.parse cipherRegistry {} "<cipher>abc</cipher>").value
  frame := { ticks := 8.0 }
  now

/-- A second later, in a store that has seen the text before. -/
theorem outcome_again_cipher :
    let d := cipherAt 1040
    let tracks := ((cipherAt 40).outcome (.ofConfig {})).2
    d.WellPosed tracks ∧ d.TellsApart ∧ tracks.Waits d.randomKeys ∧
      tracks.ReportsFit true d.now ∧ d.GivesTwice tracks true := by
  intro d tracks
  have hnew : (TrackStore.ofConfig {}).Sound d.randomKeys :=
    ⟨nofun, fun _ _ => ⟨by decide, nofun⟩⟩
  obtain ⟨hsound, hlimits⟩ := (cipherAt 40).maintains_outcome _ hnew
  have hparsed : d.text = (Markup.parse cipherRegistry {} "<cipher>abc</cipher>").value := rfl
  have htypewriters : d.typewriterKeys.card ≤ (TrackStore.ofConfig {}).typewriters.capacity := by
    decide +kernel
  have hscrambles : d.scrambleKeys.card ≤ (TrackStore.ofConfig {}).scrambles.capacity := by
    decide +kernel
  have hposed : d.WellPosed tracks :=
    ⟨⟨_, _, _, hparsed⟩, by decide, by decide, ⟨by decide, by decide, by decide⟩,
      hlimits.typewriters ▸ htypewriters, hlimits.scrambles ▸ hscrambles, hsound.reachable⟩
  have happart : d.TellsApart := by
    have hlength : d.text.length = 3 := by decide +kernel
    exact hposed.tellsApart (by omega)
  have hreports : tracks.ReportsFit true d.now := by
    have hinOrder := (cipherAt 40).keepsOrder_outcome _ (TrackStore.accessedInOrder_ofConfig {} 40)
    exact (hinOrder.later (by decide)).reportsFit true
  exact ⟨hposed, happart, hsound.waits, hreports,
    outcome_again hposed happart hsound.waits hreports⟩

/-- A drawing of changing characters. -/
def changing : Drawing where
  renderer := {}
  text := (Markup.parse .builtin {} "<obfuscate mode=random>abcd</obfuscate>").value
  frame := {}
  now := 1000

/-- A store with a track that has no reset delay. -/
def restlessStore : TrackStore :=
  let key := changing.key.element ⟨0, 4⟩
  let new := TrackStore.ofConfig {}
  { new with scrambles := new.scrambles.put key (.start 1000 0 key.word) }

/-- A store that gives new tracks no reset delay. -/
def hastyStore : TrackStore := .ofConfig { scrambleReset := 0 }

theorem parsed_changing : changing.text =
    (Markup.parse .builtin {} "<obfuscate mode=random>abcd</obfuscate>").value := rfl

theorem wellPosed_changing {tracks : TrackStore} (htypewriters : tracks.typewriters.capacity = 512)
    (hscrambles : tracks.scrambles.capacity = 512)
    (hreachable : ∀ entry ∈ tracks.scrambles.entries, entry.2.Reachable) :
    changing.WellPosed tracks := by
  have hkeys : changing.typewriterKeys.card ≤ 512 ∧ changing.scrambleKeys.card ≤ 512 := by
    decide +kernel
  exact ⟨⟨_, _, _, parsed_changing⟩, by decide, by decide, ⟨by decide, by decide, by decide⟩,
    htypewriters ▸ hkeys.1, hscrambles ▸ hkeys.2, hreachable⟩

theorem wellPosed_siblings {n : Nat} (hn : 0 < n)
    (hkey : (siblingDrawing n).key.element ⟨1, n + 1⟩ = siblingDrawing.firstKey n) :
    (siblingDrawing n).WellPosed (siblingDrawing.before n) := by
  obtain ⟨options, source, hparsed⟩ := siblingDrawing.exists_source hn
  have hcard := Finset.card_le_card (siblingDrawing.typewriterKeys_subset hkey hn)
  have hreset : 0 < ({} : Config).typewriterReset := by decide
  have hreset' : 0 < ({} : Config).scrambleReset := by decide
  have htimely : ScrambleTrack.Timely 0 ({} : Config).timing :=
    ⟨by decide, by decide, by decide⟩
  refine ⟨⟨_, options, source, hparsed⟩, hreset, hreset', htimely, ?_, ?_, nofun⟩
  · exact hcard.trans (by decide : 1 ≤ 512)
  · rw [siblingDrawing.scrambleKeys_eq hn]
    exact Nat.zero_le _

/-- Two frames differ when a stored track has no reset delay, when new tracks get none, and when
two elements of different lengths share a track. -/
theorem not_givesTwice :
    (changing.WellPosed restlessStore ∧ changing.TellsApart ∧ 0 < restlessStore.scrambleReset ∧
        ¬ changing.GivesTwice restlessStore false) ∧
      (changing.WellPosed hastyStore ∧ changing.TellsApart ∧
        (∀ entry ∈ hastyStore.scrambles.entries, 0 < entry.2.resetDelay) ∧
        ¬ changing.GivesTwice hastyStore false) ∧
      (siblingDrawing (2 ^ 32)).WellPosed (siblingDrawing.before (2 ^ 32)) ∧
        (siblingDrawing.before (2 ^ 32)).Waits (siblingDrawing (2 ^ 32)).randomKeys ∧
        ¬ (siblingDrawing (2 ^ 32)).GivesTwice (siblingDrawing.before (2 ^ 32)) false := by
  have hrestless : changing.WellPosed restlessStore :=
    wellPosed_changing rfl rfl fun entry hentry => by
      rw [List.mem_singleton.mp hentry]
      exact ScrambleTrack.reachable_start _ _ _
  have hhasty : changing.WellPosed hastyStore := wellPosed_changing rfl rfl nofun
  have happart : changing.TellsApart := by
    have hlength : changing.text.length = 4 := by decide +kernel
    exact hhasty.tellsApart (by omega)
  have hkey := element_eq_of_long (siblingDrawing (2 ^ 32)).key
  have hlong := wellPosed_siblings (by decide) hkey
  have hwaits : (siblingDrawing.before (2 ^ 32)).Waits (siblingDrawing (2 ^ 32)).randomKeys :=
    fun _ _ => ⟨(by decide : (0 : Millis) < 1000), nofun⟩
  refine ⟨⟨hrestless, happart, by decide, fun h => ?_⟩, ⟨hhasty, happart, nofun, fun h => ?_⟩,
    hlong, hwaits, fun h => ?_⟩
  · have hdiffer : (changing.outcome (changing.outcome restlessStore).2).1.map Glyph.character ≠
        (changing.outcome restlessStore).1.map Glyph.character := by decide +kernel
    exact hdiffer (congrArg _ h.glyphs_eq)
  · have hdiffer : (changing.outcome (changing.outcome hastyStore).2).1.map Glyph.character ≠
        (changing.outcome hastyStore).1.map Glyph.character := by decide +kernel
    exact hdiffer (congrArg _ h.glyphs_eq)
  · exact siblingDrawing.outcome_ne (by decide) hkey h.glyphs_eq

end Drawing

end KineticText
