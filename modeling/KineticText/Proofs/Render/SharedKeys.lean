import KineticText.Proofs.Markup.RoundTrip
import KineticText.Proofs.Render.Again
import KineticText.Proofs.Render.Visibility
import KineticText.Proofs.Track.Keys

/-! Elements that share a key.  A key has 32 bits for either end of an element, which tells the
elements of a text apart unless the text is longer than that.  In a longer text two elements may
have one key, and with it one track.  When they are typewriters of different lengths, each of them
makes the track start over in every frame.  Main statement: a character that shows is hidden when
its frame is drawn again. -/

namespace KineticText

open Markup

namespace Drawing

/-- Keys tell the elements of a text apart that is not too long for them. -/
theorem tellsApart_of_length_lt {d : Drawing} (hgoverned : d.text.Governed)
    (hlength : d.text.length < 2 ^ 32) : d.TellsApart := by
  intro family entry other h hother _ _ heq
  have hentry := h.start_lt_stop hgoverned
  have hentry' := h.stop_le hgoverned
  have hlt := hother.start_lt_stop hgoverned
  have hle := hother.stop_le hgoverned
  rw [(TrackKey.pack_inj (by omega) (by omega) (by omega) (by omega)).mp
    (TrackKey.element_inj.mp heq)]

theorem element_eq_of_long (key : TrackKey) :
    key.element ⟨1, 2 ^ 32 + 1⟩ = key.element ⟨0, 1⟩ := by
  rw [TrackKey.element_inj]
  decide

end Drawing

/-! ### One track for two elements -/

/-- The track that a frame has asked is the one that it has left. -/
theorem TrackStore.typewriterAt_question (s : TrackStore) (f : Frame) (c : Config) (now : Millis)
    (key : TrackKey) (total : Nat) :
    (s.askTypewriter now key (f.question c now total)).value.2.typewriterAt now key =
      (f.question c now total (s.typewriterAt now key)).value.2 := by
  rw [value_askTypewriter]
  exact typewriterAt_of_recent (Recency.recent_put s.typewriters {key} key _) rfl

/-- A track that counted other characters starts over in a frame. -/
theorem TypewriterTrack.elapsed_of_changed {t : TypewriterTrack Float} {previous total : Nat}
    (hprevious : t.total = some previous) (hne : previous ≠ total) (f : Frame) (now : Millis) :
    (f.question {} now total t).value.1 = f.ticks - f.ticks := by
  have hchanged : t.IsChanged total .onTextChange := ⟨rfl, previous, hprevious, hne⟩
  have hbegins : (t.settled now f.ticks total .onTextChange).origin = none :=
    (t.settles_settled now f.ticks total .onTextChange).origin_eq_none_iff.mpr
      (.inr (.inr (.inl hchanged)))
  have hsettle : f.settle {} now total t = t.settled now f.ticks total .onTextChange := by
    simp only [Frame.settle, observeIf]
    rfl
  simp only [Frame.value_question, hsettle, hbegins, Option.getD_none]

/-- Typewriters side by side, of one character and of `n`. -/
def siblings (n : Nat) : List Node :=
  [.element "t" [] [.text "a"], .element "t" [] [.text (String.ofList (List.replicate n 'a'))]]

/-- A tag that means a typewriter. -/
def siblingRegistry : Registry :=
  Registry.register {} "t" fun _ _ => pure [{ id := "typewriter" }]

/-- A drawing of them at the tick 8. -/
def siblingDrawing (n : Nat) : Drawing where
  renderer := {}
  text := (flatten siblingRegistry false (siblings n)).value
  frame := { ticks := 8.0 }
  now := 0

namespace siblingDrawing

variable {n : Nat}

/-! ### The text -/

theorem exists_source (hn : 0 < n) : ∃ (options : ParseOptions) (source : String),
    (siblingDrawing n).text = (parse siblingRegistry options source).value := by
  have hname : IsWritableTag "t" [] := ⟨⟨rfl, by simp⟩, by simp, by simp⟩
  have hwritable : Node.ListWritable (siblings n) :=
    ⟨⟨hname, trivial, trivial⟩, ⟨hname, trivial, trivial⟩, trivial⟩
  have hnormal : Node.ListNormal (siblings n) := by
    have hne : List.replicate n 'a' ≠ [] := by simp; omega
    simp [siblings, Node.ListNormal, Node.Normal, Node.isText, Node.startsWithText, hne]
  have hdepth : Node.listDepth (siblings n) ≤ 16 := by
    simp [siblings, Node.listDepth, Node.depth]
  obtain ⟨⟨source, hwritten⟩, hread⟩ : (∃ source : String, Written (siblings n) source.toList) ∧
      ∀ source : String, Written (siblings n) source.toList →
        Node.ofTokens (tokenize source) 16 true = pure (siblings n) :=
    ofTokens_tokenize_of_written hnormal hwritable hdepth
  refine ⟨{ maxLength := source.length }, source, ?_⟩
  simp only [parse, truncate, Nat.lt_irrefl, if_false, pure_bind, hread source hwritten]
  rfl

theorem raw_eq (n : Nat) :
    (siblingDrawing n).text.raw.toList = 'a' :: List.replicate n 'a' := by
  have hraw : (siblingDrawing n).text.raw = Node.rawText (siblings n) := rfl
  have hnone : Node.rawText [] = "" := rfl
  simp [hraw, siblings, rawText_element, rawText_text, hnone]

theorem contribution_eq (chain : List Attribute) (offset : Nat) (children : List Node) :
    let e : Element := ⟨"t", [], offset, children⟩
    e.contribution siblingRegistry chain = [{ id := "typewriter", extent := e.extent }] := by
  have hfold : Text.fold "t" = "t" := by decide +kernel
  have hresolve : (siblingRegistry.resolve "t" (Params.ofTexts []) chain).value =
      some [{ id := "typewriter" }] := by
    simp [siblingRegistry, Registry.resolve, Registry.canonical?, Registry.register, Registry.put,
      hfold]
  simp [Element.contribution, hresolve]

theorem attributesAt_zero (n : Nat) :
    (siblingDrawing n).text.attributesAt 0 = [{ id := "typewriter", extent := ⟨0, 1⟩ }] := by
  have hwithin : Node.listElementsAt 0 0 (siblings n) = [⟨"t", [], 0, [.text "a"]⟩] := by
    simp [siblings, Node.listElementsAt, Node.elementsAt, Element.extent, Extent.contains,
      Node.listLength, Node.length]
  rw [siblingDrawing, attributesAt_eq_chainOf, hwithin, chainOf, List.foldl_cons, contribution_eq]
  rfl

theorem attributesAt_succ {index : Nat} (h : index < n) :
    (siblingDrawing n).text.attributesAt (index + 1) =
      [{ id := "typewriter", extent := ⟨1, n + 1⟩ }] := by
  have hone : "a".length = 1 := rfl
  have hwithin : Node.listElementsAt (index + 1) 0 (siblings n) =
      [⟨"t", [], 1, [.text (String.ofList (List.replicate n 'a'))]⟩] := by
    simp [siblings, Node.listElementsAt, Node.elementsAt, Element.extent, Extent.contains,
      Node.listLength, Node.length, hone]
    omega
  rw [siblingDrawing, attributesAt_eq_chainOf, hwithin, chainOf, List.foldl_cons, contribution_eq]
  simp [Element.extent, Node.listLength, Node.length, Nat.add_comm]

/-- What the tag means. -/
def typist : Typewriter where
  speed := Parameter.typewriterSpeed.quiet {}
  delay := Parameter.typewriterDelay.quiet {}
  center := false

theorem effectsOf_typewriter (extent : Extent) :
    ({} : Config).effectsOf [{ id := "typewriter", extent }] = [(extent, .typewriter typist)] := rfl

theorem eq_of_mem_kept (hn : 0 < n) {entry : Extent × Effect}
    (h : entry ∈ (siblingDrawing n).kept) :
    entry = (⟨0, 1⟩, .typewriter typist) ∨ entry = (⟨1, n + 1⟩, .typewriter typist) := by
  obtain ⟨options, source, hparsed⟩ := exists_source hn
  have hgoverned : (siblingDrawing n).text.Governed :=
    hparsed ▸ governed_parse siblingRegistry options source
  have hkeeps : (siblingDrawing n).renderer.config.Keeps (siblingDrawing n).text entry :=
    List.mem_flatMap.mp h
  have hlength : (siblingDrawing n).text.length = n + 1 := by
    rw [AttributedText.length, ← String.length_toList, raw_eq]
    simp
  have hlt := hkeeps.start_lt_stop hgoverned
  have hstop := hkeeps.stop_le hgoverned
  -- The effect acts on the first character of its element.
  have hmem := (Config.Keeps.mem_effectsOf_attributesAt hgoverned).mpr
    ⟨hkeeps, Extent.contains_iff.mpr ⟨Nat.le_refl _, hlt⟩⟩
  cases hstart : entry.1.start with
  | zero =>
    rw [hstart, attributesAt_zero] at hmem
    exact .inl (List.mem_singleton.mp hmem)
  | succ index =>
    rw [hstart, attributesAt_succ (by omega)] at hmem
    exact .inr (List.mem_singleton.mp hmem)

/-! ### A frame -/

/-- The key of the first element. -/
def firstKey (n : Nat) : TrackKey := (siblingDrawing n).key.element ⟨0, 1⟩

/-- What a character of an element asks the track. -/
def asked (n : Nat) (extent : Extent) (tracks : TrackStore) : Float × TrackStore :=
  (tracks.askTypewriter 0 ((siblingDrawing n).key.element extent)
    ((siblingDrawing n).frame.question {} 0 extent.length)).value

/-- A character of a frame at its place, and the tracks after it. -/
def painted (n : Nat) (tracks : TrackStore) (entry : Char × Nat) : Glyph × TrackStore :=
  (siblingDrawing n).renderer.paint (siblingDrawing n).text (siblingDrawing n).frame 0 [] tracks
    entry

theorem exists_painted {index : Nat} {extent : Extent}
    (hat : (siblingDrawing n).text.attributesAt index = [{ id := "typewriter", extent }])
    (c : Char) (tracks : TrackStore) : ∃ g : Glyph, g.visible = true ∧ ∃ s : Scope,
      painted n tracks (c, index) =
        (typist.reveal s (extent.localIndex index) extent.length
          (visibleCount (asked n extent tracks).1 typist.speed typist.delay extent.length) g,
          (asked n extent tracks).2) := by
  obtain ⟨g, rfl, hvisible, hpaint⟩ := (siblingDrawing n).renderer.exists_blank
    (siblingDrawing n).text (siblingDrawing n).frame 0 index c
  let s := (siblingDrawing n).renderer.scope (siblingDrawing n).text (siblingDrawing n).frame 0 []
    extent
  refine ⟨g, hvisible, s, ?_⟩
  have heffects : (siblingDrawing n).renderer.config.effectsOf
      ((siblingDrawing n).text.attributesAt g.index) = [(extent, .typewriter typist)] := by
    rw [hat]
    exact effectsOf_typewriter extent
  have hticks : s.frame.ticks.isFinite = true :=
    show (8.0 : Float).isFinite = true by decide +kernel
  rw [painted, hpaint, heffects]
  exact typist.touch_of_independent (s := s) rfl hticks (g, tracks)

/-- The first character shows when its track lets it. -/
theorem exists_first (n : Nat) (tracks : TrackStore) :
    ∃ g, ((siblingDrawing n).outcome tracks).1[0]? = some g ∧
      (g.visible = true ↔ 0 < visibleCount (Frame.question { ticks := 8.0 } {} 0 1
        (tracks.typewriterAt 0 (firstKey n))).value.1 typist.speed typist.delay 1) := by
  have hc : (siblingDrawing n).text.raw.toList[0]? = some 'a' := by
    rw [raw_eq]
    rfl
  obtain ⟨g, hg, hdrawn⟩ := (siblingDrawing n).renderer.getElem?_render (siblingDrawing n).text
    (siblingDrawing n).frame 0 tracks hc
  obtain ⟨hpainted, -⟩ : g = (painted n tracks ('a', 0)).1 ∧ _ := hdrawn
  obtain ⟨blank, hvisible, s, heq⟩ := exists_painted (attributesAt_zero n) 'a' tracks
  refine ⟨g, hg, ?_⟩
  rw [hpainted, heq, typist.visible_reveal, hvisible, and_iff_right rfl, asked,
    TrackStore.value_askTypewriter]
  rfl

section

variable (hkey : (siblingDrawing n).key.element ⟨1, n + 1⟩ = firstKey n)

include hkey

/-- Each character of the second element asks the track for all of them. -/
theorem total_painted {index : Nat} (h : index < n) (c : Char) (tracks : TrackStore) :
    ((painted n tracks (c, index + 1)).2.typewriterAt 0 (firstKey n)).total = some n := by
  obtain ⟨g, -, s, heq⟩ := exists_painted (attributesAt_succ h) c tracks
  rw [heq, asked, hkey]
  exact congrArg TypewriterTrack.total (tracks.typewriterAt_question _ {} 0 (firstKey n) _)

theorem total_paintAll {entries : List (Char × Nat)} (hne : entries ≠ [])
    (hentries : ∀ entry ∈ entries, ∃ index < n, entry.2 = index + 1) (tracks : TrackStore) :
    (((siblingDrawing n).renderer.paintAll (siblingDrawing n).text (siblingDrawing n).frame 0 []
      tracks entries).2.typewriterAt 0 (firstKey n)).total = some n := by
  induction entries generalizing tracks with
  | nil => exact absurd rfl hne
  | cons entry rest ih =>
    obtain ⟨⟨index, hindex, hentry⟩, hrest⟩ := List.forall_mem_cons.mp hentries
    by_cases hnil : rest = []
    · rw [hnil, Renderer.paintAll, Renderer.paintAll]
      have htotal := total_painted hkey hindex entry.1 tracks
      rwa [← hentry] at htotal
    · exact ih hnil hrest _

/-- A frame leaves the track with the number of characters of the second element. -/
theorem total_outcome (hn : 0 < n) (tracks : TrackStore) :
    (((siblingDrawing n).outcome tracks).2.typewriterAt 0 (firstKey n)).total = some n := by
  have hentries : (siblingDrawing n).text.raw.toList.zipIdx =
      ('a', 0) :: (List.replicate n 'a').zipIdx 1 := by
    rw [raw_eq, List.zipIdx_cons]
  have hout : ((siblingDrawing n).outcome tracks).2 =
      ((siblingDrawing n).renderer.paintAll (siblingDrawing n).text (siblingDrawing n).frame 0 []
        tracks (siblingDrawing n).text.raw.toList.zipIdx).2 := by
    rw [Drawing.outcome, Renderer.value_render, Renderer.value_draw]
    rfl
  rw [hout, hentries, Renderer.paintAll]
  refine total_paintAll hkey ?_ (fun entry hentry => ?_) _
  · simp
    omega
  · obtain ⟨hle, hlt, -⟩ := List.mem_zipIdx hentry
    rw [List.length_replicate] at hlt
    exact ⟨entry.2 - 1, by omega, by omega⟩

theorem typewriterKeys_subset (hn : 0 < n) : (siblingDrawing n).typewriterKeys ⊆ {firstKey n} := by
  intro key hmem
  obtain ⟨e, he, rfl⟩ := List.mem_map.mp (List.mem_toFinset.mp hmem)
  rcases eq_of_mem_kept hn (mem_typewritersAmong.mp he) with heq | heq
  · rw [(Prod.mk.inj heq).1]
    exact Finset.mem_singleton_self _
  · rw [(Prod.mk.inj heq).1, hkey]
    exact Finset.mem_singleton_self _

end

theorem scrambleKeys_eq (hn : 0 < n) : (siblingDrawing n).scrambleKeys = ∅ := by
  refine Finset.eq_empty_of_forall_notMem fun key hmem => ?_
  obtain ⟨entry, hentry, hscramble⟩ := List.mem_filterMap.mp (List.mem_toFinset.mp hmem)
  rcases eq_of_mem_kept hn hentry with rfl | rfl
  · cases hscramble
  · cases hscramble

/-! ### The frame again -/

/-- A store in which the first element has run since the tick 0. -/
def before (n : Nat) : TrackStore :=
  ((TrackStore.ofConfig {}).askTypewriter 0 (firstKey n) (Frame.question {} {} 0 1)).value.2

theorem typewriterAt_before (n : Nat) : (before n).typewriterAt 0 (firstKey n) =
    (Frame.question {} {} 0 1 (.start 0 1000)).value.2 :=
  (TrackStore.ofConfig {}).typewriterAt_question {} {} 0 (firstKey n) 1

/-- The first character shows in the first frame, and in the second one no more. -/
theorem outcome_ne (hn : 1 < n)
    (hkey : (siblingDrawing n).key.element ⟨1, n + 1⟩ = firstKey n) :
    ((siblingDrawing n).outcome ((siblingDrawing n).outcome (before n)).2).1 ≠
      ((siblingDrawing n).outcome (before n)).1 := by
  obtain ⟨g, hg, hshows⟩ := exists_first n (before n)
  obtain ⟨g', hg', hshows'⟩ := exists_first n ((siblingDrawing n).outcome (before n)).2
  have hshown : g.visible = true := by
    rw [hshows, typewriterAt_before]
    decide +kernel
  have hhidden : ¬ g'.visible = true := by
    have htotal := total_outcome hkey (by omega) (before n)
    have hnone : visibleCount ((8.0 : Float) - 8.0) typist.speed typist.delay 1 = 0 := by
      decide +kernel
    rw [hshows', TypewriterTrack.elapsed_of_changed htotal (by omega), hnone]
    exact Nat.lt_irrefl 0
  intro heq
  rw [heq, hg] at hg'
  exact hhidden (Option.some_inj.mp hg' ▸ hshown)

end siblingDrawing

end KineticText
