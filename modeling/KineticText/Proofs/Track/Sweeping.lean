import KineticText.Proofs.Track.Store

/-! Stores that have been swept.  Beside a store that has been swept, the same store without the
sweeping has more entries, all of them stale and all of them used less recently.  They take room
that the swept store has to spare, they are the first to give way, and one that is asked for
starts anew as if it were not there.  Main statement: two such stores give the same answers and stay
such stores, as long as time does not go back. -/

namespace KineticText

theorem isStale_mono {τ : Type} [Timed τ] {now now' timeout : Millis} (h : now ≤ now') {track : τ}
    (hstale : isStale now timeout track = true) : isStale now' timeout track = true := by
  simp only [isStale, decide_eq_true_eq, UInt64.lt_iff_toNat_lt, Millis.toNat_since] at *
  have htime := UInt64.le_iff_toNat_le.mp h
  omega

namespace Recency

variable {κ α : Type} {stale : α → Bool} {full swept : Recency κ α}

theorem exists_untilFresh_append (stale : α → Bool) (entries : List (κ × α)) :
    ∃ dropped, entries = untilFresh stale entries ++ dropped ∧
      ∀ entry ∈ dropped, stale entry.2 = true := by
  refine ⟨(entries.reverse.takeWhile fun entry => stale entry.2).reverse, ?_, fun entry hentry => ?_⟩
  · rw [untilFresh, ← List.reverse_append, List.takeWhile_append_dropWhile, List.reverse_reverse]
  · have hstale := List.all_eq_true.mp (List.all_takeWhile (l := entries.reverse)
      (p := fun entry => stale entry.2))
    exact hstale entry (List.mem_reverse.mp hentry)

/-- `swept` is `full` without some of its least recently used entries, which are stale. -/
structure Outlasts (stale : α → Bool) (full swept : Recency κ α) : Prop where
  capacity : full.capacity = swept.capacity
  entries : ∃ dropped, full.entries = swept.entries ++ dropped ∧
    ∀ entry ∈ dropped, stale entry.2 = true

namespace Outlasts

theorem refl (stale : α → Bool) (m : Recency κ α) : Outlasts stale m m :=
  ⟨rfl, [], (List.append_nil _).symm, List.forall_mem_nil _⟩

theorem mono {stale' : α → Bool} (h : Outlasts stale full swept)
    (hstale : ∀ a, stale a = true → stale' a = true) : Outlasts stale' full swept := by
  obtain ⟨hcapacity, dropped, hentries, hdropped⟩ := h
  exact ⟨hcapacity, dropped, hentries, fun entry hentry => hstale _ (hdropped entry hentry)⟩

theorem dropStale (h : Outlasts stale full swept) :
    Outlasts stale full (swept.dropStale stale) := by
  obtain ⟨hcapacity, dropped, hentries, hdropped⟩ := h
  obtain ⟨dropped', hswept, hdropped'⟩ := exists_untilFresh_append stale swept.entries
  refine ⟨hcapacity, dropped' ++ dropped, ?_, List.forall_mem_append.mpr ⟨hdropped', hdropped⟩⟩
  rw [hentries, ← List.append_assoc]
  exact congrArg (· ++ dropped) hswept

variable [BEq κ] [LawfulBEq κ]

/-- What is found in both is the same, and what is found in one is stale. -/
theorem peek? (h : Outlasts stale full swept) (key : κ) :
    full.peek? key = swept.peek? key ∨
      swept.peek? key = none ∧ ∃ a, full.peek? key = some a ∧ stale a = true := by
  obtain ⟨-, dropped, hentries, hdropped⟩ := h
  have hlookup : full.peek? key = (swept.peek? key).or (dropped.lookup key) := by
    rw [Recency.peek?, hentries, List.lookup_append, Recency.peek?]
  cases hswept : swept.peek? key with
  | some a =>
    rw [hlookup, hswept]
    exact .inl rfl
  | none =>
    rw [hswept, Option.none_or] at hlookup
    rw [hlookup]
    cases hfound : dropped.lookup key with
    | none => exact .inl rfl
    | some a =>
      obtain ⟨before, after, hsplit, -⟩ := List.lookup_eq_some_iff.mp hfound
      refine .inr ⟨rfl, a, rfl, hdropped (key, a) ?_⟩
      rw [hsplit]
      exact List.mem_append_right _ List.mem_cons_self

/-- A new entry pushes a stale one out of the full map, and then none out of the swept one. -/
theorem put (h : Outlasts stale full swept) (key : κ) (a : α) :
    Outlasts stale (full.put key a) (swept.put key a) := by
  obtain ⟨hcapacity, dropped, hentries, hdropped⟩ := h
  have hothers : others key full.entries = others key swept.entries ++
      dropped.filter fun entry => !(entry.1 == key) := by
    rw [others_eq_filter key full.nodup, others_eq_filter key swept.nodup, hentries,
      List.filter_append]
  refine ⟨hcapacity, (dropped.filter fun entry => !(entry.1 == key)).take
    (swept.capacity - 1 - (others key swept.entries).length), ?_, fun entry hentry => ?_⟩
  · show (key, a) :: firstEntries (full.capacity - 1) (others key full.entries) = _
    rw [hothers, hcapacity, firstEntries_eq_take, List.take_append, ← firstEntries_eq_take]
    rfl
  · exact hdropped entry (List.mem_filter.mp (List.mem_of_mem_take hentry)).1

end Outlasts

end Recency

namespace Tracks

variable {τ α : Type} [Timed τ] {now timeout : Millis} {full swept : Tracks τ}

/-- Stale tracks are not seen. -/
theorem live?_eq (h : full.Outlasts (isStale now timeout) swept) (key : TrackKey) :
    full.live? now timeout key = swept.live? now timeout key := by
  unfold live?
  rcases h.peek? key with hsame | ⟨hnone, track, hsome, hstale⟩
  · rw [hsame]
  · rw [hnone, hsome, Option.filter_some, hstale]
    rfl

theorem ask_outlasts (h : full.Outlasts (isStale now timeout) swept) (family : Family)
    (key : TrackKey) (fresh : τ) (question : τ → Logged (α × τ)) :
    (full.ask family now timeout key fresh question).value.1 =
        (swept.ask family now timeout key fresh question).value.1 ∧
      Recency.Outlasts (isStale now timeout)
        (full.ask family now timeout key fresh question).value.2
        (swept.ask family now timeout key fresh question).value.2 := by
  rw [value_ask, value_ask, live?_eq h key]
  exact ⟨rfl, h.put key _⟩

end Tracks

namespace TrackStore

/-- `swept` is `full` after sweeps up to the time `now`. -/
structure Outlasts (now : Millis) (full swept : TrackStore) : Prop where
  timeout : full.timeout = swept.timeout
  typewriterReset : full.typewriterReset = swept.typewriterReset
  scrambleReset : full.scrambleReset = swept.scrambleReset
  typewriters : full.typewriters.Outlasts (isStale now full.timeout) swept.typewriters
  scrambles : full.scrambles.Outlasts (isStale now full.timeout) swept.scrambles

namespace Outlasts

variable {α : Type} {now now' : Millis} {full swept : TrackStore}

theorem refl (now : Millis) (s : TrackStore) : Outlasts now s s :=
  ⟨rfl, rfl, rfl, .refl _ _, .refl _ _⟩

theorem later (h : Outlasts now full swept) (htime : now ≤ now') : Outlasts now' full swept :=
  { h with
    typewriters := h.typewriters.mono fun _ => isStale_mono htime
    scrambles := h.scrambles.mono fun _ => isStale_mono htime }

theorem sweep (h : Outlasts now full swept) : Outlasts now full (swept.sweep now).value.2 := by
  obtain ⟨timeout, reset, reset', typewriters, scrambles⟩ := swept
  obtain ⟨rfl, rfl, rfl, htypewriters, hscrambles⟩ := h
  exact ⟨rfl, rfl, rfl, htypewriters.dropStale, hscrambles.dropStale⟩

theorem askTypewriter (h : Outlasts now full swept) (key : TrackKey)
    (question : TypewriterTrack Float → Logged (α × TypewriterTrack Float)) :
    (full.askTypewriter now key question).value.1 =
        (swept.askTypewriter now key question).value.1 ∧
      Outlasts now (full.askTypewriter now key question).value.2
        (swept.askTypewriter now key question).value.2 := by
  obtain ⟨timeout, reset, reset', typewriters, scrambles⟩ := swept
  obtain ⟨rfl, rfl, rfl, htypewriters, hscrambles⟩ := h
  obtain ⟨hanswer, hafter⟩ := Tracks.ask_outlasts htypewriters .typewriter key
    (.start now full.typewriterReset) question
  exact ⟨hanswer, rfl, rfl, rfl, hafter, hscrambles⟩

theorem askScramble (h : Outlasts now full swept) (key : TrackKey)
    (question : ScrambleTrack → Logged (α × ScrambleTrack)) :
    (full.askScramble now key question).value.1 = (swept.askScramble now key question).value.1 ∧
      Outlasts now (full.askScramble now key question).value.2
        (swept.askScramble now key question).value.2 := by
  obtain ⟨timeout, reset, reset', typewriters, scrambles⟩ := swept
  obtain ⟨rfl, rfl, rfl, htypewriters, hscrambles⟩ := h
  obtain ⟨hanswer, hafter⟩ := Tracks.ask_outlasts hscrambles .obfuscate key
    (.start now full.scrambleReset key.word) question
  exact ⟨hanswer, rfl, rfl, rfl, htypewriters, hafter⟩

end Outlasts

end TrackStore

end KineticText
