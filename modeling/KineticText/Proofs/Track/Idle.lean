import KineticText.Proofs.Track.Store

/-! Tracks in the order of their times.  Sweeping goes through the tracks from the least recently
used one on and stops at the first that is not idle, so it relies on their times of access being in
the same order.  Looking a track up puts it in front, and whatever it is asked there has to set its
time.  Main statement: while all questions set the time they are asked at, and time does not go
back, sweeping drops exactly the idle tracks. -/

namespace KineticText

/-- When the test fails from some element on, those before it are all that pass it. -/
theorem dropWhile_eq_filter {α : Type} {p : α → Bool} {xs : List α}
    (h : xs.Pairwise fun a b => p b = true → p a = true) :
    xs.dropWhile p = xs.filter fun a => !p a := by
  induction xs with
  | nil => rfl
  | cons a rest ih =>
    obtain ⟨hfirst, hrest⟩ := List.pairwise_cons.mp h
    cases ha : p a with
    | true => rw [List.dropWhile_cons_of_pos ha, ih hrest, List.filter_cons_of_neg (by simp [ha])]
    | false =>
      have hnone : ∀ b ∈ rest, (!p b) = true := fun b hb => by
        rw [Bool.not_eq_true', ← Bool.not_eq_true]
        exact fun hpass => Bool.false_ne_true (ha.symm.trans (hfirst b hb hpass))
      rw [List.dropWhile_cons_of_neg (by simp [ha]), List.filter_cons_of_pos (by simp [ha]),
        List.filter_eq_self.mpr hnone]

/-- When all after a stale entry are stale, the entries up to the last fresh one are the fresh
ones. -/
theorem Recency.untilFresh_eq_filter {κ α : Type} {stale : α → Bool} {entries : List (κ × α)}
    (h : entries.Pairwise fun newer older => stale newer.2 = true → stale older.2 = true) :
    untilFresh stale entries = entries.filter fun entry => !stale entry.2 := by
  have hreverse : entries.reverse.Pairwise fun older newer =>
      stale newer.2 = true → stale older.2 = true := List.pairwise_reverse.mpr h
  rw [untilFresh, dropWhile_eq_filter hreverse, List.filter_reverse, List.reverse_reverse]

/-! ### Times of access -/

/-- A track last accessed at a time has been idle for longer than the timeout. -/
def IsIdle (now timeout lastAccess : Millis) : Prop :=
  lastAccess.toNat + timeout.toNat < now.toNat

instance (now timeout lastAccess : Millis) : Decidable (IsIdle now timeout lastAccess) :=
  inferInstanceAs (Decidable (_ < _))

namespace Tracks

variable {τ α : Type} [Timed τ] {tracks : Tracks τ} {now now' timeout : Millis} {key : TrackKey}

theorem isStale_eq_isIdle (now timeout : Millis) (track : τ) :
    isStale now timeout track = decide (IsIdle now timeout (Timed.lastAccess track)) := by
  have hiff : timeout < now.since (Timed.lastAccess track) ↔
      IsIdle now timeout (Timed.lastAccess track) := by
    rw [IsIdle, UInt64.lt_iff_toNat_lt, Millis.toNat_since]
    omega
  exact decide_eq_decide.mpr hiff

/-- The more recently a track was used, the later was its last access, and none was after `now`. -/
structure AccessedInOrder (now : Millis) (tracks : Tracks τ) : Prop where
  inOrder : tracks.entries.Pairwise fun newer older =>
    Timed.lastAccess older.2 ≤ Timed.lastAccess newer.2
  le_now : ∀ entry ∈ tracks.entries, Timed.lastAccess entry.2 ≤ now

namespace AccessedInOrder

theorem later (h : tracks.AccessedInOrder now) (hle : now ≤ now') :
    tracks.AccessedInOrder now' :=
  ⟨h.inOrder, fun entry hentry => UInt64.le_trans (h.le_now entry hentry) hle⟩

theorem restrict (h : tracks.AccessedInOrder now) {entries : List (TrackKey × τ)}
    (hentries : entries.Sublist tracks.entries) :
    AccessedInOrder now (tracks.restrict entries hentries) :=
  ⟨h.inOrder.sublist hentries, fun entry hentry => h.le_now entry (hentries.subset hentry)⟩

/-- A track that is accessed now goes in front of all others. -/
theorem put (h : tracks.AccessedInOrder now) (key : TrackKey) {track : τ}
    (htrack : Timed.lastAccess track = now) : AccessedInOrder now (tracks.put key track) := by
  have hothers : ((Recency.others key tracks.entries).take (tracks.capacity - 1)).Sublist
      tracks.entries := (List.take_sublist _ _).trans List.eraseP_sublist
  have hkept := h.restrict hothers
  refine ⟨?_, fun entry hentry => ?_⟩
  · rw [Recency.entries_put, List.pairwise_cons, htrack]
    exact ⟨hkept.le_now, hkept.inOrder⟩
  · rw [Recency.entries_put] at hentry
    rcases List.mem_cons.mp hentry with rfl | hold
    · exact UInt64.le_of_eq htrack
    · exact hkept.le_now entry hold

/-- The time at which the track is looked up may be another one: it decides only whether the track
starts anew. -/
theorem ask (h : tracks.AccessedInOrder now) (family : Family) (lookedUp timeout : Millis)
    (key : TrackKey) (fresh : τ) {question : τ → Logged (α × τ)}
    (hquestion : ∀ track, Timed.lastAccess (question track).value.2 = now) :
    AccessedInOrder now (tracks.ask family lookedUp timeout key fresh question).value.2 := by
  rw [value_ask]
  exact h.put key (hquestion _)

/-- Dropping stale tracks from the least recently used one on leaves none of them. -/
theorem entries_dropStale (h : tracks.AccessedInOrder now') (now timeout : Millis) :
    (tracks.dropStale (isStale now timeout)).entries = tracks.entries.filter fun entry =>
      !decide (IsIdle now timeout (Timed.lastAccess entry.2)) := by
  have hstale : tracks.entries.Pairwise fun newer older =>
      isStale now timeout newer.2 = true → isStale now timeout older.2 = true := by
    refine h.inOrder.imp fun {newer older} hle hnewer => ?_
    rw [isStale_eq_isIdle, decide_eq_true_eq] at hnewer ⊢
    have hle := UInt64.le_iff_toNat_le.mp hle
    unfold IsIdle at *
    omega
  refine (Recency.untilFresh_eq_filter hstale).trans ?_
  simp only [isStale_eq_isIdle]

theorem length_dropStale (h : tracks.AccessedInOrder now') (now timeout : Millis) :
    (tracks.dropStale (isStale now timeout)).entries.length +
        (tracks.entries.countP fun entry => IsIdle now timeout (Timed.lastAccess entry.2)) =
      tracks.entries.length := by
  rw [h.entries_dropStale, ← List.countP_eq_length_filter, Nat.add_comm,
    List.length_eq_countP_add_countP fun entry => IsIdle now timeout (Timed.lastAccess entry.2)]
  simp

end AccessedInOrder

end Tracks

end KineticText
