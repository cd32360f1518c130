import KineticText.Track.Store

/-! What asking one track does.  The track that is asked is the one under the key unless that is
stale, and it becomes the last one used.  Of the others one may have to give way to it, but none is
changed. -/

namespace KineticText

namespace Recency

variable {κ α : Type} [BEq κ]

/-- What is stored under a key has stayed, or it has been dropped. -/
def Leaves (key : κ) (before after : Recency κ α) : Prop :=
  after.peek? key = before.peek? key ∨ after.peek? key = none

theorem Leaves.refl (key : κ) (m : Recency κ α) : Leaves key m m := .inl rfl

theorem Leaves.trans {key : κ} {a b c : Recency κ α} (hab : Leaves key a b)
    (hbc : Leaves key b c) : Leaves key a c := by
  rcases hbc with hbc | hbc
  · rcases hab with hab | hab
    · exact .inl (hbc.trans hab)
    · exact .inr (hbc.trans hab)
  · exact .inr hbc

theorem lookup_take (n : Nat) (key : κ) (entries : List (κ × α)) :
    (entries.take n).lookup key = entries.lookup key ∨ (entries.take n).lookup key = none := by
  induction entries generalizing n with
  | nil => exact .inl (by rw [List.take_nil])
  | cons entry rest ih =>
    cases n with
    | zero => exact .inr rfl
    | succ n =>
      rw [List.take_succ_cons, List.lookup_cons, List.lookup_cons]
      cases key == entry.1
      · exact ih n
      · exact .inl rfl

variable [LawfulBEq κ]

theorem lookup_others {key key' : κ} (h : key' ≠ key) (entries : List (κ × α)) :
    (others key entries).lookup key' = entries.lookup key' := by
  induction entries with
  | nil => rfl
  | cons entry rest ih =>
    unfold others at ih ⊢
    rw [List.eraseP_cons, List.lookup_cons]
    cases hentry : entry.1 == key with
    | true =>
      have hother : (key' == entry.1) = false := beq_false_of_ne (eq_of_beq hentry ▸ h)
      rw [hother, cond_true]
    | false =>
      rw [cond_false, List.lookup_cons, ih]

theorem others_others (key : κ) {entries : List (κ × α)} (h : (entries.map Prod.fst).Nodup) :
    others key (others key entries) = others key entries := by
  have hfilter : ((others key entries).map Prod.fst).Nodup := nodup_of_sublist List.eraseP_sublist h
  rw [others_eq_filter key hfilter, others_eq_filter key h, List.filter_filter]
  simp only [Bool.and_self]

theorem peek?_erase_self (key : κ) (m : Recency κ α) : (m.erase key).peek? key = none := by
  refine List.lookup_eq_none_iff.mpr fun entry hentry => ?_
  have hothers : entry ∈ others key m.entries := hentry
  rw [others_eq_filter key m.nodup] at hothers
  have hne := (List.mem_filter.mp hothers).2
  rwa [BEq.comm] at hne

/-- An entry that is put anew might as well be taken away before. -/
theorem put_erase (m : Recency κ α) (key : κ) (value : α) :
    (m.erase key).put key value = m.put key value := by
  refine Recency.ext rfl ?_
  show (key, value) :: firstEntries (m.capacity - 1) (others key (others key m.entries)) = _
  rw [others_others key m.nodup]
  rfl

theorem entries_put (m : Recency κ α) (key : κ) (value : α) :
    (m.put key value).entries = (key, value) :: (others key m.entries).take (m.capacity - 1) :=
  congrArg _ (firstEntries_eq_take _ _)

theorem peek?_put_self (m : Recency κ α) (key : κ) (value : α) :
    (m.put key value).peek? key = some value := by
  rw [peek?, put, List.lookup_cons_self]

theorem leaves_put_of_ne {key key' : κ} (h : key' ≠ key) (m : Recency κ α) (value : α) :
    Leaves key' m (m.put key value) := by
  -- The other key is not the one in front, and the last entries may be cut off.
  have hput : (m.put key value).peek? key' =
      ((others key m.entries).take (m.capacity - 1)).lookup key' := by
    rw [peek?, put, List.lookup_cons, beq_false_of_ne h, firstEntries_eq_take]
  have htake := lookup_take (m.capacity - 1) key' (others key m.entries)
  rw [lookup_others h] at htake
  rw [Leaves, hput]
  exact htake

end Recency

namespace Tracks

variable {τ α : Type} [Timed τ]

/-- The track under a key, if it is there and not stale. -/
def live? (now timeout : Millis) (key : TrackKey) (tracks : Tracks τ) : Option τ :=
  (tracks.peek? key).filter fun track => !isStale now timeout track

theorem value_ask (family : Family) (now timeout : Millis) (key : TrackKey) (fresh : τ)
    (question : τ → Logged (α × τ)) (tracks : Tracks τ) :
    (tracks.ask family now timeout key fresh question).value =
      let asked := (question ((tracks.live? now timeout key).getD fresh)).value
      (asked.1, tracks.put key asked.2) := by
  unfold ask expire current live?
  cases hpeek : tracks.peek? key with
  | none => simp [hpeek]
  | some track =>
    cases hstale : isStale now timeout track with
    | true => simp [hstale, Recency.peek?_erase_self, Recency.put_erase, Option.filter_some]
    | false => simp [hstale, hpeek, Option.filter_some]

theorem leaves_ask_of_ne {key key' : TrackKey} (h : key' ≠ key) (family : Family)
    (now timeout : Millis) (fresh : τ) (question : τ → Logged (α × τ)) (tracks : Tracks τ) :
    Recency.Leaves key' tracks (tracks.ask family now timeout key fresh question).value.2 := by
  rw [value_ask]
  exact Recency.leaves_put_of_ne h tracks _

theorem entries_ask_ne_nil (family : Family) (now timeout : Millis) (key : TrackKey) (fresh : τ)
    (question : τ → Logged (α × τ)) (tracks : Tracks τ) :
    (tracks.ask family now timeout key fresh question).value.2.entries ≠ [] := by
  rw [value_ask]
  exact List.cons_ne_nil _ _

end Tracks

namespace TrackStore

variable {α : Type}

/-- The track of a typewriter at a time: the stored one, or a new one. -/
def typewriterAt (s : TrackStore) (now : Millis) (key : TrackKey) : TypewriterTrack Float :=
  (s.typewriters.live? now s.timeout key).getD (.start now s.typewriterReset)

/-- The track of a scrambled element at a time: the stored one, or a new one. -/
def scrambleAt (s : TrackStore) (now : Millis) (key : TrackKey) : ScrambleTrack :=
  (s.scrambles.live? now s.timeout key).getD (.start now s.scrambleReset key.word)

theorem value_askTypewriter (s : TrackStore) (now : Millis) (key : TrackKey)
    (question : TypewriterTrack Float → Logged (α × TypewriterTrack Float)) :
    (s.askTypewriter now key question).value =
      let asked := (question (s.typewriterAt now key)).value
      (asked.1, { s with typewriters := s.typewriters.put key asked.2 }) := by
  unfold askTypewriter
  rw [Logged.value_bind, Tracks.value_ask]
  rfl

end TrackStore

theorem TrackStore.typewriters_askTypewriter {α : Type} (s : TrackStore) (now : Millis)
    (key : TrackKey) (question : TypewriterTrack Float → Logged (α × TypewriterTrack Float)) :
    (s.askTypewriter now key question).value.2.typewriters =
      (s.typewriters.ask .typewriter now s.timeout key (.start now s.typewriterReset)
        question).value.2 := rfl

end KineticText
