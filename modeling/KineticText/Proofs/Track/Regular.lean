import KineticText.Proofs.Track.Uses

/-! Tracks of scrambled elements after any use.  Synchronizing takes up the order of the element as
it is then, while the drifting subset lives on, and a character that joins the subset is taken from
those outside it.  Main statement: whatever has been done to a track, its order and its ranks are
inverse permutations of the characters it was last synchronized for, and each of these is in the
subset once at most. -/

namespace KineticText

namespace ScrambleTrack

variable {t : ScrambleTrack} {now : Millis} {timing : ScrambleTiming}

/-- The characters in the subset. -/
def members (t : ScrambleTrack) : List Nat := t.active.map Prod.fst

theorem nodup_free (h : t.members.Nodup) : (t.members ++ t.free.toList).Nodup := by
  refine h.append (List.nodup_range.filter _) fun index hactive hfree => ?_
  obtain ⟨-, hout⟩ := List.mem_filter.mp hfree
  obtain ⟨entry, hentry, rfl⟩ := List.mem_map.mp hactive
  rw [Bool.not_eq_true', List.any_eq_false] at hout
  exact hout entry hentry (beq_self_eq_true _)

theorem nodup_expire (h : t.members.Nodup) (now : Millis) : (t.expire now).members.Nodup := by
  rw [expire_eq_filter]
  exact (List.filter_sublist.map Prod.fst).nodup h

theorem nodup_stepRandom (h : t.members.Nodup) (now : Millis) (timing : ScrambleTiming) :
    (t.stepRandom now timing).value.members.Nodup := by
  obtain ⟨added, lastSpawn, generator, heq, -, -, hjoins⟩ := stepRandom_eq now timing t
  have hmembers : (t.stepRandom now timing).value.members =
      added.map Prod.fst ++ (t.expire now).members := by
    rw [heq, expire_eq_filter, members, List.map_append]
    rfl
  -- What joins comes from outside the subset.
  obtain ⟨joining, hperm, hsublist⟩ := hjoins.subperm
  have hnodup : ((t.expire now).members ++ joining).Nodup :=
    (hsublist.append_left _).nodup (nodup_free (nodup_expire h now))
  rw [hmembers]
  exact (List.perm_append_comm.trans (hperm.append_left _).symm).symm.nodup_iff.mp hnodup

theorem nodup_sync (h : t.members.Nodup) (count : Nat) (direction : Direction) (seed : UInt64)
    (now : Millis) : (t.sync count direction seed now).value.members.Nodup := by
  have hawake : (t.awake now).members.Nodup := by
    unfold awake
    split
    · exact List.nodup_nil
    · exact h
  rw [value_sync]
  unfold reorder
  split
  · exact hawake
  · exact (List.filter_sublist.map Prod.fst).nodup hawake

/-! ### Uses -/

theorem Sound.order_sync_eq (h : t.Sound) (count : Nat) (direction : Direction) (seed : UInt64)
    (now : Millis) :
    (t.sync count direction seed now).value.order = direction.order count seed := by
  rw [value_sync, (h.awake now).reorder_eq]

/-- The order of `count` characters and their ranks undo each other, and the subset has each of the
characters once at most. -/
structure Regular (t : ScrambleTrack) (count : Nat) : Prop where
  inverse : Inverse t.order t.rank count
  nodup : t.members.Nodup
  lt_count : ∀ index ∈ t.members, index < count
  length_le : t.active.length ≤ count

variable {count : Nat}

theorem Sound.regular (h : t.Sound) (horder : t.order.Perm (List.range count))
    (hnodup : t.members.Nodup) : t.Regular count := by
  have hsize : t.rank.size = count := by
    rw [h.ranked, size_rankOf, horder.length_eq, List.length_range]
  have hlt : ∀ index ∈ t.members, index < count := by
    intro index hindex
    obtain ⟨entry, hentry, rfl⟩ := List.mem_map.mp hindex
    exact hsize ▸ h.inRange entry hentry
  have hwithin : t.members ⊆ List.range count := fun index hindex =>
    List.mem_range.mpr (hlt index hindex)
  have hle := (hnodup.subperm hwithin).length_le
  rw [members, List.length_map, List.length_range] at hle
  exact ⟨h.ranked ▸ inverse_rankOf horder, hnodup, hlt, hle⟩

end ScrambleTrack

/-- The number of characters that a track is for after a use. -/
def ScrambleUse.countAfter (count : Nat) : ScrambleUse → Nat
  | .sync count _ _ _ => count
  | .stepRandom _ _ => count
  | .reset _ => count

namespace ScrambleTrack

variable {t : ScrambleTrack} {count : Nat}

theorem Regular.used (h : t.Regular count) (hsound : t.Sound) (use : ScrambleUse) :
    (t.used use).Regular (use.countAfter count) := by
  have hsound' : (t.used use).Sound := (hsound.uses [use]).1
  cases use with
  | sync count' direction seed now =>
    refine hsound'.regular ?_ (nodup_sync h.nodup count' direction seed now)
    have horder : (t.used (.sync count' direction seed now)).order = direction.order count' seed :=
      hsound.order_sync_eq count' direction seed now
    rw [horder]
    exact perm_order direction count' seed
  | stepRandom now timing =>
    refine hsound'.regular ?_ (nodup_stepRandom h.nodup now timing)
    obtain ⟨active, lastSpawn, generator, heq⟩ := t.exists_stepRandom now timing
    have horder : (t.stepRandom now timing).value.order = t.order := by rw [heq]
    exact horder ▸ h.inverse.order_perm
  | reset now => exact hsound'.regular h.inverse.order_perm List.nodup_nil

theorem Regular.uses (h : t.Regular count) (hsound : t.Sound) (uses : List ScrambleUse) :
    (uses.foldl ScrambleTrack.used t).Regular (uses.foldl ScrambleUse.countAfter count) := by
  induction uses generalizing t count with
  | nil => exact h
  | cons use rest ih => exact ih (h.used hsound use) (hsound.uses [use]).1

theorem regular_start (now resetDelay : Millis) (seed : UInt64) :
    (start now resetDelay seed).Regular 0 := by
  have hempty : (start now resetDelay seed).order.Perm (List.range 0) := .refl []
  exact (sound_start now resetDelay seed).regular hempty List.nodup_nil

/-- Whatever is done to a new track leaves it regular, for the number of characters that it was
synchronized for last. -/
theorem regular_uses (now resetDelay : Millis) (seed : UInt64) (uses : List ScrambleUse) :
    (uses.foldl used (start now resetDelay seed)).Regular
      (uses.foldl ScrambleUse.countAfter 0) := by
  have hsound := sound_start now resetDelay seed
  have hempty : (start now resetDelay seed).order.Perm (List.range 0) := .refl []
  exact (hsound.regular hempty List.nodup_nil).uses hsound uses

end ScrambleTrack

end KineticText
