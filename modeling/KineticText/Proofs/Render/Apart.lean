import KineticText.Proofs.Render.Actions
import KineticText.Proofs.Track.Room

/-! Texts that do not disturb each other.  A drawing reads and writes the tracks under its own keys
only, and when everything fits in the store it drops no other.  Main statement: two drawings without
a key in common give the same glyphs in either order, and leave the same tracks. -/

namespace KineticText

namespace TrackStore

/-- There is room for the stored tracks and for one under each of the keys. -/
structure Room (s : TrackStore) (typewriters scrambles : Finset TrackKey) : Prop where
  typewriters : s.typewriters.Fits typewriters
  scrambles : s.scrambles.Fits scrambles

/-- The stores treat tracks alike. -/
structure SameLimits (s s' : TrackStore) : Prop where
  timeout : s.timeout = s'.timeout
  typewriterReset : s.typewriterReset = s'.typewriterReset
  scrambleReset : s.scrambleReset = s'.scrambleReset
  typewriters : s.typewriters.capacity = s'.typewriters.capacity
  scrambles : s.scrambles.capacity = s'.scrambles.capacity

/-- The stores have the same tracks, whatever the order is in which they were used. -/
structure SameTracks (s s' : TrackStore) : Prop extends SameLimits s s' where
  typewriterEntries : s.typewriters.entries.Perm s'.typewriters.entries
  scrambleEntries : s.scrambles.entries.Perm s'.scrambles.entries

/-- The stores treat tracks alike and have the same ones under some keys. -/
structure AgreeOn (T S : TrackKey → Prop) (s s' : TrackStore) : Prop extends SameLimits s s' where
  typewriterAt : ∀ key, T key → s.typewriters.peek? key = s'.typewriters.peek? key
  scrambleAt : ∀ key, S key → s.scrambles.peek? key = s'.scrambles.peek? key

variable {T S T' S' : TrackKey → Prop} {s s' s'' : TrackStore}

namespace SameLimits

theorem refl (s : TrackStore) : SameLimits s s := ⟨rfl, rfl, rfl, rfl, rfl⟩

theorem symm (h : SameLimits s s') : SameLimits s' s :=
  ⟨h.timeout.symm, h.typewriterReset.symm, h.scrambleReset.symm, h.typewriters.symm,
    h.scrambles.symm⟩

theorem trans (h : SameLimits s s') (h' : SameLimits s' s'') : SameLimits s s'' :=
  ⟨h.timeout.trans h'.timeout, h.typewriterReset.trans h'.typewriterReset,
    h.scrambleReset.trans h'.scrambleReset, h.typewriters.trans h'.typewriters,
    h.scrambles.trans h'.scrambles⟩

end SameLimits

namespace AgreeOn

theorem refl (T S : TrackKey → Prop) (s : TrackStore) : AgreeOn T S s s :=
  ⟨.refl s, fun _ _ => rfl, fun _ _ => rfl⟩

theorem symm (h : AgreeOn T S s s') : AgreeOn T S s' s :=
  ⟨h.toSameLimits.symm, fun key hkey => (h.typewriterAt key hkey).symm,
    fun key hkey => (h.scrambleAt key hkey).symm⟩

theorem trans (h : AgreeOn T S s s') (h' : AgreeOn T S s' s'') : AgreeOn T S s s'' :=
  ⟨h.toSameLimits.trans h'.toSameLimits,
    fun key hkey => (h.typewriterAt key hkey).trans (h'.typewriterAt key hkey),
    fun key hkey => (h.scrambleAt key hkey).trans (h'.scrambleAt key hkey)⟩

theorem mono (h : AgreeOn T S s s') (hT : ∀ key, T' key → T key) (hS : ∀ key, S' key → S key) :
    AgreeOn T' S' s s' :=
  ⟨h.toSameLimits, fun key hkey => h.typewriterAt key (hT key hkey),
    fun key hkey => h.scrambleAt key (hS key hkey)⟩

theorem or (h : AgreeOn T S s s') (h' : AgreeOn T' S' s s') :
    AgreeOn (fun key => T key ∨ T' key) (fun key => S key ∨ S' key) s s' :=
  ⟨h.toSameLimits, fun key hkey => hkey.elim (h.typewriterAt key) (h'.typewriterAt key),
    fun key hkey => hkey.elim (h.scrambleAt key) (h'.scrambleAt key)⟩

theorem sameTracks (h : AgreeOn T S s s') (hT : ∀ key, T key) (hS : ∀ key, S key) :
    SameTracks s s' :=
  ⟨h.toSameLimits, Recency.perm_of_peek? fun key => h.typewriterAt key (hT key),
    Recency.perm_of_peek? fun key => h.scrambleAt key (hS key)⟩

end AgreeOn

end TrackStore

open TrackStore

/-- An action that reads and writes tracks under the keys `T` and `S` only, in stores with room for
those under `U` and `V`. -/
structure Minds (T S U V : Finset TrackKey) {α : Type} (act : StoreAction α) : Prop where
  room : ∀ s, Room s U V → Room (act s).2 U V
  outside : ∀ s, Room s U V → AgreeOn (· ∉ T) (· ∉ S) s (act s).2
  inside : ∀ s s', Room s U V → Room s' U V → AgreeOn (· ∈ T) (· ∈ S) s s' →
    (act s).1 = (act s').1 ∧ AgreeOn (· ∈ T) (· ∈ S) (act s).2 (act s').2

variable {T S U V : Finset TrackKey}

theorem composes_minds : Composes (Minds T S U V) where
  answer a := ⟨fun _ h => h, fun s _ => .refl _ _ s, fun _ _ _ _ h => ⟨rfl, h⟩⟩
  andThen {_ _ act next} hact hnext := by
    refine ⟨fun s h => (hnext _).room _ (hact.room s h), fun s h =>
      (hact.outside s h).trans ((hnext _).outside _ (hact.room s h)), fun s s' h h' hagree => ?_⟩
    obtain ⟨hanswer, hafter⟩ := hact.inside s s' h h' hagree
    rw [← hanswer]
    exact (hnext _).inside _ _ (hact.room s h) (hact.room s' h') hafter

/-- Asking the track of a typewriter. -/
theorem minds_askTypewriter {key : TrackKey} (hkey : key ∈ T) (hsub : T ⊆ U) (now : Millis)
    {α : Type} (question : TypewriterTrack Float → Logged (α × TypewriterTrack Float)) :
    Minds T S U V fun tracks => (tracks.askTypewriter now key question).value := by
  simp only [value_askTypewriter]
  refine ⟨fun s h => ⟨h.typewriters.put (hsub hkey) _, h.scrambles⟩, fun s h =>
    ⟨⟨rfl, rfl, rfl, rfl, rfl⟩, fun key' hout => ?_, fun _ _ => rfl⟩, fun s s' h h' hagree => ?_⟩
  · rw [h.typewriters.peek?_put (hsub hkey), if_neg]
    rintro rfl
    exact hout hkey
  · have htrack : s.typewriterAt now key = s'.typewriterAt now key := by
      rw [typewriterAt, typewriterAt, Tracks.live?, Tracks.live?, hagree.typewriterAt key hkey,
        hagree.timeout, hagree.typewriterReset]
    rw [htrack]
    refine ⟨rfl, ⟨hagree.timeout, hagree.typewriterReset, hagree.scrambleReset,
      hagree.typewriters, hagree.scrambles⟩, fun key' hin => ?_, hagree.scrambleAt⟩
    rw [h.typewriters.peek?_put (hsub hkey), h'.typewriters.peek?_put (hsub hkey),
      hagree.typewriterAt key' hin]

/-- Scrambling a character. -/
theorem minds_draw (scope : Scope) (hkey : scope.key ∈ S) (hsub : S ⊆ V) (e : Scramble)
    (g : Glyph) : Minds T S U V (e.draw scope g) := by
  unfold Scramble.draw
  refine ⟨fun s h => ⟨h.typewriters, h.scrambles.put (hsub hkey) _⟩, fun s h =>
    ⟨⟨rfl, rfl, rfl, rfl, rfl⟩, fun _ _ => rfl, fun key' hout => ?_⟩, fun s s' h h' hagree => ?_⟩
  · rw [h.scrambles.peek?_put (hsub hkey), if_neg]
    rintro rfl
    exact hout hkey
  · have htrack : s.scrambleAt scope.now scope.key = s'.scrambleAt scope.now scope.key := by
      rw [scrambleAt, scrambleAt, Tracks.live?, Tracks.live?, hagree.scrambleAt _ hkey,
        hagree.timeout, hagree.scrambleReset]
    rw [htrack]
    refine ⟨rfl, ⟨hagree.timeout, hagree.typewriterReset, hagree.scrambleReset,
      hagree.typewriters, hagree.scrambles⟩, hagree.typewriterAt, fun key' hin => ?_⟩
    rw [h.scrambles.peek?_put (hsub hkey), h'.scrambles.peek?_put (hsub hkey),
      hagree.scrambleAt key' hin]

/-- Actions that mind different keys do not disturb each other. -/
theorem Minds.comm {T₁ S₁ T₂ S₂ : Finset TrackKey} {α β : Type} {act : StoreAction α}
    {other : StoreAction β} (hact : Minds T₁ S₁ U V act) (hother : Minds T₂ S₂ U V other)
    (hT : Disjoint T₁ T₂) (hS : Disjoint S₁ S₂) {s : TrackStore} (hroom : Room s U V) :
    (act s).1 = (act (other s).2).1 ∧ (other (act s).2).1 = (other s).1 ∧
      SameTracks (other (act s).2).2 (act (other s).2).2 := by
  have houtT : ∀ key, key ∈ T₁ → key ∉ T₂ := fun _ h => Finset.disjoint_left.mp hT h
  have houtS : ∀ key, key ∈ S₁ → key ∉ S₂ := fun _ h => Finset.disjoint_left.mp hS h
  have houtU : ∀ key, key ∈ T₂ → key ∉ T₁ := fun _ h => Finset.disjoint_right.mp hT h
  have houtV : ∀ key, key ∈ S₂ → key ∉ S₁ := fun _ h => Finset.disjoint_right.mp hS h
  have hroom₁ := hact.room s hroom
  have hroom₂ := hother.room s hroom
  have hafter₁ := hact.outside s hroom
  have hafter₂ := hother.outside s hroom
  have hboth := hother.outside _ hroom₁
  have hboth' := hact.outside _ hroom₂
  obtain ⟨hanswer, hinside⟩ := hact.inside s _ hroom hroom₂ (hafter₂.mono houtT houtS)
  obtain ⟨hanswer', hinside'⟩ := hother.inside s _ hroom hroom₁ (hafter₁.mono houtU houtV)
  refine ⟨hanswer, hanswer'.symm, ?_⟩
  -- Each action decides about its own keys, and neither about the rest.
  have hfirst := (hboth.mono houtT houtS).symm.trans hinside
  have hsecond := hinside'.symm.trans (hboth'.mono houtU houtV)
  have hrest : AgreeOn (fun key => key ∉ T₁ ∧ key ∉ T₂) (fun key => key ∉ S₁ ∧ key ∉ S₂)
      (other (act s).2).2 (act (other s).2).2 :=
    (hafter₁.mono (fun _ => And.left) (fun _ => And.left)).trans
        (hboth.mono (fun _ => And.right) fun _ => And.right) |>.symm.trans <|
      (hafter₂.mono (fun _ => And.right) (fun _ => And.right)).trans
        (hboth'.mono (fun _ => And.left) fun _ => And.left)
  refine ((hfirst.or hsecond).or hrest).sameTracks (fun key => ?_) fun key => ?_
  · tauto
  · tauto

/-! ### Drawings -/

namespace Drawing

variable (d : Drawing)

/-- The effects that the configuration keeps anywhere in the text. -/
def kept : List (Extent × Effect) :=
  d.text.spans.flatMap fun s => d.renderer.config.effectsOf s.attributes

/-- The keys under which the drawing asks tracks of typewriters. -/
def typewriterKeys : Finset TrackKey :=
  match d.renderer.config.allocation with
  | .container => {d.key.container}
  | .independent => ((typewritersAmong d.kept).map fun e => d.key.element e.1).toFinset

/-- The keys under which the drawing asks tracks of scrambled elements. -/
def scrambleKeys : Finset TrackKey :=
  (d.kept.filterMap fun
    | (extent, .scramble _) => some (d.key.element extent)
    | _ => none).toFinset

variable {d}

theorem element_mem_typewriterKeys {extent : Extent} {e : Typewriter}
    (hindependent : d.renderer.config.allocation = .independent)
    (h : d.renderer.config.Keeps d.text (extent, .typewriter e)) :
    d.key.element extent ∈ d.typewriterKeys := by
  rw [typewriterKeys, hindependent, List.mem_toFinset]
  exact List.mem_map.mpr ⟨(extent, e), mem_typewritersAmong.mpr (List.mem_flatMap.mpr h), rfl⟩

theorem element_mem_scrambleKeys {extent : Extent} {e : Scramble}
    (h : d.renderer.config.Keeps d.text (extent, .scramble e)) :
    d.key.element extent ∈ d.scrambleKeys := by
  rw [scrambleKeys, List.mem_toFinset]
  exact List.mem_filterMap.mpr ⟨_, List.mem_flatMap.mpr h, rfl⟩

variable (d) in
/-- A drawing minds its own tracks. -/
theorem minds_outcome (hT : d.typewriterKeys ⊆ U) (hS : d.scrambleKeys ⊆ V) :
    Minds d.typewriterKeys d.scrambleKeys U V d.outcome := by
  refine Renderer.EachStep.render ⟨fun hcontainer => ?_, fun hindependent extent e he => ?_,
    fun extent e he shares g => ?_⟩ composes_minds
  · refine minds_askTypewriter ?_ hT _ _
    rw [typewriterKeys, hcontainer]
    exact Finset.mem_singleton_self _
  · exact minds_askTypewriter (element_mem_typewriterKeys hindependent he) hT _ _
  · have hkey : d.key.element extent ∈ d.scrambleKeys := element_mem_scrambleKeys he
    exact minds_draw (d.renderer.scope d.text d.frame d.now shares extent) hkey hS e g

/-- Drawings without a key in common, in a store with room for all, give the same glyphs in either
order and leave the same tracks. -/
theorem outcome_comm (a b : Drawing) (tracks : TrackStore)
    (htypewriters : Disjoint a.typewriterKeys b.typewriterKeys)
    (hscrambles : Disjoint a.scrambleKeys b.scrambleKeys)
    (hroom : tracks.Room (a.typewriterKeys ∪ b.typewriterKeys) (a.scrambleKeys ∪ b.scrambleKeys)) :
    (a.outcome tracks).1 = (a.outcome (b.outcome tracks).2).1 ∧
      (b.outcome (a.outcome tracks).2).1 = (b.outcome tracks).1 ∧
      (b.outcome (a.outcome tracks).2).2.SameTracks (a.outcome (b.outcome tracks).2).2 := by
  have ha := a.minds_outcome (U := a.typewriterKeys ∪ b.typewriterKeys)
    (V := a.scrambleKeys ∪ b.scrambleKeys) Finset.subset_union_left Finset.subset_union_left
  have hb := b.minds_outcome (U := a.typewriterKeys ∪ b.typewriterKeys)
    (V := a.scrambleKeys ∪ b.scrambleKeys) Finset.subset_union_right Finset.subset_union_right
  exact ha.comm hb htypewriters hscrambles hroom

/-- A drawing of a scrambled typewriter, in one of its occurrences. -/
def scrambledDrawing (id : UInt64) : Drawing where
  renderer := {}
  text := { raw := "ab", spans := [⟨⟨0, 2⟩, [{ id := "typewriter", extent := ⟨0, 2⟩ },
    { id := "obfuscate", extent := ⟨0, 2⟩ }]⟩] }
  frame := { occurrence := some id }
  now := 0

theorem outcome_comm_occurrences :
    let a := scrambledDrawing 1
    let b := scrambledDrawing 2
    let tracks : TrackStore := .empty 2 1000
    Disjoint a.typewriterKeys b.typewriterKeys ∧ Disjoint a.scrambleKeys b.scrambleKeys ∧
      tracks.Room (a.typewriterKeys ∪ b.typewriterKeys) (a.scrambleKeys ∪ b.scrambleKeys) ∧
      (a.outcome tracks).1 = (a.outcome (b.outcome tracks).2).1 ∧
      (b.outcome (a.outcome tracks).2).1 = (b.outcome tracks).1 ∧
      (b.outcome (a.outcome tracks).2).2.SameTracks (a.outcome (b.outcome tracks).2).2 := by
  have htypewriters : Disjoint (scrambledDrawing 1).typewriterKeys
      (scrambledDrawing 2).typewriterKeys := by decide +kernel
  have hscrambles : Disjoint (scrambledDrawing 1).scrambleKeys
      (scrambledDrawing 2).scrambleKeys := by decide +kernel
  have hroom : (TrackStore.empty 2 1000).Room
      ((scrambledDrawing 1).typewriterKeys ∪ (scrambledDrawing 2).typewriterKeys)
      ((scrambledDrawing 1).scrambleKeys ∪ (scrambledDrawing 2).scrambleKeys) :=
    ⟨by decide +kernel, by decide +kernel⟩
  exact ⟨htypewriters, hscrambles, hroom, outcome_comm _ _ _ htypewriters hscrambles hroom⟩

end Drawing

end KineticText
