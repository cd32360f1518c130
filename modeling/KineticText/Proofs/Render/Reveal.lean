import Mathlib.Data.Nat.Find
import KineticText.Proofs.Number.Signs
import KineticText.Proofs.Render.Visibility
import KineticText.Proofs.Track.Origins

/-! Typewriters that count alone.  Every glyph asks the track of its element again, and the track
may start over or be dropped between two glyphs.  But in one frame a track can only come to run from
the frame's own ticks, from where it shows nothing, so once a character waits all later ones of the
element wait too.  Main statement: each typewriter shows a prefix of its element, and a character
shows when all typewriters over it show it. -/

namespace KineticText

namespace Renderer

variable (r : Renderer) (text : AttributedText) (frame : Frame) (now : Millis)

/-- Whatever the track of the typewriter's element answers in a frame, at most `n` characters of the
element show. -/
def Withholds (tracks : TrackStore) (e : Extent × Typewriter) (n : Nat) : Prop :=
  ∀ origin, tracks.MayRunFrom frame ((frame.key text.raw).element e.1) origin →
    visibleCount (frame.ticks - origin) e.2.speed e.2.delay e.1.length ≤ n

/-- The typewriters that let a character wait: they let all later ones wait too, and whoever does so
from an earlier one on is among them. -/
structure LetsWait (index : Nat) (before after : TrackStore)
    (typewriters : List (Extent × Typewriter)) (waits : Extent × Typewriter → Prop) : Prop where
  stays : ∀ e ∈ typewriters, waits e →
    Withholds text frame after e (e.1.localIndex index)
  follows : ∀ e ∈ typewriters, ∀ n ≤ e.1.localIndex index,
    Withholds text frame before e n → waits e

variable {r text frame now} {tracks : TrackStore} {e : Extent × Typewriter}

theorem Withholds.touch {n : Nat} (h : Withholds text frame tracks e n) (effect : Effect)
    (shares : List (Extent × Nat)) (extent : Extent) (g : Glyph) :
    Withholds text frame (effect.touch (r.scope text frame now shares extent) (g, tracks)).2 e
      n := by
  intro origin hmay
  rcases effect.apply_cases (r.scope text frame now shares extent) tracks g with
    hsame | ⟨-, -, -, hasked⟩
  · exact h origin (hmay.of_sameTypewriters hsame)
  · have hafter : (tracks.askTypewriter now ((frame.key text.raw).element extent)
        (frame.question r.config now extent.length)).value.2.MayRunFrom frame
          ((frame.key text.raw).element e.1) origin := by
      rw [Effect.touch, hasked] at hmay
      exact hmay
    exact h origin hafter.of_ask

theorem Withholds.foldl {n : Nat} (effects : List (Extent × Effect))
    (shares : List (Extent × Nat)) (state : Glyph × TrackStore)
    (h : Withholds text frame state.2 e n) :
    Withholds text frame (effects.foldl
      (fun state entry => entry.2.touch (r.scope text frame now shares entry.1) state) state).2
        e n := by
  induction effects generalizing state with
  | nil => exact h
  | cons entry rest ih => exact ih _ (h.touch entry.2 shares entry.1 state.1)

variable (now) in
/-- One typewriter of a character. -/
theorem letsWait_touch (hindependent : r.config.allocation = .independent)
    (hticks : frame.ticks.isFinite = true) (hforward : e.2.Forward) (shares : List (Extent × Nat))
    (state : Glyph × TrackStore) :
    let after := (Effect.typewriter e.2).touch (r.scope text frame now shares e.1) state
    after.1.index = state.1.index ∧ ∃ waits : Prop,
      (after.1.visible = true ↔ state.1.visible = true ∧ ¬ waits) ∧
        LetsWait text frame state.1.index state.2 after.2 [e] fun _ => waits := by
  obtain ⟨origin, hmay, hanswer, hafter⟩ := state.2.exists_origin frame r.config now
    ((frame.key text.raw).element e.1) e.1.length
  rw [e.2.touch_of_independent (s := r.scope text frame now shares e.1) hindependent hticks]
  refine ⟨e.2.index_reveal _ _ _ _ _,
    visibleCount (frame.ticks - origin) e.2.speed e.2.delay e.1.length ≤
      e.1.localIndex state.1.index, ?_, ?_, ?_⟩
  · rw [← hanswer, Nat.not_le]
    exact e.2.visible_reveal _ _ _ _ _
  · refine List.forall_mem_singleton.mpr fun hwaits origin' hmay' => ?_
    rcases hafter origin' hmay' with rfl | rfl
    · rw [hforward.visibleCount_eq_zero hticks]
      exact Nat.zero_le _
    · exact hwaits
  · exact List.forall_mem_singleton.mpr fun n hn hwithholds =>
      Nat.le_trans (hwithholds origin hmay) hn

theorem LetsWait.cons {index : Nat} {before mid after : TrackStore}
    {rest : List (Extent × Typewriter)} {first : Prop} {waits : Extent × Typewriter → Prop}
    (hfirst : LetsWait text frame index before mid [e] fun _ => first)
    (hrest : LetsWait text frame index mid after rest waits)
    (hbefore : ∀ e n, Withholds text frame before e n → Withholds text frame mid e n)
    (hafter : ∀ e n, Withholds text frame mid e n → Withholds text frame after e n) :
    LetsWait text frame index before after (e :: rest)
      fun other => other = e ∧ first ∨ other ∈ rest ∧ waits other := by
  refine ⟨fun other _ hwaits => ?_, fun other hother n hn hwithholds => ?_⟩
  · rcases hwaits with ⟨rfl, hwaits⟩ | ⟨hother, hwaits⟩
    · exact hafter _ _ (hfirst.stays _ List.mem_cons_self hwaits)
    · exact hrest.stays _ hother hwaits
  · rcases List.mem_cons.mp hother with rfl | hother
    · exact .inl ⟨rfl, hfirst.follows _ List.mem_cons_self n hn hwithholds⟩
    · exact .inr ⟨hother, hrest.follows _ hother n hn (hbefore _ _ hwithholds)⟩

variable (now) in
/-- The typewriters of a character one after the other. -/
theorem exists_waits_foldl (hindependent : r.config.allocation = .independent)
    (hticks : frame.ticks.isFinite = true) (shares : List (Extent × Nat))
    (effects : List (Extent × Effect)) (hforward : ∀ e ∈ typewritersAmong effects, e.2.Forward)
    (state : Glyph × TrackStore) :
    let after := effects.foldl
      (fun state entry => entry.2.touch (r.scope text frame now shares entry.1) state) state
    ∃ waits, (after.1.visible = true ↔
        state.1.visible = true ∧ ∀ e ∈ typewritersAmong effects, ¬ waits e) ∧
      LetsWait text frame state.1.index state.2 after.2 (typewritersAmong effects) waits := by
  induction effects generalizing state with
  | nil =>
    exact ⟨fun _ => False, by simp [typewritersAmong], by simp [typewritersAmong],
      by simp [typewritersAmong]⟩
  | cons entry rest ih =>
    obtain ⟨extent, effect⟩ := entry
    have hkeeps : ∀ e n, Withholds text frame state.2 e n → Withholds text frame
        (effect.touch (r.scope text frame now shares extent) state).2 e n :=
      fun e n h => h.touch effect shares extent state.1
    by_cases htypewriter : ∃ t, effect = .typewriter t
    · obtain ⟨t, rfl⟩ := htypewriter
      obtain ⟨hfirst, hothers⟩ := List.forall_mem_cons.mp
        (show ∀ e ∈ (extent, t) :: typewritersAmong rest, e.2.Forward from hforward)
      obtain ⟨hindex, first, hvisible, hlets⟩ :=
        letsWait_touch now (e := (extent, t)) hindependent hticks hfirst shares state
      obtain ⟨waits, hshows, hrest⟩ := ih hothers
        ((Effect.typewriter t).touch (r.scope text frame now shares extent) state)
      rw [hindex] at hrest
      refine ⟨_, ?_, hlets.cons hrest hkeeps fun e n h => h.foldl rest shares _⟩
      rw [List.foldl_cons, hshows, hvisible, and_assoc]
      refine and_congr_right fun _ => ⟨?_, fun h => ⟨?_, fun e he hwaits => ?_⟩⟩
      · rintro ⟨hshown, hothers⟩ e - (⟨-, hwaits⟩ | ⟨he, hwaits⟩)
        · exact hshown hwaits
        · exact hothers e he hwaits
      · exact fun hwaits => h (extent, t) List.mem_cons_self (.inl ⟨rfl, hwaits⟩)
      · exact h e (List.mem_cons_of_mem _ he) (.inr ⟨he, hwaits⟩)
    · obtain ⟨hindex, hvisible⟩ := Effect.sameSight_touch (not_exists.mp htypewriter)
        (r.scope text frame now shares extent) state
      rw [typewritersAmong_cons_of_ne (not_exists.mp htypewriter)] at hforward ⊢
      obtain ⟨waits, hshows, hstays, hfollows⟩ := ih hforward
        (effect.touch (r.scope text frame now shares extent) state)
      rw [hvisible] at hshows
      rw [hindex] at hstays hfollows
      exact ⟨waits, hshows, hstays, fun e he n hn h => hfollows e he n hn (hkeeps e n h)⟩

/-! ### Whole frames -/

theorem forward_of_mem {chain : List Attribute} {e : Extent × Typewriter}
    (h : e ∈ typewritersAmong (r.config.effectsOf chain)) : e.2.Forward := by
  obtain ⟨-, a, -, -, heffect, -⟩ :=
    Config.exists_attribute_of_mem_effectsOf (mem_typewritersAmong.mp h)
  exact Typewriter.forward_of_attribute heffect

/-- What has come to wait in a frame waits until its end. -/
theorem Withholds.tracksAt {n i j : Nat} (hon : r.config.suppresses frame = false) (hle : i ≤ j)
    (hj : j ≤ text.length)
    (h : Withholds text frame (r.tracksAt text frame now tracks i) e n) :
    Withholds text frame (r.tracksAt text frame now tracks j) e n := by
  induction j, hle using Nat.le_induction with
  | base => exact h
  | succ j _ ih =>
    obtain ⟨c, g, -, hdrawn⟩ := r.exists_glyph text frame now tracks hj
    rw [hon, if_neg Bool.false_ne_true] at hdrawn
    obtain ⟨blank, -, -, hpaint⟩ := r.exists_blank text frame now j c
    rw [hdrawn.2, hpaint]
    exact (ih (by omega)).foldl _ _ _

/-- The typewriters of a text that act on a character. -/
abbrev typewritersAt (r : Renderer) (text : AttributedText) (index : Nat) :
    List (Extent × Typewriter) :=
  typewritersAmong (r.config.effectsOf (text.attributesAt index))

/-- The glyph of a character in a frame, and the typewriters that let it wait. -/
structure Reveals (r : Renderer) (text : AttributedText) (frame : Frame) (now : Millis)
    (tracks : TrackStore) (index : Nat) (g : Glyph) (waits : Extent × Typewriter → Prop) :
    Prop where
  glyph : (r.render text frame now tracks).value.1[index]? = some g
  shows : g.visible = true ↔ ∀ e ∈ r.typewritersAt text index, ¬ waits e
  lets : LetsWait text frame index (r.tracksAt text frame now tracks index)
    (r.tracksAt text frame now tracks (index + 1)) (r.typewritersAt text index) waits

theorem exists_reveals (hindependent : r.config.allocation = .independent)
    (hticks : frame.ticks.isFinite = true) (hon : r.config.suppresses frame = false)
    {index : Nat} (hindex : index < text.length) :
    ∃ g waits, r.Reveals text frame now tracks index g waits := by
  obtain ⟨c, g, hg, hdrawn⟩ := r.exists_glyph text frame now tracks hindex
  rw [hon, if_neg Bool.false_ne_true] at hdrawn
  obtain ⟨rfl, hafter⟩ := hdrawn
  obtain ⟨blank, rfl, hvisible, hpaint⟩ := r.exists_blank text frame now index c
  obtain ⟨waits, hshows, hlets⟩ := exists_waits_foldl now hindependent hticks
    (r.shareIn text frame now tracks).1 (r.config.effectsOf (text.attributesAt blank.index))
    (fun e he => forward_of_mem he) (blank, r.tracksAt text frame now tracks blank.index)
  refine ⟨_, waits, hg, ?_, ?_⟩
  · rw [hpaint, hshows, hvisible, and_iff_right rfl]
  · rw [hafter, hpaint]
    exact hlets

/-- What holds from some place on begins at the end of a prefix. -/
theorem exists_count {P : Nat → Prop} (length : Nat)
    (hstays : ∀ i j, i < j → j < length → P i → P j) :
    ∃ count ≤ length, ∀ i < length, (i < count ↔ ¬ P i) := by
  classical
  by_cases hsome : ∃ i, i < length ∧ P i
  · obtain ⟨hlt, hfirst⟩ := Nat.find_spec hsome
    refine ⟨Nat.find hsome, hlt.le, fun i hi => ⟨fun hbefore hwaits => ?_, fun hshows => ?_⟩⟩
    · exact Nat.find_min hsome hbefore ⟨hi, hwaits⟩
    · by_contra hafter
      rcases Nat.lt_or_eq_of_le (Nat.not_lt.mp hafter) with hlater | heq
      · exact hshows (hstays _ i hlater hi hfirst)
      · exact hshows (heq ▸ hfirst)
  · exact ⟨length, Nat.le_refl _, fun i hi => ⟨fun _ hwaits => hsome ⟨i, hi, hwaits⟩, fun _ => hi⟩⟩

theorem mem_typewritersAt (hgoverned : text.Governed) {index : Nat} :
    e ∈ r.typewritersAt text index ↔
      e ∈ r.typewriters text ∧ e.1.contains index = true := by
  rw [mem_typewritersAmong, mem_typewriters, Config.Keeps.mem_effectsOf_attributesAt hgoverned]

/-- The characters of an element that do not wait are its first ones. -/
theorem exists_count_of_letsWait (hgoverned : text.Governed)
    (hon : r.config.suppresses frame = false) {waits : Nat → Extent × Typewriter → Prop}
    (hlets : ∀ index < text.length, LetsWait text frame index
      (r.tracksAt text frame now tracks index) (r.tracksAt text frame now tracks (index + 1))
      (r.typewritersAt text index) (waits index))
    (he : e ∈ r.typewriters text) :
    ∃ count ≤ e.1.length, ∀ i < e.1.length, (i < count ↔ ¬ waits (e.1.start + i) e) := by
  have hstop : e.1.stop ≤ text.length := (mem_typewriters.mp he).stop_le hgoverned
  have hover : ∀ i < e.1.length, e.1.start + i < text.length ∧
      e ∈ r.typewritersAt text (e.1.start + i) := by
    intro i hi
    rw [Extent.length] at hi
    exact ⟨by omega, (mem_typewritersAt hgoverned).mpr
      ⟨he, Extent.contains_iff.mpr (by omega)⟩⟩
  refine exists_count e.1.length fun i j hij hj hi => ?_
  obtain ⟨hlt, hmem⟩ := hover i (by omega)
  obtain ⟨hlt', hmem'⟩ := hover j hj
  have hwithholds := ((hlets _ hlt).stays e hmem hi).tracksAt hon
    (show e.1.start + i + 1 ≤ e.1.start + j by omega) hlt'.le
  refine (hlets _ hlt').follows e hmem' _ ?_ hwithholds
  simp only [Extent.localIndex]
  omega

theorem exists_counts_of_governed (hgoverned : text.Governed)
    (hindependent : r.config.allocation = .independent) (hticks : frame.ticks.isFinite = true)
    (hon : r.config.suppresses frame = false) :
    ∃ count : Extent × Typewriter → Nat, (∀ e ∈ r.typewriters text, count e ≤ e.1.length) ∧
      ∀ index < text.length, ∃ g, (r.render text frame now tracks).value.1[index]? = some g ∧
        (g.visible = true ↔ ∀ e ∈ r.typewriters text, e.1.contains index = true →
          e.1.localIndex index < count e) := by
  have hdrawn : ∀ index, ∃ g waits, index < text.length →
      r.Reveals text frame now tracks index g waits := fun index => by
    by_cases hindex : index < text.length
    · obtain ⟨g, waits, h⟩ := exists_reveals hindependent hticks hon hindex
      exact ⟨g, waits, fun _ => h⟩
    · exact ⟨frame.blankGlyph 0 default, fun _ => False, fun hlt => absurd hlt hindex⟩
  choose glyph waits hdrawn using hdrawn
  have hcounts : ∀ e, ∃ count, e ∈ r.typewriters text → count ≤ e.1.length ∧
      ∀ i < e.1.length, (i < count ↔ ¬ waits (e.1.start + i) e) := fun e => by
    by_cases he : e ∈ r.typewriters text
    · obtain ⟨count, hcount⟩ := exists_count_of_letsWait hgoverned hon
        (fun index hindex => (hdrawn index hindex).lets) he
      exact ⟨count, fun _ => hcount⟩
    · exact ⟨0, fun h => absurd h he⟩
  choose count hcount using hcounts
  refine ⟨count, fun e he => (hcount e he).1, fun index hindex => ?_⟩
  have hglyph := hdrawn index hindex
  refine ⟨glyph index, hglyph.glyph, hglyph.shows.trans ?_⟩
  simp only [mem_typewritersAt hgoverned, and_imp]
  refine forall_congr' fun e => forall_congr' fun he => forall_congr' fun hin => ?_
  rw [Extent.contains_iff] at hin
  have hplace := (hcount e he).2 (e.1.localIndex index)
    (by simp only [Extent.localIndex, Extent.length]; omega)
  rw [hplace, Extent.localIndex, Nat.add_sub_cancel' hin.1]

/-- When each typewriter counts alone, each shows a prefix of its element in a frame, and a
character shows when all typewriters over it show it, whatever the tracks are and however often they
start over or are dropped on the way. -/
theorem exists_counts_of_independent (registry : Registry) (options : Markup.ParseOptions)
    (source : String) (r : Renderer) (frame : Frame) (now : Millis) (tracks : TrackStore)
    (hindependent : r.config.allocation = .independent) (hticks : frame.ticks.isFinite = true) :
    let text := (Markup.parse registry options source).value
    ∃ count : Extent × Typewriter → Nat, (∀ e ∈ r.typewriters text, count e ≤ e.1.length) ∧
      ∀ index < text.length, ∃ g, (r.render text frame now tracks).value.1[index]? = some g ∧
        (g.visible = true ↔ ∀ e ∈ r.typewriters text, e.1.contains index = true →
          e.1.localIndex index < count e) := by
  have hgoverned := Markup.governed_parse registry options source
  cases hon : r.config.suppresses frame with
  | false => exact exists_counts_of_governed hgoverned hindependent hticks hon
  | true =>
    -- Without effects everything shows.
    refine ⟨fun e => e.1.length, fun _ _ => Nat.le_refl _, fun index hindex => ?_⟩
    obtain ⟨c, g, hg, hdrawn⟩ := r.exists_glyph _ frame now tracks hindex
    rw [hon, if_pos rfl] at hdrawn
    refine ⟨g, hg, hdrawn ▸ iff_of_true rfl fun e _ hin => ?_⟩
    rw [Extent.contains_iff] at hin
    simp only [Extent.localIndex, Extent.length]
    omega

/-- A typewriter in another one, in a store that has room for one track only. -/
theorem exists_counts_of_independent_nested :
    let r : Renderer := ⟨{ trackCapacity := 1 }⟩
    let text := (Markup.parse .builtin {}
      "<typewriter>a<typewriter>b</typewriter></typewriter>c").value
    let frame : Frame := { ticks := 1.0 }
    text.length = 3 ∧ frame.ticks.isFinite = true ∧
      ∃ count : Extent × Typewriter → Nat, (∀ e ∈ r.typewriters text, count e ≤ e.1.length) ∧
        ∀ index < text.length, ∃ g,
          (r.render text frame 0 (.ofConfig r.config)).value.1[index]? = some g ∧
            (g.visible = true ↔ ∀ e ∈ r.typewriters text, e.1.contains index = true →
              e.1.localIndex index < count e) := by
  refine ⟨by decide +kernel, by decide +kernel, ?_⟩
  exact exists_counts_of_independent _ _ _ _ _ _ _ rfl (by decide +kernel)

end Renderer

end KineticText
