import KineticText.Proofs.Layout.Requests

/-! Layouts that are made while the cache is in use.  Between the lookup and the second look
anything may be done with the cache, by what makes the layout or by others: the cache is not held
meanwhile. Main statement: the layout that is given in the end is the one that is stored then, and
it is the made one only if nobody has stored another. -/

namespace KineticText.LayoutCache

variable {α : Type}

/-- What is done with the cache while a layout is made, one thing after the other, and the layout
that is made in the end. -/
inductive Making (α : Type)
  | made (layout : α)
  | request (request : Request α) (rest : Making α)
  | resize (capacity : Nat) (rest : Making α)
  /-- Another layout is looked up, and made if there is none. -/
  | getOrMake (key : LayoutKey) (inner rest : Making α)
  /-- The second look of a call whose lookup came earlier. -/
  | keep (key : LayoutKey) (layout : α) (rest : Making α)

/-- Making a layout, with the mark that the second look for it leaves. -/
def marked (key : LayoutKey)
    (make : LayoutCache α → List (Mark α) → Logged (α × LayoutCache α × List (Mark α)))
    (c : LayoutCache α) (history : List (Mark α)) :
    Logged (α × LayoutCache α × List (Mark α)) := do
  let (layout, c, history) ← make c history
  return (layout, c, c.keepMarks key layout ++ history)

/-- The layout that is made, and the cache with its history then. -/
def Making.run : Making α → LayoutCache α → List (Mark α) →
    Logged (α × LayoutCache α × List (Mark α))
  | .made layout, c, history => return (layout, c, history)
  | .request asked rest, c, history => rest.run (c.after asked) (c.marks asked ++ history)
  | .resize capacity rest, c, history => rest.run (c.resize capacity) (.resized capacity :: history)
  | .getOrMake key inner rest, c, history => do
    let (_, c, history) ← c.getOrMake key (marked key inner.run) (c.lookupMarks key ++ history)
    rest.run c history
  | .keep key layout rest, c, history =>
    rest.run (c.keep key layout).2 (c.keepMarks key layout ++ history)

namespace EachMark

variable {P : Recency LayoutKey α → List (Mark α) → Prop} {c : LayoutCache α}
  {history : List (Mark α)}

theorem getOrMake (hP : EachMark P) (key : LayoutKey)
    {make : LayoutCache α → List (Mark α) → Logged (α × LayoutCache α × List (Mark α))}
    (hmake : ∀ {c history}, P c.entries history →
      P (make c history).value.2.1.entries (make c history).value.2.2)
    (h : P c.entries history) :
    let given := (c.getOrMake key (marked key make) (c.lookupMarks key ++ history)).value
    P given.2.1.entries given.2.2 := by
  rw [value_getOrMake]
  cases c.entries.peek? key with
  | some layout => exact hP.get h key
  | none => exact hP.keep (hmake (hP.get h key)) key _

/-- What marks and changes of capacity keep, whatever is done while a layout is made keeps too. -/
theorem run (hP : EachMark P)
    (hresize : ∀ {m history}, P m history → ∀ n, P (m.resize n) (.resized n :: history))
    (making : Making α) (h : P c.entries history) :
    P (making.run c history).value.2.1.entries (making.run c history).value.2.2 := by
  induction making generalizing c history with
  | made layout => exact h
  | request request rest ih => exact ih (hP.after h request)
  | resize capacity rest ih => exact ih (c := c.resize capacity) (hresize h capacity)
  | getOrMake key inner rest hinner hrest => exact hrest (hP.getOrMake key hinner h)
  | keep key layout rest ih => exact ih (hP.keep h key layout)

end EachMark

/-! ### Where layouts stem from -/

/-- The room that a mark makes. -/
def Mark.room? : Mark α → Option Nat
  | .resized capacity => some (max capacity 1)
  | _ => none

/-- The room after a history, of a cache that started with some. -/
def roomAfter (room : Nat) (history : List (Mark α)) : Nat :=
  (history.findSome? Mark.room?).getD room

/-- A layout in the map was stored last under its key, or was there at the start, and the room is
what was asked for last. -/
structure Stems (start m : Recency LayoutKey α) (history : List (Mark α)) : Prop where
  stored : ∀ key layout, m.peek? key = some layout →
    lastStored history key = some layout ∨ start.peek? key = some layout
  room : m.capacity = roomAfter start.capacity history

variable {start m : Recency LayoutKey α} {history : List (Mark α)}

theorem Stems.put (h : Stems start m history) {mark : Mark α} {key : LayoutKey} {layout : α}
    (hstored : ∀ key' layout', (if key' = key then some layout else m.peek? key') = some layout' →
      lastStored (mark :: history) key' = some layout' ∨ start.peek? key' = some layout')
    (hroom : mark.room? = none) : Stems start (m.put key layout) (mark :: history) := by
  refine ⟨fun key' layout' hpeek => hstored key' layout' ?_, ?_⟩
  · split_ifs with hsame
    · rw [← hpeek, hsame, Recency.peek?_put_self]
    · rcases Recency.leaves_put_of_ne hsame m layout with hleaves | hgone
      · rw [← hleaves, hpeek]
      · rw [hgone] at hpeek
        cases hpeek
  · simp only [roomAfter, List.findSome?_cons, hroom]
    exact h.room

theorem eachMark_stems (start : Recency LayoutKey α) : EachMark (Stems start) where
  stored {_ history} h key layout := by
    refine h.put (fun key' layout' hpeek => ?_) rfl
    rw [lastStored_stored]
    by_cases hsame : key' = key
    · rw [if_pos hsame] at hpeek
      exact .inl (by rw [if_pos hsame.symm, hpeek])
    · rw [if_neg hsame] at hpeek
      rw [if_neg (Ne.symm hsame)]
      exact h.stored key' layout' hpeek
  found {m history} h {key layout} hpeek := by
    refine h.put (fun key' layout' hpeek' => h.stored key' layout' ?_) rfl
    split_ifs at hpeek' with hsame
    · rw [hsame, hpeek, hpeek']
    · exact hpeek'
  cleared h := ⟨fun _ _ hpeek => (by cases hpeek), h.room⟩

theorem Stems.resize (h : Stems start m history) (capacity : Nat) :
    Stems start (m.resize capacity) (.resized capacity :: history) := by
  refine ⟨fun key layout hpeek => h.stored key layout ?_, rfl⟩
  rw [← hpeek]
  simp only [Recency.peek?, Recency.resize, Recency.firstEntries_eq_take] at hpeek ⊢
  rcases Recency.lookup_take (Nat.max capacity 1) key m.entries with hsame | hnone
  · exact hsame.symm
  · rw [hnone] at hpeek
    cases hpeek

/-! ### What is given -/

section

variable {σ : Type} (c : LayoutCache α) (key : LayoutKey)
  (make : LayoutCache α → σ → Logged (α × LayoutCache α × σ)) (state : σ)

theorem capacity_get : (c.get key).value.2.capacity = c.capacity := by
  rw [value_get]
  cases c.entries.peek? key <;> rfl

theorem peek?_get : (c.get key).value.2.entries.peek? key = c.entries.peek? key := by
  rw [value_get]
  cases hpeek : c.entries.peek? key with
  | some layout => exact Recency.peek?_put_self _ _ _
  | none => exact hpeek

/-- Whatever `make` does, the layout that is given is the one under the key then. -/
theorem peek?_getOrMake : (c.getOrMake key make state).value.2.1.entries.peek? key =
    some (c.getOrMake key make state).value.1 := by
  rw [value_getOrMake]
  cases hpeek : c.entries.peek? key with
  | some layout => exact (c.peek?_get key).trans hpeek
  | none =>
    simp only [keep_eq]
    exact Recency.peek?_put_self _ _ _

theorem given_getOrMake : (c.getOrMake key make state).value.1 =
    let built := (make (c.get key).value.2 state).value
    ((c.get key).value.1.or (built.2.1.get key).value.1).getD built.1 := by
  rw [value_getOrMake, answer_get]
  cases c.entries.peek? key with
  | some layout => rfl
  | none => simp only [answer_get, keep_eq, Option.none_or]

end

theorem Making.stems_run (making : Making α) (c : LayoutCache α) :
    let built := (making.run c []).value
    Stems c.entries built.2.1.entries built.2.2 :=
  (eachMark_stems c.entries).run Stems.resize making ⟨fun _ _ => .inr, rfl⟩

theorem capacity_built (c : LayoutCache α) (key : LayoutKey) (making : Making α) :
    let built := (making.run (c.get key).value.2 []).value
    built.2.1.capacity = roomAfter c.capacity built.2.2 := by
  intro built
  rw [← c.capacity_get key]
  exact (making.stems_run _).room

theorem capacity_getOrMake (c : LayoutCache α) (key : LayoutKey) (making : Making α) :
    let given := (c.getOrMake key making.run []).value
    given.2.1.capacity = roomAfter c.capacity given.2.2 := by
  rw [value_getOrMake]
  cases c.entries.peek? key with
  | some layout => exact c.capacity_get key
  | none =>
    simp only [keep_eq]
    exact c.capacity_built key making

/-- Whatever is done with the cache while a layout is made, the layout that is given is the one that
is found right after.  If one is there by then, it was stored meanwhile, and it is given. -/
theorem getOrMake_making (c : LayoutCache α) (key : LayoutKey) (making : Making α) :
    let looked := (c.get key).value
    let built := (making.run looked.2 []).value
    let given := (c.getOrMake key making.run []).value
    (given.2.1.get key).value.1 = some given.1 ∧
    given.1 = (looked.1.or (built.2.1.get key).value.1).getD built.1 ∧
    (looked.1 = none → ∀ stored, (built.2.1.get key).value.1 = some stored →
      lastStored built.2.2 key = some stored) ∧
    built.2.1.size ≤ built.2.1.capacity ∧ built.2.1.capacity = roomAfter c.capacity built.2.2 ∧
    given.2.1.size ≤ given.2.1.capacity ∧ given.2.1.capacity = roomAfter c.capacity given.2.2 := by
  intro looked built given
  refine ⟨?_, c.given_getOrMake key _ _, fun hnone stored hstored => ?_,
    built.2.1.entries.length_le, c.capacity_built key making, given.2.1.entries.length_le,
    c.capacity_getOrMake key making⟩
  · rw [answer_get]
    exact c.peek?_getOrMake key _ _
  · rw [answer_get] at hstored
    -- What is there now was not there before, so it has been stored since.
    rcases (making.stems_run looked.2).stored key stored hstored with hlast | hbefore
    · exact hlast
    · have hnone' : c.entries.peek? key = none := (c.answer_get key).symm.trans hnone
      rw [peek?_get, hnone'] at hbefore
      cases hbefore

/-- What makes a layout looks the same one up, and makes it on the way. -/
example : let key : LayoutKey := ⟨"a", 100, 0, "en_us", 0, 1⟩
    ((empty 1 : LayoutCache Nat).getOrMake key
      (Making.getOrMake key (.made 1) (.made 2)).run []).value.1 = 1 := by
  decide

end KineticText.LayoutCache
