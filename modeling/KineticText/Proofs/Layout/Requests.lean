import Mathlib.Data.Finset.Card
import KineticText.Layout.Cache
import KineticText.Proofs.Track.Store

/-! What is asked of a cache of layouts, and what its history says.  A request may find a layout,
store one, or drop all of them; the history of a cache is the list of these marks, the latest first.
A history alone tells which layout was stored last under a key, and which keys have been used since
a key was. -/

namespace KineticText.LayoutCache

variable {α : Type}

/-! ### What operations give and leave -/

theorem value_get (c : LayoutCache α) (key : LayoutKey) :
    (c.get key).value = match c.entries.peek? key with
      | some layout =>
        (some layout, { c with entries := c.entries.put key layout, hits := c.hits + 1 })
      | none => (none, { c with misses := c.misses + 1 }) := by
  unfold get Recency.get?
  cases c.entries.peek? key <;> rfl

theorem answer_get (c : LayoutCache α) (key : LayoutKey) :
    (c.get key).value.1 = c.entries.peek? key := by
  rw [value_get]
  cases c.entries.peek? key <;> rfl

theorem keep_eq (c : LayoutCache α) (key : LayoutKey) (made : α) :
    c.keep key made =
      ((c.entries.peek? key).getD made, c.put key ((c.entries.peek? key).getD made)) := by
  unfold keep Recency.get?
  cases c.entries.peek? key <;> rfl

/-- Making a layout comes between the lookup and the second look. -/
theorem value_getOrMake {σ : Type} (c : LayoutCache α) (key : LayoutKey)
    (make : LayoutCache α → σ → Logged (α × LayoutCache α × σ)) (state : σ) :
    (c.getOrMake key make state).value = match c.entries.peek? key with
      | some layout => (layout, (c.get key).value.2, state)
      | none =>
        let built := (make (c.get key).value.2 state).value
        let kept := built.2.1.keep key built.1
        (kept.1, kept.2, built.2.2) := by
  simp only [getOrMake, get, Recency.get?]
  cases c.entries.peek? key <;> rfl

/-! ### Reports -/

/-- The cache without layouts. -/
def emptied (c : LayoutCache α) : LayoutCache α := { c with entries := c.entries.clear }

theorem report_setLanguage (c : LayoutCache α) (language : String) :
    (c.setLanguage language).value = if c.language = some language then (false, c)
      else (true, { c with language := some language }.emptied) := by
  unfold setLanguage
  split <;> rfl

theorem report_setScale (c : LayoutCache α) (scale : Float) :
    (c.setScale scale).value = if c.scaleBits = some scale.toBits then (false, c)
      else (true, { c with scaleBits := some scale.toBits }.emptied) := by
  unfold setScale
  split <;> rfl

theorem report_setFingerprint (c : LayoutCache α) (fingerprint : UInt64) :
    (c.setFingerprint fingerprint).value = if c.fingerprint = some fingerprint then (false, c)
      else (true, { c with fingerprint := some fingerprint }.emptied) := by
  unfold setFingerprint
  split <;> rfl

/-- A report gives whether something has changed, and drops all layouts if so; lookups are counted
on. -/
structure Reports (c : LayoutCache α) (report : Bool × LayoutCache α) : Prop where
  entries : report.2.entries = if report.1 then c.entries.clear else c.entries
  hits : report.2.hits = c.hits
  misses : report.2.misses = c.misses

theorem reports_setLanguage (c : LayoutCache α) (language : String) :
    c.Reports (c.setLanguage language).value := by
  rw [report_setLanguage]
  split <;> exact ⟨rfl, rfl, rfl⟩

theorem reports_setScale (c : LayoutCache α) (scale : Float) :
    c.Reports (c.setScale scale).value := by
  rw [report_setScale]
  split <;> exact ⟨rfl, rfl, rfl⟩

theorem reports_setFingerprint (c : LayoutCache α) (fingerprint : UInt64) :
    c.Reports (c.setFingerprint fingerprint).value := by
  rw [report_setFingerprint]
  split <;> exact ⟨rfl, rfl, rfl⟩

theorem remembers_setFingerprint (c : LayoutCache α) (fingerprint : UInt64) :
    let c' := (c.setFingerprint fingerprint).value.2
    c'.fingerprint = some fingerprint ∧ c'.language = c.language ∧ c'.scaleBits = c.scaleBits ∧
      c'.capacity = c.capacity := by
  rw [report_setFingerprint]
  split
  · rename_i hsame
    exact ⟨hsame, rfl, rfl, rfl⟩
  · exact ⟨rfl, rfl, rfl, rfl⟩

/-! ### Histories -/

/-- What a history of a cache is made of. -/
inductive Mark (α : Type)
  | stored (key : LayoutKey) (layout : α)
  | found (key : LayoutKey)
  | cleared
  | resized (capacity : Nat)

namespace Mark

/-- The key that is used. -/
def key? : Mark α → Option LayoutKey
  | stored key _ => some key
  | found key => some key
  | cleared => none
  | resized _ => none

/-- The layout that is stored under a key. -/
def layout? (key : LayoutKey) : Mark α → Option α
  | stored key' layout => if key' = key then some layout else none
  | found _ => none
  | cleared => none
  | resized _ => none

def isCleared : Mark α → Bool
  | cleared => true
  | _ => false

end Mark

/-- The history since all layouts were dropped. -/
def sinceCleared (history : List (Mark α)) : List (Mark α) :=
  history.takeWhile fun mark => !mark.isCleared

/-- The layout that was stored last under a key, since all were dropped. -/
def lastStored (history : List (Mark α)) (key : LayoutKey) : Option α :=
  (sinceCleared history).findSome? (Mark.layout? key)

/-- The keys used after the last use of a key, since all layouts were dropped. -/
def usedSince (history : List (Mark α)) (key : LayoutKey) : Finset LayoutKey :=
  (((sinceCleared history).filterMap Mark.key?).takeWhile (· != key)).toFinset

variable (history : List (Mark α)) (key key' : LayoutKey)

@[simp] theorem lastStored_stored (layout : α) :
    lastStored (.stored key' layout :: history) key =
      if key' = key then some layout else lastStored history key := by
  simp only [lastStored, sinceCleared, Mark.isCleared, Bool.not_false, List.takeWhile_cons_of_pos,
    List.findSome?_cons, Mark.layout?]
  split_ifs <;> rfl

@[simp] theorem lastStored_found :
    lastStored (.found key' :: history) key = lastStored history key := rfl

theorem usedSince_cons {mark : Mark α} (hmark : mark.key? = some key') :
    usedSince (mark :: history) key =
      if key' = key then ∅ else insert key' (usedSince history key) := by
  have hstays : mark.isCleared = false := by
    cases mark with
    | stored | found => rfl
    | cleared | resized => cases hmark
  simp only [usedSince, sinceCleared, hstays, Bool.not_false, List.takeWhile_cons_of_pos,
    List.filterMap_cons, hmark, List.takeWhile_cons]
  by_cases hsame : key' = key <;> simp [hsame]

/-! ### Requests -/

/-- What is asked of a cache; what makes a layout does not look at the cache itself. -/
inductive Request (α : Type)
  | put (key : LayoutKey) (layout : α)
  | get (key : LayoutKey)
  | getOrMake (key : LayoutKey) (make : Logged α)
  | clear
  | setLanguage (language : String)
  | setScale (scale : Float)
  | setFingerprint (fingerprint : UInt64)

/-- The cache after a request. -/
def after (c : LayoutCache α) : Request α → LayoutCache α
  | .put key layout => c.put key layout
  | .get key => (c.get key).value.2
  | .getOrMake key make =>
    (c.getOrMake key (fun c state => do return (← make, c, state)) ()).value.2.1
  | .clear => c.clear.value
  | .setLanguage language => (c.setLanguage language).value.2
  | .setScale scale => (c.setScale scale).value.2
  | .setFingerprint fingerprint => (c.setFingerprint fingerprint).value.2

def lookupMarks (c : LayoutCache α) (key : LayoutKey) : List (Mark α) :=
  if (c.get key).value.1.isSome then [.found key] else []

/-- A layout is stored unless one is found. -/
def keepMarks (c : LayoutCache α) (key : LayoutKey) (made : α) : List (Mark α) :=
  if (c.get key).value.1.isSome then [.found key] else [.stored key made]

def reportMarks (changed : Bool) : List (Mark α) := if changed then [.cleared] else []

/-- The marks that a request leaves. -/
def marks (c : LayoutCache α) : Request α → List (Mark α)
  | .put key layout => [.stored key layout]
  | .get key => c.lookupMarks key
  | .getOrMake key make => c.keepMarks key make.value
  | .clear => [.cleared]
  | .setLanguage language => reportMarks (c.setLanguage language).value.1
  | .setScale scale => reportMarks (c.setScale scale).value.1
  | .setFingerprint fingerprint => reportMarks (c.setFingerprint fingerprint).value.1

/-! ### What requests keep -/

/-- Everything that leaves a mark keeps the property of a map and its history. -/
structure EachMark (P : Recency LayoutKey α → List (Mark α) → Prop) : Prop where
  stored : ∀ {m history}, P m history → ∀ key layout,
    P (m.put key layout) (.stored key layout :: history)
  found : ∀ {m history}, P m history → ∀ {key layout}, m.peek? key = some layout →
    P (m.put key layout) (.found key :: history)
  cleared : ∀ {m history}, P m history → P m.clear (.cleared :: history)

/-- When making a layout leaves the cache alone, the second look finds what the lookup found. -/
theorem after_getOrMake (c : LayoutCache α) (key : LayoutKey) (make : Logged α) :
    (c.after (.getOrMake key make)).entries = (c.keep key make.value).2.entries ∧
      (c.after (.getOrMake key make)).hits + (c.after (.getOrMake key make)).misses =
        c.hits + c.misses + 1 := by
  simp only [after, value_getOrMake, value_get, keep_eq]
  cases hpeek : c.entries.peek? key with
  | some layout => exact ⟨rfl, by simp; omega⟩
  | none => simp [hpeek, put]; omega

namespace EachMark

variable {P : Recency LayoutKey α → List (Mark α) → Prop} {c : LayoutCache α}
  {history : List (Mark α)}

theorem get (hP : EachMark P) (h : P c.entries history) (key : LayoutKey) :
    P (c.get key).value.2.entries (c.lookupMarks key ++ history) := by
  unfold lookupMarks
  rw [answer_get, value_get]
  cases hpeek : c.entries.peek? key with
  | some layout => exact hP.found h hpeek
  | none => exact h

theorem keep (hP : EachMark P) (h : P c.entries history) (key : LayoutKey) (made : α) :
    P (c.keep key made).2.entries (c.keepMarks key made ++ history) := by
  unfold keepMarks
  rw [answer_get, keep_eq]
  cases hpeek : c.entries.peek? key with
  | some layout => exact hP.found h hpeek
  | none => exact hP.stored h key made

theorem report (hP : EachMark P) (h : P c.entries history) {report : Bool × LayoutCache α}
    (hreport : c.Reports report) : P report.2.entries (reportMarks report.1 ++ history) := by
  rw [hreport.entries]
  cases report.1 with
  | true => exact hP.cleared h
  | false => exact h

theorem after (hP : EachMark P) (h : P c.entries history) (request : Request α) :
    P (c.after request).entries (c.marks request ++ history) := by
  cases request with
  | put key layout => exact hP.stored h key layout
  | get key => exact hP.get h key
  | getOrMake key make =>
    rw [(c.after_getOrMake key make).1]
    exact hP.keep h key make.value
  | clear => exact hP.cleared h
  | setLanguage language => exact hP.report h (c.reports_setLanguage language)
  | setScale scale => exact hP.report h (c.reports_setScale scale)
  | setFingerprint fingerprint => exact hP.report h (c.reports_setFingerprint fingerprint)

end EachMark

end KineticText.LayoutCache
