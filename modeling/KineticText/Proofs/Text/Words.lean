import KineticText.Proofs.Markup.WrittenTag
import KineticText.Text.Words

/-! Words of a text.  A word ends at the next separator or with the text.  So the words are the
parts between separators, without those that are empty, and words written with one separator
between them are read back. -/

namespace KineticText.Text

variable {isSeparator : Char → Bool} {cs : List Char}

theorem words_of_dropWhile_eq_nil (h : cs.dropWhile isSeparator = []) :
    words isSeparator cs = [] := by
  rw [words]
  split
  · rfl
  · rename_i hcons
    rw [h] at hcons
    cases hcons

theorem words_of_dropWhile_eq_cons {c : Char} {rest : List Char}
    (h : cs.dropWhile isSeparator = c :: rest) :
    words isSeparator cs = (c :: rest.takeWhile (!isSeparator ·)) ::
      words isSeparator (rest.dropWhile (!isSeparator ·)) := by
  rw [words]
  split
  · rename_i hnil
    rw [h] at hnil
    cases hnil
  · rename_i hcons
    rw [h] at hcons
    cases hcons
    rfl

theorem words_cons_separator {c : Char} (h : isSeparator c = true) (cs : List Char) :
    words isSeparator (c :: cs) = words isSeparator cs := by
  have hdrop : (c :: cs).dropWhile isSeparator = cs.dropWhile isSeparator :=
    List.dropWhile_cons_of_pos h
  cases hcs : cs.dropWhile isSeparator with
  | nil => rw [words_of_dropWhile_eq_nil (hdrop.trans hcs), words_of_dropWhile_eq_nil hcs]
  | cons => rw [words_of_dropWhile_eq_cons (hdrop.trans hcs), words_of_dropWhile_eq_cons hcs]

/-- A word ends at the next separator or with the text. -/
theorem words_append {word rest : List Char} (hne : word ≠ [])
    (hword : ∀ c ∈ word, isSeparator c = false) (hrest : ∀ c ∈ rest.head?, isSeparator c = true) :
    words isSeparator (word ++ rest) = word :: words isSeparator rest := by
  cases word with
  | nil => exact absurd rfl hne
  | cons c word =>
    obtain ⟨hc, hword⟩ := List.forall_mem_cons.mp hword
    have hstop : ∀ d ∈ rest.head?, (!isSeparator d) = false := fun d hd => by simp [hrest d hd]
    obtain ⟨htake, hdrop⟩ := Markup.span_append (fun d hd => by simp [hword d hd]) hstop
    have hfirst : (c :: (word ++ rest)).dropWhile isSeparator = c :: (word ++ rest) :=
      List.dropWhile_cons_of_neg (by simp [hc])
    rw [List.cons_append, words_of_dropWhile_eq_cons hfirst, htake, hdrop]

theorem words_of_forall {word : List Char} (hne : word ≠ [])
    (hword : ∀ c ∈ word, isSeparator c = false) : words isSeparator word = [word] := by
  have hend : ∀ c ∈ ([] : List Char).head?, isSeparator c = true := by simp
  have hnone : words isSeparator [] = [] := words_of_dropWhile_eq_nil rfl
  have hlast := words_append hne hword hend
  rwa [List.append_nil, hnone] at hlast

/-- What stands before a separator is a word unless it is empty. -/
theorem words_append_separator {front rest : List Char} {separator : Char}
    (hfront : ∀ c ∈ front, isSeparator c = false) (hseparator : isSeparator separator = true) :
    words isSeparator (front ++ separator :: rest) =
      [front].filter (· ≠ []) ++ words isSeparator rest := by
  by_cases hne : front = []
  · rw [hne, List.nil_append, words_cons_separator hseparator]
    rfl
  · rw [words_append hne hfront (by simpa using hseparator), words_cons_separator hseparator]
    simp [hne]

/-- The words are the parts between separators that are not empty. -/
theorem words_eq_splitOnP (cs : List Char) :
    words isSeparator cs = (cs.splitOnP isSeparator).filter (· ≠ []) := by
  have hfront : ∀ c ∈ cs.takeWhile (!isSeparator ·), isSeparator c = false := fun c hc => by
    simpa using List.all_eq_true.mp List.all_takeWhile c hc
  have hcs := List.takeWhile_append_dropWhile (p := (!isSeparator ·)) (l := cs)
  cases hrest : cs.dropWhile (!isSeparator ·) with
  | nil =>
    rw [hrest, List.append_nil] at hcs
    rw [hcs] at hfront
    rw [List.splitOnP_eq_singleton hfront]
    by_cases hne : cs = []
    · rw [hne, words_of_dropWhile_eq_nil rfl]
      rfl
    · rw [words_of_forall hne hfront]
      simp [hne]
  | cons separator rest =>
    have hseparator : isSeparator separator = true := by
      simpa [hrest] using List.head?_dropWhile_not (!isSeparator ·) cs
    have hlength : rest.length < cs.length := by
      have hle := (List.dropWhile_sublist (p := (!isSeparator ·)) (l := cs)).length_le
      rwa [hrest, List.length_cons] at hle
    rw [hrest] at hcs
    generalize cs.takeWhile (!isSeparator ·) = front at hfront hcs
    -- Both sides put the part before the first separator ahead of those after it.
    rw [← hcs, words_append_separator hfront hseparator,
      List.splitOnP_append_cons_of_forall_mem hfront _ hseparator, words_eq_splitOnP rest,
      ← List.filter_append, List.singleton_append]
termination_by cs.length
decreasing_by exact hlength

theorem words_intercalate {separator : Char} (hseparator : isSeparator separator = true)
    {ws : List (List Char)} (hne : ∀ w ∈ ws, w ≠ [])
    (hword : ∀ w ∈ ws, ∀ c ∈ w, isSeparator c = false) :
    words isSeparator ([separator].intercalate ws) = ws := by
  induction ws with
  | nil => exact words_of_dropWhile_eq_nil rfl
  | cons w ws ih =>
    obtain ⟨hw, hws⟩ := List.forall_mem_cons.mp hne
    obtain ⟨hwordw, hwordws⟩ := List.forall_mem_cons.mp hword
    cases ws with
    | nil =>
      rw [List.intercalate_singleton]
      exact words_of_forall hw hwordw
    | cons w' ws =>
      rw [List.intercalate_cons_cons, List.append_assoc, List.singleton_append,
        words_append_separator hwordw hseparator, ih hws hwordws]
      simp [hw]

end KineticText.Text
