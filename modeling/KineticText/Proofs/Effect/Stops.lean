import KineticText.Effect
import KineticText.Proofs.Color.Notation
import KineticText.Proofs.Text.Words

/-! Stops of gradients as text.  A color is written without blanks and commas and is read back,
and the word for an unreadable stop names no color, so stops that are written are read back in
their places.  The stops that a gradient keeps are at least one and at most the limit, and are
kept again. -/

namespace KineticText.Gradient

/-- What stands between two stops. -/
def isSeparator (c : Char) : Bool := c == ',' || Text.isBlank c

/-- What is written for one stop. -/
def stopText (stop : Option Color) : String := (stop.map Color.hex).getD unreadableStop

theorem isSeparator_of_mem_stopText {stop : Option Color} {c : Char}
    (h : c ∈ (stopText stop).toList) : isSeparator c = false := by
  cases stop with
  | none =>
    have hletters : unreadableStop.toList = ['d', 'e', 'f', 'a', 'u', 'l', 't'] := by
      simp [unreadableStop]
    have hword : ['d', 'e', 'f', 'a', 'u', 'l', 't'].any isSeparator = false := by decide
    exact eq_false_of_ne_true (List.any_eq_false.mp hword c (hletters ▸ h))
  | some color =>
    obtain ⟨hblank, hcomma⟩ := Color.isBlank_of_mem_hex h
    rw [isSeparator, hblank, beq_eq_false_iff_ne.mpr hcomma]
    rfl

theorem stopText_ne_nil (stop : Option Color) : (stopText stop).toList ≠ [] := by
  cases stop with
  | none =>
    show unreadableStop.toList ≠ []
    decide
  | some color =>
    show color.hex.toList ≠ []
    rw [Color.toList_hex]
    exact List.cons_ne_nil _ _

theorem read?_stopText (stop : Option Color) : Color.read? (stopText stop) = stop := by
  cases stop with
  | none =>
    have hword : Color.read? unreadableStop = none := by decide +kernel
    exact hword
  | some color => exact Color.read?_hex color

theorem readStops_writeStops (stops : List (Option Color)) :
    readStops (writeStops stops) = stops := by
  have hlist : (writeStops stops).toList =
      [','].intercalate ((stops.map stopText).map String.toList) :=
    String.toList_intercalate
  have hwords : Text.words isSeparator (writeStops stops).toList =
      (stops.map stopText).map String.toList := by
    rw [hlist]
    refine Text.words_intercalate (by decide) (fun w hw => ?_) fun w hw c hc => ?_
    · obtain ⟨_, hmem, rfl⟩ := List.mem_map.mp hw
      obtain ⟨stop, -, rfl⟩ := List.mem_map.mp hmem
      exact stopText_ne_nil stop
    · obtain ⟨_, hmem, rfl⟩ := List.mem_map.mp hw
      obtain ⟨stop, -, rfl⟩ := List.mem_map.mp hmem
      exact isSeparator_of_mem_stopText hc
  calc readStops (writeStops stops)
      = (Text.words isSeparator (writeStops stops).toList).map
          fun word => Color.read? (String.ofList word) := rfl
    _ = stops.map fun stop => Color.read? (stopText stop) := by
      rw [hwords, List.map_map, List.map_map]
      simp [Function.comp_def]
    _ = stops := by simp [read?_stopText]

/-- The stops are read off the parts between separators that are not empty. -/
theorem readStops_eq (list : String) :
    readStops list = ((list.toList.splitOnP isSeparator).filter (· ≠ [])).map
      fun entry => Color.read? (String.ofList entry) :=
  congrArg _ (Text.words_eq_splitOnP list.toList)

theorem keepStops_eq (stops : List (Option Color)) :
    keepStops stops = if stops = [] then [none] else stops.take maxStops := by
  unfold keepStops
  cases stops with
  | nil => rfl
  | cons stop stops => rfl

/-- What is kept is kept again. -/
theorem keepStops_keepStops (stops : List (Option Color)) :
    keepStops (keepStops stops) = keepStops stops := by
  rw [keepStops_eq, keepStops_eq]
  by_cases h : stops = []
  · rw [if_pos h]
    rfl
  · have hne : stops.take maxStops ≠ [] := by
      rw [ne_eq, List.take_eq_nil_iff, not_or]
      exact ⟨by decide, h⟩
    rw [if_neg h, if_neg hne, List.take_take, Nat.min_self]

end KineticText.Gradient
