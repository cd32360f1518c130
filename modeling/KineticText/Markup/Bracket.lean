/-! Closing brackets.  A tag ends at the first `>` outside quotes, so where it ends depends on the
quote state at every position before.  `Closing.before` moves all three states back over one
character, and `withClosing` runs it once from the right, which gives every position of a text its
closing bracket in time linear in the text. -/

namespace KineticText.Markup

/-- How many characters stand before the next `>` outside quotes, by the quote state at the start;
`none` when there is no such bracket. -/
structure Closing where
  outside : Option Nat
  inDouble : Option Nat
  inSingle : Option Nat
  deriving DecidableEq

/-- At the end of a text there is no bracket left. -/
def Closing.atEnd : Closing := ⟨none, none, none⟩

/-- The brackets from one character earlier, which is `c`. -/
def Closing.before (c : Char) (next : Closing) : Closing where
  outside :=
    if c == '>' then some 0
    else if c == '"' then next.inDouble.map (· + 1)
    else if c == '\'' then next.inSingle.map (· + 1)
    else next.outside.map (· + 1)
  inDouble := (if c == '"' then next.outside else next.inDouble).map (· + 1)
  inSingle := (if c == '\'' then next.outside else next.inSingle).map (· + 1)

/-- The brackets seen from the start of `cs`. -/
def Closing.of (cs : List Char) : Closing := cs.foldr Closing.before .atEnd

/-- A character together with how many characters stand between it and the bracket that would close
a tag opened at it. -/
abbrev Marked : Type := Char × Option Nat

/-- Marks every character with its closing bracket. -/
def withClosing (cs : List Char) : List Marked :=
  (cs.foldr (fun c acc => ((c, acc.2.outside) :: acc.1, acc.2.before c)) ([], Closing.atEnd)).1

/-- Each character is marked with the bracket seen from what follows it. -/
theorem withClosing_cons (c : Char) (cs : List Char) :
    withClosing (c :: cs) = (c, (Closing.of cs).outside) :: withClosing cs := by
  have h : ∀ ds : List Char, (ds.foldr
      (fun c acc => ((c, acc.2.outside) :: acc.1, acc.2.before c))
      (([], Closing.atEnd) : List Marked × Closing)).2 = Closing.of ds := by
    intro ds
    induction ds with
    | nil => rfl
    | cons d ds ih => simp only [List.foldr_cons, ih, Closing.of]
  simp only [withClosing, List.foldr_cons, h]

theorem withClosing_map_fst (cs : List Char) : (withClosing cs).map Prod.fst = cs := by
  induction cs with
  | nil => rfl
  | cons c cs ih => rw [withClosing_cons, List.map_cons, ih]

end KineticText.Markup
