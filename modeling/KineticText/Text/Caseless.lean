/-! Names that ignore the case of ASCII letters.  Folding maps `A` to `Z` onto `a` to `z` and leaves
every other character alone, so two names are the same exactly when they fold to one text. -/

namespace KineticText.Text

/-- Maps the ASCII capitals of `s` to small letters. -/
def fold (s : String) : String := s.map Char.toLower

/-- Whether two names differ at most in the case of ASCII letters. -/
def sameName (a b : String) : Bool := fold a == fold b

theorem sameName_iff {a b : String} : sameName a b = true ↔ fold a = fold b := by
  simp [sameName]

end KineticText.Text
