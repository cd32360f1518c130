/-! Words: the longest runs of characters between separators. -/

namespace KineticText.Text

/-- Cuts `cs` into its longest runs without a separator. -/
def words (isSeparator : Char → Bool) (cs : List Char) : List (List Char) :=
  match _h : cs.dropWhile isSeparator with
  | [] => []
  | c :: rest =>
    (c :: rest.takeWhile (!isSeparator ·)) :: words isSeparator (rest.dropWhile (!isSeparator ·))
termination_by cs.length
decreasing_by
  have h1 := (List.dropWhile_sublist (p := isSeparator) (l := cs)).length_le
  have h2 := (List.dropWhile_sublist (p := (!isSeparator ·)) (l := rest)).length_le
  rw [_h, List.length_cons] at h1
  omega

end KineticText.Text
