import KineticText.Text.Blank

/-! Tags and the grammar of what stands between their brackets.  A closing tag is a slash and a
name; any other tag is a name, an optional value for the key `value`, attributes set apart by
blanks, and an optional slash that makes it self-closing.  `Tag.parse?` reads one body and refuses
every body outside that grammar. -/

namespace KineticText.Markup

/-- What a tag does to the elements around it. -/
inductive Tag.Kind
  | opening
  | closing
  | selfClosing
  deriving DecidableEq

/-- A well-formed tag. -/
structure Tag where
  kind : Tag.Kind
  /-- The name, in small letters. -/
  name : String
  /-- The attributes in written order, with keys in small letters and values decoded. -/
  attributes : List (String × String)
  /-- The tag as written, brackets included. -/
  source : String
  deriving DecidableEq

/-- The key that `<name=value>` sets. -/
def shorthandKey : String := "value"

/-- The value of an attribute written as a bare key. -/
def bareValue : String := "true"

/-- Reads one of the entities `&lt;`, `&gt;` and `&amp;` at the front. -/
def entity? : List Char → Option (Char × List Char)
  | '&' :: 'l' :: 't' :: ';' :: rest => some ('<', rest)
  | '&' :: 'g' :: 't' :: ';' :: rest => some ('>', rest)
  | '&' :: 'a' :: 'm' :: 'p' :: ';' :: rest => some ('&', rest)
  | _ => none

/-- Replaces every entity by its character, once, from the left. -/
def decodeEntities : List Char → List Char
  | '&' :: 'l' :: 't' :: ';' :: rest => '<' :: decodeEntities rest
  | '&' :: 'g' :: 't' :: ';' :: rest => '>' :: decodeEntities rest
  | '&' :: 'a' :: 'm' :: 'p' :: ';' :: rest => '&' :: decodeEntities rest
  | c :: rest => c :: decodeEntities rest
  | [] => []

/-- Whether `c` is one of the two quotes around a value. -/
def isQuote (c : Char) : Bool := c == '"' || c == '\''

/-- Whether `c` may stand in a name or key as it is first cut out of the body. -/
def isNameChar (c : Char) : Bool :=
  !Text.isBlank c && !(c == '=' || c == '/' || isQuote c)

/-- Whether `cs` names a tag: an ASCII letter, then ASCII letters, digits and `_ - : .`. -/
def isTagName : List Char → Bool
  | [] => false
  | c :: cs =>
    c.isAlpha && cs.all fun d => d.isAlphanum || d == '_' || d == '-' || d == ':' || d == '.'

/-- The text of `cs` in small letters. -/
def smallLetters (cs : List Char) : String := String.ofList (cs.map Char.toLower)

/-- Reads an attribute's value: up to its own quote if it starts with one, which must then be there,
and otherwise up to the next blank.  Gives the decoded value and what follows it. -/
def value? : List Char → Option (String × List Char)
  | [] => some ("", [])
  | c :: cs =>
    if isQuote c then
      match cs.dropWhile (· != c) with
      | [] => none
      | _ :: rest => some (String.ofList (decodeEntities (cs.takeWhile (· != c))), rest)
    else
      some (String.ofList (decodeEntities ((c :: cs).takeWhile (!Text.isBlank ·))),
        (c :: cs).dropWhile (!Text.isBlank ·))

theorem value?_length_le {cs rest : List Char} {v : String} (h : value? cs = some (v, rest)) :
    rest.length ≤ cs.length := by
  cases cs with
  | nil => simp_all [value?]
  | cons c cs =>
    simp only [value?] at h
    split at h
    · have hle := (List.dropWhile_sublist (p := (· != c)) (l := cs)).length_le
      split at h
      · simp at h
      · rename_i heq
        simp only [Option.some.injEq, Prod.mk.injEq] at h
        rw [heq] at hle
        simp only [List.length_cons] at hle ⊢
        rw [← h.2]
        omega
    · simp only [Option.some.injEq, Prod.mk.injEq] at h
      rw [← h.2]
      exact (List.dropWhile_sublist (p := (!Text.isBlank ·)) (l := c :: cs)).length_le

/-- Reads one attribute, a key alone or a key, `=` and a value.  Gives it and what follows it. -/
def attribute? (cs : List Char) : Option ((String × String) × List Char) :=
  if (cs.takeWhile isNameChar).isEmpty then none
  else
    let key := smallLetters (cs.takeWhile isNameChar)
    match cs.dropWhile isNameChar with
    | '=' :: rest => (value? rest).map fun (value, rest) => ((key, value), rest)
    | rest => some ((key, bareValue), rest)

theorem attribute?_length_lt {cs rest : List Char} {a : String × String}
    (h : attribute? cs = some (a, rest)) : rest.length < cs.length := by
  have hlen := congrArg List.length (List.takeWhile_append_dropWhile (p := isNameChar) (l := cs))
  rw [List.length_append] at hlen
  simp only [attribute?] at h
  split at h
  · simp at h
  · rename_i hkey
    have hpos : 0 < (cs.takeWhile isNameChar).length := by
      cases hk : cs.takeWhile isNameChar <;> simp_all
    split at h
    · rename_i r hr
      simp only [Option.map_eq_some_iff, Prod.mk.injEq, Prod.exists] at h
      obtain ⟨v, r', hv, -, rfl⟩ := h
      have := value?_length_le hv
      rw [hr, List.length_cons] at hlen
      omega
    · simp only [Option.some.injEq, Prod.mk.injEq] at h
      rw [← h.2]
      omega

/-- Reads attributes up to the end of the body, each after at least one blank. -/
def attributes? (cs : List Char) : Option (List (String × String)) :=
  match cs with
  | [] => some []
  | c :: rest =>
    if !Text.isBlank c then none
    else if (Text.trimStart rest).isEmpty then some []
    else
      match _h : attribute? (Text.trimStart rest) with
      | none => none
      | some (a, rest') => (attributes? rest').map (a :: ·)
termination_by cs.length
decreasing_by
  have h1 := attribute?_length_lt _h
  have h2 := (List.dropWhile_sublist (p := Text.isBlank) (l := rest)).length_le
  simp only [Text.trimStart] at h1
  simp only [List.length_cons]
  omega

/-- Splits a body without blanks at its back into the part before a final slash and whether there
is one. -/
def splitSlash (body : List Char) : List Char × Bool :=
  match body.reverse with
  | '/' :: rest => (Text.trimEnd rest.reverse, true)
  | _ => (body, false)

/-- The attributes after a tag's name: those of the value directly behind it, if there is one, and
those set apart by blanks. -/
def afterName? : List Char → Option (List (String × String))
  | '=' :: rest => do
    let (value, rest) ← value? rest
    return (shorthandKey, value) :: (← attributes? rest)
  | rest => attributes? rest

/-- Reads the body of the tag written `source`; `none` when the body is not in the grammar. -/
def Tag.parse? (body : List Char) (source : String) : Option Tag :=
  match body with
  | '/' :: rest =>
    let name := Text.trim rest
    if isTagName name then some ⟨.closing, smallLetters name, [], source⟩ else none
  | _ =>
    let (body, slash) := splitSlash (Text.trimEnd body)
    let name := body.takeWhile isNameChar
    if isTagName name then
      (afterName? (body.dropWhile isNameChar)).map fun attributes =>
        ⟨if slash then .selfClosing else .opening, smallLetters name, attributes, source⟩
    else none

end KineticText.Markup
