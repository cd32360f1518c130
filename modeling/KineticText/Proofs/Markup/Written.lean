import KineticText.Proofs.Markup.Brackets
import KineticText.Proofs.Markup.NormalForm

/-! Written forms of trees.  A tree has many: each character of a text is spelled in one of its
legal ways, each value stands in quotes that it does not contain, and an element without children
may be one self-closing tag.  A written tag is read back with the name and the attributes that were
written. -/

namespace KineticText.Markup

/-! ### What can be written -/

/-- Whether `c` may stand behind the first letter of a name in small letters. -/
def isSmallNameChar (c : Char) : Bool :=
  c.isLower || c.isDigit || c == '_' || c == '-' || c == ':' || c == '.'

/-- A name in small letters. -/
def IsSmallName : List Char → Prop
  | [] => False
  | c :: cs => c.isLower = true ∧ ∀ d ∈ cs, isSmallNameChar d = true

/-- A key in small letters that its quoted value may follow. -/
structure IsSmallKey (key : List Char) : Prop where
  ne_nil : key ≠ []
  notBlank : ∀ c ∈ key, Text.isBlank c = false
  notUpper : ∀ c ∈ key, c.isUpper = false
  notMark : ∀ c ∈ key, c ∉ ['=', '/', '"', '\'', '>']

/-- A tag that can be written: name and keys are in small letters, and for each value there is a
quote that it does not contain. -/
structure IsWritableTag (name : String) (attributes : List (String × String)) : Prop where
  name : IsSmallName name.toList
  keys : ∀ a ∈ attributes, IsSmallKey a.1.toList
  values : ∀ a ∈ attributes, ∃ q, isQuote q = true ∧ q ∉ a.2.toList

mutual

/-- A node whose tags can all be written. -/
def Node.Writable : Node → Prop
  | .text _ => True
  | .element tag attributes children => IsWritableTag tag attributes ∧ Node.ListWritable children

/-- A list of nodes whose tags can all be written. -/
def Node.ListWritable : List Node → Prop
  | [] => True
  | node :: rest => node.Writable ∧ Node.ListWritable rest

end

/-! ### Written forms -/

/-- The spellings of one character of a text. -/
inductive SpelledChar : Char → List Char → Prop
  | lessEscaped : SpelledChar '<' ['\\', '<']
  | lessEntity : SpelledChar '<' ['&', 'l', 't', ';']
  | backslash : SpelledChar '\\' ['\\', '\\']
  | ampersand : SpelledChar '&' ['&', 'a', 'm', 'p', ';']
  | greaterEntity : SpelledChar '>' ['&', 'g', 't', ';']
  | itself {c : Char} (less : c ≠ '<') (backslash : c ≠ '\\') (ampersand : c ≠ '&') :
    SpelledChar c [c]

/-- The spellings of a text, character by character. -/
inductive Spelled : List Char → List Char → Prop
  | nil : Spelled [] []
  | cons {c : Char} {content spelling rest : List Char} (first : SpelledChar c spelling)
      (others : Spelled content rest) : Spelled (c :: content) (spelling ++ rest)

/-- A value with every `&` as its entity. -/
def encodeValue (value : List Char) : List Char :=
  value.flatMap fun c => if c = '&' then ['&', 'a', 'm', 'p', ';'] else [c]

/-- A value between two quotes. -/
def quotedValue (q : Char) (value : List Char) : List Char := q :: (encodeValue value ++ [q])

/-- The written forms of attributes, each with its value in quotes. -/
inductive WrittenAttributes : List (String × String) → List Char → Prop
  | nil : WrittenAttributes [] []
  | cons {key value : String} {q : Char} {attributes : List (String × String)} {rest : List Char}
      (quote : isQuote q = true) (avoids : q ∉ value.toList)
      (others : WrittenAttributes attributes rest) :
      WrittenAttributes ((key, value) :: attributes)
        (' ' :: (key.toList ++ '=' :: (quotedValue q value.toList ++ rest)))

/-- A tag with its brackets. -/
def bracket (body : List Char) : List Char := '<' :: (body ++ ['>'])

/-- The written forms of a list of nodes. -/
inductive Written : List Node → List Char → Prop
  | nil : Written [] []
  | text {content : String} {spelling after : List Char} {rest : List Node}
      (spelled : Spelled content.toList spelling) (others : Written rest after) :
      Written (.text content :: rest) (spelling ++ after)
  | element {tag : String} {attributes : List (String × String)} {children rest : List Node}
      {written inside after : List Char} (attributes_written : WrittenAttributes attributes written)
      (inner : Written children inside) (others : Written rest after) :
      Written (.element tag attributes children :: rest)
        (bracket (tag.toList ++ written) ++ (inside ++ (bracket ('/' :: tag.toList) ++ after)))
  | selfClosing {tag : String} {attributes : List (String × String)} {rest : List Node}
      {written after : List Char} (attributes_written : WrittenAttributes attributes written)
      (others : Written rest after) :
      Written (.element tag attributes [] :: rest)
        (bracket (tag.toList ++ written ++ ['/']) ++ after)

theorem exists_spelledChar (c : Char) : ∃ spelling, SpelledChar c spelling := by
  by_cases hless : c = '<'
  · exact hless ▸ ⟨_, .lessEscaped⟩
  by_cases hback : c = '\\'
  · exact hback ▸ ⟨_, .backslash⟩
  by_cases hamp : c = '&'
  · exact hamp ▸ ⟨_, .ampersand⟩
  exact ⟨_, .itself hless hback hamp⟩

theorem exists_spelled (content : List Char) : ∃ spelling, Spelled content spelling := by
  induction content with
  | nil => exact ⟨_, .nil⟩
  | cons c content ih =>
    obtain ⟨first, hfirst⟩ := exists_spelledChar c
    obtain ⟨rest, hrest⟩ := ih
    exact ⟨_, .cons hfirst hrest⟩

theorem exists_writtenAttributes (attributes : List (String × String))
    (h : ∀ a ∈ attributes, ∃ q, isQuote q = true ∧ q ∉ a.2.toList) :
    ∃ written, WrittenAttributes attributes written := by
  induction attributes with
  | nil => exact ⟨_, .nil⟩
  | cons a attributes ih =>
    obtain ⟨q, hquote, havoids⟩ := h a List.mem_cons_self
    obtain ⟨rest, hrest⟩ := ih fun b hb => h b (List.mem_cons_of_mem _ hb)
    exact ⟨_, .cons hquote havoids hrest⟩

/-- Whatever can be written has a written form. -/
theorem exists_written : (nodes : List Node) → Node.ListWritable nodes →
    ∃ written, Written nodes written
  | [], _ => ⟨_, .nil⟩
  | .text content :: rest, h => by
    obtain ⟨spelling, hspelled⟩ := exists_spelled content.toList
    obtain ⟨after, hafter⟩ := exists_written rest h.2
    exact ⟨_, .text hspelled hafter⟩
  | .element _ attributes children :: rest, h => by
    obtain ⟨written, hwritten⟩ := exists_writtenAttributes attributes h.1.1.values
    obtain ⟨inside, hinside⟩ := exists_written children h.1.2
    obtain ⟨after, hafter⟩ := exists_written rest h.2
    exact ⟨_, .element hwritten hinside hafter⟩

end KineticText.Markup
