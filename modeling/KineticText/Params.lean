import KineticText.Number.Decimal
import KineticText.Number.Shortest
import KineticText.Text.Blank
import KineticText.Text.Caseless

/-! The parameters of a tag: a map from names to values that ignores the case of ASCII letters and
remembers the order in which its names first came.  A value that is asked for as a number, a truth
value or a text and is none is treated as absent. -/

namespace KineticText

/-- The value of one parameter. -/
inductive Value
  | number (n : Float)
  | text (s : String)
  | flag (b : Bool)
  deriving DecidableEq

namespace Value

instance : Coe Float Value := ⟨number⟩

instance : Coe String Value := ⟨text⟩

instance : Coe Bool Value := ⟨flag⟩

/-- The value as text. -/
def display : Value → String
  | number n => Shortest.plain n
  | text s => s
  | flag true => "true"
  | flag false => "false"

/-- The value as a number; text is read, and NaN is no number. -/
def number? (v : Value) : Option Float :=
  let n := match v with
    | number n => some n
    | text s => Decimal.readTrimmed? s
    | flag _ => none
  n.filter (!·.isNaN)

/-- The words for true. -/
def trueWords : List String := ["true", "yes", "on", "1"]

/-- The words for false. -/
def falseWords : List String := ["false", "no", "off", "0"]

/-- The value as a truth value; text is read, and of numbers only 1 and 0 count. -/
def flag? : Value → Option Bool
  | flag b => some b
  | number n => if n == 0.0 then some false else if n == 1.0 then some true else none
  | text s =>
    let word := Text.fold (String.ofList (Text.trim s.toList))
    if trueWords.contains word then some true
    else if falseWords.contains word then some false
    else none

/-- The value, if it is a text. -/
def text? : Value → Option String
  | text s => some s
  | _ => none

end Value

/-- Parameters, with names in small letters and in the order in which they first came. -/
structure Params where
  entries : List (String × Value) := []
  deriving DecidableEq

namespace Params

/-- Sets the value of `key` in a list of entries, in place when it is there and at the end
otherwise. -/
def insertEntry (key : String) (value : Value) : List (String × Value) → List (String × Value)
  | [] => [(key, value)]
  | (k, v) :: rest =>
    if k == key then (k, value) :: rest else (k, v) :: insertEntry key value rest

/-- Sets a parameter. -/
def insert (p : Params) (key : String) (value : Value) : Params :=
  ⟨insertEntry (Text.fold key) value p.entries⟩

/-- The value of a parameter. -/
def get? (p : Params) (key : String) : Option Value :=
  (p.entries.find? fun entry => Text.sameName entry.1 key).map Prod.snd

/-- Takes a parameter out, and gives its value if it was there. -/
def remove (p : Params) (key : String) : Option Value × Params :=
  let key := Text.fold key
  ((p.entries.find? (·.1 == key)).map Prod.snd, ⟨p.entries.eraseP (·.1 == key)⟩)

/-- Parameters from written pairs, all of them texts. -/
def ofTexts (pairs : List (String × String)) : Params :=
  pairs.foldl (fun p pair => p.insert pair.1 (.text pair.2)) {}

/-- Parameters from typed pairs. -/
def ofList (pairs : List (String × Value)) : Params :=
  pairs.foldl (fun p pair => p.insert pair.1 pair.2) {}

def contains (p : Params) (key : String) : Bool := (p.get? key).isSome

def number? (p : Params) (key : String) : Option Float := (p.get? key).bind Value.number?

def flag? (p : Params) (key : String) : Option Bool := (p.get? key).bind Value.flag?

def text? (p : Params) (key : String) : Option String := (p.get? key).bind Value.text?

end Params

end KineticText
