import KineticText.Effect.Choice
import KineticText.Number.Single
import KineticText.Text.Utf8
import KineticText.Wire.Error

/-! Fields of messages.  A `Field` says in one place how a value becomes bytes and how it is read
back from the front of the bytes that are left, so the two directions of a composed field cannot
drift apart.  Numbers are written with the most significant byte first, texts and lists after their
length.  A reader that refuses its input leaves the bytes where it stopped. -/

namespace KineticText.Wire

/-- What reads a value from the front of the bytes that are left. -/
abbrev Reader (α : Type) : Type := EStateM DecodeError (List UInt8) α

/-- The bytes of a value, or why it has none. -/
abbrev Written : Type := Except EncodeError (List UInt8)

/-- Reads `n` bytes. -/
def take (n : Nat) : Reader (List UInt8) := fun bytes =>
  let front := bytes.take n
  if front.length = n then .ok front (bytes.drop n)
  else .error (.endOfInput n bytes.length) bytes

/-- Refuses bytes that are left over. -/
def finish : Reader Unit := fun bytes =>
  if bytes.isEmpty then .ok () bytes else .error (.trailingBytes bytes.length) bytes

/-- The number that bytes write, the most significant byte first. -/
def bigEndian (bytes : List UInt8) : UInt32 :=
  bytes.foldl (fun word b => (word <<< 8) ||| b.toUInt32) 0

/-- The four bytes of a word, the most significant one first. -/
def wordBytes (w : UInt32) : List UInt8 :=
  [(w >>> 24).toUInt8, (w >>> 16).toUInt8, (w >>> 8).toUInt8, w.toUInt8]

/-- A way to write values of a type and to read them back. -/
structure Field (α : Type) where
  write : α → Written
  read : Reader α

namespace Field

variable {α β : Type}

/-- A byte. -/
def byte : Field UInt8 where
  write b := .ok [b]
  read := do
    match ← take 1 with
    | [b] => return b
    | _ => return 0

/-- A word of 32 bits. -/
def word : Field UInt32 where
  write w := .ok (wordBytes w)
  read := bigEndian <$> take 4

/-- A field whose values are written as values of another field. -/
def map (f : Field α) (toField : β → α) (ofField : α → β) : Field β where
  write b := f.write (toField b)
  read := ofField <$> f.read

/-- Two fields, one after the other. -/
def pair (f : Field α) (g : Field β) : Field (α × β) where
  write ab := do return (← f.write ab.1) ++ (← g.write ab.2)
  read := do return (← f.read, ← g.read)

/-- A field that is there or not. -/
def optional (present : Bool) (f : Field α) : Field (Option α) where
  write
    | none => .ok []
    | some a => f.write a
  read := if present then some <$> f.read else pure none

/-- A signed word. -/
def integer : Field Int32 := word.map Int32.toUInt32 UInt32.toInt32

/-- A 32-bit float. -/
def single : Field Single := word.map Single.bits Single.mk

/-- A count from 0 to `max`, as a signed word. -/
def count (name : String) (max : Nat) : Field Nat where
  write n :=
    if n ≤ max && n < 0x80000000 then word.write (UInt32.ofNat n) else .error (.tooLong name n max)
  read := do
    let n := (← integer.read).toInt
    if 0 ≤ n && n ≤ max then return n.toNat else throw (.countOutOfRange name n max)

/-- A text of at most `max` bytes. -/
def text (name : String) (max : Nat) : Field String where
  write s := do return (← (count name max).write (Text.utf8 s).length) ++ Text.utf8 s
  read := do
    match Text.ofUtf8? (← take (← (count name max).read)) with
    | some s => return s
    | none => throw (.invalidText name)

/-- Reads `n` values. -/
def readMany (f : Field α) : Nat → Reader (List α)
  | 0 => pure []
  | n + 1 => do return (← f.read) :: (← f.readMany n)

/-- Writes values one after the other. -/
def writeMany (f : Field α) : List α → Written
  | [] => .ok []
  | a :: rest => do return (← f.write a) ++ (← f.writeMany rest)

/-- A list of at most `max` values. -/
def list (name : String) (max : Nat) (f : Field α) : Field (List α) where
  write as := do return (← (count name max).write as.length) ++ (← f.writeMany as)
  read := do f.readMany (← (count name max).read)

/-- One of the alternatives of a choice, as its code. -/
def choice (name : String) [Choice α] [BEq α] : Field α where
  write a := byte.write (Choice.code a)
  read := do
    let code ← byte.read
    match Choice.ofCode? code with
    | some a => return a
    | none => throw (.unknownCode name code.toUInt32)

end Field

end KineticText.Wire
