/-! Why bytes are no message, and why a message has no bytes.  Only structure is refused: lengths,
counts, codes and UTF-8. -/

namespace KineticText

/-- A reason to refuse bytes. -/
inductive DecodeError
  /-- The bytes end inside a field. -/
  | endOfInput (needed remaining : Nat)
  /-- A count or length is negative or too large. -/
  | countOutOfRange (field : String) (count : Int) (max : Nat)
  /-- A text is not valid UTF-8. -/
  | invalidText (field : String)
  /-- A code, or a bit of a presence mask, is unknown. -/
  | unknownCode (field : String) (value : UInt32)
  /-- Bytes are left over. -/
  | trailingBytes (remaining : Nat)
  deriving DecidableEq

/-- The digits of a number in hexadecimal, after `0x`. -/
def hexadecimal (n : Nat) : String := "0x" ++ String.ofList (Nat.toDigits 16 n)

/-- The reason in words. -/
def DecodeError.message : DecodeError → String
  | .endOfInput needed remaining =>
    s!"unexpected end of input: needed {needed} bytes, {remaining} remaining"
  | .countOutOfRange field count max => s!"{field}: count {count} outside 0..={max}"
  | .invalidText field => s!"{field}: invalid UTF-8"
  | .unknownCode field value => field ++ ": unknown value " ++ hexadecimal value.toNat
  | .trailingBytes remaining => s!"{remaining} trailing bytes after last field"

/-- A reason to refuse a message: a text or list is longer than any reader takes. -/
inductive EncodeError
  | tooLong (field : String) (length max : Nat)
  deriving DecidableEq

/-- The reason in words. -/
def EncodeError.message : EncodeError → String
  | .tooLong field length max => s!"{field}: length {length} exceeds {max}"

end KineticText
