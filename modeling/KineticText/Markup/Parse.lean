import KineticText.Config
import KineticText.Markup.Flatten

/-! Parsing: from source text to attributed text, which never fails.  What lies beyond the length
limit is dropped, and a source met while it is already being parsed passes through as it is. -/

namespace KineticText.Markup

/-- Limits of parsing, and what to log. -/
structure ParseOptions where
  /-- The most characters that are read. -/
  maxLength : Nat := 16384
  /-- The most elements inside each other. -/
  maxDepth : Nat := 16
  /-- Whether to log tags that are not registered. -/
  logUnknownTags : Bool := false
  /-- Whether to log tags that nest too deep. -/
  logDepthSkips : Bool := true
  deriving DecidableEq

/-- The limits of a configuration. -/
def ParseOptions.ofConfig (c : Config) : ParseOptions where
  maxLength := c.maxParseLength.toNat
  maxDepth := c.maxNestingDepth.toNat

/-- The part of a source within the length limit. -/
def truncate (maxLength : Nat) (source : String) : Logged String :=
  let length := source.length
  if maxLength < length then do
    Logged.emit (.markupTruncated length maxLength)
    return String.ofList (source.toList.take maxLength)
  else pure source

/-- The attributed text of a source. -/
def parse (registry : Registry) (options : ParseOptions) (source : String) :
    Logged AttributedText := do
  let source ← truncate options.maxLength source
  let nodes ← Node.ofTokens (tokenize source) options.maxDepth options.logDepthSkips
  flatten registry options.logUnknownTags nodes

/-- The attributed text of a source, or the source itself as plain text when it is already being
parsed. -/
def parseOnce (registry : Registry) (options : ParseOptions) (alreadyParsing : Bool)
    (source : String) : Logged AttributedText :=
  if alreadyParsing then do
    Logged.emit .reentrantParse
    return .plain source
  else parse registry options source

end KineticText.Markup
