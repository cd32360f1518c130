import KineticText.Config
import KineticText.Logged
import KineticText.Recency

/-! The cache of layouts.  A layout is stored under everything that it depends on, and all of them
are dropped when the language, the display scale or the fingerprint of the configuration changes.
What the cache stores is up to its user; it only hands back what it was given. -/

namespace KineticText

/-- Everything that a layout depends on. -/
structure LayoutKey where
  text : String
  /-- The width at which lines wrap. -/
  width : UInt32
  /-- The display scale, by its bits. -/
  scaleBits : UInt64
  locale : String
  seed : UInt64
  /-- The version of the effects. -/
  version : UInt64
  deriving DecidableEq

/-- The display scale of a key. -/
def LayoutKey.scale (k : LayoutKey) : Float := .ofBits k.scaleBits

/-- A bounded cache of layouts. -/
structure LayoutCache (α : Type) where
  entries : Recency LayoutKey α
  /-- The language reported last. -/
  language : Option String := none
  /-- The bits of the display scale reported last. -/
  scaleBits : Option UInt64 := none
  /-- The fingerprint reported last. -/
  fingerprint : Option UInt64 := none
  /-- How many lookups found a layout. -/
  hits : Nat := 0
  /-- How many lookups found none. -/
  misses : Nat := 0

namespace LayoutCache

variable {α : Type}

/-- The empty cache with room for `capacity` layouts, for one at least. -/
def empty (capacity : Nat) : LayoutCache α := { entries := .empty capacity }

/-- The number of layouts. -/
def size (c : LayoutCache α) : Nat := c.entries.size

/-- The most layouts there is room for. -/
def capacity (c : LayoutCache α) : Nat := c.entries.capacity

/-- The share of lookups that found a layout, and zero before the first lookup. -/
def hitRate (c : LayoutCache α) : Float :=
  if c.hits + c.misses = 0 then 0.0
  else c.hits.toUInt64.toFloat / (c.hits + c.misses).toUInt64.toFloat

/-- Looks a layout up, which is a use of it. -/
def get (c : LayoutCache α) (key : LayoutKey) : Logged (Option α × LayoutCache α) := do
  match c.entries.get? key with
  | (some layout, entries) =>
    Logged.emit (.layoutHit key.text)
    return (some layout, { c with entries, hits := c.hits + 1 })
  | (none, _) =>
    Logged.emit (.layoutMiss key.text)
    return (none, { c with misses := c.misses + 1 })

/-- Stores a layout, in place of the one that is there. -/
def put (c : LayoutCache α) (key : LayoutKey) (layout : α) : LayoutCache α :=
  { c with entries := c.entries.put key layout }

/-- Stores a layout unless there is one.  Gives the one that is there then. -/
def keep (c : LayoutCache α) (key : LayoutKey) (layout : α) : α × LayoutCache α :=
  match c.entries.get? key with
  | (some stored, entries) => (stored, { c with entries })
  | (none, _) => (layout, c.put key layout)

/-- Looks a layout up, and makes and stores one if there is none.  What makes it may use the cache
itself, so what it has stored under the key by then is kept. -/
def getOrMake {σ : Type} (c : LayoutCache α) (key : LayoutKey)
    (make : LayoutCache α → σ → Logged (α × LayoutCache α × σ)) (state : σ) :
    Logged (α × LayoutCache α × σ) := do
  match ← c.get key with
  | (some layout, c) => return (layout, c, state)
  | (none, c) =>
    let (made, c, state) ← make c state
    let (layout, c) := c.keep key made
    return (layout, c, state)

/-- Drops every layout. -/
def clearFor (c : LayoutCache α) (cause : ClearCause) : Logged (LayoutCache α) := do
  Logged.emitIf (c.size != 0) (.layoutsCleared cause c.size)
  return { c with entries := c.entries.clear }

/-- Drops every layout. -/
def clear (c : LayoutCache α) : Logged (LayoutCache α) := c.clearFor .explicit

/-- Makes room for another number of layouts. -/
def resize (c : LayoutCache α) (capacity : Nat) : LayoutCache α :=
  { c with entries := c.entries.resize capacity }

/-- Reports the language. Layouts are dropped when it has changed; gives whether it has. -/
def setLanguage (c : LayoutCache α) (language : String) : Logged (Bool × LayoutCache α) := do
  if c.language = some language then return (false, c)
  else return (true, ← { c with language := some language }.clearFor .language)

/-- Reports the display scale. Layouts are dropped when its bits have changed; gives whether they
have. -/
def setScale (c : LayoutCache α) (scale : Float) : Logged (Bool × LayoutCache α) := do
  if c.scaleBits = some scale.toBits then return (false, c)
  else return (true, ← { c with scaleBits := some scale.toBits }.clearFor .scale)

/-- Reports the fingerprint of the configuration. Layouts are dropped when it has changed; gives
whether it has. -/
def setFingerprint (c : LayoutCache α) (fingerprint : UInt64) :
    Logged (Bool × LayoutCache α) := do
  if c.fingerprint = some fingerprint then return (false, c)
  else return (true, ← { c with fingerprint := some fingerprint }.clearFor .configuration)

/-- The cache in diagnostic texts. -/
def diagnostic (c : LayoutCache α) : String :=
  diagnosticFields "LayoutCache" [("stats", diagnosticFields "CacheStats" [
    ("hits", toString c.hits), ("misses", toString c.misses), ("size", toString c.size),
    ("capacity", toString c.capacity)])]

end LayoutCache

end KineticText
