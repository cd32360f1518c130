import KineticText.Color
import KineticText.Style
import KineticText.Wire.Field

/-! Spans on their way to a peer.  A span is a mask that tells which optional fields it has, its
content, those fields in a fixed order, and its tags.  Reading refuses bad structure only: every
scalar is taken as it comes and brought into its range afterwards. -/

namespace KineticText.Wire

/-- A typewriter. `Switch` is the type of on-off settings: a byte in transit, a truth value once it
has been read. -/
structure Typewriter (Switch : Type) where
  speed : Single
  center : Switch
  deriving DecidableEq

/-- A shake. -/
structure Shake where
  motion : Motion
  amplitude : Single
  speed : Single
  wavelength : Single
  deriving DecidableEq

/-- Scrambling. -/
structure Scramble where
  mode : ScrambleMode
  speed : Single
  deriving DecidableEq

/-- Where a message is drawn, and how large. -/
structure Placement where
  x : Single
  y : Single
  scale : Single
  deriving DecidableEq

/-- An item drawn within the text. -/
structure Item where
  id : String
  count : Nat
  deriving DecidableEq

/-- A span with everything resolved. -/
structure SpanOf (Switch : Type) where
  content : String
  style : Option StyleFlags := none
  color : Option Color := none
  font : Option String := none
  gradient : Option (List Color) := none
  typewriter : Option (Typewriter Switch) := none
  /-- A shake of the span as a whole. -/
  shake : Option Shake := none
  /-- A shake of each character by itself. -/
  charShake : Option Shake := none
  scramble : Option Scramble := none
  background : Option Color := none
  backgroundGradient : Option (List Color) := none
  placement : Option Placement := none
  item : Option Item := none
  entity : Option String := none
  tags : List String := []
  deriving DecidableEq

/-- A span as hosts use it. -/
abbrev Span : Type := SpanOf Bool

/-- A span as it travels. -/
abbrev RawSpan : Type := SpanOf UInt8

/-! ### Limits -/

/-- The most bytes of a content. -/
def maxContentBytes : Nat := 65536

/-- The most bytes of a font, item or entity id. -/
def maxIdBytes : Nat := 256

/-- The most colors of a gradient. -/
def maxColors : Nat := 256

/-- The most tags of a span. -/
def maxTags : Nat := 256

/-- The most bytes of a tag. -/
def maxTagBytes : Nat := 512

/-- The most items in one place. -/
def maxItemCount : Nat := 64

/-! ### Ranges of the scalars -/

/-- The number 0. -/
def zero : Single := ⟨0⟩

/-- The number 0.01. -/
def hundredth : Single := ⟨0x3C23D70A⟩

/-- The number 1. -/
def one : Single := ⟨0x3F800000⟩

/-- The number 64. -/
def sixtyFour : Single := ⟨0x42800000⟩

/-- The number 100. -/
def hundred : Single := ⟨0x42C80000⟩

/-- The number 1000. -/
def thousand : Single := ⟨0x447A0000⟩

/-- The number 10000. -/
def tenThousand : Single := ⟨0x461C4000⟩

/-- The number -10000. -/
def minusTenThousand : Single := ⟨0xC61C4000⟩

/-- The number 60000. -/
def sixtyThousand : Single := ⟨0x476A6000⟩

/-! ### Presence -/

/-- The number of optional fields. -/
def optionalFields : UInt32 := 13

/-- The mask with a bit for each field that is there, the first field lowest. -/
def maskOf (present : List Bool) : UInt32 :=
  present.foldr (fun b mask => (mask <<< 1) ||| (if b then 1 else 0)) 0

namespace SpanOf

variable {Switch : Type}

/-- Which optional fields a span has, in the order in which they are written. -/
def present (s : SpanOf Switch) : List Bool :=
  [s.style.isSome, s.color.isSome, s.font.isSome, s.gradient.isSome, s.typewriter.isSome,
    s.shake.isSome, s.charShake.isSome, s.scramble.isSome, s.background.isSome,
    s.backgroundGradient.isSome, s.placement.isSome, s.item.isSome, s.entity.isSome]

/-- The mask of the optional fields that a span has. -/
def presence (s : SpanOf Switch) : UInt32 := maskOf s.present

end SpanOf

/-! ### The fields of a span -/

def contentField : Field String := .text "content" maxContentBytes

def styleField : Field StyleFlags := Field.byte.map StyleFlags.bits StyleFlags.mk

def colorField : Field Color := Field.word.map Color.argb Color.mk

def colorsField (name : String) : Field (List Color) := .list name maxColors colorField

def idField (name : String) : Field String := .text name maxIdBytes

def typewriterField : Field (Typewriter UInt8) :=
  (Field.single.pair .byte).map (fun t => (t.speed, t.center)) fun (speed, center) =>
    ⟨speed, center⟩

def shakeField : Field Shake :=
  ((Field.choice "shake.kind").pair (Field.single.pair (Field.single.pair .single))).map
    (fun s => (s.motion, s.amplitude, s.speed, s.wavelength))
    fun (motion, amplitude, speed, wavelength) => ⟨motion, amplitude, speed, wavelength⟩

def scrambleField : Field Scramble :=
  ((Field.choice "obfuscate.mode").pair .single).map (fun s => (s.mode, s.speed))
    fun (mode, speed) => ⟨mode, speed⟩

def placementField : Field Placement :=
  (Field.single.pair (Field.single.pair .single)).map (fun p => (p.x, p.y, p.scale))
    fun (x, y, scale) => ⟨x, y, scale⟩

def itemField : Field Item :=
  ((idField "item.id").pair (.count "item.count" maxItemCount)).map (fun i => (i.id, i.count))
    fun (id, count) => ⟨id, count⟩

def tagsField : Field (List String) := .list "tags" maxTags (.text "tag" maxTagBytes)

/-- Whether bit `i` of a mask is set. -/
def hasBit (mask i : UInt32) : Bool := (mask >>> i) &&& 1 == 1

/-- Everything of a span after the mask that tells which optional fields there are. -/
def bodyField (mask : UInt32) : Field RawSpan :=
  let optional {α : Type} (i : UInt32) (f : Field α) := f.optional (hasBit mask i)
  (contentField.pair <| (optional 0 styleField).pair <| (optional 1 colorField).pair <|
    (optional 2 (idField "font")).pair <| (optional 3 (colorsField "gradient")).pair <|
    (optional 4 typewriterField).pair <| (optional 5 shakeField).pair <|
    (optional 6 shakeField).pair <| (optional 7 scrambleField).pair <|
    (optional 8 colorField).pair <| (optional 9 (colorsField "background_gradient")).pair <|
    (optional 10 placementField).pair <| (optional 11 itemField).pair <|
    (optional 12 (idField "entity")).pair tagsField).map
    (fun s => (s.content, s.style, s.color, s.font, s.gradient, s.typewriter, s.shake,
      s.charShake, s.scramble, s.background, s.backgroundGradient, s.placement, s.item, s.entity,
      s.tags))
    fun (content, style, color, font, gradient, typewriter, shake, charShake, scramble,
        background, backgroundGradient, placement, item, entity, tags) =>
      { content, style, color, font, gradient, typewriter, shake, charShake, scramble, background,
        backgroundGradient, placement, item, entity, tags }

/-- A span as it travels. -/
def spanField : Field RawSpan where
  write s := do return (← Field.word.write s.presence) ++ (← (bodyField s.presence).write s)
  read := do
    let mask ← Field.word.read
    if mask < 1 <<< optionalFields then (bodyField mask).read
    else throw (.unknownCode "presence" mask)

/-! ### Bringing scalars into range -/

/-- The typewriter with its scalars in range. -/
def Typewriter.settle (t : Typewriter UInt8) : Typewriter Bool :=
  ⟨t.speed.clamp hundredth hundred, t.center != 0⟩

/-- The shake with its scalars in range. -/
def Shake.settle (s : Shake) : Shake :=
  ⟨s.motion, s.amplitude.clamp zero sixtyFour, s.speed.clamp zero hundred,
    s.wavelength.clamp hundredth thousand⟩

/-- The scrambling with its scalars in range. -/
def Scramble.settle (s : Scramble) : Scramble := ⟨s.mode, s.speed.clamp one sixtyThousand⟩

/-- The placement with its scalars in range. -/
def Placement.settle (p : Placement) : Placement :=
  ⟨p.x.clamp minusTenThousand tenThousand, p.y.clamp minusTenThousand tenThousand,
    p.scale.clamp hundredth hundred⟩

/-- The span that a peer means by what it sent: every scalar in range, every style flag a known
one. -/
def SpanOf.settle (s : RawSpan) : Span :=
  { s with
    style := s.style.map fun flags => .ofBits flags.bits
    typewriter := s.typewriter.map Typewriter.settle
    shake := s.shake.map Shake.settle
    charShake := s.charShake.map Shake.settle
    scramble := s.scramble.map Scramble.settle
    placement := s.placement.map Placement.settle }

/-- The span as it is sent. -/
def SpanOf.toRaw (s : Span) : RawSpan :=
  { s with typewriter := s.typewriter.map fun t => ⟨t.speed, if t.center then 1 else 0⟩ }

/-- A span between its bytes and its meaning. -/
def span : Field Span := spanField.map SpanOf.toRaw SpanOf.settle

end KineticText.Wire
