import KineticText.Attribute
import KineticText.Random.Digest

/-! Keys of animation tracks.  A text has a key of its own, by its characters or by an occurrence
that the host tells apart, and each of its elements has a key derived from that and the characters
it governs.  Every derivation mixes in a word, and mixing is one-to-one in each of its two words. -/

namespace KineticText

/-- The key of a track. -/
structure TrackKey where
  word : UInt64
  deriving DecidableEq

namespace TrackKey

/-- The key of a text by its characters. -/
def ofText (text : String) : TrackKey := ⟨Random.mix (Random.hashText text) 1⟩

/-- The key of an occurrence that the host numbers. -/
def ofOccurrence (id : UInt64) : TrackKey := ⟨Random.mix id 2⟩

/-- The key of an occurrence of a text, so that equal texts move independently. -/
def ofTextAt (text : String) (id : UInt64) : TrackKey :=
  ⟨Random.mix (ofText text).word (ofOccurrence id).word⟩

/-- The ends of a range in one word. -/
def pack (e : Extent) : UInt64 := (UInt64.ofNat e.start <<< 32) ^^^ UInt64.ofNat e.stop

/-- The key of an element of the text, by the characters it governs. -/
def element (key : TrackKey) (e : Extent) : TrackKey := ⟨Random.mix key.word (pack e)⟩

/-- The key of what the typewriters of the text share. -/
def container (key : TrackKey) : TrackKey := ⟨Random.mix key.word 3⟩

end TrackKey

end KineticText
