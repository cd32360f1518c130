import KineticText.Recency
import KineticText.Track.Key
import KineticText.Track.Scramble
import KineticText.Track.Typewriter

/-! The store of animation tracks: a bounded map for each family, so that a key in one says nothing
about the other.  A track that has not been asked for longer than the timeout is dropped, and one
that is asked for and not there starts anew. -/

namespace KineticText

/-- A track with the time of its last access. -/
class Timed (τ : Type) where
  lastAccess : τ → Millis

instance : Timed (TypewriterTrack Float) := ⟨TypewriterTrack.lastAccess⟩

instance : Timed ScrambleTrack := ⟨ScrambleTrack.lastAccess⟩

/-- Whether a track has not been asked for longer than the timeout. -/
def isStale {τ : Type} [Timed τ] (now timeout : Millis) (track : τ) : Bool :=
  timeout < now.since (Timed.lastAccess track)

/-- The tracks of one family. -/
abbrev Tracks (τ : Type) : Type := Recency TrackKey τ

namespace Tracks

variable {τ α : Type} [Timed τ]

/-- Drops the track under a key if it is stale. -/
def expire (family : Family) (now timeout : Millis) (key : TrackKey) (tracks : Tracks τ) :
    Logged (Tracks τ) := do
  if (tracks.peek? key).any (isStale now timeout) then
    Logged.emit (.trackExpired family key.word)
    return tracks.erase key
  else return tracks

/-- The track under a key, or a new one. -/
def current (family : Family) (key : TrackKey) (fresh : τ) (tracks : Tracks τ) : Logged τ := do
  match tracks.peek? key with
  | some track => return track
  | none =>
    Logged.emit (.trackCreated family key.word)
    return fresh

/-- Asks the track under a key, which is a new one if there is none or it is stale. -/
def ask (family : Family) (now timeout : Millis) (key : TrackKey) (fresh : τ)
    (question : τ → Logged (α × τ)) (tracks : Tracks τ) : Logged (α × Tracks τ) := do
  let tracks ← tracks.expire family now timeout key
  let (answer, track) ← question (← tracks.current family key fresh)
  return (answer, tracks.put key track)

end Tracks

/-- The tracks of both families. -/
structure TrackStore where
  /-- The idle time after which a track is dropped. -/
  timeout : Millis
  /-- The idle time after which a typewriter starts over. -/
  typewriterReset : Millis := 1000
  /-- The idle time after which scrambling starts over. -/
  scrambleReset : Millis := 1000
  typewriters : Tracks (TypewriterTrack Float)
  scrambles : Tracks ScrambleTrack

namespace TrackStore

variable {α : Type}

/-- An empty store with room for `capacity` tracks of each family. -/
def empty (capacity : Nat) (timeout : Millis) : TrackStore :=
  { timeout, typewriters := .empty capacity, scrambles := .empty capacity }

/-- The empty store of a configuration. -/
def ofConfig (c : Config) : TrackStore :=
  { empty c.trackCapacity.toNat c.trackTimeout with
    typewriterReset := c.typewriterReset
    scrambleReset := c.scrambleReset }

/-- Asks a typewriter's track. -/
def askTypewriter (s : TrackStore) (now : Millis) (key : TrackKey)
    (question : TypewriterTrack Float → Logged (α × TypewriterTrack Float)) :
    Logged (α × TrackStore) := do
  let (answer, typewriters) ← s.typewriters.ask .typewriter now s.timeout key
    (.start now s.typewriterReset) question
  return (answer, { s with typewriters })

/-- Asks the track of a scrambled element; a new one has the key for its seed. -/
def askScramble (s : TrackStore) (now : Millis) (key : TrackKey)
    (question : ScrambleTrack → Logged (α × ScrambleTrack)) : Logged (α × TrackStore) := do
  let (answer, scrambles) ← s.scrambles.ask .obfuscate now s.timeout key
    (.start now s.scrambleReset key.word) question
  return (answer, { s with scrambles })

/-- The number of tracks of both families. -/
def size (s : TrackStore) : Nat := s.typewriters.size + s.scrambles.size

/-- The most tracks of one family. -/
def capacity (s : TrackStore) : Nat := s.typewriters.capacity

/-- Drops stale tracks, the least recently used first and up to the first one that is not stale.
Gives how many are gone. -/
def sweep (s : TrackStore) (now : Millis) : Logged (Nat × TrackStore) := do
  let swept := { s with
    typewriters := s.typewriters.dropStale (isStale now s.timeout)
    scrambles := s.scrambles.dropStale (isStale now s.timeout) }
  let removed := s.size - swept.size
  Logged.emitIf (removed != 0) (.tracksSwept removed)
  return (removed, swept)

/-- Drops the tracks under a key. -/
def forget (s : TrackStore) (key : TrackKey) : TrackStore :=
  { s with typewriters := s.typewriters.erase key, scrambles := s.scrambles.erase key }

/-- Drops every track. -/
def clear (s : TrackStore) : TrackStore :=
  { s with typewriters := s.typewriters.clear, scrambles := s.scrambles.clear }

end TrackStore

end KineticText
