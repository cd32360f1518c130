import KineticText.Config
import KineticText.Effect.Order
import KineticText.Logged
import KineticText.Number.Double
import KineticText.Text.Blank

/-! The track of a scrambled element: its order, since when it runs, and the drifting subset that
the random mode keeps.  An idle track forgets since when it runs and every random choice. -/

namespace KineticText

/-- The time for which one filler stays, in milliseconds. -/
def fillerTime : Millis := 50

/-- The letters and digits of ASCII. -/
def readableFiller : Array Char :=
  "ABCDEFGHIJKLMNOPQRSTUVWXYZabcdefghijklmnopqrstuvwxyz0123456789".toList.toArray

/-- The state of a scrambled element. -/
structure ScrambleTrack where
  /-- The characters in the order in which they change. -/
  order : List Nat := []
  /-- The place of each character in the order. -/
  rank : Array Nat := #[]
  /-- The direction of the order, once there is one. -/
  direction : Option Direction := none
  /-- The seed of the order and of the fillers. -/
  seed : UInt64
  /-- Since when the track runs. -/
  origin : Option Millis := none
  /-- The last time the track was synchronized. -/
  lastAccess : Millis
  /-- The idle time after which the track is reset. -/
  resetDelay : Millis
  /-- The drifting subset: characters, and until when they belong to it. -/
  active : List (Nat × Millis) := []
  /-- The last time the subset grew. -/
  lastSpawn : Option Millis := none
  /-- The source of random choices. -/
  generator : Random.Generator

namespace ScrambleTrack

/-- A track that has yet to be synchronized. -/
def start (now resetDelay : Millis) (seed : UInt64) : ScrambleTrack :=
  { seed, lastAccess := now, resetDelay, generator := .ofSeed seed }

/-- Forgets since when the track runs, and every random choice. -/
def reset (t : ScrambleTrack) (now : Millis) : ScrambleTrack :=
  { t with
    origin := none
    active := []
    lastSpawn := none
    generator := .ofSeed (Random.mix t.seed now) }

/-- Whether the track has been idle for its reset delay. -/
def isIdle (t : ScrambleTrack) (now : Millis) : Bool :=
  t.origin.isSome && t.resetDelay ≤ now.since t.lastAccess

/-- Resets the track after an idle time. -/
def resetIdle (t : ScrambleTrack) (now : Millis) : Logged ScrambleTrack := do
  if t.isIdle now then
    Logged.emit (.obfuscateIdle now t.lastAccess)
    return t.reset now
  else return t

/-- Whether the order is the one of these parameters. -/
def isOrdered (t : ScrambleTrack) (count : Nat) (direction : Direction) (seed : UInt64) : Bool :=
  t.rank.size == count && t.direction == some direction && t.seed == seed

/-- The track in the order of these parameters. -/
def reorder (t : ScrambleTrack) (count : Nat) (direction : Direction) (seed : UInt64) :
    ScrambleTrack :=
  if t.isOrdered count direction seed then t
  else
    let order := direction.order count seed
    { t with
      order
      rank := rankOf order
      direction := some direction
      seed
      active := t.active.filter (·.1 < count) }

/-- Brings the track up to date for an element of `count` characters. -/
def sync (t : ScrambleTrack) (count : Nat) (direction : Direction) (seed : UInt64)
    (now : Millis) : Logged ScrambleTrack := do
  let t := (← t.resetIdle now).reorder count direction seed
  return { t with origin := some (t.origin.getD now), lastAccess := now }

/-- For how long the track has been running. -/
def elapsed (t : ScrambleTrack) (now : Millis) : Millis :=
  match t.origin with
  | none => 0
  | some origin => now.since origin

/-! ### The drifting subset -/

/-- The subset without the characters whose time is over; nothing is copied when there are none. -/
def expire (t : ScrambleTrack) (now : Millis) : ScrambleTrack :=
  if t.active.all (now < ·.2) then t else { t with active := t.active.filter (now < ·.2) }

theorem expire_eq_filter (t : ScrambleTrack) (now : Millis) :
    t.expire now = { t with active := t.active.filter (now < ·.2) } := by
  unfold expire
  split
  · rename_i h
    rw [List.filter_eq_self.mpr (List.all_eq_true.mp h)]
  · rfl

/-- Whether the subset may grow: it has not grown for the poll interval, and it is below its share
of the characters. -/
def mayGrow (t : ScrambleTrack) (now : Millis) (timing : ScrambleTiming) : Bool :=
  t.lastSpawn.all (fun last => decide (timing.pollInterval ≤ now.since last)) &&
    t.rank.size != 0 &&
    !decide (timing.maxFraction * Double.ofNat t.rank.size ≤ Double.ofNat t.active.length)

/-- The characters outside the subset. -/
def free (t : ScrambleTrack) : Array Nat :=
  ((List.range t.rank.size).filter fun index => !t.active.any (·.1 == index)).toArray

/-- Moves up to `count` of the free characters, drawn at random, into the subset. -/
def spawn (now : Millis) (timing : ScrambleTiming) :
    Nat → Array Nat → ScrambleTrack → Logged ScrambleTrack
  | 0, _, t => pure t
  | count + 1, free, t =>
    let (place, g) := t.generator.index free.size
    match free[place]? with
    | none => pure { t with generator := g }
    | some index => do
      let (lifetime, g) := g.between timing.minDeadline timing.maxDeadline
      let deadline ← Logged.sum now lifetime
      spawn now timing count (free.swapIfInBounds place (free.size - 1)).pop
        { t with active := (index, deadline) :: t.active, generator := g }

/-- Lets the subset grow. -/
def grow (t : ScrambleTrack) (now : Millis) (timing : ScrambleTiming) : Logged ScrambleTrack :=
  let free := t.free
  let (burst, generator) := t.generator.between timing.minBurst timing.maxBurst
  spawn now timing (min burst.toNat free.size) free { t with lastSpawn := some now, generator }

/-- Moves the subset on to a time. -/
def stepRandom (t : ScrambleTrack) (now : Millis) (timing : ScrambleTiming) :
    Logged ScrambleTrack :=
  let t := t.expire now
  if t.mayGrow now timing then t.grow now timing else pure t

/-! ### What shows -/

/-- The number of characters that have changed, with one changing every `speed` milliseconds. -/
def steps (t : ScrambleTrack) (speed : Float) (now : Millis) : Nat :=
  Double.toNat (Double.floor ((t.elapsed now).toFloat / Double.max speed 1.0))

/-- Whether a character is scrambled. -/
def isScrambled (t : ScrambleTrack) (index : Nat) (mode : ScrambleMode) (speed : Float)
    (now : Millis) : Except EffectError Bool :=
  match t.rank[index]? with
  | none => .error (.trackMismatch t.rank.size index)
  | some rank => .ok <| match mode with
    | .constant => true
    | .reveal => t.steps speed now ≤ rank
    | .hide => rank < t.steps speed now
    | .random => t.active.any (·.1 == index)

/-- The filler for a character; a blank is its own. -/
def filler (t : ScrambleTrack) (index : Nat) (c : Char) (alphabet : Alphabet) (now : Millis) :
    Char :=
  if Text.isBlank c then c
  else
    let bucket := now / fillerTime
    let place := UInt64.ofNat index
    match alphabet with
    | .glyphset => Char.ofNat (33 + (Random.mix (Random.mix t.seed bucket) place % 94).toNat)
    | .readable => readableFiller.getD (Random.mix bucket place % 62).toNat c

end ScrambleTrack

end KineticText
