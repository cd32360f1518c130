import KineticText.Config
import KineticText.Logged

/-! The track of a typewriter: since when it reveals.  It starts over when it has been idle, when
the host's ticks run backwards, and, by policy, when its text or the reported position changes.  Of
ticks the track needs only order and difference, so their type is a parameter. -/

namespace KineticText

/-- Since when a typewriter reveals. -/
structure TypewriterTrack (τ : Type) where
  /-- The tick of the first character, while there is one. -/
  origin : Option τ := none
  /-- The last time the track was asked. -/
  lastAccess : Millis
  /-- The number of characters at that time. -/
  total : Option Nat := none
  /-- The last reported position since the start. -/
  lastPosition : Option Nat := none
  /-- The idle time after which the track starts over. -/
  resetDelay : Millis
  /-- How often the track has started over; the count stops at its largest value. -/
  restarts : UInt32 := 0

namespace TypewriterTrack

variable {τ : Type}

/-- A track that starts when it is first asked. -/
def start (now resetDelay : Millis) : TypewriterTrack τ := { lastAccess := now, resetDelay }

/-- Starts over. -/
def restart (t : TypewriterTrack τ) : TypewriterTrack τ :=
  { t with
    origin := none
    lastPosition := none
    restarts := if t.restarts == 0xFFFFFFFF then t.restarts else t.restarts + 1 }

/-- Whether the track has been idle for its reset delay. -/
def isIdle (t : TypewriterTrack τ) (now : Millis) : Bool :=
  t.origin.isSome && t.resetDelay ≤ now.since t.lastAccess

/-- Starts over after an idle time. -/
def restartIdle (t : TypewriterTrack τ) (now : Millis) : Logged (TypewriterTrack τ) := do
  if t.isIdle now then
    Logged.emit (.typewriterIdle now t.lastAccess)
    return t.restart
  else return t

/-- Starts over when the number of characters has changed, if the policy says so. -/
def restartChanged (t : TypewriterTrack τ) (total : Nat) (policy : RestartPolicy) :
    Logged (TypewriterTrack τ) := do
  match policy, t.total with
  | .onTextChange, some previous =>
    if previous = total then return t
    else
      Logged.emit (.textChanged previous total)
      return t.restart
  | _, _ => return t

/-- Starts over when ticks have run backwards to before the start. -/
def restartBackward [LT τ] [DecidableLT τ] (t : TypewriterTrack τ) (ticks : τ) :
    TypewriterTrack τ :=
  if t.origin.any fun origin => decide (ticks < origin) then t.restart else t

/-- The ticks since the start, for a text of `total` characters, and the track after that. -/
def elapsed [LT τ] [DecidableLT τ] [Sub τ] (t : TypewriterTrack τ) (now : Millis) (ticks : τ)
    (total : Nat) (policy : RestartPolicy) : Logged (τ × TypewriterTrack τ) := do
  let t ← t.restartIdle now
  let t ← t.restartChanged total policy
  let t := t.restartBackward ticks
  let origin := t.origin.getD ticks
  return (ticks - origin, { t with origin := some origin, total := some total, lastAccess := now })

/-- Reports a position; the track starts over when it is lower than the last one.  Gives whether it
is. -/
def observe (t : TypewriterTrack τ) (position : Nat) : Logged (Bool × TypewriterTrack τ) := do
  if t.lastPosition.any (position < ·) then
    Logged.emit (.positionRegressed position)
    return (true, { t.restart with lastPosition := some position })
  else return (false, { t with lastPosition := some position })

/-- Reports the position of a frame, if there is one and the policy looks at it. -/
def observeIf (t : TypewriterTrack τ) (policy : RestartPolicy) (position : Option Nat) :
    Logged (TypewriterTrack τ) := do
  match policy, position with
  | .onRegression, some position => return (← t.observe position).2
  | _, _ => return t

end TypewriterTrack

end KineticText
