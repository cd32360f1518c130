/-! Time in milliseconds, as 64-bit words.  Sums stop at the largest word and differences at zero,
so a clock that is set back never makes a waiting time huge. -/

namespace KineticText

/-- A time or a length of time, in milliseconds. -/
abbrev Millis : Type := UInt64

namespace Millis

/-- The time `d` after `t`, or the last time there is. -/
def after (t d : Millis) : Millis := UInt64.ofNat (Nat.min (t.toNat + d.toNat) (UInt64.size - 1))

/-- How long after `start` the time `t` is; zero when it is before. -/
def since (t start : Millis) : Millis := if t < start then 0 else t - start

/-- The length of a number of seconds, or the longest length there is. -/
def ofSeconds (s : UInt64) : Millis := UInt64.ofNat (Nat.min (s.toNat * 1000) (UInt64.size - 1))

/-- Waiting times are differences of natural numbers, cut off at zero. -/
theorem toNat_since (t start : Millis) : (since t start).toNat = t.toNat - start.toNat := by
  unfold since
  split
  · rename_i h
    have := UInt64.lt_iff_toNat_lt.mp h
    simp only [UInt64.toNat_zero]
    omega
  · rename_i h
    exact UInt64.toNat_sub_of_le _ _ (UInt64.not_lt.mp h)

end Millis

/-- A clock that moves only when it is told to. -/
structure Clock where
  now : Millis
  deriving DecidableEq

namespace Clock

/-- Sets the clock to a time, which may lie in the past. -/
def set (_ : Clock) (t : Millis) : Clock := ⟨t⟩

/-- Moves the clock forward. -/
def advance (c : Clock) (d : Millis) : Clock := ⟨c.now.after d⟩

end Clock

end KineticText
