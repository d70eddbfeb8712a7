/-!
# Millisecond clocks

Times are 64-bit counts of milliseconds. A simulated clock is moved by hand; an elapsed clock counts
from its origin on some source of nanoseconds.
-/

namespace RateGovernor

/-- A clock that is moved by hand. -/
structure Clock where
  now : Int64
  deriving DecidableEq, Repr

namespace Clock

instance : Inhabited Clock := ⟨⟨0⟩⟩

/-- Move on by a positive distance; others are ignored. The sum wraps around. -/
def advance (c : Clock) (distance : Int64) : Clock :=
  if 0 < distance then ⟨c.now + distance⟩ else c

/-- Jump to a time unless that lies in the past. -/
def set (c : Clock) (time : Int64) : Clock :=
  if c.now < time then ⟨time⟩ else c

end Clock

/-- A clock that starts at zero at its origin, in nanoseconds of a source that never goes back. -/
structure ElapsedClock where
  origin : Nat
  deriving DecidableEq, Repr

/-- The whole milliseconds since the origin, held at the greatest time. -/
def ElapsedClock.read (c : ElapsedClock) (nanoseconds : Nat) : Int64 :=
  .ofInt (min ((nanoseconds - c.origin) / 1000000 : Nat) Int64.maxValue.toInt)

end RateGovernor
