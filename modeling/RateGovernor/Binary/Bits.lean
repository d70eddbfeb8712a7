import RateGovernor.Binary.Basic

/-!
# Bit patterns

The interchange encoding: a sign bit, an exponent field and the significand without its leading
bit. Patterns of one sign are ordered as the magnitudes they stand for, so the encoding is a number
of steps counted up from zero: magnitudes below `2 ^ precision` are their own patterns, and every
further doubling takes `2 ^ (precision - 1)` patterns. Infinity comes next, and all beyond it are
NaNs.
-/

namespace RateGovernor

namespace Format

/-- The number of patterns from one power of two to the next. -/
def binade (F : Format) : Nat := 1 <<< (F.precision - 1)

def infinityBits (F : Format) : Nat := (F.maxShift + 2) * F.binade

/-- The weight of the sign bit. -/
def signWeight (F : Format) : Nat := (F.maxShift + 3) * F.binade

def magnitudeBits (F : Format) (units : Nat) : Nat :=
  F.shift units * F.binade + units >>> F.shift units

end Format

namespace Binary

variable {F : Format}

/-- The pattern of a number; that of a NaN is the quiet one without a sign. -/
def toBits : Binary F → Nat
  | .nan => F.infinityBits + F.binade / 2
  | .infinite negative => (if negative then F.signWeight else 0) + F.infinityBits
  | .finite negative units _ => (if negative then F.signWeight else 0) + F.magnitudeBits units

def ofBits (bits : Nat) : Binary F :=
  let negative : Bool := F.signWeight ≤ bits
  let magnitude := bits % F.signWeight
  if F.infinityBits < magnitude then .nan
  else if magnitude < 1 <<< F.precision then round negative magnitude 1
  else round negative ((magnitude % F.binade + F.binade) <<< (magnitude / F.binade - 1)) 1

end Binary

end RateGovernor
