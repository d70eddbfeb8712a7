import RateGovernor.Binary.Basic

/-!
# Reports

Counters of what happened since the last reconfiguration, and the report that shows them beside the
rates in force.
-/

namespace RateGovernor

/-- Drop queries answered, those answered with a drop, frames charged and their bytes. -/
structure Counters where
  queried : Nat
  dropped : Nat
  encoded : Nat
  bytes : Nat
  deriving DecidableEq, Repr

namespace Counters

def zero : Counters := ⟨0, 0, 0, 0⟩

def countQuery (c : Counters) (dropped : Bool) : Counters :=
  { c with queried := c.queried + 1, dropped := c.dropped + dropped.toNat }

def countFrame (c : Counters) (size : Nat) : Counters :=
  { c with encoded := c.encoded + 1, bytes := c.bytes + size }

end Counters

structure Report where
  maxBitrate : Int32
  targetBitrate : UInt32
  configuredFrameRate : Single
  inputFrameRate : Single
  framesQueried : UInt64
  framesDropped : UInt64
  framesEncoded : UInt64
  bytesEncoded : UInt64
  droppingEnabled : Bool
  deriving DecidableEq

namespace Report

def zero : Report := ⟨0, 0, 0, 0, 0, 0, 0, 0, false⟩

instance : Inhabited Report := ⟨zero⟩

/-- The share of drop queries answered with a drop; zero without queries. -/
def dropRatio (r : Report) : Double :=
  if r.framesQueried = 0 then 0 else .ofNat r.framesDropped.toNat / .ofNat r.framesQueried.toNat

end Report

end RateGovernor
