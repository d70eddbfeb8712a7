import RateGovernor.Binary.Basic

/-!
# Frame droppers

A dropper is told what the governor knows in the form of commands, and answers whether the next
frame should be dropped. A call may be interrupted; the dropper then keeps what it had done so far.
-/

namespace RateGovernor

/-- A call to a dropper did not complete. -/
structure Interruption where
  deriving DecidableEq, Repr

inductive Command where
  /-- Clear debt and rates. -/
  | reset
  /-- The target bitrate in kilobits per second and the frame rate to budget for. -/
  | setRates (bitrate frameRate : Single)
  /-- An encoded frame of so many bytes. -/
  | fill (size : UInt64) (isDelta : Bool)
  /-- One frame interval went by at the given whole frame rate. -/
  | leak (frameRate : UInt32)
  /-- Turn dropping on or off without touching the debt. -/
  | enable (enabled : Bool)
  deriving DecidableEq

/-- The states of a dropper, its reaction to commands and its verdict on the next frame. -/
class Dropper (σ : Type) where
  perform : Command → EStateM Interruption σ Unit
  shouldDrop : EStateM Interruption σ Bool

end RateGovernor
