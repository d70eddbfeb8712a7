import RateGovernor.Dropper.Basic

/-!
# The leaky bucket

Encoded frames pour their kilobits into a bucket, and each frame interval drains one interval's
worth of the target bitrate. While the debt exceeds the threshold, frames are dropped. What a key
frame costs beyond one interval is charged in equal slices over the following leaks. All arithmetic
is single precision, one rounding an operation.
-/

namespace RateGovernor

/-- The seconds of target bitrate that the bucket may hold, and the number of leaks over which a key
frame is charged. -/
structure BucketConfig where
  window : Single
  keyFrameSpread : UInt32
  deriving DecidableEq

namespace BucketConfig

/-- One second, and ten leaks. -/
def standard : BucketConfig := ⟨1, 10⟩

instance : Inhabited BucketConfig := ⟨standard⟩

end BucketConfig

structure LeakyBucket where
  config : BucketConfig
  debt : Single
  threshold : Single
  bitrate : Single
  frameRate : Single
  /-- The key-frame cost that is not yet charged. -/
  pending : Single
  /-- The leaks over which it will be charged. -/
  pendingLeaks : UInt32
  enabled : Bool
  deriving DecidableEq

namespace LeakyBucket

/-- An empty bucket that is switched on and has no rates yet. -/
def create (config : BucketConfig) : LeakyBucket := ⟨config, 0, 0, 0, 0, 0, 0, true⟩

/-- One frame interval's worth of the target bitrate. -/
def budget (b : LeakyBucket) (frameRate : Single) : Single :=
  if 0 < frameRate then b.bitrate / frameRate else 0

/-- Forget everything but the settings and the switch. -/
def reset (b : LeakyBucket) : LeakyBucket := { create b.config with enabled := b.enabled }

/-- Take new rates. Debt run up against a higher target weighs proportionally more against a lower
one, so the debt is scaled down with the target. -/
def setRates (b : LeakyBucket) (bitrate frameRate : Single) : LeakyBucket :=
  let bitrate := bitrate.positivePart
  { b with
    debt := if 0 < b.bitrate ∧ bitrate < b.bitrate then b.debt * (bitrate / b.bitrate) else b.debt
    threshold := bitrate * b.config.window
    bitrate
    frameRate := frameRate.positivePart }

def kilobits (size : UInt64) : Single := .ofNat size.toNat * 8 / 1000

/-- Charge a frame. Of a key frame that costs more than one interval's budget only the budget is
charged at once. -/
def fill (b : LeakyBucket) (size : UInt64) (isDelta : Bool) : LeakyBucket :=
  if b.enabled then
    let cost := kilobits size
    let budget := b.budget b.frameRate
    if !isDelta ∧ 0 < b.config.keyFrameSpread ∧ 0 < budget ∧ budget < cost then
      { b with
        debt := b.debt + budget
        pending := b.pending + (cost - budget)
        pendingLeaks := b.config.keyFrameSpread }
    else { b with debt := b.debt + cost }
  else b

/-- Move one slice of the pending key-frame cost to the debt. -/
def chargeSlice (b : LeakyBucket) : LeakyBucket :=
  if 0 < b.pendingLeaks then
    let slice := b.pending / .ofNat b.pendingLeaks.toNat
    { b with
      debt := b.debt + slice
      pending := b.pending - slice
      pendingLeaks := b.pendingLeaks - 1 }
  else b

/-- Drain one frame interval at a whole frame rate; the debt does not go below zero. -/
def leak (b : LeakyBucket) (frameRate : UInt32) : LeakyBucket :=
  if b.enabled ∧ frameRate ≠ 0 then
    let drained := { b with debt := b.debt - b.budget (.ofNat frameRate.toNat) }.chargeSlice
    { drained with debt := drained.debt.positivePart }
  else b

/-- Whether the debt exceeds the threshold; never while switched off or without a target. -/
def shouldDrop (b : LeakyBucket) : Bool :=
  b.enabled && !(b.bitrate ≤ 0) && b.threshold < b.debt

def apply (b : LeakyBucket) : Command → LeakyBucket
  | .reset => b.reset
  | .setRates bitrate frameRate => b.setRates bitrate frameRate
  | .fill size isDelta => b.fill size isDelta
  | .leak frameRate => b.leak frameRate
  | .enable enabled => { b with enabled }

instance : Dropper LeakyBucket where
  perform c := modify (apply · c)
  shouldDrop := return (← get).shouldDrop

end LeakyBucket

end RateGovernor
