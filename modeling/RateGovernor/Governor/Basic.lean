import RateGovernor.Dropper.Basic
import RateGovernor.Frame
import RateGovernor.FrameRate.Estimator
import RateGovernor.Governor.Parameters
import RateGovernor.Governor.Report

/-!
# The rate governor

A governor reconciles the codec's ceiling, the network's bitrate and the measured input frame rate,
keeps its dropper informed, and decides for each captured frame whether to skip it. Its actions run
one at a time; a call to the dropper may be interrupted, and what an action wrote before that call
stays written.
-/

namespace RateGovernor

/-- Whether a frame was charged to the budget, or ignored because it was empty. -/
inductive Accounting where
  | recorded
  | ignored
  deriving DecidableEq, Repr

/-- Why a governor cannot be had: its settings are invalid, or a call to its dropper did not
complete. -/
inductive BuildError where
  | invalidConfig (error : ConfigError)
  | interrupted (cause : Interruption)
  deriving DecidableEq, Repr

/-- The state of a governor over some dropper. -/
structure Governor (σ : Type) where
  parameters : EncodingParameters
  target : UInt32
  estimator : FrameRateEstimator
  dropper : σ
  droppingEnabled : Bool
  counters : Counters

namespace Governor

variable {σ α : Type}

abbrev Action (σ α : Type) := EStateM Interruption (Governor σ) α

def call (action : EStateM Interruption σ α) : Action σ α := fun g =>
  match action g.dropper with
  | .ok a dropper => .ok a { g with dropper }
  | .error e dropper => .error e { g with dropper }

def report (g : Governor σ) : Report where
  maxBitrate := g.parameters.maxBitrate
  targetBitrate := g.target
  configuredFrameRate := g.parameters.frameRate
  inputFrameRate := g.estimator.rate
  framesQueried := .ofNat g.counters.queried
  framesDropped := .ofNat g.counters.dropped
  framesEncoded := .ofNat g.counters.encoded
  bytesEncoded := .ofNat g.counters.bytes
  droppingEnabled := g.droppingEnabled

/-- The frame rate to budget for: the last estimate, or the configured rate if that is zero. -/
def frameRate (g : Governor σ) : Single :=
  if g.estimator.rate.isZero then g.parameters.frameRate else g.estimator.rate

variable [Dropper σ]

/-- Start over with new codec parameters, without arrivals, counts and debt. -/
def configure (parameters : EncodingParameters) : Action σ Unit := do
  let parameters := parameters.clamped
  modify fun g => { g with
    parameters
    target := parameters.targetBitrate
    estimator := g.estimator.reset
    counters := .zero }
  call (Dropper.perform .reset)
  call (Dropper.perform
    (.setRates (kilobitsPerSecond parameters.targetBitrate) parameters.frameRate))

/-- A governor as it is before the first configuration: all parameters are zero. -/
def create (config : EstimatorConfig) (dropper : σ) : Except BuildError (Governor σ) := do
  let estimator ← (FrameRateEstimator.create config).mapError .invalidConfig
  match configure .zero ⟨.zero, 0, estimator, dropper, true, .zero⟩ with
  | .ok _ g => return g
  | .error cause _ => throw (.interrupted cause)

def reset : Action σ Unit := configure .zero

/-- Take a bitrate from the network, held to the codec's ceiling, and return what is used. -/
def updateTarget (bitrate : UInt32) : Action σ UInt32 := do
  let g ← get
  let target := g.parameters.cap bitrate
  set { g with target }
  call (Dropper.perform (.setRates (kilobitsPerSecond target) g.frameRate))
  return target

/-- The incoming frame rate in whole frames per second, computed anew without an arrival. -/
def measureFrameRate (now : Int) : Action σ UInt32 := do
  modify fun g => { g with estimator := g.estimator.estimate now }
  return (← get).estimator.roundedRate

/-- Whether to skip the frame captured now. It counts as an arrival, and the budget drains by one
frame interval. The dropper is not asked while dropping is off. -/
def shouldDrop (now : Int) : Action σ Bool := do
  modify fun g => { g with estimator := g.estimator.update now }
  call (Dropper.perform (.leak (← get).estimator.roundedRate))
  let verdict ← if (← get).droppingEnabled then call Dropper.shouldDrop else pure false
  modify fun g => { g with counters := g.counters.countQuery verdict }
  return verdict

/-- Charge an encoded frame to the budget. An empty one is ignored. -/
def recordFrame (kind : FrameKind) (size : UInt64) : Action σ Accounting := do
  if size = 0 then return .ignored
  call (Dropper.perform (.fill size (kind == .delta)))
  modify fun g => { g with counters := g.counters.countFrame size.toNat }
  return .recorded

def setDropping (enabled : Bool) : Action σ Unit := do
  modify fun g => { g with droppingEnabled := enabled }
  call (Dropper.perform (.enable enabled))

end Governor

end RateGovernor
