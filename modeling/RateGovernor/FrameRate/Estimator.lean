import RateGovernor.Config
import RateGovernor.FrameRate.Arrivals

/-!
# The frame-rate estimator

An estimator keeps the recent arrivals and the estimate it computed last. A table without the slots
that an operation needs stays as it is and has no rate; no estimator built from valid settings has
such a table.
-/

namespace RateGovernor

/-- Recent arrivals, the greatest age at which one counts, and the last estimate in frames per
second. -/
structure FrameRateEstimator where
  arrivals : Arrivals
  maxAge : Int
  rate : Single

namespace FrameRateEstimator

/-- An estimator without arrivals, for any settings. -/
def ofConfig (c : EstimatorConfig) : FrameRateEstimator :=
  ⟨.empty c.historySize.toNat, c.maxAge.toInt, 0⟩

/-- An estimator without arrivals, for valid settings. -/
def create (c : EstimatorConfig) : Except ConfigError FrameRateEstimator := do
  c.validate
  return ofConfig c

def capacity (e : FrameRateEstimator) : Nat := e.arrivals.capacity

def sampleCount (e : FrameRateEstimator) : Nat := e.arrivals.count

def reset (e : FrameRateEstimator) : FrameRateEstimator :=
  { e with arrivals := e.arrivals.clear, rate := 0 }

def record (e : FrameRateEstimator) (time : Int) : FrameRateEstimator :=
  { e with arrivals := (e.arrivals.record? time).getD e.arrivals }

/-- Compute the estimate anew, as seen at a time. -/
def estimate (e : FrameRateEstimator) (now : Int) : FrameRateEstimator :=
  { e with rate := (e.arrivals.rate? e.maxAge now).getD 0 }

def update (e : FrameRateEstimator) (now : Int) : FrameRateEstimator :=
  (e.record now).estimate now

/-- A frame rate in whole frames, a half rounded up, within 32 bits. -/
def roundRate (rate : Single) : UInt32 :=
  .ofNat ((rate + 1 / 2).truncate (UInt32.size - 1))

def roundedRate (e : FrameRateEstimator) : UInt32 := roundRate e.rate

end FrameRateEstimator

end RateGovernor
