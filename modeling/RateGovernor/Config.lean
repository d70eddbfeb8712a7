/-!
# Estimator settings

The frame-rate estimator keeps a bounded history of arrivals and ignores those that are too old.
`EstimatorConfig.validate` says which settings it can work with.
-/

namespace RateGovernor

/-- Why a rate controller cannot be built. -/
inductive ConfigError where
  | historyTooShort (size : UInt64)
  | windowNotPositive (maxAge : Int64)
  | other (reason : String)
  deriving DecidableEq, Repr

namespace ConfigError

def reason : ConfigError → String
  | .historyTooShort size => "history_size must be at least 3, got " ++ toString size.toNat
  | .windowNotPositive maxAge => "max_age_ms must be positive, got " ++ toString maxAge.toInt
  | .other reason => reason

def message (e : ConfigError) : String := "Invalid configuration: " ++ e.reason

end ConfigError

/-- How many arrivals are kept, and the greatest age in milliseconds at which one still counts. -/
structure EstimatorConfig where
  historySize : UInt64
  maxAge : Int64
  deriving DecidableEq, Repr

namespace EstimatorConfig

/-- Three seconds of input at thirty frames a second, of which the last two count. -/
def standard : EstimatorConfig := ⟨90, 2000⟩

instance : Inhabited EstimatorConfig := ⟨standard⟩

/-- The newest and the oldest slot take no part in the scan, so there must be a third one, and no
arrival counts unless the window is positive. -/
def validate (c : EstimatorConfig) : Except ConfigError Unit :=
  if c.historySize < 3 then .error (.historyTooShort c.historySize)
  else if c.maxAge ≤ 0 then .error (.windowNotPositive c.maxAge)
  else .ok ()

end EstimatorConfig

end RateGovernor
