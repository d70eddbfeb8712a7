import RateGovernor.Governor.Basic

/-!
# Operations

The public operations of a governor as data, so that a history of use is a list.
-/

namespace RateGovernor

inductive Operation where
  | configure (parameters : EncodingParameters)
  | reset
  | updateTarget (bitrate : UInt32)
  | measureFrameRate
  | shouldDrop
  | recordFrame (kind : FrameKind) (size : UInt64)
  | setDropping (enabled : Bool)
  | readTarget
  | readParameters
  | readReport
  deriving DecidableEq

inductive Answer where
  | done
  | bitrate (value : UInt32)
  | frameRate (value : UInt32)
  | verdict (drop : Bool)
  | accounting (value : Accounting)
  | parameters (value : EncodingParameters)
  | report (value : Report)
  deriving DecidableEq

namespace Governor

variable {σ : Type} [Dropper σ]

/-- Carry out an operation at a reading of the clock. -/
def perform (now : Int) : Operation → Action σ Answer
  | .configure p => do configure p; return .done
  | .reset => do reset; return .done
  | .updateTarget n => return .bitrate (← updateTarget n)
  | .measureFrameRate => return .frameRate (← measureFrameRate now)
  | .shouldDrop => return .verdict (← shouldDrop now)
  | .recordFrame kind size => return .accounting (← recordFrame kind size)
  | .setDropping enabled => do setDropping enabled; return .done
  | .readTarget => return .bitrate (← get).target
  | .readParameters => return .parameters (← get).parameters
  | .readReport => return .report (← get).report

end Governor

end RateGovernor
