import RateGovernor.Decimal.Layout
import RateGovernor.Governor.Operation

/-!
# The journal

Entries say what operations do. They follow from an operation, the governor before and after it and
the answer, so the governor itself keeps none: a configuration, a reset and a capped bitrate are
noted before the dropper is called, a drop decision only once it is made.
-/

namespace RateGovernor

inductive Entry where
  | configuring (parameters : EncodingParameters)
  | resetting
  | capped (requested used : UInt32)
  | decision (now : Int) (frameRate : UInt32) (drop : Bool)
  deriving DecidableEq

/-- How much detail an entry is. -/
inductive Level where
  | debug
  | trace
  deriving DecidableEq, Repr

def Level.name : Level → String
  | .debug => "DEBUG"
  | .trace => "TRACE"

namespace Entry

/-- Decisions come with every frame, the others are rare. -/
def level : Entry → Level
  | .decision .. => .trace
  | _ => .debug

def message : Entry → String
  | .configuring p =>
    "Configuring rate control: max=" ++ toString p.maxBitrate.toInt ++
      "bps target=" ++ toString p.targetBitrate.toNat ++ "bps fps=" ++ p.frameRate.messageText
  | .resetting => "Resetting rate control"
  | .capped requested used =>
    "Network bitrate " ++ toString requested.toNat ++
      "bps capped to codec maximum " ++ toString used.toNat ++ "bps"
  | .decision now frameRate drop =>
    "Drop decision at " ++ toString now ++ "ms: input_fps=" ++ toString frameRate.toNat ++
      " drop=" ++ (if drop then "true" else "false")

def line (e : Entry) : String := e.level.name ++ " " ++ e.message

end Entry

/-- What is noted about an operation that answered, or was interrupted and gave no answer. -/
def Operation.entries {σ : Type} (op : Operation) (now : Int) (before after : Governor σ)
    (answer : Option Answer) : List Entry :=
  match op, answer with
  | .configure p, _ => [.configuring p]
  | .reset, _ => [.resetting]
  | .updateTarget requested, _ =>
    let used := before.parameters.cap requested
    if used = requested then [] else [.capped requested used]
  | .shouldDrop, some (.verdict drop) => [.decision now after.estimator.roundedRate drop]
  | _, _ => []

end RateGovernor
