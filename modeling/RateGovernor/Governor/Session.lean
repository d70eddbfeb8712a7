import RateGovernor.Clock
import RateGovernor.Governor.Journal

/-!
# Sessions

A session runs a governor over a simulated clock and keeps its journal. Besides the operations there
are moves of the clock and whole capture cycles.
-/

namespace RateGovernor

/-- A governor, its clock, and what was noted so far, oldest first. -/
structure Session (σ : Type) where
  clock : Clock
  governor : Governor σ
  journal : List Entry

inductive Step where
  | operation (op : Operation)
  /-- Move the clock on, ask about the frame captured then, and encode it unless it is dropped. -/
  | cycle (distance : Int64) (kind : FrameKind) (size : UInt64)
  | advance (distance : Int64)
  | setClock (time : Int64)
  deriving DecidableEq

inductive Reply where
  | answer (answer : Answer)
  | dropped
  | time (now : Int64)
  deriving DecidableEq

namespace Session

variable {σ : Type}

def moveClock (move : Clock → Clock) : EStateM Interruption (Session σ) Int64 := do
  modify fun s => { s with clock := move s.clock }
  return (← get).clock.now

variable [Dropper σ]

/-- A session over a governor that is not configured yet. -/
def create (clock : Clock) (config : EstimatorConfig) (dropper : σ) :
    Except BuildError (Session σ) := do
  return ⟨clock, ← Governor.create config dropper, []⟩

/-- Carry out an operation at the clock's time and note it. -/
def perform (op : Operation) : EStateM Interruption (Session σ) Answer := fun s =>
  let now := s.clock.now.toInt
  let noted (governor : Governor σ) (answer : Option Answer) : Session σ :=
    { s with governor, journal := s.journal ++ op.entries now s.governor governor answer }
  match Governor.perform now op s.governor with
  | .ok answer governor => .ok answer (noted governor (some answer))
  | .error e governor => .error e (noted governor none)

def step : Step → EStateM Interruption (Session σ) Reply
  | .operation op => return .answer (← perform op)
  | .cycle distance kind size => do
    let _ ← moveClock (·.advance distance)
    if (← perform .shouldDrop) = .verdict true then return .dropped
    return .answer (← perform (.recordFrame kind size))
  | .advance distance => return .time (← moveClock (·.advance distance))
  | .setClock time => return .time (← moveClock (·.set time))

end Session

end RateGovernor
