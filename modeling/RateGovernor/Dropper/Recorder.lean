import RateGovernor.Dropper.Basic

/-!
# Recorded calls

A recorder stands in front of a dropper, keeps the list of all calls and interrupts those whose
numbers are on a list of faults. An interrupted call is recorded but never reaches the dropper.
-/

namespace RateGovernor

inductive Call where
  | perform (command : Command)
  | shouldDrop
  deriving DecidableEq

/-- A dropper together with the calls made so far, oldest first, and the numbers of the calls to
interrupt, counted from zero. -/
structure Recorder (σ : Type) where
  inner : σ
  calls : List Call
  faults : List Nat

namespace Recorder

variable {σ α : Type}

def create (inner : σ) (faults : List Nat) : Recorder σ := ⟨inner, [], faults⟩

/-- Record a call, then interrupt it or pass it on. -/
def pass (call : Call) (action : EStateM Interruption σ α) :
    EStateM Interruption (Recorder σ) α := fun r =>
  let recorded := { r with calls := r.calls ++ [call] }
  if r.calls.length ∈ r.faults then .error {} recorded
  else match action r.inner with
    | .ok a inner => .ok a { recorded with inner }
    | .error e inner => .error e { recorded with inner }

instance [Dropper σ] : Dropper (Recorder σ) where
  perform c := pass (.perform c) (Dropper.perform c)
  shouldDrop := pass .shouldDrop Dropper.shouldDrop

end Recorder

end RateGovernor
