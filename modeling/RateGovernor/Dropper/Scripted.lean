import RateGovernor.Dropper.Basic

/-!
# Scripted verdicts
-/

namespace RateGovernor

/-- A dropper without a bucket: it gives a fixed list of verdicts over and over, and none of them is
to drop if the list is empty. -/
structure Scripted where
  verdicts : List Bool
  /-- The number of verdicts given so far. -/
  given : Nat
  deriving DecidableEq, Repr

namespace Scripted

def create (verdicts : List Bool) : Scripted := ⟨verdicts, 0⟩

def next (s : Scripted) : Bool := s.verdicts.getD (s.given % s.verdicts.length) false

instance : Dropper Scripted where
  perform _ := pure ()
  shouldDrop := do
    let s ← get
    set { s with given := s.given + 1 }
    return s.next

end Scripted

end RateGovernor
