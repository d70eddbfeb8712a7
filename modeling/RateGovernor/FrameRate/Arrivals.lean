import RateGovernor.Binary.Basic

/-!
# Arrival times

Recent frame arrivals stand in a fixed number of slots, newest first, with the unused slots at the
end. Slots are reached only through `slot?` and `range?`, which fail outside the table; whether a
table is large enough is therefore visible in what its operations return.
-/

namespace RateGovernor

/-- Arrival times in milliseconds, newest first; an unused slot holds none. -/
structure Arrivals where
  slots : List (Option Int)
  deriving DecidableEq, Repr

namespace Arrivals

def empty (capacity : Nat) : Arrivals := ⟨.replicate capacity none⟩

def capacity (a : Arrivals) : Nat := a.slots.length

def count (a : Arrivals) : Nat := (a.slots.takeWhile Option.isSome).length

def clear (a : Arrivals) : Arrivals := empty a.capacity

def slot? (a : Arrivals) (index : Nat) : Option (Option Int) := a.slots[index]?

/-- The slots from `start` up to but without `stop`, if the table has them all. -/
def range? (a : Arrivals) (start stop : Nat) : Option (List (Option Int)) :=
  if start ≤ stop ∧ stop ≤ a.capacity then some ((a.slots.take stop).drop start) else none

/-- Put an arrival into the first slot. The others make room for it unless that slot was unused. -/
def record? (a : Arrivals) (time : Int) : Option Arrivals := do
  match ← a.slot? 0 with
  | none => some ⟨some time :: a.slots.drop 1⟩
  | some _ => some ⟨some time :: a.slots.dropLast⟩

/-- The arrivals of the leading slots that are used and not too old. -/
def recent (maxAge now : Int) : List (Option Int) → List Int
  | some time :: rest => if now - time ≤ maxAge then time :: recent maxAge now rest else []
  | _ => []

/-- Intervals per second between the newest arrival and the last of the given earlier ones; zero
without intervals or if they span no time. -/
def rateOver (newest : Int) (earlier : List Int) : Single :=
  match earlier.getLast? with
  | none => 0
  | some oldest =>
    if newest - oldest ≤ 0 then 0
    else .ofNat earlier.length * 1000 / .ofInt (newest - oldest)

/-- The frame rate seen at a time: the scan starts at the second slot and leaves out the last, which
only ever holds what is about to be evicted. -/
def rate? (a : Arrivals) (maxAge now : Int) : Option Single := do
  match ← a.slot? 0 with
  | none => some 0
  | some newest => some (rateOver newest (recent maxAge now (← a.range? 1 (a.capacity - 1))))

end Arrivals

end RateGovernor
