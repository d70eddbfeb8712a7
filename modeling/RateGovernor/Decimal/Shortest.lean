import RateGovernor.Binary.Basic

/-!
# The shortest decimal that reads back

The reals that round to a binary number form an interval between the two midpoints next to it, which
belong to it when its significand is even. Among the decimals in that interval those on the coarsest
grid `10 ^ exponent` have the fewest digits, and the nearest of them is taken. All comparisons are
exact, in quarters of the format's unit.
-/

namespace RateGovernor

/-- The number `significand * 10 ^ exponent`. -/
structure Decimal where
  significand : Nat
  exponent : Int
  deriving DecidableEq, Repr

/-- Which of two equally near grid points is taken. -/
inductive Tie where
  | toEven
  | up
  deriving DecidableEq, Repr

def digitCount (n : Nat) : Nat := (Nat.toDigits 10 n).length

namespace Format

/-- The reals that round to a magnitude, with ends in quarter units. -/
structure Interval where
  low : Nat
  high : Nat
  closed : Bool
  deriving DecidableEq, Repr

/-- Whether a quotient of quarter units lies in the interval. -/
def Interval.contains (i : Interval) (num den : Nat) : Bool :=
  if i.closed then i.low * den ≤ num && num ≤ i.high * den
  else i.low * den < num && num < i.high * den

/-- Half a step in each direction; the step below a power of two is half as long, except at the
least one, where the spacing cannot shrink. -/
def interval (F : Format) (units : Nat) : Interval :=
  let step := 1 <<< F.shift units
  let narrow : Bool := 1 < step && units == step <<< (F.precision - 1)
  { low := 4 * units - (if narrow then step else 2 * step)
    high := 4 * units + 2 * step
    closed := units / step % 2 == 0 }

/-- The nearer of a quotient's two neighbours. -/
def nearer (tie : Tie) (num den : Nat) : Nat :=
  let floor := num / den
  let rest := num % den
  if 2 * rest < den then floor
  else if den < 2 * rest then floor + 1
  else match tie with
    | .toEven => floor + floor % 2
    | .up => floor + 1

/-- The point of the grid `10 ^ exponent` that rounds to a magnitude, the nearer one if both its
neighbours do. -/
def onGrid? (F : Format) (tie : Tie) (units : Nat) (exponent : Int) : Option Nat :=
  let spacing := 4 * F.unitsPerOne * Nat.pow 10 exponent.toNat
  let scale := Nat.pow 10 (-exponent).toNat
  let value := 4 * units * scale
  let floor := value / spacing
  let hits (point : Nat) : Bool := (F.interval units).contains (point * spacing) scale
  if hits floor then some (if hits (floor + 1) then nearer tie value spacing else floor)
  else if hits (floor + 1) then some (floor + 1)
  else none

/-- The search from the grid `10 ^ (index - places)` down to the one that holds every number of
units exactly. -/
def shortestFrom (F : Format) (tie : Tie) (units : Nat) : Nat → Decimal
  | 0 => ⟨units * Nat.pow 5 F.places, -F.places⟩
  | index + 1 =>
    let exponent : Int := (index + 1 : Nat) - (F.places : Int)
    match F.onGrid? tie units exponent with
    | some significand => ⟨significand, exponent⟩
    | none => shortestFrom F tie units index

/-- The shortest decimal that rounds to a magnitude, starting from a power of ten above it. -/
def shortest (F : Format) (tie : Tie) (units : Nat) : Decimal :=
  F.shortestFrom tie units (F.places + digitCount (units / F.unitsPerOne))

end Format

end RateGovernor
