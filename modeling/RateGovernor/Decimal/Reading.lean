import RateGovernor.Binary.Basic
import RateGovernor.Decimal.Numeral

/-!
# Numerals as numbers

An integer within 64 bits is taken as it is. Any other numeral is read in double precision: of its
digits as many as fit 64 bits make up the significand, which is then multiplied or divided by one
power of ten, or by two if the scale is beyond the largest power that a double holds. Both steps
round, so the result need not be the double nearest to the numeral.
-/

namespace RateGovernor

/-- The greatest power of ten that is a finite double. -/
def maxPowerOfTen : Nat := 308

def powerOfTen (exponent : Nat) : Double := .ofNat (Nat.pow 10 exponent)

/-- The longest run of leading digits of a number that fits 64 bits, and how many digits it leaves
out. -/
def leadingDigits (n : Nat) : Nat × Nat :=
  if n < UInt64.size then (n, 0)
  else
    let shorter := leadingDigits (n / 10)
    (shorter.1, shorter.2 + 1)
termination_by n
decreasing_by
  simp only [UInt64.size] at *
  omega

/-- A significand and its power of ten after appending digits of a fraction, up to the first one
that no longer fits 64 bits. -/
def appendFraction (significand : Nat) (exponent : Int) : List Digit → Nat × Int
  | [] => (significand, exponent)
  | d :: rest =>
    if significand * 10 + d.val < UInt64.size then
      appendFraction (significand * 10 + d.val) (exponent - 1) rest
    else (significand, exponent)

/-- Scale by a power of ten; fails if the result is beyond every finite double. -/
def scale (x : Double) (exponent : Int) : Option Double :=
  let size := exponent.natAbs
  if 0 ≤ exponent then
    if size ≤ maxPowerOfTen then
      let scaled := x * powerOfTen size
      if scaled.isFinite then some scaled else none
    else if x.isZero then some x else none
  else if size ≤ maxPowerOfTen then some (x / powerOfTen size)
  else if size ≤ 2 * maxPowerOfTen then
    some (x / powerOfTen maxPowerOfTen / powerOfTen (size - maxPowerOfTen))
  else some 0

namespace Numeral

/-- Whether a numeral is spelled as an integer. -/
def isWhole (n : Numeral) : Bool := n.fraction.isEmpty && n.exponent.isNone

/-- The integer that a numeral spells. A zero with a minus sign is no integer. -/
def integer? (n : Numeral) : Option Int :=
  if n.isWhole ∧ ¬(n.negative ∧ n.whole = 0) then some (signed n.negative n.whole) else none

def toDouble? (n : Numeral) : Option Double := do
  let (significand, dropped) := leadingDigits n.whole
  let (significand, exponent) := appendFraction significand dropped n.fraction
  let magnitude ← scale (.ofNat significand) (exponent + n.exponent.getD 0)
  return if n.negative then -magnitude else magnitude

/-- A numeral in single precision: an integer of 64 bits in one step, any other by way of double
precision. -/
def toSingle? (n : Numeral) : Option Single :=
  match n.integer? with
  | some i =>
    if Int64.minValue.toInt ≤ i ∧ i < UInt64.size then some (.ofInt i)
    else n.toDouble?.map .convert
  | none => n.toDouble?.map .convert

end Numeral

end RateGovernor
