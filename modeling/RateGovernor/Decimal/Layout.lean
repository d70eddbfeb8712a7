import RateGovernor.Decimal.Numeral
import RateGovernor.Decimal.Shortest

/-!
# Where the point goes

A layout turns the shortest decimal of a number into a numeral. The position of the point is counted
from the first digit: a number below `10 ^ position` and not below a tenth of that has it there.
-/

namespace RateGovernor

/-- The decisions of an output format on finite numbers. -/
structure Layout where
  /-- Which of two equally near decimals is written. -/
  tie : Tie
  /-- The point positions that are written without a power of ten. -/
  positional : Int → Bool
  /-- Whether a whole number gets a zero after the point. -/
  pointAlways : Bool

namespace Layout

/-- Digits without a power of ten; a decimal with a negative exponent has that many digits after
the point. -/
def plain (layout : Layout) (negative : Bool) (d : Decimal) : Numeral :=
  if d.exponent < 0 then .fixed negative d.significand d.exponent.natAbs
  else ⟨negative, d.significand * Nat.pow 10 d.exponent.toNat,
    if layout.pointAlways then [Digit.ofNat 0] else [], none⟩

/-- One digit before the point, the others after it, and a power of ten. -/
def scientific (negative : Bool) (d : Decimal) : Numeral :=
  let after := digitCount d.significand - 1
  { Numeral.fixed negative d.significand after with exponent := some (d.exponent + after) }

def ofDecimal (layout : Layout) (negative : Bool) (d : Decimal) : Numeral :=
  if layout.positional (digitCount d.significand + d.exponent) then layout.plain negative d
  else scientific negative d

/-- The numeral of a finite number; NaNs and infinities have none. -/
def numeral? {F : Format} (layout : Layout) : Binary F → Option Numeral
  | .nan => none
  | .infinite _ => none
  | .finite negative units _ => some (layout.ofDecimal negative (F.shortest layout.tie units))

end Layout

/-- Message text: every digit is written out, a whole number has no point, and of two equally near
decimals the larger is taken. -/
def messageLayout : Layout := ⟨.up, fun _ => true, false⟩

def Binary.messageText {F : Format} (x : Binary F) : String :=
  match x with
  | .nan => "NaN"
  | .infinite negative => if negative then "-inf" else "inf"
  | .finite negative units _ =>
    .ofList (messageLayout.ofDecimal negative (F.shortest messageLayout.tie units)).text

example : (2997 / 100 : Single).messageText = "29.97" := by decide +kernel
example : (65 / 512 : Single).messageText = "0.12695313" := by decide +kernel
example : (-100000000000000000000 : Single).messageText = "-100000000000000000000" := by
  decide +kernel

end RateGovernor
