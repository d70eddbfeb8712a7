/-!
# Decimal numerals

A numeral is a number as it is spelled: a sign, a whole part, the digits after the point and perhaps
a power of ten. Leading zeros of the whole part cannot be spelled, and an empty fraction is spelled
without a point, so two numerals with one text are equal.
-/

namespace RateGovernor

abbrev Digit := Fin 10

def Digit.ofNat (n : Nat) : Digit := ⟨n % 10, Nat.mod_lt n (by decide)⟩

/-- A number as it is spelled. -/
structure Numeral where
  negative : Bool
  whole : Nat
  fraction : List Digit
  exponent : Option Int
  deriving DecidableEq, Repr

/-- The last digits of a number, in reading order, filled up with zeros in front. -/
def lastDigits : Nat → Nat → List Digit
  | 0, _ => []
  | places + 1, n => lastDigits places (n / 10) ++ [Digit.ofNat n]

/-- An integer in decimal after its sign, which is a plus unless it is negative. -/
def signedText (n : Int) : List Char :=
  (if n < 0 then '-' else '+') :: Nat.toDigits 10 n.natAbs

namespace Numeral

def ofInt (n : Int) : Numeral := ⟨n < 0, n.natAbs, [], none⟩

/-- The numeral of `significand / 10 ^ places`, with that many digits after the point. -/
def fixed (negative : Bool) (significand places : Nat) : Numeral :=
  ⟨negative, significand / Nat.pow 10 places, lastDigits places significand, none⟩

/-- The text of a numeral; a power of ten follows the letter e and always has a sign. -/
def text (n : Numeral) : List Char :=
  (if n.negative then ['-'] else []) ++ Nat.toDigits 10 n.whole ++
    (if n.fraction.isEmpty then [] else '.' :: n.fraction.map fun d => Nat.digitChar d.val) ++
    (match n.exponent with
      | none => []
      | some e => 'e' :: signedText e)

end Numeral

end RateGovernor
