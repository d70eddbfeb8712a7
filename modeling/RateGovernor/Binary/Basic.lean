import RateGovernor.Binary.Format

/-!
# Binary floating-point numbers

A number of a format is a NaN, a signed infinity, or a sign and a representable number of units;
zero keeps its sign. Each operation takes the exact result once to the nearest number of the
format, and a result at or beyond the limit is infinite. Comparison goes through `rank`, an integer
view under which only a NaN has no place and the two zeros share one.
-/

namespace RateGovernor

/-- A floating-point number of the given format. There is one NaN. -/
inductive Binary (F : Format) where
  | nan
  | infinite (negative : Bool)
  | finite (negative : Bool) (units : Nat) (representable : F.Representable units)
  deriving DecidableEq

abbrev Single := Binary .single

abbrev Double := Binary .double

def signed (negative : Bool) (units : Nat) : Int :=
  if negative then -units else units

namespace Binary

variable {F G : Format}

def zero (negative : Bool) : Binary F := .finite negative 0 F.representable_zero

instance : Inhabited (Binary F) := ⟨zero false⟩

/-- The number nearest to a signed quotient of units, infinite at or beyond the limit. -/
def round (negative : Bool) (num den : Nat) : Binary F :=
  if h : F.nearest num den < F.limit then
    .finite negative (F.nearest num den) (F.representable_nearest h)
  else .infinite negative

def ofInt (n : Int) : Binary F := round (n < 0) (n.natAbs * F.unitsPerOne) 1

def ofNat (n : Nat) : Binary F := round false (n * F.unitsPerOne) 1

instance (n : Nat) : OfNat (Binary F) n := ⟨ofNat n⟩

/-- The number of another format that is nearest to this one. -/
def convert : Binary F → Binary G
  | .nan => .nan
  | .infinite negative => .infinite negative
  | .finite negative units _ => round negative (units * G.unitsPerOne) F.unitsPerOne

/-! ### Arithmetic -/

protected def neg : Binary F → Binary F
  | .nan => .nan
  | .infinite negative => .infinite !negative
  | .finite negative units h => .finite (!negative) units h

/-- An exact sum of zero is negative only if both numbers are. -/
protected def add : Binary F → Binary F → Binary F
  | .nan, _ => .nan
  | _, .nan => .nan
  | .infinite a, .infinite b => if a = b then .infinite a else .nan
  | .infinite a, .finite .. => .infinite a
  | .finite .., .infinite b => .infinite b
  | .finite a j _, .finite b k _ =>
    let sum := signed a j + signed b k
    if sum = 0 then zero (a && b) else round (sum < 0) sum.natAbs 1

/-- Zero times infinity is a NaN; else the signs multiply. -/
protected def mul : Binary F → Binary F → Binary F
  | .nan, _ => .nan
  | _, .nan => .nan
  | .infinite a, .infinite b => .infinite (a != b)
  | .infinite a, .finite b k _ => if k = 0 then .nan else .infinite (a != b)
  | .finite a j _, .infinite b => if j = 0 then .nan else .infinite (a != b)
  | .finite a j _, .finite b k _ => round (a != b) (j * k) F.unitsPerOne

/-- Zero over zero and infinity over infinity are NaNs; anything else over zero is infinite. -/
protected def div : Binary F → Binary F → Binary F
  | .nan, _ => .nan
  | _, .nan => .nan
  | .infinite _, .infinite _ => .nan
  | .infinite a, .finite b _ _ => .infinite (a != b)
  | .finite a _ _, .infinite b => zero (a != b)
  | .finite a j _, .finite b k _ =>
    if k = 0 then (if j = 0 then .nan else .infinite (a != b))
    else round (a != b) (j * F.unitsPerOne) k

instance : Neg (Binary F) := ⟨Binary.neg⟩
instance : Add (Binary F) := ⟨Binary.add⟩
instance : Sub (Binary F) := ⟨fun x y => x + -y⟩
instance : Mul (Binary F) := ⟨Binary.mul⟩
instance : Div (Binary F) := ⟨Binary.div⟩

/-! ### Order -/

/-- The place of a number among the integers: its units, and the limit for infinity. -/
def rank : Binary F → Option Int
  | .nan => none
  | .infinite negative => some (signed negative F.limit)
  | .finite negative units _ => some (signed negative units)

/-- A relation between ranks, which no NaN has. -/
def Ranked (r : Int → Int → Prop) (x y : Binary F) : Prop :=
  match x.rank, y.rank with
  | some a, some b => r a b
  | _, _ => False

instance (r : Int → Int → Prop) [∀ a b, Decidable (r a b)] (x y : Binary F) :
    Decidable (Ranked r x y) := by
  unfold Ranked
  split <;> infer_instance

instance : LT (Binary F) := ⟨Ranked (· < ·)⟩
instance : LE (Binary F) := ⟨Ranked (· ≤ ·)⟩

instance (x y : Binary F) : Decidable (x < y) := inferInstanceAs (Decidable (Ranked (· < ·) x y))
instance (x y : Binary F) : Decidable (x ≤ y) := inferInstanceAs (Decidable (Ranked (· ≤ ·) x y))

def isZero (x : Binary F) : Bool := x.rank == some 0

def isFinite : Binary F → Bool
  | .finite .. => true
  | _ => false

/-- The number itself if it is above zero, and else zero, also for a NaN. -/
def positivePart (x : Binary F) : Binary F := if 0 < x then x else 0

/-- The whole part, held between zero and the given bound. A minimum with the bound passes over a
NaN. -/
def truncate (bound : Nat) : Binary F → Nat
  | .nan => bound
  | .infinite negative => if negative then 0 else bound
  | .finite negative units _ => if negative then 0 else min (units / F.unitsPerOne) bound

end Binary

end RateGovernor
