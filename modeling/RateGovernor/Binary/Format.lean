/-!
# Binary floating-point formats

A format fixes the smallest positive number, `2 ^ -places`, as its unit. Every finite magnitude is
then a natural number of units with at most `precision` significant bits, so exact values are
compared and combined as naturals, and rounding happens in one place: `Format.nearest` takes an
exact quotient of units to the nearest magnitude, a half to the even one. The main lemma,
`Format.representable_nearest`, says that what comes out has few enough bits whenever it is below
the overflow limit.
-/

namespace RateGovernor

/-- A binary format: significant bits, the largest shift of a significand, and the number of binary
places after the point of the unit. -/
structure Format where
  precision : Nat
  maxShift : Nat
  places : Nat
  precision_pos : 0 < precision

namespace Format

def single : Format := ⟨24, 253, 149, by decide⟩

def double : Format := ⟨53, 2045, 1074, by decide⟩

/-- A number of units that the format holds: a short significand, shifted within range. -/
def Representable (F : Format) (units : Nat) : Prop :=
  ∃ significand shift, units = significand <<< shift ∧
    significand < 1 <<< F.precision ∧ shift ≤ F.maxShift

/-- The least number of units beyond every finite magnitude. -/
def limit (F : Format) : Nat := 1 <<< (F.precision + F.maxShift)

/-- How many low bits a magnitude has to give up to fit the precision. -/
def shift (F : Format) (units : Nat) : Nat := units.log2 + 1 - F.precision

def unitsPerOne (F : Format) : Nat := 1 <<< F.places

end Format

/-- A quotient rounded to the nearest natural number, a half to the even one. -/
def roundHalfEven (num den : Nat) : Nat :=
  let floor := num / den
  let rest := num % den
  if 2 * rest < den then floor
  else if den < 2 * rest then floor + 1
  else floor + floor % 2

theorem roundHalfEven_le (num den : Nat) : roundHalfEven num den ≤ num / den + 1 := by
  simp only [roundHalfEven]
  split
  · omega
  · split <;> omega

theorem roundHalfEven_one (num : Nat) : roundHalfEven num 1 = num := by
  simp [roundHalfEven, Nat.mod_one]

namespace Format

/-- The quotient of two numbers of units, rounded to the nearest significand of the format, a half
to the even one. The result may reach the limit. -/
def nearest (F : Format) (num den : Nat) : Nat :=
  let s := F.shift (num / den)
  roundHalfEven num (den <<< s) <<< s

theorem representable_zero (F : Format) : F.Representable 0 :=
  ⟨0, 0, rfl, by rw [Nat.one_shiftLeft]; exact Nat.two_pow_pos _, Nat.zero_le _⟩

theorem representable_of_lt_limit (F : Format) {significand shift : Nat}
    (hle : significand ≤ 1 <<< F.precision) (hlt : significand <<< shift < F.limit) :
    F.Representable (significand <<< shift) := by
  have hpos := F.precision_pos
  simp only [Representable, limit, Nat.shiftLeft_eq, Nat.one_mul] at hle hlt ⊢
  by_cases hs : shift ≤ F.maxShift
  · by_cases hm : significand < 2 ^ F.precision
    · exact ⟨significand, shift, rfl, hm, hs⟩
    · have hm : significand = 2 ^ F.precision := Nat.le_antisymm hle (Nat.le_of_not_lt hm)
      subst hm
      rw [← Nat.pow_add] at hlt ⊢
      have := (Nat.pow_lt_pow_iff_right (by decide)).1 hlt
      refine ⟨2 ^ (F.precision - 1), shift + 1, ?_, ?_, by omega⟩
      · rw [← Nat.pow_add]
        congr 1
        omega
      · exact Nat.pow_lt_pow_right (by decide) (by omega)
  · have hsplit : significand * 2 ^ shift =
        significand * 2 ^ (shift - F.maxShift) * 2 ^ F.maxShift := by
      rw [Nat.mul_assoc, ← Nat.pow_add]
      congr 2
      omega
    rw [hsplit, Nat.pow_add] at hlt
    exact ⟨_, F.maxShift, hsplit, Nat.lt_of_mul_lt_mul_right hlt, Nat.le_refl _⟩

private theorem shiftRight_shift_lt (F : Format) (units : Nat) :
    units >>> F.shift units < 1 <<< F.precision := by
  rw [Nat.shiftRight_eq_div_pow, Nat.shiftLeft_eq, Nat.one_mul,
    Nat.div_lt_iff_lt_mul (Nat.two_pow_pos _), ← Nat.pow_add]
  exact Nat.lt_of_lt_of_le Nat.lt_log2_self
    (Nat.pow_le_pow_right (by decide) (by simp only [shift]; omega))

theorem representable_nearest (F : Format) {num den : Nat} (h : F.nearest num den < F.limit) :
    F.Representable (F.nearest num den) := by
  simp only [nearest] at h ⊢
  refine F.representable_of_lt_limit ?_ h
  refine Nat.le_trans (roundHalfEven_le _ _) (Nat.succ_le_of_lt ?_)
  rw [Nat.shiftLeft_eq, ← Nat.div_div_eq_div_mul, ← Nat.shiftRight_eq_div_pow]
  exact F.shiftRight_shift_lt _

end Format

end RateGovernor
