import Mathlib
import RateGovernor.Proofs.Binary.Order

/-!
# Double precision

Double precision holds the naturals of up to 53 bits and the powers of two up to `2 ^ 971`, and a
result that is not tiny is off by at most one part in `2 ^ 53`. A result of at least one unit does
not vanish, so the quotient of two words, each rounded before, is zero only if the first of them is,
and it is at most one if that is the smaller one.
-/

namespace RateGovernor

namespace Format

theorem Holds.double_of_lt {n : ℕ} (hn : n < 2 ^ 53) : double.Holds n := by
  simpa using Holds.shiftLeft (F := double) (k := 0) hn (by decide)

theorem Holds.double_two_pow {k : ℕ} (hk : k ≤ 971) : double.Holds (2 ^ k) := by
  have h := Holds.shiftLeft (F := double) (n := 1) (k := k) (by decide)
    (by simp only [double]; omega)
  rwa [Nat.one_mul] at h

end Format

namespace Binary

variable {F : Format} {x : Binary F} {q : ℚ} {a b : ℕ}

private theorem unitsPerOne_double : ((Format.double).unitsPerOne : ℚ) = 2 ^ 1074 := by
  rw [Format.unitsPerOne, Nat.one_shiftLeft, Nat.cast_pow, Nat.cast_ofNat]
  rfl

theorem IsRounded.pos (h : IsRounded q x) (hq : 1 ≤ q * F.unitsPerOne) : 0 < x.value := by
  have hunit := cast_unitsPerOne_pos F
  have hshort : (1 : ℤ).natAbs < 2 ^ F.precision := Nat.one_lt_two_pow F.precision_pos.ne'
  obtain ⟨z, hz, hvalue⟩ := exists_value_eq (F := F) hshort
  rw [Int.cast_one] at hvalue
  have hpos : 0 < z.value := by
    by_contra hneg
    have := mul_nonpos_of_nonpos_of_nonneg (not_lt.mp hneg) hunit.le
    linarith
  refine hpos.trans_le (h.value_le hz ?_)
  exact le_of_mul_le_mul_right (hvalue.trans_le hq) hunit

theorem exists_double_value {m w : ℕ} (hm : m < 2 ^ 53) (hw : w ≤ 1000) :
    ∃ z : Double, z.isFinite ∧ z.value = m * 2 ^ w / 2 ^ 151 := by
  have hrep : (Format.double).Representable (m <<< (w + 923)) :=
    ⟨m, w + 923, rfl, by rwa [Nat.one_shiftLeft], by simp only [Format.double]; omega⟩
  refine ⟨.finite false _ hrep, rfl, ?_⟩
  have hpower : (2 ^ 1074 : ℚ) = 2 ^ 151 * 2 ^ 923 := (pow_add 2 151 923)
  rw [value_finite, if_neg (by decide), unitsPerOne_double, Nat.shiftLeft_eq, hpower, Nat.cast_mul,
    Nat.cast_pow, Nat.cast_ofNat, pow_add, ← mul_assoc]
  exact mul_div_mul_right _ _ (by positivity)

theorem IsRounded.value_eq (h : IsRounded q x) {z : Binary F} (hz : z.isFinite) (hq : z.value = q) :
    x.value = q := by
  have hclose := h.closest z hz
  rw [hq, sub_self, abs_zero] at hclose
  exact sub_eq_zero.mp (abs_nonpos_iff.mp hclose)

theorem IsRounded.double_error {x : Double} (h : IsRounded q x) (hq : 1 / 2 ^ 200 ≤ q) :
    |x.value - q| ≤ q / 2 ^ 53 := by
  have hnonneg : 0 ≤ q := le_trans (by positivity) hq
  have herror := h.error
  rw [abs_of_nonneg hnonneg, unitsPerOne_double] at herror
  apply herror
  have hunits : (2 ^ 53 : ℚ) ≤ 1 / 2 ^ 200 * 2 ^ 1074 := by
    rw [one_div_mul_eq_div, le_div_iff₀ (by positivity), ← pow_add]
    exact pow_le_pow_right₀ one_le_two (by decide)
  exact hunits.trans (mul_le_mul_of_nonneg_right hq (by positivity))

private theorem IsRounded.value_eq_zero (h : IsRounded 0 x) : x.value = 0 :=
  le_antisymm (h.nonpos le_rfl) (h.nonneg le_rfl)

theorem ratio_bounds (hab : a ≤ b) (hb : 0 < b) (hword : b ≤ 2 ^ 64) :
    (ofNat a / ofNat b : Double).Within 1 ∧
      ((ofNat a / ofNat b : Double).isZero = true ↔ a = 0) := by
  have hholds : (Format.double).Holds (2 ^ 64) := .double_two_pow (by decide)
  have hholds' : (Format.double).Holds 1 := .double_of_lt (by decide)
  have hx := within_ofNat hholds (hab.trans hword)
  have hy := within_ofNat hholds hword
  have hpos : 0 < (ofNat b : Double).value :=
    one_pos.trans_le (one_le_value_ofNat hb hholds hword hholds')
  have hnonneg : 0 ≤ (ofNat a : Double).value / (ofNat b : Double).value :=
    div_nonneg hx.nonneg hpos.le
  have hproper : (ofNat a : Double).value / (ofNat b : Double).value ≤ (1 : ℕ) := by
    rw [Nat.cast_one, div_le_one hpos]
    exact (le_iff_value hx.isFinite hy.isFinite).mp (ofNat_le_ofNat_of_le hab)
  have h := isRounded_div hx.isFinite hy.isFinite hpos.ne' hholds'
    (by rwa [abs_of_nonneg hnonneg])
  refine ⟨h.within hholds' hnonneg hproper, ?_⟩
  rw [isZero_iff_value h.isFinite]
  constructor
  · intro hzero
    by_contra ha
    have hone := one_le_value_ofNat (Nat.pos_of_ne_zero ha) hholds (hab.trans hword) hholds'
    have hle : (ofNat b : Double).value ≤ 2 ^ 64 := by exact_mod_cast hy.le
    have hleast : (1 : ℚ) / 2 ^ 64 ≤ (ofNat a : Double).value / (ofNat b : Double).value :=
      div_le_div₀ hx.nonneg hone hpos hle
    have hunits : (1 : ℚ) ≤ 1 / 2 ^ 64 * 2 ^ 1074 := by
      rw [one_div_mul_eq_div, le_div_iff₀ (by positivity), one_mul]
      exact pow_le_pow_right₀ one_le_two (by decide)
    refine (h.pos ?_).ne' hzero
    rw [unitsPerOne_double]
    exact hunits.trans (mul_le_mul_of_nonneg_right hleast (by positivity))
  · rintro rfl
    have hzero : (ofNat 0 : Double).value = 0 := value_zero
    rw [hzero, zero_div] at h
    exact h.value_eq_zero

end Binary

end RateGovernor
