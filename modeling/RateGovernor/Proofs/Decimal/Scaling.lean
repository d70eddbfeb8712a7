import Mathlib
import RateGovernor.Decimal.Reading
import RateGovernor.Proofs.Binary.Double

/-!
# Scaling by powers of ten

A significand of 53 bits is scaled by a power of ten that is a double itself, exactly so up to
`10 ^ 22`. The result is off by at most one part in `2 ^ 51`, and with an exact power it is rounded
only once.
-/

namespace RateGovernor

open Binary

variable {k m : ℕ}

private theorem isRounded_powerOfTen (hk : k ≤ 45) : IsRounded (10 ^ k) (powerOfTen k) := by
  have hbound : 10 ^ k ≤ 2 ^ 150 :=
    (Nat.pow_le_pow_right (by decide) hk).trans (by norm_num)
  have h := isRounded_ofNat (F := .double) (.double_two_pow (by decide)) hbound
  push_cast at h
  exact h

private theorem value_powerOfTen (hk : k ≤ 22) : (powerOfTen k).value = 10 ^ k := by
  have hshort : 5 ^ k < 2 ^ 53 :=
    (Nat.pow_le_pow_right (by decide) hk).trans_lt (by norm_num)
  have hholds := Format.Holds.shiftLeft (F := .double) (k := k) hshort
    (by simp only [Format.double]; omega)
  rw [← Nat.mul_pow] at hholds
  have h := value_ofNat hholds
  push_cast at h
  exact h

theorem powerOfTen_bounds (hk : k ≤ 45) :
    10 ^ k * (1 - 1 / 2 ^ 53) ≤ (powerOfTen k).value ∧
      (powerOfTen k).value ≤ 10 ^ k * (1 + 1 / 2 ^ 53) := by
  have hone : (1 : ℚ) ≤ 10 ^ k := one_le_pow₀ (by norm_num)
  have herror := (isRounded_powerOfTen hk).double_error (le_trans (by norm_num) hone)
  rw [abs_le] at herror
  constructor <;> linarith

private theorem abs_sub_le_of_errors {x y z : ℚ} (herror : |x - z| ≤ z / 2 ^ 53)
    (hle : z * (1 - 1 / 2 ^ 52) ≤ y) (hge : y ≤ z * (1 + 1 / 2 ^ 52)) :
    |x - y| ≤ y / 2 ^ 51 := by
  rw [abs_le] at herror ⊢
  constructor <;> linarith

section Significand

variable (hk : k ≤ 45) (hm : m < 2 ^ 53)
include hk hm

private theorem isRounded_ofNat_mul :
    IsRounded (m * (powerOfTen k).value) (.ofNat m * powerOfTen k : Double) := by
  have hvalue := value_ofNat (Format.Holds.double_of_lt hm)
  have hpower : (powerOfTen k).value ≤ 2 ^ 151 := by
    have hbound : (10 ^ k : ℚ) ≤ 10 ^ 45 := pow_le_pow_right₀ (by norm_num) hk
    have hupper := (powerOfTen_bounds hk).2
    linarith
  have hnonneg := (isRounded_powerOfTen hk).nonneg (by positivity)
  have hm' : (m : ℚ) ≤ 2 ^ 53 := by exact_mod_cast hm.le
  have h := isRounded_mul (isFinite_ofNat (Format.Holds.double_of_lt hm))
    (isRounded_powerOfTen hk).isFinite (m := 2 ^ 204) (.double_two_pow (by decide)) (by
      rw [hvalue, abs_of_nonneg (mul_nonneg m.cast_nonneg hnonneg)]
      push_cast
      calc (m : ℚ) * (powerOfTen k).value ≤ 2 ^ 53 * 2 ^ 151 :=
            mul_le_mul hm' hpower hnonneg (by norm_num)
        _ = 2 ^ 204 := by norm_num)
  rwa [hvalue] at h

private theorem isRounded_ofNat_div :
    IsRounded (m / (powerOfTen k).value) (.ofNat m / powerOfTen k : Double) := by
  have hvalue := value_ofNat (Format.Holds.double_of_lt hm)
  have hpower : 1 / 2 ≤ (powerOfTen k).value := by
    have hone : (1 : ℚ) ≤ 10 ^ k := one_le_pow₀ (by norm_num)
    have hlower := (powerOfTen_bounds hk).1
    linarith
  have hpos : 0 < (powerOfTen k).value := by linarith
  have hm' : (m : ℚ) ≤ 2 ^ 53 := by exact_mod_cast hm.le
  have h := isRounded_div (isFinite_ofNat (Format.Holds.double_of_lt hm))
    (isRounded_powerOfTen hk).isFinite hpos.ne' (m := 2 ^ 54) (.double_two_pow (by decide)) (by
      rw [hvalue, abs_of_nonneg (div_nonneg m.cast_nonneg hpos.le), div_le_iff₀ hpos]
      push_cast
      linarith)
  rwa [hvalue] at h

private theorem error_ofNat_mul (hpos : 0 < m) :
    |(.ofNat m * powerOfTen k : Double).value - m * 10 ^ k| ≤ m * 10 ^ k / 2 ^ 51 := by
  obtain ⟨hlower, hupper⟩ := powerOfTen_bounds hk
  have hone : (1 : ℚ) ≤ m := by exact_mod_cast hpos
  have hlong : (1 : ℚ) ≤ m * 10 ^ k :=
    one_le_mul_of_one_le_of_one_le hone (one_le_pow₀ (by norm_num))
  have hbelow := mul_le_mul_of_nonneg_left hlower (m.cast_nonneg : (0 : ℚ) ≤ m)
  have habove := mul_le_mul_of_nonneg_left hupper (m.cast_nonneg : (0 : ℚ) ≤ m)
  refine abs_sub_le_of_errors ((isRounded_ofNat_mul hk hm).double_error ?_) ?_ ?_ <;> linarith

private theorem error_ofNat_div (hpos : 0 < m) :
    |(.ofNat m / powerOfTen k : Double).value - m / 10 ^ k| ≤ m / 10 ^ k / 2 ^ 51 := by
  obtain ⟨hlower, hupper⟩ := powerOfTen_bounds hk
  have hten : (0 : ℚ) < 10 ^ k := by positivity
  have hpower : 0 < (powerOfTen k).value := by linarith
  have hquotient : m / (powerOfTen k).value * (powerOfTen k).value = m :=
    div_mul_cancel₀ _ hpower.ne'
  have hnonneg := div_nonneg (m.cast_nonneg : (0 : ℚ) ≤ m) hpower.le
  have hfar : (1 : ℚ) / 2 ^ 200 ≤ m / (powerOfTen k).value := by
    have hbound : (10 ^ k : ℚ) ≤ 10 ^ 45 := pow_le_pow_right₀ (by norm_num) hk
    exact div_le_div₀ m.cast_nonneg (by exact_mod_cast hpos) hpower (by linarith)
  have hbelow := mul_le_mul_of_nonneg_left hlower hnonneg
  have habove := mul_le_mul_of_nonneg_left hupper hnonneg
  refine abs_sub_le_of_errors ((isRounded_ofNat_div hk hm).double_error hfar) ?_ ?_
  · rw [le_div_iff₀ hten]
    linarith
  · rw [div_le_iff₀ hten]
    linarith

end Significand

private theorem scale_natCast (hk : k ≤ 45) {x : Double} (h : (x * powerOfTen k).isFinite = true) :
    scale x k = some (x * powerOfTen k) := by
  have hsize : k ≤ maxPowerOfTen := hk.trans (by decide)
  simp only [scale, Int.natAbs_natCast, Int.natCast_nonneg, if_true, hsize, h]

private theorem scale_neg_natCast (hpos : 0 < k) (hk : k ≤ 45) (x : Double) :
    scale x (-k) = some (x / powerOfTen k) := by
  have hsize : k ≤ maxPowerOfTen := hk.trans (by decide)
  have hneg : ¬ (0 : ℤ) ≤ -k := by omega
  simp only [scale, Int.natAbs_neg, Int.natAbs_natCast, if_neg hneg, if_pos hsize]

/-- What scaling a significand gives: a number within one part in `2 ^ 51`, and with an exact power
of ten the one nearest to the exact result. -/
theorem exists_scale {exponent : ℤ} (hpos : 0 < m) (hm : m < 2 ^ 53) (hlow : -45 ≤ exponent)
    (hhigh : exponent ≤ 45) :
    ∃ x, scale (.ofNat m) exponent = some x ∧ x.isFinite ∧
      |x.value - m * 10 ^ exponent| ≤ m * 10 ^ exponent / 2 ^ 51 ∧
      (-22 ≤ exponent → exponent ≤ 22 → IsRounded (m * 10 ^ exponent) x) := by
  rcases lt_or_ge exponent 0 with hneg | hnonneg
  · obtain ⟨k, rfl⟩ : ∃ k : ℕ, exponent = -k := ⟨exponent.natAbs, by omega⟩
    have hk : k ≤ 45 := by omega
    have h := isRounded_ofNat_div hk hm
    rw [zpow_neg, zpow_natCast, ← div_eq_mul_inv]
    refine ⟨_, scale_neg_natCast (by omega) hk _, h.isFinite, error_ofNat_div hk hm hpos, ?_⟩
    intro hexact _
    rwa [value_powerOfTen (by omega)] at h
  · obtain ⟨k, rfl⟩ := Int.eq_ofNat_of_zero_le hnonneg
    have hk : k ≤ 45 := by omega
    have h := isRounded_ofNat_mul hk hm
    rw [zpow_natCast]
    refine ⟨_, scale_natCast hk h.isFinite, h.isFinite, error_ofNat_mul hk hm hpos, ?_⟩
    intro _ hexact
    rwa [value_powerOfTen (by omega)] at h

end RateGovernor
