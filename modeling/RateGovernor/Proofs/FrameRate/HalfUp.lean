import Mathlib
import RateGovernor.Proofs.Binary.Order
import RateGovernor.Proofs.FrameRate.Cadence

/-!
# Whole frame rates

A rate in whole frames is the whole part of a sum with a half, and the sum is rounded before its
part is taken. The rounding shows only where it takes the sum up to a whole number. Below one that
happens to the last number before a half. From one on the half is kept, or lost again, unless the
rate is a whole number of full length: the sum is then a tie, and goes up if the number is odd.
-/

namespace RateGovernor

open Binary

/-- Magnitudes whose sum with a half is rounded up to a whole number. -/
def UnitsTipOver (units : ℕ) : Prop :=
  units = 2 ^ 148 - 2 ^ 124 ∨ ∃ n, Odd n ∧ 2 ^ 23 ≤ n ∧ n < 2 ^ 24 ∧ units = n * 2 ^ 149

section Units

variable {units n : ℕ}

private theorem nearest_add_half_of_long (h : (Format.single).Representable units)
    (hlong : 150 ≤ (Format.single).shift (units + 2 ^ 148)) :
    (Format.single).nearest (units + 2 ^ 148) 1 / 2 ^ 149 = (units + 2 ^ 148) / 2 ^ 149 := by
  have hsum : 2 ^ (150 + 24) ≤ 2 * (units + 2 ^ 148) :=
    (Nat.pow_le_pow_right (by decide) (Nat.add_le_add_right hlong 24)).trans
      ((Format.single).two_pow_le_of_shift_ne_zero _ (by omega))
  have hwhole : 2 ^ 149 ∣ units := by
    apply h.two_pow_dvd
    rw [precision_single]
    omega
  have heven : 2 ^ 150 ∣ units := by
    apply h.two_pow_dvd
    rw [precision_single]
    omega
  have hrounded : 2 ^ 150 ∣ (Format.single).nearest (units + 2 ^ 148) 1 := by
    rw [Format.nearest_one]
    exact (Nat.pow_dvd_pow 2 hlong).mul_left _
  obtain ⟨hlow, hhigh⟩ := (Format.single).nearest_add_bounds h (2 ^ 148)
  omega

private theorem eq_of_tips_over_short {shift : ℕ} (h : (Format.single).Representable units)
    (hshort : shift ≤ 125) (hbound : units + 2 ^ 148 < 2 ^ (shift + 24))
    (hlt : units + 2 ^ 148 < n * 2 ^ 149)
    (hle : 2 * (n * 2 ^ 149) ≤ 2 * (units + 2 ^ 148) + 2 ^ shift) :
    units = 2 ^ 148 - 2 ^ 124 := by
  have hplace : 2 ^ shift ≤ 2 ^ 125 := Nat.pow_le_pow_right (by decide) hshort
  have hlast : shift = 125 := by
    by_contra hne
    have hpower : 2 ^ (shift + 24) ≤ 2 ^ 148 := Nat.pow_le_pow_right (by decide) (by omega)
    omega
  subst hlast
  have hdvd : 2 ^ 124 ∣ units := by
    apply h.two_pow_dvd
    rw [precision_single]
    omega
  omega

private theorem eq_of_tips_over_long {shift : ℕ} (h : (Format.single).Representable units)
    (hlow : 126 ≤ shift) (hhigh : shift ≤ 149) (hbound : units + 2 ^ 148 < 2 ^ (shift + 24))
    (hlong : 2 ^ (shift + 24) ≤ 2 * (units + 2 ^ 148))
    (hup : roundHalfEven (units + 2 ^ 148) (2 ^ shift) = (units + 2 ^ 148) / 2 ^ shift + 1)
    (hlt : units + 2 ^ 148 < n * 2 ^ 149)
    (hle : 2 * (n * 2 ^ 149) ≤ 2 * (units + 2 ^ 148) + 2 ^ shift) :
    ∃ m, Odd m ∧ 2 ^ 23 ≤ m ∧ m < 2 ^ 24 ∧ units = m * 2 ^ 149 := by
  have hplace : 2 ^ shift ≤ 2 ^ 149 := Nat.pow_le_pow_right (by decide) hhigh
  -- The sum is no longer than the number, or it would just have passed a power of two.
  have hunits : 2 ^ (shift + 24) ≤ 2 * units := by
    by_contra hcarry
    have hwhole : 2 ^ 149 ∣ 2 ^ (shift + 23) := Nat.pow_dvd_pow 2 (by omega)
    rw [show shift + 24 = shift + 23 + 1 by omega, pow_succ] at hcarry hlong
    omega
  have hdvd : 2 ^ shift ∣ units := by
    apply h.two_pow_dvd
    rwa [precision_single]
  rcases hhigh.lt_or_eq with hfine | rfl
  · have hhalf : 2 ^ shift ∣ 2 ^ 148 := Nat.pow_dvd_pow 2 (by omega)
    have hrest : (units + 2 ^ 148) % 2 ^ shift = 0 := Nat.mod_eq_zero_of_dvd (hdvd.add hhalf)
    rw [roundHalfEven, hrest, if_pos (by simp)] at hup
    omega
  · obtain ⟨m, rfl⟩ := hdvd
    rw [roundHalfEven, if_neg (by omega), if_neg (by omega)] at hup
    refine ⟨m, ?_, by omega, by omega, Nat.mul_comm _ _⟩
    rw [Nat.odd_iff]
    omega

/-- The rounding of a sum with a half leaves its whole part alone, but for the magnitudes that tip
over. -/
private theorem nearest_add_half (h : (Format.single).Representable units)
    (hstays : ¬ UnitsTipOver units) :
    (Format.single).nearest (units + 2 ^ 148) 1 / 2 ^ 149 = (units + 2 ^ 148) / 2 ^ 149 := by
  rcases Nat.lt_or_ge 149 ((Format.single).shift (units + 2 ^ 148)) with hlong | hshort
  · exact nearest_add_half_of_long h hlong
  · by_contra hne
    rw [Format.nearest_one] at hne
    have hbound := (Format.single).lt_two_pow_shift (units + 2 ^ 148)
    have hlong := (Format.single).two_pow_le_of_shift_ne_zero (units + 2 ^ 148)
    rw [precision_single] at hbound hlong
    generalize (Format.single).shift (units + 2 ^ 148) = shift at hne hshort hbound hlong
    obtain ⟨hup, n, hlt, hle⟩ := exists_of_roundHalfEven_div_ne _ (Nat.two_pow_pos shift)
      (Nat.pow_dvd_pow 2 hshort) hne
    apply hstays
    rcases Nat.lt_or_ge 125 shift with hhigh | hlow
    · exact .inr (eq_of_tips_over_long h hhigh hshort hbound (hlong (by omega)) hup hlt hle)
    · exact .inl (eq_of_tips_over_short h hlow hbound hlt hle)

private theorem nearest_add_half_of_unitsTipOver (htips : UnitsTipOver units) :
    (Format.single).nearest (units + 2 ^ 148) 1 / 2 ^ 149 = (units + 2 ^ 148) / 2 ^ 149 + 1 := by
  obtain rfl | ⟨n, hodd, hlow, hhigh, rfl⟩ := htips
  · decide +kernel
  · have hsum : n * 2 ^ 149 + 2 ^ 148 = (2 * n + 1) * 2 ^ 148 := by omega
    rw [Nat.odd_iff] at hodd
    rw [hsum, (Format.single).nearest_half (by rw [precision_single]; omega) hhigh, hodd]
    omega

end Units

/-- Rates whose sum with a half is rounded up to a whole number: the last one below a half, and the
odd numbers of 24 bits. -/
def TipsOver (rate : Single) : Prop :=
  rate.value = 1 / 2 - 1 / 2 ^ 25 ∨ ∃ n : ℕ, Odd n ∧ 2 ^ 23 ≤ n ∧ n < 2 ^ 24 ∧ rate.value = n

/-- A number in whole units, a half rounded up, held at the greatest number of 32 bits. -/
def halfUp (q : ℚ) : ℕ := min ⌊q + 1 / 2⌋₊ (UInt32.size - 1)

/-- Whole frames are a rate with its half rounded up, or one more for exactly the rates that tip
over. -/
structure RoundsHalfUp (rate : Single) (frames : UInt32) : Prop where
  exact_iff : frames.toNat = halfUp rate.value ↔ ¬ TipsOver rate
  of_tipsOver : TipsOver rate → frames.toNat = halfUp rate.value + 1

section Rate

variable {units : ℕ}

private theorem representable_half : (Format.single).Representable (2 ^ 148) :=
  ⟨1, 148, by rw [Nat.one_shiftLeft], by decide, by decide⟩

private theorem half_eq_finite : (1 / 2 : Single) = finite false (2 ^ 148) representable_half := by
  decide +kernel

private theorem add_half (h : (Format.single).Representable units) :
    (finite false units h + 1 / 2 : Single) = round false (units + 2 ^ 148) 1 := by
  rw [half_eq_finite]
  exact finite_add_finite h representable_half (Nat.two_pow_pos 148)

private theorem halfUp_value (h : (Format.single).Representable units) :
    halfUp (finite false units h : Single).value =
      min ((units + 2 ^ 148) / 2 ^ 149) (UInt32.size - 1) := by
  have hsum : (units / 2 ^ 149 + 1 / 2 : ℚ) = (units + 2 ^ 148 : ℕ) / (2 ^ 149 : ℕ) := by
    push_cast
    ring
  rw [halfUp, value_finite_single, hsum, Nat.floor_div_eq_div]

private theorem tipsOver_iff (h : (Format.single).Representable units) :
    TipsOver (finite false units h) ↔ UnitsTipOver units := by
  have hone : (0 : ℚ) < 2 ^ 149 := by positivity
  rw [TipsOver, UnitsTipOver, value_finite_single]
  refine or_congr ?_ (exists_congr fun n => ?_)
  · rw [div_eq_iff hone.ne']
    constructor
    · intro heq
      have hunits : (units : ℚ) = (2 ^ 148 - 2 ^ 124 : ℕ) := by
        rw [heq]
        norm_num
      exact_mod_cast hunits
    · rintro rfl
      norm_num
  · rw [div_eq_iff hone.ne']
    norm_cast

namespace FrameRateEstimator

private theorem toNat_roundRate_finite (h : (Format.single).Representable units) :
    (roundRate (finite false units h)).toNat =
      min ((Format.single).nearest (units + 2 ^ 148) 1 / 2 ^ 149) (UInt32.size - 1) := by
  rw [toNat_roundRate, add_half, truncate_round _ (by decide)]
  rfl

private theorem roundsHalfUp_finite (h : (Format.single).Representable units) :
    RoundsHalfUp (finite false units h) (roundRate (finite false units h)) := by
  have hexact : ¬ TipsOver (finite false units h) →
      (roundRate (finite false units h)).toNat = halfUp (finite false units h).value := by
    intro hstays
    rw [tipsOver_iff] at hstays
    rw [toNat_roundRate_finite, halfUp_value, nearest_add_half h hstays]
  have htips : TipsOver (finite false units h) →
      (roundRate (finite false units h)).toNat = halfUp (finite false units h).value + 1 := by
    intro htips
    rw [tipsOver_iff] at htips
    have hsmall : units ≤ 2 ^ 173 := by
      obtain rfl | ⟨n, -, -, hn, rfl⟩ := htips <;> omega
    rw [toNat_roundRate_finite, halfUp_value, nearest_add_half_of_unitsTipOver htips, UInt32.size]
    omega
  refine ⟨⟨?_, hexact⟩, htips⟩
  intro heq h'
  have hmore := htips h'
  omega

private theorem roundsHalfUp_zero_true : RoundsHalfUp (zero true) (roundRate (zero true)) := by
  have hvalue : (zero true : Single).value = 0 := by simp [zero, value_finite]
  have hstays : ¬ TipsOver (zero true) := by
    rw [TipsOver, hvalue]
    rintro (hlast | ⟨n, -, hlow, -, hn⟩)
    · norm_num at hlast
    · have hzero : n = 0 := by exact_mod_cast hn.symm
      omega
  refine ⟨iff_of_true ?_ hstays, fun htips => absurd htips hstays⟩
  rw [hvalue, show roundRate (zero true) = 0 by decide +kernel]
  norm_num [halfUp]

/-- Every rate that is not negative is rounded to whole frames exactly, or tips over. -/
theorem roundsHalfUp_roundRate {rate : Single} (hrate : rate.isFinite) (hnonneg : 0 ≤ rate.value) :
    RoundsHalfUp rate (roundRate rate) := by
  obtain ⟨negative, units, h, rfl⟩ := exists_eq_finite hrate
  cases negative with
  | false => exact roundsHalfUp_finite h
  | true =>
    obtain rfl : units = 0 := by
      rw [value_finite, if_pos rfl, unitsPerOne_single, neg_nonneg] at hnonneg
      by_contra hne
      have hpos : (0 : ℚ) < units := by exact_mod_cast Nat.pos_of_ne_zero hne
      exact absurd hnonneg (div_pos hpos (by positivity)).not_ge
    exact roundsHalfUp_zero_true

end FrameRateEstimator

end Rate

end RateGovernor
