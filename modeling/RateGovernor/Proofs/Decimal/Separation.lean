import Mathlib
import RateGovernor.Decimal.Reading
import RateGovernor.Proofs.Decimal.Shortest

/-!
# Decimals near the ends of intervals

A reading in two steps may be off by one part in `2 ^ 51`, which only matters for a decimal as near
as that to an end of its interval. In quarter units such an end is a short significand `m` times a
power of two, so with the decimal it makes a good approximation of the quotient of two powers, one
of ten and one of two. A convergent `p / q` of that quotient is so much better that `m` and the
digits have to be multiples of `p` and `q`. For most exponents that is still too far off, for some
it is exact, and for the others the few multiples in range are read one by one.

The convergents are searched for and then checked: nothing depends on how they are found.
-/

namespace RateGovernor

/-! ### Approximations -/

private theorem abs_cross_mul_le (a m n p q : ℕ) {b : ℕ} (hb : 0 < b) :
    |(m * q - n * p : ℚ)| * b ≤ n * |(q * a - p * b : ℚ)| + q * |(n * a - m * b : ℚ)| := by
  have hb' : (0 : ℚ) < b := by exact_mod_cast hb
  calc |(m * q - n * p : ℚ)| * b = |(n : ℚ) * (q * a - p * b) - q * (n * a - m * b)| := by
        rw [← abs_of_pos hb', ← abs_mul, abs_of_pos hb']
        congr 1
        ring
    _ ≤ |(n : ℚ) * (q * a - p * b)| + |(q : ℚ) * (n * a - m * b)| := abs_sub _ _
    _ = n * |(q * a - p * b : ℚ)| + q * |(n * a - m * b : ℚ)| := by
        rw [abs_mul, abs_mul, Nat.abs_cast, Nat.abs_cast]

private theorem exists_multiple_of_cross_eq {m n p q : ℕ} (hq : 0 < q) (hpq : q.Coprime p)
    (h : m * q = n * p) : ∃ k, m = k * p ∧ n = k * q := by
  obtain ⟨k, hk⟩ : q ∣ n := hpq.dvd_of_dvd_mul_right (h ▸ Nat.dvd_mul_left q m)
  refine ⟨k, ?_, by rw [hk, Nat.mul_comm]⟩
  refine Nat.eq_of_mul_eq_mul_right hq ?_
  rw [h, hk]
  ring

private theorem exists_multiple {a b p q m n : ℕ} (hb : 0 < b) (hq : 0 < q) (hpq : q.Coprime p)
    (hclose : (2 ^ 25 + 3) * (q * a + 2 ^ 51 * |(q * a - p * b : ℚ)|) < 2 ^ 51 * a)
    (hm : m < 2 ^ 25) (hnear : |(n * a - m * b : ℚ)| ≤ n * a / 2 ^ 51) :
    ∃ k, m = k * p ∧ n = k * q := by
  have hb' : (0 : ℚ) < b := by exact_mod_cast hb
  have herror : |(m * q - n * p : ℚ)| * b ≤ n * (q * a / 2 ^ 51 + |(q * a - p * b : ℚ)|) := by
    have hcross := abs_cross_mul_le a m n p q hb
    have hscaled := mul_le_mul_of_nonneg_left hnear (q.cast_nonneg : (0 : ℚ) ≤ q)
    linarith
  generalize |(q * a - p * b : ℚ)| = gap at hclose herror
  have hsmall : (2 ^ 25 + 3) * (n * (q * a / 2 ^ 51 + gap)) < (2 ^ 25 + 3) * (b : ℚ) := by
    have hmb : (m * b : ℚ) ≤ (2 ^ 25 - 1) * b := by
      have hm' : (m : ℚ) + 1 ≤ 2 ^ 25 := by exact_mod_cast hm
      exact mul_le_mul_of_nonneg_right (by linarith) hb'.le
    have hna := (abs_le.mp hnear).2
    have hscaled : n * ((2 ^ 25 + 3) * (q * a / 2 ^ 51 + gap)) ≤ (n : ℚ) * a :=
      mul_le_mul_of_nonneg_left (by linarith) n.cast_nonneg
    linarith
  have hlt : |(m * q - n * p : ℚ)| < 1 := by
    refine lt_of_mul_lt_mul_right (herror.trans_lt ?_) hb'.le
    rw [one_mul]
    exact lt_of_mul_lt_mul_left hsmall (by norm_num)
  have hinteger : |((m * q : ℕ) : ℤ) - (n * p : ℕ)| < 1 := by
    rw [← @Int.cast_lt ℚ]
    push_cast
    exact hlt
  have hzero := Int.abs_lt_one_iff.mp hinteger
  exact exists_multiple_of_cross_eq hq hpq (by omega)

/-- The last convergent of a quotient with a denominator up to the bound, after two earlier ones. -/
def convergent (bound : ℕ) : ℕ → ℕ → ℕ → ℕ × ℕ → ℕ × ℕ → ℕ × ℕ
  | 0, _, _, _, latest => latest
  | fuel + 1, num, den, before, latest =>
    let next := (num / den * latest.1 + before.1, num / den * latest.2 + before.2)
    if den = 0 ∨ bound < next.2 then latest else convergent bound fuel den (num % den) latest next

/-! ### Powers of ten and two -/

/-- Reading in two steps gives the number in single precision that is nearest to the decimal. -/
def Decimal.ReadsNearest (d : Decimal) : Prop :=
  (scale (.ofNat d.significand) d.exponent).map Binary.convert =
    some (Binary.round false
      (d.significand * (4 * Format.single.unitsPerOne * Nat.pow 10 d.exponent.toNat))
      (4 * Nat.pow 10 (-d.exponent).toNat) : Single)

instance (d : Decimal) : Decidable d.ReadsNearest := inferInstanceAs (Decidable (_ = _))

namespace Separation

/-- The width of the grid `10 ^ exponent` in quarter units as a fraction. -/
def num (exponent : ℤ) : ℕ := 4 * Format.single.unitsPerOne * Nat.pow 10 exponent.toNat

def den (exponent : ℤ) : ℕ := Nat.pow 10 (-exponent).toNat

/-- How often the width can be halved. -/
def octave (exponent : ℤ) : ℕ := (num exponent / den exponent).log2

def gap (exponent : ℤ) (p q : ℕ) : ℕ :=
  ((q * num exponent : ℕ) - (p * (2 ^ octave exponent * den exponent) : ℕ) : ℤ).natAbs

/-- What shows that no decimal of the grid `10 ^ exponent` is read wrongly for being near to an end
of an interval. -/
structure Certificate (exponent : ℤ) (p q : ℕ) : Prop where
  pos : 0 < q
  coprime : q.Coprime p
  octave_gap : (2 ^ 20 + 1) * num exponent < 2 ^ 20 * (2 ^ (octave exponent + 1) * den exponent)
  close : (2 ^ 25 + 3) * (q * num exponent + 2 ^ 51 * gap exponent p q) < 2 ^ 51 * num exponent
  /-- Multiples of the convergent are too far off, or exact, or read one by one. -/
  multiples : q * num exponent < 2 ^ 51 * gap exponent p q ∨
    (gap exponent p q = 0 ∧ -11 ≤ exponent ∧ exponent ≤ 11) ∨
    ∀ k ≤ 2 ^ 25 / p, 0 < k → ∀ halvings ≤ octave exponent,
      2 ^ halvings ∣ k * q → (⟨k * q / 2 ^ halvings, exponent⟩ : Decimal).ReadsNearest

instance (exponent : ℤ) (p q : ℕ) : Decidable (Certificate exponent p q) :=
  decidable_of_iff (_ ∧ _ ∧ _ ∧ _ ∧ _)
    ⟨fun ⟨pos, coprime, octave_gap, close, multiples⟩ =>
      ⟨pos, coprime, octave_gap, close, multiples⟩,
    fun h => ⟨h.pos, h.coprime, h.octave_gap, h.close, h.multiples⟩⟩

def approximation (exponent : ℤ) : ℕ × ℕ :=
  convergent (3 * 2 ^ 24) 64 (num exponent) (2 ^ octave exponent * den exponent) (0, 1) (1, 0)

private theorem certificate : ∀ index : ℕ, index < 84 →
    Certificate ((index : ℤ) - 45) (approximation ((index : ℤ) - 45)).1
      (approximation ((index : ℤ) - 45)).2 := by
  decide +kernel

private theorem exists_certificate {exponent : ℤ} (hlow : -45 ≤ exponent) (hhigh : exponent ≤ 38) :
    ∃ p q, Certificate exponent p q := by
  have h := certificate (exponent + 45).toNat (by omega)
  rw [Int.toNat_of_nonneg (by omega), add_sub_cancel_right] at h
  exact ⟨_, _, h⟩

theorem den_pos (exponent : ℤ) : 0 < den exponent := Nat.pow_pos (by decide)

theorem gridWidth_mul_den (exponent : ℤ) :
    Format.single.gridWidth exponent * den exponent = num exponent :=
  (Format.single.spacing_eq exponent).symm

private theorem cast_gap (exponent : ℤ) (p q : ℕ) : (gap exponent p q : ℚ) =
    |(q * num exponent - p * (2 ^ octave exponent * den exponent : ℕ) : ℚ)| := by
  rw [gap, Nat.cast_natAbs]
  push_cast
  rfl

variable {exponent : ℤ} {p q : ℕ}

private theorem Certificate.le_octave (h : Certificate exponent p q) {w : ℕ}
    (hw : (2 ^ w : ℚ) ≤ Format.single.gridWidth exponent * (1 + 1 / 2 ^ 20)) :
    w ≤ octave exponent := by
  have hden : (0 : ℚ) < den exponent := by exact_mod_cast den_pos exponent
  have hgap : ((2 ^ 20 + 1) * num exponent : ℚ) <
      2 ^ 20 * (2 ^ (octave exponent + 1) * den exponent) := by
    exact_mod_cast h.octave_gap
  rw [← gridWidth_mul_den, ← mul_assoc, ← mul_assoc (2 ^ 20)] at hgap
  have hroom := lt_of_mul_lt_mul_right hgap hden.le
  have hlt : (2 ^ w : ℚ) < 2 ^ (octave exponent + 1) := by linarith
  exact Nat.lt_succ_iff.mp ((pow_lt_pow_iff_right₀ one_lt_two).mp hlt)

private theorem Certificate.cast_close (h : Certificate exponent p q) :
    (2 ^ 25 + 3) * (q * num exponent + 2 ^ 51 *
      |(q * num exponent - p * (2 ^ octave exponent * den exponent : ℕ) : ℚ)|) <
        2 ^ 51 * num exponent := by
  rw [← cast_gap]
  exact_mod_cast h.close

private theorem sub_mul_factor (significand m : ℕ) {w halvings : ℕ}
    (hoctave : octave exponent = w + halvings) :
    ((significand * 2 ^ halvings : ℕ) * num exponent -
      m * (2 ^ octave exponent * den exponent : ℕ) : ℚ) =
        (significand * Format.single.gridWidth exponent - m * 2 ^ w) *
          (2 ^ halvings * den exponent) := by
  rw [hoctave, ← gridWidth_mul_den]
  push_cast
  ring

/-- Multiples of the convergent that are near enough are exact, or read one by one. -/
private theorem Certificate.exact_or_readsNearest (h : Certificate exponent p q) {k : ℕ}
    (hk : 0 < k) (hp : 0 < p) (hkp : k * p < 2 ^ 25)
    (hnear : |((k * q : ℕ) * num exponent -
      (k * p : ℕ) * (2 ^ octave exponent * den exponent : ℕ) : ℚ)| ≤
        (k * q : ℕ) * num exponent / 2 ^ 51) :
    (((k * q : ℕ) * num exponent -
      (k * p : ℕ) * (2 ^ octave exponent * den exponent : ℕ) : ℚ) = 0 ∧
        -11 ≤ exponent ∧ exponent ≤ 11) ∨
    ∀ halvings ≤ octave exponent, 2 ^ halvings ∣ k * q →
      (⟨k * q / 2 ^ halvings, exponent⟩ : Decimal).ReadsNearest := by
  have hproduct : ((k * q : ℕ) * num exponent -
      (k * p : ℕ) * (2 ^ octave exponent * den exponent : ℕ) : ℚ) =
        k * (q * num exponent - p * (2 ^ octave exponent * den exponent : ℕ)) := by
    push_cast
    ring
  rw [hproduct, abs_mul, ← cast_gap, Nat.abs_cast] at hnear
  rcases h.multiples with hfar | ⟨hexact, hexponent⟩ | hread
  · exfalso
    have hfar' : (q * num exponent : ℚ) < 2 ^ 51 * gap exponent p q := by exact_mod_cast hfar
    have hk' : (0 : ℚ) < k := by exact_mod_cast hk
    have hscaled := mul_lt_mul_of_pos_left hfar' hk'
    push_cast at hnear
    linarith
  · left
    refine ⟨?_, hexponent⟩
    have hzero := cast_gap exponent p q
    rw [hexact, Nat.cast_zero, eq_comm, abs_eq_zero] at hzero
    rw [hproduct, hzero, mul_zero]
  · right
    exact hread k ((Nat.le_div_iff_mul_le hp).mpr hkp.le) hk

/-- A decimal that is nearer to an end of an interval than a reading in two steps can tell is that
end, or it is read as it should be. -/
theorem eq_or_readsNearest {d : Decimal} (hlow : -45 ≤ d.exponent) (hhigh : d.exponent ≤ 38)
    {m w : ℕ} (hpos : 0 < m) (hm : m < 2 ^ 25)
    (hw : (2 ^ w : ℚ) ≤ Format.single.gridWidth d.exponent * (1 + 1 / 2 ^ 20))
    (hnear : |(d.significand * Format.single.gridWidth d.exponent - m * 2 ^ w : ℚ)| ≤
      d.significand * Format.single.gridWidth d.exponent / 2 ^ 51) :
    (d.significand * Format.single.gridWidth d.exponent = m * 2 ^ w ∧
      -11 ≤ d.exponent ∧ d.exponent ≤ 11) ∨ d.ReadsNearest := by
  obtain ⟨p, q, hcertificate⟩ := exists_certificate hlow hhigh
  obtain ⟨halvings, hoctave⟩ := Nat.exists_eq_add_of_le (hcertificate.le_octave hw)
  have hden : (0 : ℚ) < den d.exponent := by exact_mod_cast den_pos d.exponent
  have hfactor : (0 : ℚ) < 2 ^ halvings * den d.exponent := by positivity
  have hb : 0 < 2 ^ octave d.exponent * den d.exponent :=
    Nat.mul_pos (Nat.two_pow_pos _) (den_pos d.exponent)
  have hscale := sub_mul_factor d.significand m hoctave
  have hvalue := sub_mul_factor d.significand 0 hoctave
  rw [Nat.cast_zero, zero_mul, zero_mul, sub_zero, sub_zero] at hvalue
  have hnear' : |((d.significand * 2 ^ halvings : ℕ) * num d.exponent -
      m * (2 ^ octave d.exponent * den d.exponent : ℕ) : ℚ)| ≤
        (d.significand * 2 ^ halvings : ℕ) * num d.exponent / 2 ^ 51 := by
    rw [hscale, hvalue, abs_mul, abs_of_pos hfactor, mul_div_right_comm]
    exact mul_le_mul_of_nonneg_right hnear hfactor.le
  obtain ⟨k, hmk, hnk⟩ := exists_multiple hb hcertificate.pos hcertificate.coprime
    hcertificate.cast_close hm hnear'
  have hk : 0 < k := Nat.pos_of_mul_pos_right (hmk ▸ hpos)
  have hp : 0 < p := Nat.pos_of_mul_pos_left (hmk ▸ hpos)
  rw [hnk, hmk] at hnear'
  rcases hcertificate.exact_or_readsNearest hk hp (hmk ▸ hm) hnear' with ⟨hzero, hexponent⟩ | hread
  · left
    rw [← hnk, ← hmk, hscale, mul_eq_zero, or_iff_left hfactor.ne'] at hzero
    exact ⟨sub_eq_zero.mp hzero, hexponent⟩
  · right
    have h := hread halvings (by omega) (hnk ▸ Nat.dvd_mul_left _ _)
    rwa [← hnk, Nat.mul_div_cancel _ (Nat.two_pow_pos _)] at h

/-- Rounded to double precision at once, this decimal would come to lie on an end of the interval
that it is in, and go to the number on the other side. -/
example : (⟨7038531, -32⟩ : Decimal).ReadsNearest := by decide +kernel

end Separation

end RateGovernor
