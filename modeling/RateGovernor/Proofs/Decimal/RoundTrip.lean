import Mathlib
import RateGovernor.Proofs.Decimal.Scaling
import RateGovernor.Proofs.Decimal.Separation

/-!
# Shortest decimals read in two steps

The shortest decimal of a number in single precision, read by way of double precision, gives the
number back. The reading in double precision stays within the interval of the number, unless the
decimal is next to an end; then it is that end and is read exactly, or it is one of a few decimals
that are read one by one.
-/

namespace RateGovernor

open Binary Format Separation

variable {units : ℕ} {d : Decimal} {x : Double}

private theorem quarters_eq (x : Double) :
    4 * (x.value * single.unitsPerOne) = 2 ^ 151 * x.value := by
  rw [unitsPerOne_single]
  ring

private theorem quarters_decimal (d : Decimal) : d.significand * single.gridWidth d.exponent =
    2 ^ 151 * (d.significand * 10 ^ d.exponent) := by
  rw [gridWidth_single]
  ring

namespace Format.IsShort

private theorem value_pos (hd : IsShort units d) : (0 : ℚ) < d.significand * 10 ^ d.exponent := by
  have hpos : (0 : ℚ) < d.significand := by exact_mod_cast hd.pos
  positivity

theorem convert_of_value_eq (hd : IsShort units d) (h : single.Representable units)
    (hx : x.isFinite) (hvalue : x.value = d.significand * 10 ^ d.exponent) :
    x.convert = finite false units h := by
  refine convert_of_mem hx (hvalue ▸ hd.value_pos) h ?_
  rw [quarters_eq, hvalue, ← quarters_decimal]
  exact hd.mem

private theorem round_eq (hd : IsShort units d) (h : single.Representable units) :
    round false (d.significand * num d.exponent) (4 * den d.exponent) = finite false units h := by
  have hden : (0 : ℚ) < den d.exponent := by exact_mod_cast den_pos d.exponent
  refine round_of_mem false h (Nat.mul_pos (by decide) (den_pos d.exponent)) ?_
  have hvalue : (4 * ((d.significand * num d.exponent : ℕ) / (4 * den d.exponent : ℕ)) : ℚ) =
      d.significand * single.gridWidth d.exponent := by
    rw [Nat.cast_mul, Nat.cast_mul, ← gridWidth_mul_den]
    push_cast
    field_simp
  rw [hvalue]
  exact hd.mem

/-- Next to an end of its interval a decimal is that end, and exact in double precision, or it is
read as it should be. -/
private theorem eq_end_or_readsNearest (hd : IsShort units d) (h : single.Representable units)
    (hpos : 0 < units) {c : ℕ}
    (hc : c = (single.interval units).low ∨ c = (single.interval units).high)
    (hnear : |(d.significand * single.gridWidth d.exponent - c : ℚ)| ≤
      d.significand * single.gridWidth d.exponent / 2 ^ 51) :
    (-11 ≤ d.exponent ∧ d.exponent ≤ 11 ∧
      ∃ z : Double, z.isFinite ∧ z.value = d.significand * 10 ^ d.exponent) ∨ d.ReadsNearest := by
  obtain ⟨m, w, hmw, hm, hm', hstep⟩ := interval_end h hpos hc
  have hwidth := single.gridWidth_pos d.exponent
  have hshort : (d.significand : ℚ) ≤ 2 ^ 28 := by exact_mod_cast hd.lt.le
  have hproduct := mul_le_mul_of_nonneg_right hshort hwidth.le
  have hw : (2 ^ w : ℚ) ≤ single.gridWidth d.exponent * (1 + 1 / 2 ^ 20) := by
    have htriangle := abs_sub_le (4 * units : ℚ) (d.significand * single.gridWidth d.exponent) c
    rw [hstep, abs_sub_comm] at htriangle
    linarith [hd.near]
  have hend : (c : ℚ) = m * 2 ^ w := by
    rw [hmw]
    push_cast
    rfl
  rw [hend] at hnear
  rcases eq_or_readsNearest hd.le_exponent hd.exponent_le hm hm' hw hnear with
    ⟨hexact, hlow, hhigh⟩ | hread
  · left
    refine ⟨hlow, hhigh, ?_⟩
    rw [quarters_decimal] at hexact
    have hw' : w ≤ 1000 := by
      have hbound : (2 ^ w : ℚ) < 2 ^ 200 := by
        have hle := gridWidth_le_gridWidth (F := single) hhigh
        rw [gridWidth_single 11] at hle
        norm_num at hle
        linarith
      have hlt := (pow_lt_pow_iff_right₀ one_lt_two).mp hbound
      omega
    obtain ⟨z, hz, hvalue⟩ := exists_double_value (hm'.trans (by decide)) hw'
    refine ⟨z, hz, ?_⟩
    rw [hvalue, ← hexact]
    field_simp
  · exact .inr hread

/-- A reading that is off by one part in `2 ^ 51` stays within the interval, or it is right for
another reason. -/
theorem scale_eq (hd : IsShort units d) (h : single.Representable units) (hpos : 0 < units) :
    (scale (.ofNat d.significand) d.exponent).map Binary.convert = some (finite false units h) := by
  by_cases hread : d.ReadsNearest
  · exact hread.trans (congrArg some (hd.round_eq h))
  obtain ⟨x, hscale, hx, herror, hexact⟩ := exists_scale hd.pos (hd.lt.trans (by decide))
    hd.le_exponent (hd.exponent_le.trans (by decide))
  rw [hscale, Option.map_some]
  congr 1
  have hvalue := hd.value_pos
  -- An end that is too near for the reading to tell is read exactly.
  have hend : ∀ {c : ℕ}, c = (single.interval units).low ∨ c = (single.interval units).high →
      |(d.significand * single.gridWidth d.exponent - c : ℚ)| ≤
        d.significand * single.gridWidth d.exponent / 2 ^ 51 →
      x.convert = finite false units h := by
    intro c hc hnear
    rcases hd.eq_end_or_readsNearest h hpos hc hnear with ⟨hlow, hhigh, z, hz, hzvalue⟩ | hr
    · have hrounded := hexact (by omega) (by omega)
      exact hd.convert_of_value_eq h hx (hrounded.value_eq hz hzvalue)
    · exact absurd hr hread
  by_contra hne
  have hlow := mt (hend (.inl rfl)) hne
  have hhigh := mt (hend (.inr rfl)) hne
  refine hne ?_
  rw [abs_of_nonneg (by linarith [hd.mem.low_le])] at hlow
  rw [abs_of_nonpos (by linarith [hd.mem.le_high])] at hhigh
  rw [quarters_decimal] at hlow hhigh
  rw [abs_le] at herror
  refine convert_of_mem hx (by linarith) h (Interval.mem_of_lt ?_ ?_)
  · rw [quarters_eq]
    linarith
  · rw [quarters_eq]
    linarith

end Format.IsShort

end RateGovernor
