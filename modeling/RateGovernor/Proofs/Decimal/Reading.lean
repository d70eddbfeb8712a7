import Mathlib
import RateGovernor.Decimal.Layout
import RateGovernor.Proofs.Decimal.RoundTrip

/-!
# Reading what a layout writes

Wherever the point stands, the digits of a numeral make up the significand of the decimal again, as
long as they fit 64 bits, and the places after the point take back what the power of ten says. Only
the zero that follows a whole number adds a digit; such a number is short enough to be read exactly.
-/

namespace RateGovernor

open Binary Format

private theorem leadingDigits_of_lt {n : ℕ} (h : n < UInt64.size) : leadingDigits n = (n, 0) := by
  rw [leadingDigits, if_pos h]

private theorem appendFraction_lastDigits (places : ℕ) {n : ℕ} (exponent : ℤ) (rest : List Digit)
    (h : n < UInt64.size) :
    appendFraction (n / 10 ^ places) exponent (lastDigits places n ++ rest) =
      appendFraction n (exponent - places) rest := by
  induction places generalizing n rest with
  | zero => simp [lastDigits]
  | succ places ih =>
    have hlast : n / 10 * 10 + (Digit.ofNat n).val = n := Nat.div_add_mod' n 10
    rw [lastDigits, List.append_assoc, List.singleton_append, pow_succ', ← Nat.div_div_eq_div_mul,
      ih _ (by omega), appendFraction, hlast, if_pos h]
    congr 1
    push_cast
    ring

private theorem Binary.round_neg {F : Format} (negative : Bool) (num den : ℕ) :
    (round (!negative) num den : Binary F) = -round negative num den := by
  rw [round, round]
  split <;> rfl

private theorem Binary.convert_neg {F G : Format} (x : Binary F) :
    ((-x).convert : Binary G) = -x.convert := by
  cases x with
  | nan => rfl
  | infinite negative => rfl
  | finite negative units h => exact round_neg negative _ _

namespace Numeral

variable {n : Numeral} {significand : ℕ} {exponent : ℤ} {x : Single}

private theorem toDouble?_eq (hwhole : n.whole < UInt64.size)
    (hfraction : appendFraction n.whole 0 n.fraction = (significand, exponent)) :
    n.toDouble? = (scale (.ofNat significand) (exponent + n.exponent.getD 0)).map
      fun magnitude => if n.negative then -magnitude else magnitude := by
  simp only [toDouble?, leadingDigits_of_lt hwhole, Nat.cast_zero, hfraction]
  cases scale (.ofNat significand) (exponent + n.exponent.getD 0) <;> rfl

theorem toSingle?_eq (hspelled : n.isWhole = false) (hwhole : n.whole < UInt64.size)
    (hfraction : appendFraction n.whole 0 n.fraction = (significand, exponent))
    (hread : (scale (.ofNat significand) (exponent + n.exponent.getD 0)).map Binary.convert =
      some x) :
    n.toSingle? = some (if n.negative then -x else x) := by
  have hinteger : n.integer? = none := by
    rw [integer?, if_neg]
    simp [hspelled]
  obtain ⟨magnitude, hscale, rfl⟩ := Option.map_eq_some_iff.mp hread
  rw [toSingle?, hinteger]
  simp only [toDouble?_eq hwhole hfraction, hscale, Option.map_some, Option.some_inj]
  cases n.negative with
  | false => rfl
  | true => exact convert_neg magnitude

end Numeral

namespace Layout

variable {layout : Layout} {units : ℕ} {d : Decimal}

private theorem finite_sign (negative : Bool) (h : single.Representable units) :
    (if negative then -finite false units h else finite false units h : Single) =
      finite negative units h := by
  cases negative <;> rfl

/-- The digits of the shortest decimal with the point anywhere among them, and a power of ten that
makes up for the places after it. -/
private theorem toSingle?_fixed (hd : IsShort units d) (h : single.Representable units)
    (hpos : 0 < units) (negative : Bool) {places : ℕ} {power : Option ℤ}
    (hspelled : (lastDigits places d.significand).isEmpty = false ∨ power.isNone = false)
    (hpower : power.getD 0 - places = d.exponent) :
    ({ Numeral.fixed negative d.significand places with exponent := power } : Numeral).toSingle? =
      some (finite negative units h) := by
  have hlt : d.significand < UInt64.size := hd.lt.trans (by decide)
  have hdigits := appendFraction_lastDigits places 0 [] hlt
  rw [List.append_nil, appendFraction] at hdigits
  have hread : (scale (.ofNat d.significand) ((0 : ℤ) - places + power.getD 0)).map Binary.convert =
      some (finite false units h) := by
    rw [← hd.scale_eq h hpos, ← hpower]
    congr 2
    ring
  rw [← finite_sign negative h]
  refine Numeral.toSingle?_eq ?_ ((Nat.div_le_self _ _).trans_lt hlt) hdigits hread
  rcases hspelled with hfraction | hexponent
  · simp [Numeral.isWhole, Numeral.fixed, hfraction]
  · simp [Numeral.isWhole, hexponent]

private theorem scale_whole (hd : IsShort units d) (h : single.Representable units) {k : ℕ}
    (hk : d.exponent = k) (hwhole : d.significand * 10 ^ k < 10 ^ 13) :
    (scale (.ofNat (d.significand * 10 ^ k * 10)) (-1)).map Binary.convert =
      some (finite false units h) := by
  have hpos : 0 < d.significand * 10 ^ k * 10 :=
    Nat.mul_pos (Nat.mul_pos hd.pos (by positivity)) (by decide)
  obtain ⟨x, hscale, hx, -, hexact⟩ :=
    exists_scale hpos (by omega) (by decide : -45 ≤ (-1 : ℤ)) (by decide)
  have hrounded := hexact (by decide) (by decide)
  have hvalue : ((d.significand * 10 ^ k * 10 : ℕ) * 10 ^ (-1 : ℤ) : ℚ) =
      d.significand * 10 ^ d.exponent := by
    rw [hk, zpow_natCast, zpow_neg_one]
    push_cast
    exact mul_inv_cancel_right₀ (by norm_num) _
  rw [hvalue] at hrounded
  have hholds : Format.double.Holds (d.significand * 10 ^ k) := .double_of_lt (by omega)
  have hnumber : (ofNat (d.significand * 10 ^ k) : Double).value =
      d.significand * 10 ^ d.exponent := by
    rw [value_ofNat hholds, hk, zpow_natCast]
    push_cast
    rfl
  rw [hscale, Option.map_some,
    hd.convert_of_value_eq h hx (hrounded.value_eq (isFinite_ofNat hholds) hnumber)]

private theorem toSingle?_whole (hd : IsShort units d) (h : single.Representable units)
    (negative : Bool)
    (hnonneg : 0 ≤ d.exponent) (hdigits : digitCount d.significand + d.exponent ≤ 13) :
    (⟨negative, d.significand * Nat.pow 10 d.exponent.toNat, [Digit.ofNat 0], none⟩ :
      Numeral).toSingle? = some (finite negative units h) := by
  obtain ⟨k, hk⟩ := Int.eq_ofNat_of_zero_le hnonneg
  have hwhole : d.significand * 10 ^ k < 10 ^ 13 :=
    calc d.significand * 10 ^ k < 10 ^ digitCount d.significand * 10 ^ k :=
          Nat.mul_lt_mul_of_pos_right (lt_ten_pow_digitCount _) (by positivity)
      _ = 10 ^ (digitCount d.significand + k) := (pow_add _ _ _).symm
      _ ≤ 10 ^ 13 := Nat.pow_le_pow_right (by decide) (by omega)
  have hzero : appendFraction (d.significand * 10 ^ k) 0 [Digit.ofNat 0] =
      (d.significand * 10 ^ k * 10, -1) := by
    have hfits : d.significand * 10 ^ k * 10 + (Digit.ofNat 0).val < UInt64.size := by
      have hdigit : (Digit.ofNat 0).val = 0 := rfl
      rw [hdigit, UInt64.size]
      omega
    rw [appendFraction, if_pos hfits]
    rfl
  have hsize : d.significand * 10 ^ k < UInt64.size := hwhole.trans (by decide)
  rw [← finite_sign negative h, hk, Int.toNat_natCast]
  exact Numeral.toSingle?_eq rfl hsize hzero (scale_whole hd h hk hwhole)

/-- What a layout writes for a magnitude in single precision is read as the number again, if the
layout always writes a point or a power of ten and only short numbers without the latter. -/
theorem toSingle?_ofDecimal (hpoint : layout.pointAlways = true)
    (hshort : ∀ position, layout.positional position = true → position ≤ 13)
    (hd : IsShort units d) (h : single.Representable units) (hpos : 0 < units) (negative : Bool) :
    (layout.ofDecimal negative d).toSingle? = some (finite negative units h) := by
  rw [ofDecimal]
  split
  · rename_i hposition
    rw [plain]
    split
    · rename_i hneg
      obtain ⟨places, hplaces⟩ : ∃ places, d.exponent.natAbs = places + 1 :=
        ⟨d.exponent.natAbs - 1, by omega⟩
      have hpower : (none : Option ℤ).getD 0 - d.exponent.natAbs = d.exponent := by
        rw [Option.getD_none]
        omega
      refine toSingle?_fixed hd h hpos negative (.inl ?_) hpower
      simp [hplaces, lastDigits]
    · rename_i hnonneg
      exact toSingle?_whole hd h negative (not_lt.mp hnonneg) (hshort _ hposition)
  · refine toSingle?_fixed hd h hpos negative (.inr rfl) ?_
    rw [Option.getD_some]
    exact add_sub_cancel_right _ _

end Layout

end RateGovernor
