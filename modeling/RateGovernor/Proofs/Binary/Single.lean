import Mathlib
import RateGovernor.Proofs.Binary.Value

/-!
# Single precision

The bounds of single precision: literals and whole numbers of 32 bits, the greatest finite number,
and sums that a large term absorbs. Where a term may be infinite, what counts is only that the sum
is not above its bound.
-/

namespace RateGovernor

namespace Binary

variable {x y : Single} {m n : ℕ} {q : ℚ}

theorem precision_single : (Format.single).precision = 24 := rfl

theorem unitsPerOne_single : ((Format.single).unitsPerOne : ℚ) = 2 ^ 149 := by
  rw [Format.unitsPerOne, Nat.one_shiftLeft]
  norm_num [Format.single]

theorem value_finite_single {units : ℕ} (h : (Format.single).Representable units) :
    (finite false units h : Single).value = units / 2 ^ 149 := by
  rw [value_finite, if_neg (by decide), unitsPerOne_single]

/-- The greatest finite number in single precision. -/
def greatest : ℕ := (2 ^ 24 - 1) * 2 ^ 104

private theorem holds_greatest : (Format.single).Holds greatest :=
  .shiftLeft (by decide) (by decide)

private theorem abs_value_le_greatest (hx : x.isFinite) : |x.value| ≤ greatest := by
  obtain ⟨negative, units, hrep, rfl⟩ := exists_eq_finite hx
  obtain ⟨significand, shift, hunits, hsig, hshift⟩ := id hrep
  have hlow : significand ≤ 2 ^ 24 - 1 := Nat.le_pred_of_lt hsig
  have hpower : 2 ^ shift ≤ 2 ^ 253 := Nat.pow_le_pow_right (by decide) hshift
  have hle : units ≤ (2 ^ 24 - 1) * 2 ^ 253 := by
    rw [hunits, Nat.shiftLeft_eq]
    exact Nat.mul_le_mul hlow hpower
  rw [abs_value_finite, unitsPerOne_single, div_le_iff₀ (by norm_num), greatest]
  calc (units : ℚ) ≤ ((2 ^ 24 - 1) * 2 ^ 253 : ℕ) := by exact_mod_cast hle
    _ = ((2 ^ 24 - 1) * 2 ^ 104 : ℕ) * 2 ^ 149 := by norm_num

private theorem isRounded_add_of_le (hx : x.isFinite) (hy : y.isFinite) (hnonneg : 0 ≤ y.value)
    (hle : x.value + y.value ≤ greatest) : IsRounded (x.value + y.value) (x + y) := by
  apply isRounded_add hx hy holds_greatest
  have hlower := (abs_le.mp (abs_value_le_greatest hx)).1
  rw [abs_le]
  constructor <;> linarith

theorem IsRounded.single_bounds (h : IsRounded q x) (hq : 1 / 2 ^ 100 ≤ q) :
    q * (1 - 1 / 2 ^ 24) ≤ x.value ∧ x.value ≤ q * (1 + 1 / 2 ^ 24) := by
  have hpos : 0 < q := lt_of_lt_of_le (by norm_num) hq
  have herror := h.error
  rw [abs_of_pos hpos] at herror
  rw [unitsPerOne_single, precision_single] at herror
  obtain ⟨hbelow, habove⟩ := abs_le.mp (herror (by linarith))
  constructor <;> linarith

private theorem value_ofNat_eq_nearest {n m : ℕ} (hm : (Format.single).Holds m) (hnm : n ≤ m) :
    (ofNat n : Single).value = (Format.single).nearest (n * (Format.single).unitsPerOne) 1 /
      (Format.single).unitsPerOne := by
  have hle : (Format.single).nearest (n * (Format.single).unitsPerOne) 1 ≤
      m * (Format.single).unitsPerOne := by
    refine Format.nearest_le _ _ Nat.one_pos hm ?_
    rw [Nat.cast_one, div_one]
    exact_mod_cast Nat.mul_le_mul_right _ hnm
  rw [ofNat, round, dif_pos (hle.trans_lt hm.lt_limit), value_finite, if_neg (by decide)]

theorem value_ofNat_two_mul {n m : ℕ} (hn : n ≠ 0) (hm : (Format.single).Holds m)
    (hnm : 2 * n ≤ m) : (ofNat (2 * n) : Single).value = 2 * (ofNat n : Single).value := by
  rw [value_ofNat_eq_nearest hm hnm, value_ofNat_eq_nearest hm (by omega), Nat.mul_assoc,
    Format.nearest_two_mul]
  · push_cast
    ring
  · exact Nat.mul_ne_zero hn (Format.unitsPerOne_pos _).ne'
  · have hlong : 2 ^ 23 ≤ n * (Format.single).unitsPerOne :=
      calc 2 ^ 23 ≤ 1 * (Format.single).unitsPerOne := by decide
        _ ≤ n * (Format.single).unitsPerOne :=
          Nat.mul_le_mul_right _ (Nat.one_le_iff_ne_zero.mpr hn)
    have hlog := (Nat.le_log2 (by omega)).mpr hlong
    rw [precision_single]
    omega

theorem value_literal (hn : n < 2 ^ 24) : (ofNat n : Single).value = n :=
  value_ofNat (.single_of_lt hn)

theorem within_literal (hn : n < 2 ^ 24) : (ofNat n : Single).Within n :=
  within_ofNat (.single_of_lt hn) le_rfl

theorem value_half : (1 / 2 : Single).value = 1 / 2 := by
  decide +kernel

theorem error_add_single (hx : x.isFinite) (hy : y.isFinite)
    (h : IsRounded (x.value + y.value) (x + y)) :
    (x + y).value ≤ x.value + y.value + |x.value + y.value| / 2 ^ 24 := by
  have herror := (abs_le.mp (error_add hx hy h)).2
  rw [precision_single] at herror
  linarith

theorem error_sub_single (hx : x.isFinite) (hy : y.isFinite)
    (h : IsRounded (x.value - y.value) (x - y)) :
    (x - y).value ≤ x.value - y.value + |x.value - y.value| / 2 ^ 24 := by
  have herror := (abs_le.mp (error_sub hx hy h)).2
  rw [precision_single] at herror
  linarith

theorem isRounded_add_small {k : ℕ} (hk : k ≤ 102) (hx : x.isFinite)
    (hle : x.value ≤ (2 ^ (k + 24) : ℕ)) (hy : y.Within m) (hm : m < 2 ^ k) :
    IsRounded (x.value + y.value) (x + y) ∧ (x + y).value ≤ (2 ^ (k + 24) : ℕ) := by
  have hsmall : y.value < 2 ^ k := hy.le.trans_lt (by exact_mod_cast hm)
  have hpower : (2 ^ k : ℚ) ≤ 2 ^ 102 := pow_le_pow_right₀ (by norm_num) hk
  have hsum : x.value + y.value ≤ greatest := by
    have hlarge : (2 ^ 24 * 2 ^ 102 + 2 ^ 102 : ℚ) ≤ greatest := by
      norm_num [greatest]
    push_cast [pow_add] at hle
    linarith
  have h := isRounded_add_of_le hx hy.isFinite hy.nonneg hsum
  push_cast at hle
  refine ⟨h, h.le_two_pow (.single_two_pow ?_) ?_⟩
  · rw [precision_single]
    omega
  · rw [precision_single]
    linarith

theorem within_add_small {k : ℕ} (hk : k ≤ 102) (hx : x.Within (2 ^ (k + 24)))
    (hy : y.Within m) (hm : m < 2 ^ k) : (x + y).Within (2 ^ (k + 24)) := by
  obtain ⟨hsum, hle⟩ := isRounded_add_small hk hx.isFinite hx.le hy hm
  exact ⟨hsum.isFinite, hsum.nonneg (add_nonneg hx.nonneg hy.nonneg), hle⟩

theorem within_ratio (hx : 0 ≤ x) (hlt : x < y) (hpos : 0 < y) :
    (x / y).Within 1 := by
  have hfinite := isFinite_of_nonneg_of_lt hx hlt
  rcases infinite_or_finite (nonneg_of_pos hpos) with rfl | ⟨hy, -⟩
  · obtain ⟨negative, units, h, rfl⟩ := exists_eq_finite hfinite
    exact (isRounded_zero _).within (.single_of_lt (by decide)) le_rfl (Nat.cast_nonneg 1)
  · rw [nonneg_iff_value hfinite] at hx
    rw [pos_iff_value hy] at hpos
    rw [lt_iff_value hfinite hy] at hlt
    have hone : (Format.single).Holds 1 := .single_of_lt (by decide)
    have hnonneg : 0 ≤ x.value / y.value := div_nonneg hx hpos.le
    have hle : x.value / y.value ≤ (1 : ℕ) := by
      rw [Nat.cast_one, div_le_one hpos]
      exact hlt.le
    exact (isRounded_div hfinite hy hpos.ne' hone (by rwa [abs_of_nonneg hnonneg])).within hone
      hnonneg hle

theorem within_positivePart (hx : x.isFinite) (hle : x.value ≤ m) :
    x.positivePart.Within m := by
  refine ⟨isFinite_positivePart hx, ?_, ?_⟩
  · rw [value_positivePart hx]
    exact le_max_right _ _
  · rw [value_positivePart hx]
    exact max_le hle m.cast_nonneg

/-- At most so much, and possibly infinitely far below it. -/
def AtMost (x : Single) (m : ℕ) : Prop := x = .infinite true ∨ x.isFinite ∧ x.value ≤ m

section AtMost

theorem atMost_sub (hx : x.Within m) (hy : 0 ≤ y) : AtMost (x - y) m := by
  rcases infinite_or_finite hy with rfl | ⟨hfinite, hnonneg⟩
  · obtain ⟨negative, units, h, rfl⟩ := exists_eq_finite hx.isFinite
    exact .inl rfl
  · have hx_le := (abs_le.mp (abs_value_le_greatest hx.isFinite)).2
    have hy_le := (abs_le.mp (abs_value_le_greatest hfinite)).2
    have hx_nonneg := hx.nonneg
    have hdiff : IsRounded (x.value - y.value) (x - y) := by
      apply isRounded_sub hx.isFinite hfinite holds_greatest
      rw [abs_le]
      constructor <;> linarith
    exact .inr ⟨hdiff.isFinite, (hdiff.le_value hx.isFinite (by linarith)).trans hx.le⟩

theorem AtMost.add_small {k : ℕ} (hk : k ≤ 102) (hx : AtMost x (2 ^ (k + 24))) (hy : y.Within n)
    (hn : n < 2 ^ k) : AtMost (x + y) (2 ^ (k + 24)) := by
  rcases hx with rfl | ⟨hfinite, hle⟩
  · obtain ⟨negative, units, h, rfl⟩ := exists_eq_finite hy.isFinite
    exact .inl rfl
  · obtain ⟨hsum, hsum_le⟩ := isRounded_add_small hk hfinite hle hy hn
    exact .inr ⟨hsum.isFinite, hsum_le⟩

theorem AtMost.positivePart (hx : AtMost x m) : x.positivePart.Within m := by
  rcases hx with rfl | ⟨hfinite, hle⟩
  · have hnot : ¬ (0 : Single) < .infinite true := by
      rw [lt_iff_rank rank_zero rfl]
      decide
    rw [Binary.positivePart, if_neg hnot]
    exact within_zero m
  · exact within_positivePart hfinite hle

end AtMost

end Binary

section Word

open Binary

theorem one_le_toNat_iff {n : UInt32} : 1 ≤ n.toNat ↔ n ≠ 0 := by
  rw [Nat.one_le_iff_ne_zero, ne_eq, ne_eq, ← UInt32.toNat_inj, UInt32.toNat_zero]

theorem one_le_cast_toNat {n : UInt32} (hn : n ≠ 0) : (1 : ℚ) ≤ n.toNat := by
  exact_mod_cast one_le_toNat_iff.mpr hn

theorem toNat_pred {n : UInt32} (hn : n ≠ 0) : (n - 1).toNat = n.toNat - 1 :=
  UInt32.toNat_sub_of_le _ _ (UInt32.le_iff_toNat_le.mpr (one_le_toNat_iff.mpr hn))

theorem one_le_value_toNat {n : UInt32} (hn : n ≠ 0) :
    ((1 : ℕ) : ℚ) ≤ (ofNat n.toNat : Single).value := by
  rw [Nat.cast_one]
  exact one_le_value_ofNat (one_le_toNat_iff.mpr hn) (.single_two_pow (k := 32) (by decide))
    n.toNat_lt.le (.single_of_lt (by decide))

theorem isFinite_toNat (n : UInt32) : (ofNat n.toNat : Single).isFinite :=
  (within_ofNat (.single_two_pow (k := 32) (by decide)) n.toNat_lt.le).isFinite

theorem pos_toNat {n : UInt32} (hn : n ≠ 0) : (0 : Single) < ofNat n.toNat := by
  rw [pos_iff_value (isFinite_toNat n)]
  exact lt_of_lt_of_le (by norm_num) (one_le_value_toNat hn)

theorem nonneg_div_toNat {x : Single} (hx : 0 ≤ x) {n : UInt32} (hn : n ≠ 0) :
    0 ≤ x / (ofNat n.toNat : Single) := by
  have hone := one_le_value_toNat hn
  have hdivisor := isFinite_toNat n
  rcases infinite_or_finite hx with rfl | ⟨hfinite, hnonneg⟩
  · obtain ⟨negative, units, h, hn'⟩ := exists_eq_finite hdivisor
    rw [hn', Nat.cast_one] at hone
    obtain rfl := eq_false_of_value_pos (lt_of_lt_of_le one_pos hone)
    rw [hn']
    change (0 : Single) ≤ .infinite false
    rw [le_iff_rank rank_zero rfl]
    exact Int.natCast_nonneg _
  · have hwithin : x.Within greatest :=
      ⟨hfinite, hnonneg, (abs_le.mp (abs_value_le_greatest hfinite)).2⟩
    obtain ⟨-, hquotient⟩ := hwithin.isRounded_div hdivisor Nat.one_pos hone holds_greatest
      (Nat.le_mul_of_pos_right _ Nat.one_pos)
    rw [nonneg_iff_value hquotient.isFinite]
    exact hquotient.nonneg

end Word

end RateGovernor
