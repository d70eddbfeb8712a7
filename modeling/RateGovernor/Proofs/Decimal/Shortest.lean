import Mathlib
import RateGovernor.Proofs.Binary.Single
import RateGovernor.Proofs.Decimal.Interval

/-!
# The shortest decimal

The search stops at the coarsest grid with a point in the interval of a magnitude, so the next
coarser grid is at least as wide as the interval. For single precision this leaves few digits and a
narrow range of exponents, and the point that is taken is no farther from the magnitude than the
grid is wide.
-/

namespace RateGovernor

namespace Format

variable {F : Format} {tie : Tie} {units point : ℕ} {exponent : ℤ}

/-- The width of the grid `10 ^ exponent` in quarter units. -/
def gridWidth (F : Format) (exponent : ℤ) : ℚ := 4 * F.unitsPerOne * 10 ^ exponent

theorem gridWidth_pos (F : Format) (exponent : ℤ) : 0 < F.gridWidth exponent := by
  have hunit : (0 : ℚ) < F.unitsPerOne := by exact_mod_cast F.unitsPerOne_pos
  rw [gridWidth]
  positivity

private theorem gridWidth_succ (F : Format) (exponent : ℤ) :
    F.gridWidth (exponent + 1) = 10 * F.gridWidth exponent := by
  rw [gridWidth, gridWidth, zpow_add_one₀ (by norm_num)]
  ring

private theorem ten_pow_toNat (exponent : ℤ) :
    (10 ^ exponent.toNat : ℚ) = 10 ^ exponent * 10 ^ (-exponent).toNat := by
  rw [← zpow_natCast, ← zpow_natCast, ← zpow_add₀ (by norm_num)]
  congr 1
  omega

theorem spacing_eq (F : Format) (exponent : ℤ) :
    ((4 * F.unitsPerOne * Nat.pow 10 exponent.toNat : ℕ) : ℚ) =
      F.gridWidth exponent * (Nat.pow 10 (-exponent).toNat : ℕ) := by
  have h := ten_pow_toNat exponent
  rw [gridWidth, Nat.pow_eq, Nat.pow_eq]
  push_cast
  rw [h]
  ring

private theorem nearer_eq (tie : Tie) (num den : ℕ) :
    nearer tie num den = num / den ∨ nearer tie num den = num / den + 1 := by
  simp only [nearer]
  split
  · exact .inl rfl
  · split
    · exact .inr rfl
    · cases tie with
      | toEven =>
        change num / den + num / den % 2 = _ ∨ num / den + num / den % 2 = _
        omega
      | up => exact .inr rfl

/-- What a grid has to offer: the last point that is not above the magnitude, and the one after it,
of which one is taken if it lies in the interval. -/
private theorem onGrid?_cases (F : Format) (tie : Tie) (units : ℕ) (exponent : ℤ) :
    ∃ floor : ℕ, floor * F.gridWidth exponent ≤ 4 * units ∧
      4 * units < (floor + 1 : ℕ) * F.gridWidth exponent ∧
      (∀ point, F.onGrid? tie units exponent = some point →
        (point = floor ∨ point = floor + 1) ∧
          (F.interval units).Mem (point * F.gridWidth exponent)) ∧
      (F.onGrid? tie units exponent = none →
        ¬ (F.interval units).Mem (floor * F.gridWidth exponent) ∧
          ¬ (F.interval units).Mem ((floor + 1 : ℕ) * F.gridWidth exponent)) := by
  have hscale : 0 < Nat.pow 10 (-exponent).toNat := Nat.pow_pos (by decide)
  have hspacing : 0 < 4 * F.unitsPerOne * Nat.pow 10 exponent.toNat :=
    Nat.mul_pos (Nat.mul_pos (by decide) F.unitsPerOne_pos) (Nat.pow_pos (by decide))
  have hwidth := F.spacing_eq exponent
  simp only [onGrid?]
  generalize Nat.pow 10 (-exponent).toNat = scale at *
  generalize 4 * F.unitsPerOne * Nat.pow 10 exponent.toNat = spacing at *
  have hpos : (0 : ℚ) < scale := by exact_mod_cast hscale
  have hhits : ∀ point : ℕ, (F.interval units).contains (point * spacing) scale = true ↔
      (F.interval units).Mem (point * F.gridWidth exponent) := by
    intro point
    rw [Interval.contains_iff_mem hscale, Nat.cast_mul, hwidth, ← mul_assoc,
      mul_div_cancel_right₀ _ hpos.ne']
  refine ⟨4 * units * scale / spacing, ?_, ?_, ?_, ?_⟩
  · refine le_of_mul_le_mul_right ?_ hpos
    rw [mul_assoc, ← hwidth]
    exact_mod_cast Nat.div_mul_le_self _ _
  · have hnext := Nat.lt_mul_div_succ (4 * units * scale) hspacing
    rw [Nat.mul_comm spacing] at hnext
    refine lt_of_mul_lt_mul_right ?_ hpos.le
    rw [mul_assoc (Nat.cast _), ← hwidth]
    exact_mod_cast hnext
  · intro point hpoint
    split at hpoint
    · rename_i hfloor
      split at hpoint
      · rename_i hnext
        cases hpoint
        rcases nearer_eq tie (4 * units * scale) spacing with heq | heq
        · rw [heq]
          exact ⟨.inl rfl, (hhits _).mp hfloor⟩
        · rw [heq]
          exact ⟨.inr rfl, (hhits _).mp hnext⟩
      · cases hpoint
        exact ⟨.inl rfl, (hhits _).mp hfloor⟩
    · split at hpoint
      · rename_i hnext
        cases hpoint
        exact ⟨.inr rfl, (hhits _).mp hnext⟩
      · cases hpoint
  · intro hnone
    split at hnone
    · cases hnone
    · rename_i hfloor
      split at hnone
      · cases hnone
      · rename_i hnext
        exact ⟨fun h => hfloor ((hhits _).mpr h), fun h => hnext ((hhits _).mpr h)⟩

private theorem abs_sub_le_of_onGrid? (h : F.onGrid? tie units exponent = some point) :
    (F.interval units).Mem (point * F.gridWidth exponent) ∧
      |point * F.gridWidth exponent - 4 * units| ≤ F.gridWidth exponent := by
  obtain ⟨floor, hle, hlt, hsome, -⟩ := F.onGrid?_cases tie units exponent
  obtain ⟨hpoint, hmem⟩ := hsome point h
  push_cast [add_mul] at hlt
  refine ⟨hmem, abs_le.mpr ?_⟩
  rcases hpoint with rfl | rfl
  · constructor <;> linarith
  · push_cast [add_mul]
    constructor <;> linarith

private theorem width_le_of_onGrid?_eq_none (h : F.onGrid? tie units exponent = none) :
    (F.interval units).high ≤ (F.interval units).low + F.gridWidth exponent := by
  obtain ⟨floor, hle, hlt, -, hnone⟩ := F.onGrid?_cases tie units exponent
  obtain ⟨hfloor, hnext⟩ := hnone h
  have hlow : ((F.interval units).low : ℚ) ≤ 4 * units := by
    exact_mod_cast F.interval_low_le units
  have hhigh : (4 * units : ℚ) < (F.interval units).high := by
    exact_mod_cast F.lt_interval_high units
  have hbelow : floor * F.gridWidth exponent ≤ (F.interval units).low := by
    by_contra hinside
    exact hfloor (Interval.mem_of_lt (not_le.mp hinside) (hle.trans_lt hhigh))
  have habove : (F.interval units).high ≤ (floor + 1 : ℕ) * F.gridWidth exponent := by
    by_contra hinside
    exact hnext (Interval.mem_of_lt (hlow.trans_lt hlt) (not_le.mp hinside))
  push_cast [add_mul] at habove
  linarith

/-! ### The search -/

/-- The grid that the search takes is the first one, or the next coarser one has no point in the
interval. -/
theorem shortestFrom_spec (hlast : F.onGrid? tie units (1 - F.places) ≠ none) {index : ℕ}
    (hindex : 0 < index) :
    F.onGrid? tie units (F.shortestFrom tie units index).exponent =
      some (F.shortestFrom tie units index).significand ∧
    ((F.shortestFrom tie units index).exponent = index - F.places ∨
      F.onGrid? tie units ((F.shortestFrom tie units index).exponent + 1) = none) := by
  induction index with
  | zero => omega
  | succ index ih =>
    rw [shortestFrom]
    split
    · rename_i point hpoint
      exact ⟨hpoint, .inl rfl⟩
    · rename_i hnone
      rcases Nat.eq_zero_or_pos index with rfl | hpos
      · exact absurd hnone (by simpa using hlast)
      · obtain ⟨hgrid, hcoarser⟩ := ih hpos
        refine ⟨hgrid, .inr ?_⟩
        rcases hcoarser with hfirst | hcoarser
        · rw [hfirst]
          convert hnone using 2
          push_cast
          ring
        · exact hcoarser

/-! ### Single precision -/

theorem gridWidth_le_gridWidth {exponent' : ℤ} (h : exponent ≤ exponent') :
    F.gridWidth exponent ≤ F.gridWidth exponent' := by
  have hunit : (0 : ℚ) < F.unitsPerOne := by exact_mod_cast F.unitsPerOne_pos
  exact mul_le_mul_of_nonneg_left (zpow_le_zpow_right₀ (by norm_num) h) (by positivity)

theorem gridWidth_single (exponent : ℤ) : single.gridWidth exponent = 2 ^ 151 * 10 ^ exponent := by
  rw [gridWidth, Binary.unitsPerOne_single]
  norm_num

/-- What a decimal in the interval of a magnitude in single precision is like if it is the
shortest one. -/
structure IsShort (units : ℕ) (d : Decimal) : Prop where
  mem : (single.interval units).Mem (d.significand * single.gridWidth d.exponent)
  near : |d.significand * single.gridWidth d.exponent - 4 * units| ≤ single.gridWidth d.exponent
  pos : 0 < d.significand
  lt : d.significand < 2 ^ 28
  le_exponent : -45 ≤ d.exponent
  exponent_le : d.exponent ≤ 38

private theorem onGrid?_single_last (tie : Tie) (h : single.Representable units)
    (hpos : 0 < units) :
    single.onGrid? tie units (1 - single.places) ≠ none := by
  intro hnone
  have hwidth := width_le_of_onGrid?_eq_none hnone
  have hsize : ((single.interval units).low + 3 : ℚ) ≤ (single.interval units).high := by
    have hstep := Nat.one_le_two_pow (n := single.shift units)
    have hle := (interval_size h hpos).1
    exact_mod_cast (by omega : (single.interval units).low + 3 ≤ (single.interval units).high)
  have hfine : single.gridWidth (1 - single.places) < 3 := by
    rw [gridWidth_single]
    norm_num [single]
  linarith

theorem lt_ten_pow_digitCount (n : ℕ) : n < 10 ^ digitCount n :=
  (Nat.length_toDigits_le_iff (by decide) Nat.length_toDigits_pos).mp le_rfl

private theorem lt_gridWidth_first (units : ℕ) :
    4 * (units : ℚ) < F.gridWidth (digitCount (units / F.unitsPerOne) : ℕ) := by
  have hdigits := lt_ten_pow_digitCount (units / F.unitsPerOne)
  rw [Nat.div_lt_iff_lt_mul F.unitsPerOne_pos] at hdigits
  have hlt : (units : ℚ) < 10 ^ digitCount (units / F.unitsPerOne) * F.unitsPerOne := by
    exact_mod_cast hdigits
  rw [gridWidth, zpow_natCast]
  linarith

private theorem pos_of_mem (h : F.Representable units) (hpos : 0 < units)
    (hmem : (F.interval units).Mem (point * F.gridWidth exponent)) : 0 < point := by
  obtain ⟨m, w, hlow, hm, -, -⟩ := interval_end h hpos (.inl rfl)
  have hlow0 : 0 < (F.interval units).low := hlow ▸ Nat.mul_pos hm (Nat.two_pow_pos w)
  have hlow' : (0 : ℚ) < (F.interval units).low := by exact_mod_cast hlow0
  have hproduct := hlow'.trans_le hmem.low_le
  exact_mod_cast pos_of_mul_pos_left hproduct (F.gridWidth_pos exponent).le

/-- The grid of the shortest decimal is not much narrower than a step, unless it is the first one,
of which only one point is near enough. -/
private theorem shortest_coarse (tie : Tie) (h : single.Representable units) (hpos : 0 < units) :
    single.onGrid? tie units (single.shortest tie units).exponent =
      some (single.shortest tie units).significand ∧
    (3 * 2 ^ single.shift units ≤ 10 * single.gridWidth (single.shortest tie units).exponent ∨
      (single.shortest tie units).significand < 2 ∧ 0 ≤ (single.shortest tie units).exponent) := by
  have hindex : 0 < single.places + digitCount (units / single.unitsPerOne) := by
    simp [single]
  obtain ⟨hgrid, hcoarser⟩ := shortestFrom_spec (onGrid?_single_last tie h hpos) hindex
  rw [← shortest] at hgrid hcoarser
  generalize single.shortest tie units = d at *
  refine ⟨hgrid, ?_⟩
  rcases hcoarser with hfirst | hnone
  · right
    have hexponent : d.exponent = (digitCount (units / single.unitsPerOne) : ℕ) := by
      rw [hfirst]
      push_cast
      ring
    have hlt := lt_gridWidth_first (F := single) units
    have hupper := (abs_le.mp (abs_sub_le_of_onGrid? hgrid).2).2
    rw [← hexponent] at hlt
    have hproduct : d.significand * single.gridWidth d.exponent <
        2 * single.gridWidth d.exponent := by linarith
    refine ⟨?_, by omega⟩
    exact_mod_cast lt_of_mul_lt_mul_right hproduct (single.gridWidth_pos d.exponent).le
  · left
    have hsize : ((single.interval units).low + 3 * 2 ^ single.shift units : ℚ) ≤
        (single.interval units).high := by
      exact_mod_cast (interval_size h hpos).1
    have hnext := width_le_of_onGrid?_eq_none hnone
    rw [gridWidth_succ] at hnext
    linarith

theorem isShort_shortest (h : single.Representable units) (hpos : 0 < units) :
    IsShort units (single.shortest tie units) := by
  obtain ⟨hgrid, hcoarse⟩ := shortest_coarse tie h hpos
  generalize single.shortest tie units = d at *
  obtain ⟨hmem, hnear⟩ := abs_sub_le_of_onGrid? hgrid
  have hwidth := single.gridWidth_pos d.exponent
  have hpoint := pos_of_mem h hpos hmem
  have hhigh : ((single.interval units).high : ℚ) < 2 ^ 26 * 2 ^ single.shift units := by
    exact_mod_cast (interval_size h hpos).2
  refine ⟨hmem, hnear, hpoint, ?_, ?_, ?_⟩
  · rcases hcoarse with hcoarse | ⟨hfirst, -⟩
    · have hproduct : d.significand * single.gridWidth d.exponent <
          2 ^ 28 * single.gridWidth d.exponent := by
        linarith [hmem.le_high]
      exact_mod_cast lt_of_mul_lt_mul_right hproduct hwidth.le
    · omega
  · rcases hcoarse with hcoarse | ⟨-, hfirst⟩
    · by_contra hfine
      have hle := gridWidth_le_gridWidth (F := single) (by omega : d.exponent ≤ -46)
      have hnarrow : 10 * single.gridWidth (-46) < 3 := by
        rw [gridWidth_single]
        norm_num
      have hstep : (1 : ℚ) ≤ 2 ^ single.shift units := one_le_pow₀ one_le_two
      linarith
    · omega
  · by_contra hlarge
    have hle := gridWidth_le_gridWidth (F := single) (by omega : 39 ≤ d.exponent)
    have hshift : (2 ^ single.shift units : ℚ) ≤ 2 ^ 253 :=
      pow_le_pow_right₀ one_le_two h.shift_le
    have hwide : (2 ^ 26 * 2 ^ 253 : ℚ) < single.gridWidth 39 := by
      rw [gridWidth_single]
      norm_num
    have hproduct : single.gridWidth d.exponent ≤
        d.significand * single.gridWidth d.exponent :=
      le_mul_of_one_le_left hwidth.le (by exact_mod_cast hpoint)
    linarith [hmem.le_high]

end Format

end RateGovernor
