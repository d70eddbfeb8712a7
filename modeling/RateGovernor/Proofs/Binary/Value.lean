import Mathlib
import RateGovernor.Proofs.Binary.Rounding

/-!
# Values of floating-point numbers

A finite number has a rational value, and the order is that of the values. Sums, products and
quotients within range are rounded: no number of the format is nearer to the exact result, so an
operation keeps the order to every number of the format, and results that are not tiny are off by at
most one part in `2 ^ precision`.
-/

namespace RateGovernor

namespace Binary

variable {F : Format} {x y z : Binary F} {m n : ℕ} {q : ℚ}

/-- The value of a finite number. -/
def value : Binary F → ℚ
  | .finite negative units _ => signed negative units / F.unitsPerOne
  | _ => 0

theorem cast_unitsPerOne_pos (F : Format) : (0 : ℚ) < F.unitsPerOne := by
  exact_mod_cast F.unitsPerOne_pos

theorem exists_eq_finite (hx : x.isFinite) :
    ∃ negative units h, x = .finite negative units h := by
  cases x with
  | nan => simp [isFinite] at hx
  | infinite negative => simp [isFinite] at hx
  | finite negative units h => exact ⟨negative, units, h, rfl⟩

theorem exists_rank (hx : x.isFinite) :
    ∃ k : ℤ, x.rank = some k ∧ x.value * F.unitsPerOne = k := by
  have hunit := (cast_unitsPerOne_pos F).ne'
  obtain ⟨negative, units, h, rfl⟩ := exists_eq_finite hx
  refine ⟨signed negative units, rfl, ?_⟩
  rw [value]
  field_simp

theorem lt_iff_value (hx : x.isFinite) (hy : y.isFinite) : x < y ↔ x.value < y.value := by
  obtain ⟨j, hj, hxj⟩ := exists_rank hx
  obtain ⟨k, hk, hyk⟩ := exists_rank hy
  rw [lt_iff_rank hj hk, ← mul_lt_mul_iff_left₀ (cast_unitsPerOne_pos F), hxj, hyk, Int.cast_lt]

theorem le_iff_value (hx : x.isFinite) (hy : y.isFinite) : x ≤ y ↔ x.value ≤ y.value := by
  obtain ⟨j, hj, hxj⟩ := exists_rank hx
  obtain ⟨k, hk, hyk⟩ := exists_rank hy
  rw [le_iff_rank hj hk, ← mul_le_mul_iff_left₀ (cast_unitsPerOne_pos F), hxj, hyk, Int.cast_le]

theorem isZero_iff_value (hx : x.isFinite) : x.isZero = true ↔ x.value = 0 := by
  have hunit := (cast_unitsPerOne_pos F).ne'
  obtain ⟨k, hrank, hvalue⟩ := exists_rank hx
  rw [isZero, hrank, beq_iff_eq, Option.some_inj, ← mul_eq_zero_iff_right hunit, hvalue,
    Int.cast_eq_zero]

theorem isFinite_ofNat (h : F.Holds n) : (ofNat n : Binary F).isFinite := (isNat_ofNat h).1

theorem value_ofNat (h : F.Holds n) : (ofNat n : Binary F).value = n := by
  have hunit := (cast_unitsPerOne_pos F).ne'
  have hvalue : (ofNat n : Binary F).value = ((n * F.unitsPerOne : ℕ) : ℤ) / F.unitsPerOne := by
    rw [ofNat_of_holds h]
    rfl
  rw [hvalue]
  push_cast
  field_simp

theorem isFinite_zero : (0 : Binary F).isFinite := isFinite_ofNat (.zero F)

theorem value_zero : (0 : Binary F).value = 0 := by
  have h := value_ofNat (Format.Holds.zero F)
  rwa [Nat.cast_zero] at h

theorem isFinite_neg (hx : x.isFinite) : (-x).isFinite := by
  cases x with
  | nan => exact hx
  | infinite negative => exact hx
  | finite negative units h => rfl

theorem value_neg (x : Binary F) : (-x).value = -x.value := by
  cases x with
  | nan => exact neg_zero.symm
  | infinite negative => exact neg_zero.symm
  | finite negative units h =>
    change (signed (!negative) units : ℚ) / _ = -(signed negative units / _)
    cases negative <;> simp [signed] <;> ring

/-- The number that rounding makes of an exact result: no other one is nearer, and if the result is
not tiny it is off by at most one part in `2 ^ precision`. -/
structure IsRounded (q : ℚ) (x : Binary F) : Prop where
  isFinite : x.isFinite
  closest : ∀ z : Binary F, z.isFinite → |x.value - q| ≤ |z.value - q|
  error : 2 ^ F.precision ≤ |q| * F.unitsPerOne → |x.value - q| ≤ |q| / 2 ^ F.precision

namespace IsRounded

theorem le_value (h : IsRounded q x) (hz : z.isFinite) (hle : q ≤ z.value) :
    x.value ≤ z.value := by
  by_contra hlt
  have hclose := h.closest z hz
  rw [abs_of_nonneg (by linarith), abs_of_nonneg (by linarith)] at hclose
  linarith

theorem value_le (h : IsRounded q x) (hz : z.isFinite) (hle : z.value ≤ q) :
    z.value ≤ x.value := by
  by_contra hlt
  have hclose := h.closest z hz
  rw [abs_of_nonpos (by linarith), abs_of_nonpos (by linarith)] at hclose
  linarith

theorem value_le_add (h : IsRounded q x) (hz : z.isFinite) : x.value ≤ q + |z.value - q| := by
  linarith [(abs_le.mp (h.closest z hz)).2]

private theorem le_cast (h : IsRounded q x) (hm : F.Holds m) (hle : q ≤ m) : x.value ≤ m := by
  rw [← value_ofNat hm]
  exact h.le_value (isFinite_ofNat hm) (by rwa [value_ofNat hm])

theorem cast_le (h : IsRounded q x) (hm : F.Holds m) (hle : m ≤ q) : m ≤ x.value := by
  rw [← value_ofNat hm]
  exact h.value_le (isFinite_ofNat hm) (by rwa [value_ofNat hm])

theorem nonneg (h : IsRounded q x) (hq : 0 ≤ q) : 0 ≤ x.value := by
  have := h.cast_le (Format.Holds.zero F) (by exact_mod_cast hq)
  exact_mod_cast this

theorem nonpos (h : IsRounded q x) (hq : q ≤ 0) : x.value ≤ 0 := by
  have := h.le_cast (Format.Holds.zero F) (by exact_mod_cast hq)
  exact_mod_cast this

theorem nonneg_of_pos (h : IsRounded q x) (hpos : 0 < x.value) : 0 ≤ q := by
  by_contra hneg
  exact absurd (h.nonpos (not_le.mp hneg).le) hpos.not_ge

end IsRounded

theorem value_finite (negative : Bool) (units : ℕ) (h : F.Representable units) :
    (finite negative units h : Binary F).value =
      if negative then -(units / F.unitsPerOne : ℚ) else units / F.unitsPerOne := by
  cases negative with
  | false => simp [value, signed]
  | true => simp [value, signed, neg_div]

theorem abs_value_finite (negative : Bool) (units : ℕ) (h : F.Representable units) :
    |(finite negative units h : Binary F).value| = units / F.unitsPerOne := by
  have hnonneg : (0 : ℚ) ≤ units / F.unitsPerOne := by positivity
  rw [value_finite]
  cases negative <;> simp [abs_of_nonneg hnonneg]

private theorem isRounded_round {negative : Bool} {num den : ℕ} (hd : 0 < den)
    (hsign : q = if negative then -|q| else |q|) (habs : |q| = num / den / F.unitsPerOne)
    (hm : F.Holds m) (hle : |q| ≤ m) : IsRounded q (round negative num den : Binary F) := by
  have hunit := cast_unitsPerOne_pos F
  have hlimit : F.nearest num den < F.limit := by
    refine (F.nearest_le num hd hm ?_).trans_lt hm.lt_limit
    rw [habs, div_le_iff₀ hunit] at hle
    exact_mod_cast hle
  have hround : (round negative num den : Binary F) =
      .finite negative (F.nearest num den) (F.representable_nearest hlimit) := by
    rw [round, dif_pos hlimit]
  have hdist : ∀ w : ℚ, |w / F.unitsPerOne - num / den / F.unitsPerOne| =
      |w - num / den| / F.unitsPerOne := by
    intro w
    rw [← sub_div, abs_div, abs_of_pos hunit]
  -- The result has the sign of the quotient, so their distance is that of the magnitudes.
  have hsame : |(round negative num den : Binary F).value - q| =
      |(F.nearest num den : ℚ) - num / den| / F.unitsPerOne := by
    rw [← hdist, hround, value_finite, hsign, habs]
    cases negative with
    | false => simp
    | true => rw [if_pos rfl, if_pos rfl, ← neg_sub', abs_neg]
  refine ⟨by rw [hround]; rfl, ?_, ?_⟩
  · intro z hz
    obtain ⟨c, w, hw, rfl⟩ := exists_eq_finite hz
    have hfar := abs_abs_sub_abs_le (finite c w hw : Binary F).value q
    rw [abs_value_finite, habs, hdist] at hfar
    rw [hsame]
    exact (div_le_div_of_nonneg_right (F.nearest_closest num hd hw) hunit.le).trans hfar
  · rw [hsame, habs, div_mul_cancel₀ _ hunit.ne', div_right_comm]
    intro hlong
    exact div_le_div_of_nonneg_right (F.abs_nearest_sub_le num hd hlong) hunit.le

theorem eq_false_of_value_pos {negative : Bool} {units : ℕ} {h : F.Representable units}
    (hpos : 0 < (finite negative units h : Binary F).value) : negative = false := by
  have hnonneg : (0 : ℚ) ≤ units / F.unitsPerOne := by positivity
  rw [value_finite] at hpos
  cases negative with
  | false => rfl
  | true =>
    rw [if_pos rfl] at hpos
    linarith

theorem eq_of_value_eq (hx : x.isFinite) (hy : y.isFinite) (hpos : 0 < x.value)
    (h : x.value = y.value) : x = y := by
  have hunit := (cast_unitsPerOne_pos F).ne'
  obtain ⟨a, j, hj, rfl⟩ := exists_eq_finite hx
  obtain ⟨b, k, hk, rfl⟩ := exists_eq_finite hy
  obtain rfl := eq_false_of_value_pos hpos
  obtain rfl := eq_false_of_value_pos (h ▸ hpos)
  have hunits : |(finite false j hj : Binary F).value| = |(finite false k hk : Binary F).value| :=
    congrArg abs h
  rw [abs_value_finite, abs_value_finite, div_left_inj' hunit, Nat.cast_inj] at hunits
  subst hunits
  rfl

theorem IsRounded.value_eq_of_between {r : ℚ} (hq : IsRounded q x) (hr : IsRounded r y)
    (hlt : q < r) (hle : r ≤ x.value) : y.value = x.value := by
  have hyx := hr.le_value hq.isFinite hle
  by_contra hne
  have hlower : y.value < x.value := lt_of_le_of_ne hyx hne
  have hfar := hq.closest y hr.isFinite
  have hnear := hr.closest x hq.isFinite
  rw [abs_of_nonneg (by linarith)] at hfar
  rw [abs_of_nonneg (by linarith : 0 ≤ x.value - r)] at hnear
  rcases le_total q y.value with hbelow | habove
  · rw [abs_of_nonneg (by linarith)] at hfar
    linarith
  · rw [abs_of_nonpos (by linarith)] at hfar
    rw [abs_of_nonpos (by linarith)] at hnear
    linarith

section Operations

theorem isRounded_zero (negative : Bool) : IsRounded 0 (zero negative : Binary F) := by
  have hvalue : (zero negative : Binary F).value = 0 := by
    cases negative <;> simp [zero, value, signed]
  refine ⟨rfl, fun z _ => ?_, fun _ => ?_⟩
  · rw [hvalue, sub_self, abs_zero]
    exact abs_nonneg _
  · rw [hvalue, sub_self, abs_zero, zero_div]

private theorem eq_sign_mul_abs_intCast (k : ℤ) :
    (k : ℚ) = if decide (k < 0) then -|(k : ℚ)| else |(k : ℚ)| := by
  by_cases hk : k < 0
  · have hneg : (k : ℚ) < 0 := by exact_mod_cast hk
    simp [hk, abs_of_neg hneg]
  · have hnonneg : (0 : ℚ) ≤ k := by exact_mod_cast not_lt.mp hk
    simp [hk, abs_of_nonneg hnonneg]

theorem isRounded_ofInt {k : ℤ} (hm : F.Holds m) (hle : |(k : ℚ)| ≤ m) :
    IsRounded k (ofInt k : Binary F) := by
  have hunit := (cast_unitsPerOne_pos F).ne'
  refine isRounded_round Nat.one_pos (eq_sign_mul_abs_intCast k) ?_ hm hle
  push_cast [Nat.cast_natAbs]
  field_simp

theorem isRounded_ofNat (hm : F.Holds m) (hle : n ≤ m) : IsRounded n (ofNat n : Binary F) := by
  have hunit := (cast_unitsPerOne_pos F).ne'
  have habs : |(n : ℚ)| = n := abs_of_nonneg n.cast_nonneg
  refine isRounded_round Nat.one_pos (by simp) ?_ hm (by rw [habs]; exact_mod_cast hle)
  rw [habs]
  push_cast
  field_simp

theorem isRounded_add (hx : x.isFinite) (hy : y.isFinite) (hm : F.Holds m)
    (hle : |x.value + y.value| ≤ m) : IsRounded (x.value + y.value) (x + y) := by
  have hunit := cast_unitsPerOne_pos F
  obtain ⟨a, j, hj, rfl⟩ := exists_eq_finite hx
  obtain ⟨b, k, hk, rfl⟩ := exists_eq_finite hy
  have hvalue : (finite a j hj : Binary F).value + (finite b k hk : Binary F).value =
      ((signed a j + signed b k : ℤ) : ℚ) / F.unitsPerOne := by
    rw [value, value]
    push_cast
    ring
  rw [hvalue] at hle ⊢
  change IsRounded _ (Binary.add _ _)
  simp only [Binary.add]
  generalize signed a j + signed b k = sum at hle ⊢
  split
  · rename_i hzero
    rw [hzero, Int.cast_zero, zero_div]
    exact isRounded_zero _
  · have habs : |(sum / F.unitsPerOne : ℚ)| = |(sum : ℚ)| / F.unitsPerOne := by
      rw [abs_div, abs_of_pos hunit]
    refine isRounded_round Nat.one_pos ?_ ?_ hm hle
    · rw [habs]
      nth_rewrite 1 [eq_sign_mul_abs_intCast sum]
      split
      · exact neg_div _ _
      · rfl
    · rw [habs, Nat.cast_natAbs]
      simp

theorem isRounded_sub (hx : x.isFinite) (hy : y.isFinite) (hm : F.Holds m)
    (hle : |x.value - y.value| ≤ m) : IsRounded (x.value - y.value) (x - y) := by
  have h := isRounded_add hx (isFinite_neg hy) hm (by rwa [value_neg, ← sub_eq_add_neg])
  rwa [value_neg, ← sub_eq_add_neg] at h

theorem isRounded_mul (hx : x.isFinite) (hy : y.isFinite) (hm : F.Holds m)
    (hle : |x.value * y.value| ≤ m) : IsRounded (x.value * y.value) (x * y) := by
  have hunit := cast_unitsPerOne_pos F
  obtain ⟨a, j, hj, rfl⟩ := exists_eq_finite hx
  obtain ⟨b, k, hk, rfl⟩ := exists_eq_finite hy
  refine isRounded_round F.unitsPerOne_pos ?_ ?_ hm hle
  · rw [abs_mul, abs_value_finite, abs_value_finite, value_finite, value_finite]
    cases a <;> cases b <;> simp
  · rw [abs_mul, abs_value_finite, abs_value_finite]
    push_cast
    field_simp

theorem finite_div_finite {a b : Bool} {j k : ℕ} (hj : F.Representable j) (hk : F.Representable k)
    (hne : k ≠ 0) :
    (finite a j hj / finite b k hk : Binary F) = round (a != b) (j * F.unitsPerOne) k := by
  change Binary.div _ _ = _
  simp only [Binary.div, hne, if_false]

theorem isRounded_div (hx : x.isFinite) (hy : y.isFinite) (hne : y.value ≠ 0) (hm : F.Holds m)
    (hle : |x.value / y.value| ≤ m) : IsRounded (x.value / y.value) (x / y) := by
  have hunit := cast_unitsPerOne_pos F
  obtain ⟨a, j, hj, rfl⟩ := exists_eq_finite hx
  obtain ⟨b, k, hk, rfl⟩ := exists_eq_finite hy
  have hk0 : k ≠ 0 := by
    rintro rfl
    rw [value_finite] at hne
    simp at hne
  rw [finite_div_finite hj hk hk0]
  refine isRounded_round (Nat.pos_of_ne_zero hk0) ?_ ?_ hm hle
  · rw [abs_div, abs_value_finite, abs_value_finite, value_finite, value_finite]
    cases a <;> cases b <;> simp [neg_div, div_neg]
  · rw [abs_div, abs_value_finite, abs_value_finite]
    push_cast
    field_simp

theorem exists_value_eq {k : ℤ} (hk : k.natAbs < 2 ^ F.precision) :
    ∃ z : Binary F, z.isFinite ∧ z.value * F.unitsPerOne = k := by
  have hunit := (cast_unitsPerOne_pos F).ne'
  have hrep : F.Representable k.natAbs :=
    ⟨k.natAbs, 0, by simp, by rwa [Nat.one_shiftLeft], Nat.zero_le _⟩
  refine ⟨.finite (decide (k < 0)) k.natAbs hrep, rfl, ?_⟩
  rw [value_finite, eq_sign_mul_abs_intCast k, Nat.cast_natAbs, Int.cast_abs]
  split
  · field_simp
  · field_simp

/-- A sum is never off by more than one part in `2 ^ precision`, as small sums are exact. -/
theorem error_add (hx : x.isFinite) (hy : y.isFinite) (h : IsRounded (x.value + y.value) (x + y)) :
    |(x + y).value - (x.value + y.value)| ≤ |x.value + y.value| / 2 ^ F.precision := by
  have hunit := cast_unitsPerOne_pos F
  by_cases hlong : 2 ^ F.precision ≤ |x.value + y.value| * F.unitsPerOne
  · exact h.error hlong
  · obtain ⟨j, -, hj⟩ := exists_rank hx
    obtain ⟨k, -, hk⟩ := exists_rank hy
    have hsum : (x.value + y.value) * F.unitsPerOne = (j + k : ℤ) := by
      push_cast
      rw [add_mul, hj, hk]
    have hshort : (j + k).natAbs < 2 ^ F.precision := by
      have hlt : |((j + k : ℤ) : ℚ)| < 2 ^ F.precision := by
        rw [← hsum, abs_mul, abs_of_pos hunit]
        exact not_le.mp hlong
      rw [← Int.cast_abs, ← Nat.cast_natAbs] at hlt
      exact_mod_cast hlt
    obtain ⟨z, hz, hzvalue⟩ := exists_value_eq hshort
    have hexact : z.value = x.value + y.value := by
      rw [← hsum] at hzvalue
      exact mul_right_cancel₀ hunit.ne' hzvalue
    have hclose := h.closest z hz
    rw [hexact, sub_self, abs_zero] at hclose
    exact hclose.trans (by positivity)

theorem error_sub (hx : x.isFinite) (hy : y.isFinite) (h : IsRounded (x.value - y.value) (x - y)) :
    |(x - y).value - (x.value - y.value)| ≤ |x.value - y.value| / 2 ^ F.precision := by
  have hsub : x.value - y.value = x.value + (-y).value := by rw [value_neg, sub_eq_add_neg]
  rw [hsub] at h ⊢
  exact error_add hx (isFinite_neg hy) h

end Operations

section Range

theorem nonneg_of_pos (hpos : 0 < x) : 0 ≤ x := by
  change Ranked _ _ _ at hpos ⊢
  rw [Ranked, rank_zero] at hpos ⊢
  cases hk : x.rank with
  | none =>
    rw [hk] at hpos
    exact hpos
  | some k =>
    rw [hk] at hpos
    exact Int.le_of_lt hpos

theorem isZero_of_pos (hpos : 0 < x) : x.isZero = false := by
  change Ranked _ _ _ at hpos
  rw [Ranked, rank_zero] at hpos
  cases hk : x.rank with
  | none => simp [isZero, hk]
  | some k =>
    rw [hk] at hpos
    have hne : k ≠ 0 := hpos.ne'
    simp [isZero, hk, hne]

theorem nonneg_iff_value (hx : x.isFinite) : 0 ≤ x ↔ 0 ≤ x.value := by
  rw [le_iff_value isFinite_zero hx, value_zero]

theorem infinite_or_finite (hx : 0 ≤ x) : x = .infinite false ∨ x.isFinite ∧ 0 ≤ x.value := by
  cases x with
  | nan =>
    change Ranked _ _ _ at hx
    rw [Ranked, rank_zero] at hx
    exact hx.elim
  | infinite negative =>
    cases negative with
    | false => exact .inl rfl
    | true =>
      have hlimit := F.representable_zero.lt_limit
      rw [le_iff_rank rank_zero rfl] at hx
      simp only [signed, if_true] at hx
      omega
  | finite negative units h => exact .inr ⟨rfl, (nonneg_iff_value rfl).mp hx⟩

theorem isFinite_of_nonneg_of_lt (hx : 0 ≤ x) (hlt : x < y) : x.isFinite := by
  rcases infinite_or_finite hx with rfl | ⟨hfinite, -⟩
  · cases y with
    | nan =>
      change Ranked _ _ _ at hlt
      exact hlt.elim
    | infinite negative =>
      rw [lt_iff_rank rfl rfl] at hlt
      cases negative <;> simp [signed] at hlt
      omega
    | finite negative units h =>
      have hlimit := h.lt_limit
      rw [lt_iff_rank rfl rfl] at hlt
      cases negative <;> simp [signed] at hlt <;> omega
  · exact hfinite

/-- A number between zero and a natural bound. -/
structure Within (x : Binary F) (m : ℕ) : Prop where
  isFinite : x.isFinite
  nonneg : 0 ≤ x.value
  le : x.value ≤ m

theorem Within.mono (h : x.Within m) (hmn : m ≤ n) : x.Within n :=
  ⟨h.isFinite, h.nonneg, h.le.trans (by exact_mod_cast hmn)⟩

theorem Within.of_le (h : x.Within m) (hy : y.isFinite) (hnonneg : 0 ≤ y.value)
    (hle : y.value ≤ x.value) : y.Within m :=
  ⟨hy, hnonneg, hle.trans h.le⟩

theorem Within.zero_le (h : x.Within m) : 0 ≤ x := (nonneg_iff_value h.isFinite).mpr h.nonneg

theorem within_zero (m : ℕ) : (0 : Binary F).Within m :=
  ⟨isFinite_zero, value_zero.ge, by rw [value_zero]; exact m.cast_nonneg⟩

theorem IsRounded.within (h : IsRounded q x) (hm : F.Holds m) (hq : 0 ≤ q) (hle : q ≤ m) :
    x.Within m :=
  ⟨h.isFinite, h.nonneg hq, h.le_cast hm hle⟩

theorem within_ofNat (hm : F.Holds m) (hle : n ≤ m) : (ofNat n : Binary F).Within m :=
  (isRounded_ofNat hm hle).within hm n.cast_nonneg (by exact_mod_cast hle)

namespace Within

variable {a b : ℕ}

theorem isRounded_mul (hx : x.Within a) (hy : y.Within b) (hm : F.Holds m) (hle : a * b ≤ m) :
    IsRounded (x.value * y.value) (x * y) ∧ (x * y).Within m := by
  have hnonneg : 0 ≤ x.value * y.value := mul_nonneg hx.nonneg hy.nonneg
  have hbound : x.value * y.value ≤ m :=
    calc x.value * y.value ≤ a * b := mul_le_mul hx.le hy.le hy.nonneg a.cast_nonneg
      _ ≤ m := by exact_mod_cast hle
  have h := Binary.isRounded_mul hx.isFinite hy.isFinite hm (by rwa [abs_of_nonneg hnonneg])
  exact ⟨h, h.within hm hnonneg hbound⟩

theorem isRounded_div (hx : x.Within a) (hy : y.isFinite) {c : ℕ} (hc : 0 < c)
    (hcy : c ≤ y.value) (hm : F.Holds m) (hle : a ≤ m * c) :
    IsRounded (x.value / y.value) (x / y) ∧ (x / y).Within m := by
  have hc' : (0 : ℚ) < c := by exact_mod_cast hc
  have hpos : 0 < y.value := hc'.trans_le hcy
  have hnonneg : 0 ≤ x.value / y.value := div_nonneg hx.nonneg hpos.le
  have hbound : x.value / y.value ≤ m := by
    rw [div_le_iff₀ hpos]
    calc x.value ≤ a := hx.le
      _ ≤ m * c := by exact_mod_cast hle
      _ ≤ m * y.value := mul_le_mul_of_nonneg_left hcy m.cast_nonneg
  have h := Binary.isRounded_div hx.isFinite hy hpos.ne' hm (by rwa [abs_of_nonneg hnonneg])
  exact ⟨h, h.within hm hnonneg hbound⟩

end Within

theorem pos_iff_value (hx : x.isFinite) : 0 < x ↔ 0 < x.value := by
  rw [lt_iff_value isFinite_zero hx, value_zero]

theorem nonneg_positivePart (x : Binary F) : 0 ≤ x.positivePart := by
  rw [positivePart]
  split
  · rename_i hpos
    exact nonneg_of_pos hpos
  · rw [nonneg_iff_value isFinite_zero, value_zero]

theorem isFinite_positivePart (hx : x.isFinite) : x.positivePart.isFinite := by
  rw [positivePart]
  split
  · exact hx
  · exact isFinite_zero

theorem value_positivePart (hx : x.isFinite) : x.positivePart.value = max x.value 0 := by
  rw [positivePart]
  split
  · rename_i hpos
    exact (max_eq_left ((pos_iff_value hx).mp hpos).le).symm
  · rename_i hpos
    rw [pos_iff_value hx, not_lt] at hpos
    rw [value_zero, max_eq_right hpos]

theorem positivePart_of_nonpos (hx : x.isFinite) (hle : x.value ≤ 0) : x.positivePart = 0 := by
  rw [positivePart, if_neg]
  rw [pos_iff_value hx]
  exact hle.not_gt

theorem value_positivePart_of_pos (hx : x.isFinite) (hpos : 0 < x.positivePart.value) :
    x.positivePart.value = x.value := by
  rw [value_positivePart hx] at hpos ⊢
  rcases lt_max_iff.mp hpos with hlt | habsurd
  · exact max_eq_left hlt.le
  · exact absurd habsurd (lt_irrefl _)

/-- What is added to a power of two is lost unless it reaches half the distance to the next
number. -/
theorem IsRounded.le_two_pow {k : ℕ} (h : IsRounded q x) (hm : F.Holds (2 ^ (k + F.precision)))
    (hq : q < 2 ^ (k + F.precision) + 2 ^ k) : x.value ≤ (2 ^ (k + F.precision) : ℕ) := by
  by_contra hlt
  rw [not_le] at hlt
  have hunit := cast_unitsPerOne_pos F
  obtain ⟨negative, units, hrep, hx⟩ := exists_eq_finite h.isFinite
  have hpos : 0 < x.value := lt_of_le_of_lt (Nat.cast_nonneg _) hlt
  have hvalue : x.value = units / F.unitsPerOne := by
    rw [← abs_of_pos hpos, hx, abs_value_finite]
  have hscale : ∀ j, 2 ^ (j + F.places) = 2 ^ j * F.unitsPerOne := fun j => by
    rw [Format.unitsPerOne, Nat.one_shiftLeft, pow_add]
  have hgap : 2 ^ (k + F.precision) * F.unitsPerOne + 2 ^ (k + 1) * F.unitsPerOne ≤ units := by
    rw [← hscale, ← hscale, add_right_comm, add_right_comm k 1]
    refine hrep.two_pow_add_le ?_
    rw [add_right_comm, hscale]
    rw [hvalue, lt_div_iff₀ hunit] at hlt
    exact_mod_cast hlt
  have hfar : (2 ^ (k + F.precision) + 2 ^ (k + 1) : ℚ) ≤ x.value := by
    rw [hvalue, le_div_iff₀ hunit, add_mul]
    exact_mod_cast hgap
  have hclose := h.closest (ofNat (2 ^ (k + F.precision))) (isFinite_ofNat hm)
  rw [value_ofNat hm] at hclose
  push_cast at hlt hclose
  have hdouble : (2 ^ (k + 1) : ℚ) = 2 * 2 ^ k := by ring
  rcases le_total q (2 ^ (k + F.precision)) with hbelow | habove
  · rw [abs_of_nonneg (by linarith), abs_of_nonneg (by linarith)] at hclose
    linarith
  · rw [abs_of_nonneg (by linarith), abs_of_nonpos (by linarith)] at hclose
    linarith

theorem one_le_value_ofNat (hn : 1 ≤ n) (hm : F.Holds m) (hnm : n ≤ m) (hone : F.Holds 1) :
    1 ≤ (ofNat n : Binary F).value := by
  have h := (isRounded_ofNat hm hnm).cast_le hone (by exact_mod_cast hn)
  exact_mod_cast h

theorem not_zero_lt_zero : ¬ (0 : Binary F) < 0 := by
  rw [lt_iff_value isFinite_zero isFinite_zero]
  exact lt_irrefl _

theorem pos_of_not_neg_of_lt (hx : ¬ x < 0) (hlt : x < y) : 0 < y := by
  have hranks : ∃ j k, x.rank = some j ∧ y.rank = some k := by
    cases hj : x.rank with
    | none => exact absurd hlt (by simp [LT.lt, Ranked, hj])
    | some j =>
      cases hk : y.rank with
      | none => exact absurd hlt (by simp [LT.lt, Ranked, hk])
      | some k => exact ⟨j, k, rfl, rfl⟩
  obtain ⟨j, k, hj, hk⟩ := hranks
  rw [lt_iff_rank hj rank_zero] at hx
  rw [lt_iff_rank hj hk] at hlt
  rw [lt_iff_rank rank_zero hk]
  omega

private theorem not_neg_of_rank {k : ℤ} (hx : x.rank = some k) (hk : 0 ≤ k) : ¬ x < 0 := by
  rw [lt_iff_rank hx rank_zero]
  omega

private theorem rank_round (negative : Bool) (num den : ℕ) :
    ∃ k : ℕ, (round negative num den : Binary F).rank = some (signed negative k) ∧
      (num = 0 → k = 0) := by
  rw [round]
  split
  · refine ⟨F.nearest num den, rfl, ?_⟩
    rintro rfl
    simp [Format.nearest, roundHalfEven]
  · rename_i hlimit
    refine ⟨F.limit, rfl, ?_⟩
    rintro rfl
    refine absurd ?_ hlimit
    have hzero : F.nearest 0 den = 0 := by simp [Format.nearest, roundHalfEven]
    rw [hzero]
    exact F.representable_zero.lt_limit

private theorem eq_zero_or_of_signed_nonneg {negative : Bool} {units : ℕ}
    (h : 0 ≤ signed negative units) :
    units = 0 ∨ negative = false := by
  cases negative with
  | false => exact .inr rfl
  | true =>
    simp only [signed, if_true] at h
    omega

theorem not_neg_mul (hx : x.isFinite) (hnonneg : 0 ≤ x.value) (hy : 0 ≤ y) : ¬ x * y < 0 := by
  obtain ⟨a, j, hj, rfl⟩ := exists_eq_finite hx
  have hsign : j = 0 ∨ a = false := by
    refine eq_zero_or_of_signed_nonneg ?_
    rw [value, le_div_iff₀ (cast_unitsPerOne_pos F), zero_mul] at hnonneg
    exact_mod_cast hnonneg
  have hyrank : ∀ {k : ℤ}, y.rank = some k → 0 ≤ k := by
    intro k hk
    change Ranked _ _ _ at hy
    rwa [Ranked, rank_zero, hk] at hy
  change ¬ Binary.mul _ _ < 0
  cases y with
  | nan =>
    change Ranked _ _ _ at hy
    rw [Ranked, rank_zero] at hy
    exact hy.elim
  | infinite b =>
    simp only [Binary.mul]
    split
    · simp [LT.lt, Ranked, rank]
    · rename_i hj0
      rw [hsign.resolve_left hj0]
      rcases eq_zero_or_of_signed_nonneg (hyrank rfl) with hlimit | hb
      · exact absurd hlimit F.representable_zero.lt_limit.ne'
      · rw [hb]
        exact not_neg_of_rank rfl (Int.natCast_nonneg _)
  | finite b k hk =>
    simp only [Binary.mul]
    obtain ⟨units, hrank, hzero⟩ := rank_round (F := F) (a != b) (j * k) F.unitsPerOne
    refine not_neg_of_rank hrank ?_
    by_cases hjk : j * k = 0
    · rw [hzero hjk]
      cases a != b <;> simp [signed]
    · obtain ⟨hj0, hk0⟩ := mul_ne_zero_iff.mp hjk
      rw [hsign.resolve_left hj0, (eq_zero_or_of_signed_nonneg (hyrank rfl)).resolve_left hk0]
      exact Int.natCast_nonneg _

theorem truncate_le_bound (x : Binary F) (bound : ℕ) : x.truncate bound ≤ bound := by
  cases x with
  | nan => exact Nat.le_refl _
  | infinite negative => cases negative <;> simp [truncate]
  | finite negative units h => cases negative <;> simp [truncate]

theorem truncate_round (num : ℕ) {bound : ℕ} (hbound : bound * F.unitsPerOne ≤ F.limit) :
    (round false num 1 : Binary F).truncate bound =
      min (F.nearest num 1 / F.unitsPerOne) bound := by
  rw [round]
  split
  · rfl
  · rename_i hlarge
    symm
    apply min_eq_right
    rw [Nat.le_div_iff_mul_le F.unitsPerOne_pos]
    exact hbound.trans (not_lt.mp hlarge)

theorem truncate_eq_floor (hx : x.isFinite) (bound : ℕ) :
    x.truncate bound = min ⌊x.value⌋₊ bound := by
  obtain ⟨negative, units, h, rfl⟩ := exists_eq_finite hx
  rw [value_finite]
  cases negative with
  | true =>
    have hnonpos : -((units : ℚ) / F.unitsPerOne) ≤ 0 := neg_nonpos.mpr (by positivity)
    rw [if_pos rfl, Nat.floor_of_nonpos hnonpos, Nat.zero_min]
    rfl
  | false =>
    rw [if_neg (by decide), Nat.floor_div_eq_div]
    rfl

theorem truncate_le_value (hx : x.isFinite) (hnonneg : 0 ≤ x.value) (bound : ℕ) :
    (x.truncate bound : ℚ) ≤ x.value := by
  have hle : (min ⌊x.value⌋₊ bound : ℚ) ≤ ⌊x.value⌋₊ := min_le_left _ _
  rw [truncate_eq_floor hx]
  push_cast
  exact hle.trans (Nat.floor_le hnonneg)

theorem one_le_truncate (hx : x.isFinite) (hone : 1 ≤ x.value) {bound : ℕ} (hb : 1 ≤ bound) :
    1 ≤ x.truncate bound := by
  rw [truncate_eq_floor hx]
  exact le_min ((Nat.one_le_floor_iff _).mpr hone) hb

end Range

end Binary

end RateGovernor
