import Mathlib
import RateGovernor.Proofs.Binary.Value

/-!
# Rounding and order

Rounding depends on the exact result alone and never reverses the order of two of them, even where
they give up different numbers of bits or lie beyond the limit. So the sum, the product and the
quotient with a fixed number keep the order of what varies.
-/

namespace RateGovernor

namespace Format

variable (F : Format) {num den num' den' : ℕ}

@[simp] theorem nearest_zero (den : ℕ) : F.nearest 0 den = 0 := by
  simp [nearest, roundHalfEven]

private theorem nearest_congr (hd : 0 < den) (hd' : 0 < den') (h : num * den' = num' * den) :
    F.nearest num den = F.nearest num' den' := by
  calc F.nearest num den = F.nearest (num * den') (den * den') := (F.nearest_mul_right _ _ hd').symm
    _ = F.nearest (num' * den) (den' * den) := by rw [h, Nat.mul_comm den den']
    _ = F.nearest num' den' := F.nearest_mul_right _ _ hd

private theorem nearest_mono (hd : 0 < den) (hd' : 0 < den') (h : num * den' ≤ num' * den) :
    F.nearest num den ≤ F.nearest num' den' := by
  rcases h.lt_or_eq with hlt | heq
  · by_contra hgt
    rw [not_le] at hgt
    -- Rounding does not look at the limit, so take one that neither result reaches.
    let wide : Format := { F with maxShift := F.nearest num den }
    have hlimit : ∀ units ≤ F.nearest num den, units < wide.limit := by
      intro units hunits
      rw [Format.limit, Nat.one_shiftLeft]
      calc units < 2 ^ units := Nat.lt_two_pow_self
        _ ≤ 2 ^ (wide.precision + wide.maxShift) :=
          Nat.pow_le_pow_right (by decide) (hunits.trans (Nat.le_add_left _ _))
    have hclose : |(F.nearest num den : ℚ) - num / den| ≤ |(F.nearest num' den' : ℚ) - num / den| :=
      wide.nearest_closest num hd (wide.representable_nearest (hlimit _ hgt.le))
    have hclose' :
        |(F.nearest num' den' : ℚ) - num' / den'| ≤ |(F.nearest num den : ℚ) - num' / den'| :=
      wide.nearest_closest num' hd' (wide.representable_nearest (hlimit _ le_rfl))
    have hquotients : (num / den : ℚ) < num' / den' := by
      rw [div_lt_div_iff₀ (by exact_mod_cast hd) (by exact_mod_cast hd')]
      exact_mod_cast hlt
    have hresults : (F.nearest num' den' : ℚ) < F.nearest num den := by exact_mod_cast hgt
    have hproduct := mul_pos (sub_pos.mpr hresults) (sub_pos.mpr hquotients)
    rw [← sq_le_sq] at hclose hclose'
    linarith
  · exact (F.nearest_congr hd hd' heq).le

end Format

@[simp] theorem signed_false (units : ℕ) : signed false units = units := rfl

@[simp] theorem signed_true (units : ℕ) : signed true units = -units := rfl

private theorem signed_mul (a b : Bool) (j k : ℕ) :
    signed (a != b) (j * k) = signed a j * signed b k := by
  cases a <;> cases b <;> simp

private theorem signed_decide (k : ℤ) : signed (decide (k < 0)) k.natAbs = k := by
  rw [signed]
  split
  · rename_i hneg
    rw [decide_eq_true_iff] at hneg
    omega
  · rename_i hnonneg
    rw [decide_eq_true_iff] at hnonneg
    omega

namespace Binary

variable {F : Format} {x x' y z : Binary F} {num den num' den' m n : ℕ}

theorem Ranked.exists_rank {r : ℤ → ℤ → Prop} (h : Ranked r x y) :
    ∃ j k, x.rank = some j ∧ y.rank = some k ∧ r j k := by
  rw [Ranked] at h
  split at h
  · rename_i j k hj hk
    exact ⟨j, k, hj, hk, h⟩
  · exact h.elim

theorem exists_rank_of_le (h : x ≤ y) : ∃ j k, x.rank = some j ∧ y.rank = some k ∧ j ≤ k :=
  Ranked.exists_rank h

theorem exists_rank_of_lt (h : x < y) : ∃ j k, x.rank = some j ∧ y.rank = some k ∧ j < k :=
  Ranked.exists_rank h

protected theorem le_refl (hx : x.isFinite) : x ≤ x := (le_iff_value hx hx).mpr le_rfl

protected theorem le_trans (hxy : x ≤ y) (hyz : y ≤ z) : x ≤ z := by
  obtain ⟨i, j, hi, hj, hij⟩ := exists_rank_of_le hxy
  obtain ⟨j', k, hj', hk, hjk⟩ := exists_rank_of_le hyz
  rw [hj, Option.some_inj] at hj'
  rw [le_iff_rank hi hk]
  omega

protected theorem lt_of_lt_of_le (hxy : x < y) (hyz : y ≤ z) : x < z := by
  obtain ⟨i, j, hi, hj, hij⟩ := exists_rank_of_lt hxy
  obtain ⟨j', k, hj', hk, hjk⟩ := exists_rank_of_le hyz
  rw [hj, Option.some_inj] at hj'
  rw [lt_iff_rank hi hk]
  omega

protected theorem lt_irrefl (x : Binary F) : ¬ x < x := by
  intro h
  obtain ⟨j, k, hj, hk, hjk⟩ := exists_rank_of_lt h
  rw [hj, Option.some_inj] at hk
  omega

private theorem rank_round_eq (negative : Bool) (num den : ℕ) :
    (round negative num den : Binary F).rank =
      some (signed negative (min (F.nearest num den) F.limit)) := by
  rw [round]
  split
  · rename_i hlt
    rw [min_eq_left hlt.le]
    rfl
  · rename_i hge
    rw [min_eq_right (not_lt.mp hge)]
    rfl

theorem round_le_round {negative negative' : Bool} (hd : 0 < den) (hd' : 0 < den')
    (h : signed negative num * den' ≤ signed negative' num' * den) :
    (round negative num den : Binary F) ≤ round negative' num' den' := by
  rw [le_iff_rank (rank_round_eq _ _ _) (rank_round_eq _ _ _)]
  cases negative with
  | false =>
    cases negative' with
    | false =>
      rw [signed_false, signed_false] at h
      have hle : num * den' ≤ num' * den := by exact_mod_cast h
      have hmin := min_le_min_right F.limit (F.nearest_mono hd hd' hle)
      rw [signed_false, signed_false]
      exact_mod_cast hmin
    | true =>
      -- Nothing that is not negative lies below zero or zero itself but zero.
      have hsum : num * den' + num' * den = 0 := by
        rw [signed_false, signed_true, neg_mul] at h
        zify
        have hnum : (0 : ℤ) ≤ num * den' := by positivity
        have hnum' : (0 : ℤ) ≤ num' * den := by positivity
        linarith
      obtain ⟨hnum, hnum'⟩ := Nat.add_eq_zero_iff.mp hsum
      rw [Nat.mul_eq_zero, or_iff_left hd'.ne'] at hnum
      rw [Nat.mul_eq_zero, or_iff_left hd.ne'] at hnum'
      rw [hnum, hnum', F.nearest_zero, F.nearest_zero, Nat.zero_min, signed_false, signed_true,
        Int.ofNat_zero, neg_zero]
  | true =>
    cases negative' with
    | false =>
      rw [signed_true, signed_false]
      omega
    | true =>
      have hle : num' * den ≤ num * den' := by
        rw [signed_true, signed_true, neg_mul, neg_mul, neg_le_neg_iff] at h
        exact_mod_cast h
      have hmin := min_le_min_right F.limit (F.nearest_mono hd' hd hle)
      rw [signed_true, signed_true, neg_le_neg_iff]
      exact_mod_cast hmin

theorem ofNat_le_ofNat_of_le (h : m ≤ n) : (ofNat m : Binary F) ≤ ofNat n := by
  apply round_le_round Nat.one_pos Nat.one_pos
  rw [signed_false, signed_false]
  gcongr

/-- An exact sum of zero gets its sign from a rule of its own, which does not show in the order. -/
private theorem rank_add_finite (a b : Bool) {j k : ℕ} (hj : F.Representable j)
    (hk : F.Representable k) :
    (finite a j hj + finite b k hk : Binary F).rank =
      (round (decide (signed a j + signed b k < 0)) (signed a j + signed b k).natAbs 1 :
        Binary F).rank := by
  change (Binary.add _ _).rank = _
  simp only [Binary.add]
  split
  · rename_i hzero
    rw [hzero, rank_round_eq, Int.natAbs_zero, Format.nearest_zero]
    cases a && b <;> rfl
  · rfl

theorem finite_add_finite {j k : ℕ} (hj : F.Representable j) (hk : F.Representable k)
    (hpos : 0 < k) :
    (finite false j hj + finite false k hk : Binary F) = round false (j + k) 1 := by
  have hne : (j + k : ℤ) ≠ 0 := by omega
  have hsign : ¬ (j + k : ℤ) < 0 := by omega
  change Binary.add _ _ = _
  simp only [Binary.add, signed_false, if_neg hne, hsign, decide_false]
  congr 1

private theorem rank_bounds {k : ℤ} (h : x.rank = some k) : -(F.limit : ℤ) ≤ k ∧ k ≤ F.limit := by
  cases x with
  | nan => cases h
  | infinite negative =>
    cases h
    cases negative <;> simp
  | finite negative units hunits =>
    cases h
    have hlimit := hunits.lt_limit
    cases negative <;> simp <;> omega

private theorem le_iff_le_of_rank_eq {w : Binary F} (hx : x.rank = y.rank) (hz : z.rank = w.rank) :
    x ≤ z ↔ y ≤ w := by
  change Ranked _ _ _ ↔ Ranked _ _ _
  rw [Ranked, Ranked, hx, hz]

theorem add_le_add_of_finite (hle : x ≤ x') (hy : y.isFinite) : x + y ≤ x' + y := by
  obtain ⟨b, k, hk, rfl⟩ := exists_eq_finite hy
  obtain ⟨i, i', hi, hi', hii'⟩ := exists_rank_of_le hle
  cases x with
  | nan => cases hi
  | infinite a =>
    cases x' with
    | nan => cases hi'
    | infinite a' => exact hle
    | finite a' j' hj' =>
      have hsum := (rank_add_finite a' b hj' hk).trans (rank_round_eq _ _ _)
      have hlimit := hj'.lt_limit
      cases hi
      cases hi'
      obtain rfl : a = true := by
        cases a <;> cases a' <;> simp at hii' ⊢ <;> omega
      change infinite true ≤ _
      rw [le_iff_rank rfl hsum]
      exact (rank_bounds hsum).1
  | finite a j hj =>
    cases x' with
    | nan => cases hi'
    | infinite a' =>
      have hsum := (rank_add_finite a b hj hk).trans (rank_round_eq _ _ _)
      have hlimit := hj.lt_limit
      cases hi
      cases hi'
      obtain rfl : a' = false := by
        cases a <;> cases a' <;> simp at hii' ⊢ <;> omega
      change _ ≤ infinite false
      rw [le_iff_rank hsum rfl]
      exact (rank_bounds hsum).2
    | finite a' j' hj' =>
      rw [le_iff_le_of_rank_eq (rank_add_finite a b hj hk) (rank_add_finite a' b hj' hk)]
      apply round_le_round Nat.one_pos Nat.one_pos
      cases hi
      cases hi'
      rw [signed_decide, signed_decide]
      gcongr

protected theorem add_comm (x y : Binary F) : x + y = y + x := by
  change Binary.add x y = Binary.add y x
  cases x with
  | nan => cases y <;> rfl
  | infinite a =>
    cases y with
    | nan => rfl
    | infinite b => cases a <;> cases b <;> rfl
    | finite b k hk => rfl
  | finite a j hj =>
    cases y with
    | nan => rfl
    | infinite b => rfl
    | finite b k hk => simp only [Binary.add, Int.add_comm (signed a j), Bool.and_comm a]

theorem sub_le_sub_of_nonneg (hle : x ≤ x') (hx : x.isFinite) (hx' : x'.isFinite) (hy : 0 ≤ y) :
    x - y ≤ x' - y := by
  rcases infinite_or_finite hy with rfl | ⟨hfinite, -⟩
  · obtain ⟨a, j, hj, rfl⟩ := exists_eq_finite hx
    obtain ⟨a', j', hj', rfl⟩ := exists_eq_finite hx'
    change (infinite true : Binary F) ≤ infinite true
    rw [le_iff_rank rfl rfl]
  · exact add_le_add_of_finite hle (isFinite_neg hfinite)

theorem mul_le_mul_of_nonneg (hle : x ≤ x') (hx : x.isFinite) (hx' : x'.isFinite)
    (hy : y.isFinite) (hnonneg : 0 ≤ y) : x * y ≤ x' * y := by
  obtain ⟨a, j, hj, rfl⟩ := exists_eq_finite hx
  obtain ⟨a', j', hj', rfl⟩ := exists_eq_finite hx'
  obtain ⟨b, k, hk, rfl⟩ := exists_eq_finite hy
  rw [le_iff_rank rfl rfl] at hle
  rw [le_iff_rank rank_zero rfl] at hnonneg
  apply round_le_round F.unitsPerOne_pos F.unitsPerOne_pos
  rw [signed_mul, signed_mul]
  gcongr

theorem div_le_div_of_pos (hle : x ≤ x') (hx : x.isFinite) (hx' : x'.isFinite) (hy : y.isFinite)
    (hpos : 0 < y) : x / y ≤ x' / y := by
  obtain ⟨a, j, hj, rfl⟩ := exists_eq_finite hx
  obtain ⟨a', j', hj', rfl⟩ := exists_eq_finite hx'
  obtain ⟨b, k, hk, rfl⟩ := exists_eq_finite hy
  rw [le_iff_rank rfl rfl] at hle
  rw [lt_iff_rank rank_zero rfl] at hpos
  obtain rfl : b = false := by
    cases b <;> simp at hpos ⊢
    omega
  have hk0 : 0 < k := by simpa using hpos
  rw [finite_div_finite hj hk hk0.ne', finite_div_finite hj' hk hk0.ne']
  apply round_le_round hk0 hk0
  simp only [signed_mul, signed_false]
  gcongr

theorem div_le_div_of_le (hx : x.isFinite) (hnonneg : 0 ≤ x) (hy : y.isFinite) (hz : z.isFinite)
    (hpos : 0 < y) (hle : y ≤ z) : x / z ≤ x / y := by
  have hpos' := Binary.lt_of_lt_of_le hpos hle
  obtain ⟨a, j, hj, rfl⟩ := exists_eq_finite hx
  obtain ⟨b, k, hk, rfl⟩ := exists_eq_finite hy
  obtain ⟨c, l, hl, rfl⟩ := exists_eq_finite hz
  rw [le_iff_rank rank_zero rfl] at hnonneg
  rw [le_iff_rank rfl rfl] at hle
  rw [lt_iff_rank rank_zero rfl] at hpos hpos'
  have hk0 : k ≠ 0 := by
    rintro rfl
    cases b <;> simp at hpos
  have hl0 : l ≠ 0 := by
    rintro rfl
    cases c <;> simp at hpos'
  obtain rfl : b = false := by
    cases b <;> simp at hpos ⊢
    omega
  obtain rfl : c = false := by
    cases c <;> simp at hpos' ⊢
    omega
  rw [finite_div_finite hj hk hk0, finite_div_finite hj hl hl0]
  apply round_le_round (Nat.pos_of_ne_zero hl0) (Nat.pos_of_ne_zero hk0)
  simp only [signed_mul, signed_false] at hle ⊢
  gcongr

theorem Within.div_of_one_le (hx : x.Within m) (hm : F.Holds m) (hone : F.Holds 1) (hy : 1 ≤ y) :
    (x / y).Within m := by
  have hnonneg : 0 ≤ y := Binary.le_trans (ofNat_le_ofNat_of_le (Nat.zero_le 1)) hy
  rcases infinite_or_finite hnonneg with rfl | ⟨hfinite, -⟩
  · obtain ⟨negative, units, h, rfl⟩ := exists_eq_finite hx.isFinite
    exact (isRounded_zero _).within hm le_rfl m.cast_nonneg
  · have hle : (1 : ℕ) ≤ y.value := by
      rw [← value_ofNat hone]
      exact (le_iff_value (isFinite_ofNat hone) hfinite).mp hy
    exact (hx.isRounded_div hfinite Nat.one_pos hle hm (by omega)).2

theorem positivePart_le_positivePart (hle : x ≤ x') : x.positivePart ≤ x'.positivePart := by
  by_cases hpos : 0 < x
  · have hpos' : 0 < x' := Binary.lt_of_lt_of_le hpos hle
    rw [positivePart, positivePart, if_pos hpos, if_pos hpos']
    exact hle
  · rw [positivePart, if_neg hpos]
    exact x'.nonneg_positivePart

end Binary

end RateGovernor
