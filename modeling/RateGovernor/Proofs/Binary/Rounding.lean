import Mathlib
import RateGovernor.Proofs.Binary.Exact

/-!
# Rounding of quotients

Rounding takes a quotient to the nearest magnitude that the format holds, so it never passes one on
the way. A quotient with at least as many whole bits as the precision moves by at most one part in
`2 ^ precision`.
-/

namespace RateGovernor

section Quotient

variable (num : ℕ) {den : ℕ}

private theorem roundHalfEven_cases (den : ℕ) :
    (roundHalfEven num den = num / den ∧ 2 * (num % den) ≤ den) ∨
      (roundHalfEven num den = num / den + 1 ∧ den ≤ 2 * (num % den)) := by
  simp only [roundHalfEven]
  split
  · exact .inl ⟨rfl, by omega⟩
  · split
    · exact .inr ⟨rfl, by omega⟩
    · rcases Nat.mod_two_eq_zero_or_one (num / den) with heven | hodd
      · exact .inl ⟨by omega, by omega⟩
      · exact .inr ⟨by omega, by omega⟩

private theorem abs_roundHalfEven_sub (hd : 0 < den) :
    |(roundHalfEven num den * den : ℚ) - num| =
      min ((num % den : ℕ) : ℚ) (den - (num % den : ℕ)) := by
  have hsplit : (num / den : ℕ) * den + (num % den : ℕ) = (num : ℚ) := by
    exact_mod_cast Nat.div_add_mod' num den
  have hlt : ((num % den : ℕ) : ℚ) < den := by exact_mod_cast Nat.mod_lt num hd
  have hnonneg : (0 : ℚ) ≤ (num % den : ℕ) := Nat.cast_nonneg _
  rcases roundHalfEven_cases num den with ⟨hround, hhalf⟩ | ⟨hround, hhalf⟩
  · have hrest : (2 * (num % den : ℕ) : ℚ) ≤ den := by exact_mod_cast hhalf
    rw [hround, min_eq_left (by linarith), abs_of_nonpos (by linarith)]
    linarith
  · have hrest : (den : ℚ) ≤ 2 * (num % den : ℕ) := by exact_mod_cast hhalf
    rw [hround, min_eq_right (by linarith), abs_of_nonneg (by push_cast; linarith)]
    push_cast
    linarith

private theorem abs_roundHalfEven_sub_le (hd : 0 < den) :
    |(roundHalfEven num den * den : ℚ) - num| ≤ den / 2 := by
  rw [abs_roundHalfEven_sub num hd, min_le_iff]
  rcases le_total ((num % den : ℕ) : ℚ) (den / 2) with hle | hge
  · exact .inl hle
  · exact .inr (by linarith)

private theorem abs_roundHalfEven_sub_le_abs (hd : 0 < den) (k : ℕ) :
    |(roundHalfEven num den * den : ℚ) - num| ≤ |(k * den : ℚ) - num| := by
  have hsplit : (num / den : ℕ) * den + (num % den : ℕ) = (num : ℚ) := by
    exact_mod_cast Nat.div_add_mod' num den
  rw [abs_roundHalfEven_sub num hd, min_le_iff]
  rcases Nat.lt_or_ge (num / den) k with hlt | hge
  · have habove : ((num / den : ℕ) + 1 : ℚ) * den ≤ k * den := by
      exact_mod_cast Nat.mul_le_mul_right den hlt
    exact .inr ((by linarith : (den : ℚ) - (num % den : ℕ) ≤ k * den - num).trans (le_abs_self _))
  · have hbelow : (k * den : ℚ) ≤ (num / den : ℕ) * den := by
      exact_mod_cast Nat.mul_le_mul_right den hge
    exact .inl ((by linarith : ((num % den : ℕ) : ℚ) ≤ -(k * den - num)).trans (neg_le_abs _))

/-- Rounding to a fine grid changes the whole part only where it goes up to a multiple of the coarse
one. -/
theorem exists_of_roundHalfEven_div_ne {fine whole : ℕ} (hfine : 0 < fine) (hdvd : fine ∣ whole)
    (hne : roundHalfEven num fine * fine / whole ≠ num / whole) :
    roundHalfEven num fine = num / fine + 1 ∧
      ∃ n, num < n * whole ∧ 2 * (n * whole) ≤ 2 * num + fine := by
  obtain ⟨c, rfl⟩ := hdvd
  rw [Nat.mul_comm fine c, Nat.mul_div_mul_right _ _ hfine, Nat.mul_comm c fine,
    ← Nat.div_div_eq_div_mul] at hne
  rcases roundHalfEven_cases num fine with ⟨hround, -⟩ | ⟨hround, hhalf⟩
  · exact absurd (by rw [hround]) hne
  · refine ⟨hround, ?_⟩
    rw [hround, Nat.succ_div] at hne
    split at hne
    · rename_i hmultiple
      obtain ⟨n, hn⟩ := hmultiple
      have hsplit := Nat.div_add_mod num fine
      have hlt := Nat.mod_lt num hfine
      have hnext : n * (fine * c) = fine * (num / fine) + fine :=
        calc n * (fine * c) = fine * (num / fine + 1) := by rw [hn]; ring
          _ = fine * (num / fine) + fine := Nat.mul_succ _ _
      exact ⟨n, by omega, by omega⟩
    · exact absurd rfl hne

end Quotient

namespace Format

theorem Representable.two_pow_dvd {F : Format} {units k : ℕ} (h : F.Representable units)
    (hlong : 2 ^ (k + F.precision) ≤ 2 * units) : 2 ^ k ∣ units := by
  have hpower := Nat.two_pow_pos (k + F.precision)
  have hlog : k + F.precision ≤ (2 * units).log2 := (Nat.le_log2 (by omega)).mpr hlong
  rw [Nat.log2_two_mul (by omega)] at hlog
  have hshift : k ≤ F.shift units := by
    rw [Format.shift]
    omega
  exact (Nat.pow_dvd_pow 2 hshift).trans h.pow_shift_dvd

theorem Representable.two_pow_add_le {F : Format} {units k : ℕ} (h : F.Representable units)
    (hlt : 2 ^ (k + F.precision) < units) : 2 ^ (k + F.precision) + 2 ^ (k + 1) ≤ units := by
  have hprec := F.precision_pos
  have hunits : 2 ^ (k + 1) ∣ units := by
    apply h.two_pow_dvd
    rw [Nat.add_right_comm, pow_succ]
    omega
  have hpower : 2 ^ (k + 1) ∣ 2 ^ (k + F.precision) := Nat.pow_dvd_pow 2 (by omega)
  have hstep := Nat.le_of_dvd (by omega) (Nat.dvd_sub hunits hpower)
  omega

variable (F : Format) (num : ℕ) {den : ℕ}

private theorem shiftLeft_pos (hd : 0 < den) {k : ℕ} : 0 < den <<< k := by
  rw [Nat.shiftLeft_eq]
  exact Nat.mul_pos hd (Nat.two_pow_pos k)

private theorem cast_nearest (den : ℕ) :
    (F.nearest num den : ℚ) = roundHalfEven num (den <<< F.shift (num / den)) *
      2 ^ F.shift (num / den) := by
  rw [nearest, Nat.shiftLeft_eq]
  push_cast
  rfl

private theorem abs_mul_shift_sub (hd : 0 < den) (k : ℚ) :
    |k * 2 ^ F.shift (num / den) - num / den| * den =
      |k * (den <<< F.shift (num / den) : ℕ) - num| := by
  have hpos : (0 : ℚ) < den := by exact_mod_cast hd
  rw [Nat.shiftLeft_eq, ← abs_of_pos hpos, ← abs_mul, abs_of_pos hpos]
  congr 1
  push_cast
  field_simp

theorem two_pow_le_of_shift_ne_zero (h : F.shift num ≠ 0) :
    2 ^ (F.shift num + F.precision) ≤ 2 * num := by
  have hprec := F.precision_pos
  have hne : num ≠ 0 := by
    rintro rfl
    rw [shift, Nat.log2_zero] at h
    omega
  have hlog : F.shift num + F.precision = num.log2 + 1 := by
    rw [shift] at h ⊢
    omega
  have hle := Nat.log2_self_le hne
  rw [hlog, pow_succ]
  omega

private theorem two_pow_shift_le (den : ℕ) (h : F.shift (num / den) ≠ 0) :
    (2 ^ (F.shift (num / den) + F.precision - 1) : ℚ) ≤ num / den := by
  have hprec := F.precision_pos
  have hle := F.two_pow_le_of_shift_ne_zero (num / den) h
  obtain ⟨k, hk⟩ : ∃ k, F.shift (num / den) + F.precision = k + 1 :=
    ⟨F.shift (num / den) + F.precision - 1, by omega⟩
  rw [hk, pow_succ] at hle
  rw [hk, Nat.add_sub_cancel]
  have hlong : 2 ^ k ≤ num / den := by omega
  calc (2 ^ k : ℚ) ≤ (num / den : ℕ) := by exact_mod_cast hlong
    _ ≤ num / den := Nat.cast_div_le

theorem nearest_closest (hd : 0 < den) {units : ℕ} (h : F.Representable units) :
    |(F.nearest num den : ℚ) - num / den| ≤ |(units : ℚ) - num / den| := by
  have hpos : (0 : ℚ) < den := by exact_mod_cast hd
  have hmultiple : ∀ k : ℕ, |(F.nearest num den : ℚ) - num / den| ≤
      |(k * 2 ^ F.shift (num / den) : ℚ) - num / den| := by
    intro k
    refine le_of_mul_le_mul_right ?_ hpos
    rw [cast_nearest, abs_mul_shift_sub F num hd, abs_mul_shift_sub F num hd]
    exact abs_roundHalfEven_sub_le_abs num (shiftLeft_pos hd) k
  obtain ⟨significand, shift, rfl, hsig, -⟩ := h
  rw [Nat.one_shiftLeft] at hsig
  rw [Nat.shiftLeft_eq]
  by_cases hfine : F.shift (num / den) ≤ shift
  · refine (hmultiple (significand * 2 ^ (shift - F.shift (num / den)))).trans_eq ?_
    congr 2
    push_cast
    rw [mul_assoc, ← pow_add, Nat.sub_add_cancel hfine]
  · -- Numbers on a finer grid are too small to come near, and a power of two is in between.
    have hlong := F.two_pow_shift_le num den (by omega)
    have hprec := F.precision_pos
    have hbelow : (significand * 2 ^ shift : ℚ) ≤
        2 ^ (F.shift (num / den) + F.precision - 1) := by
      have hle : significand * 2 ^ shift ≤ 2 ^ (F.shift (num / den) + F.precision - 1) :=
        calc significand * 2 ^ shift ≤ 2 ^ F.precision * 2 ^ (F.shift (num / den) - 1) :=
              Nat.mul_le_mul hsig.le (Nat.pow_le_pow_right (by decide) (by omega))
          _ = 2 ^ (F.shift (num / den) + F.precision - 1) := by
              rw [← Nat.pow_add]
              congr 1
              omega
      exact_mod_cast hle
    have hbetween := hmultiple (2 ^ (F.precision - 1))
    have hpower : ((2 ^ (F.precision - 1) : ℕ) * 2 ^ F.shift (num / den) : ℚ) =
        2 ^ (F.shift (num / den) + F.precision - 1) := by
      push_cast
      rw [← pow_add]
      congr 1
      omega
    rw [hpower] at hbetween
    refine hbetween.trans ?_
    push_cast
    rw [abs_of_nonpos (by linarith), abs_of_nonpos (by linarith)]
    linarith

theorem nearest_le (hd : 0 < den) {units : ℕ} (h : F.Representable units)
    (hle : (num / den : ℚ) ≤ units) : F.nearest num den ≤ units := by
  by_contra hlt
  have hlt' : (units : ℚ) < F.nearest num den := by exact_mod_cast Nat.lt_of_not_le hlt
  have hnear := F.nearest_closest num hd h
  rw [abs_of_nonneg (by linarith), abs_of_nonneg (by linarith)] at hnear
  linarith

theorem nearest_one : F.nearest num 1 = roundHalfEven num (2 ^ F.shift num) * 2 ^ F.shift num := by
  simp only [nearest, Nat.div_one, Nat.shiftLeft_eq, Nat.one_mul]

theorem lt_two_pow_shift : num < 2 ^ (F.shift num + F.precision) := by
  refine Nat.lt_of_lt_of_le Nat.lt_log2_self (Nat.pow_le_pow_right (by decide) ?_)
  rw [shift]
  omega

/-- Rounding a sum with a number of the format adds at most twice what was to be added. -/
theorem nearest_add_bounds {units : ℕ} (h : F.Representable units) (c : ℕ) :
    units ≤ F.nearest (units + c) 1 ∧ F.nearest (units + c) 1 ≤ units + 2 * c := by
  have hclose := F.nearest_closest (units + c) Nat.one_pos h
  push_cast at hclose
  rw [div_one, sub_add_cancel_left, abs_neg, Nat.abs_cast, abs_le] at hclose
  constructor
  · have hle : (units : ℚ) ≤ F.nearest (units + c) 1 := by linarith
    exact_mod_cast hle
  · have hle : (F.nearest (units + c) 1 : ℚ) ≤ units + 2 * c := by linarith
    exact_mod_cast hle

theorem nearest_half {n : ℕ} (hlow : 2 ^ F.precision ≤ 2 * n) (hhigh : n < 2 ^ F.precision)
    (k : ℕ) : F.nearest ((2 * n + 1) * 2 ^ k) 1 = (n + n % 2) * 2 ^ (k + 1) := by
  have hlog : ((2 * n + 1) * 2 ^ k).log2 = F.precision + k := by
    rw [Nat.log2_eq_iff (by positivity)]
    constructor
    · rw [pow_add]
      exact Nat.mul_le_mul_right _ (by omega)
    · rw [Nat.add_right_comm, pow_add, pow_succ]
      exact Nat.mul_lt_mul_of_pos_right (by omega) (Nat.two_pow_pos k)
  have hshift : F.shift ((2 * n + 1) * 2 ^ k) = k + 1 := by
    rw [shift, hlog]
    omega
  have htie : roundHalfEven (2 * n + 1) 2 = n + n % 2 := by
    have hquotient : (2 * n + 1) / 2 = n := by omega
    have hrest : (2 * n + 1) % 2 = 1 := by omega
    simp [roundHalfEven, hquotient, hrest]
  rw [nearest_one, hshift, pow_succ', roundHalfEven_mul_right _ _ (Nat.two_pow_pos k), htie]

theorem nearest_two_mul {n : ℕ} (hn : n ≠ 0) (h : F.precision ≤ n.log2 + 1) :
    F.nearest (2 * n) 1 = 2 * F.nearest n 1 := by
  have hshift : F.shift (2 * n) = F.shift n + 1 := by
    rw [shift, shift, Nat.log2_two_mul hn]
    omega
  have hround : roundHalfEven (2 * n) (2 ^ (F.shift n + 1)) = roundHalfEven n (2 ^ F.shift n) := by
    rw [Nat.mul_comm, pow_succ, roundHalfEven_mul_right _ _ two_pos]
  simp only [nearest, Nat.div_one, hshift, Nat.shiftLeft_eq, Nat.one_mul, hround]
  ring

theorem abs_nearest_sub_le (hd : 0 < den) (h : (2 ^ F.precision : ℚ) ≤ num / den) :
    |(F.nearest num den : ℚ) - num / den| ≤ num / den / 2 ^ F.precision := by
  have hpos : (0 : ℚ) < den := by exact_mod_cast hd
  have hshift : F.shift (num / den) ≠ 0 := by
    have hle : 2 ^ F.precision ≤ num / den := by
      rw [Nat.le_div_iff_mul_le hd]
      rw [le_div_iff₀ hpos] at h
      exact_mod_cast h
    have hlog := (Nat.le_log2 (by have := Nat.two_pow_pos F.precision; omega)).mpr hle
    rw [shift]
    omega
  have hlong := F.two_pow_shift_le num den hshift
  have hhalf : |(F.nearest num den : ℚ) - num / den| ≤ 2 ^ F.shift (num / den) / 2 := by
    refine le_of_mul_le_mul_right ?_ hpos
    rw [cast_nearest, abs_mul_shift_sub F num hd]
    refine (abs_roundHalfEven_sub_le num (shiftLeft_pos hd)).trans_eq ?_
    rw [Nat.shiftLeft_eq]
    push_cast
    ring
  refine hhalf.trans ?_
  rw [le_div_iff₀ (by positivity)]
  refine le_trans (le_of_eq ?_) hlong
  have hprec := F.precision_pos
  obtain ⟨p, hp⟩ : ∃ p, F.precision = p + 1 := ⟨F.precision - 1, by omega⟩
  rw [hp, Nat.add_sub_assoc (by omega), Nat.add_sub_cancel, pow_add, pow_succ]
  ring

end Format

end RateGovernor
