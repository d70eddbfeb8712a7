import Mathlib
import RateGovernor.Decimal.Shortest
import RateGovernor.Proofs.Binary.Order

/-!
# Rounding intervals

The interval of a magnitude that the format holds is made of the quotients that round to it. Below a
power of two the numbers of the format stand twice as close, so there the step is half as long; the
ends belong to the interval only if the significand is even, as a half goes to the even one.
-/

namespace RateGovernor

private theorem roundHalfEven_eq {num den k : ℕ} (hd : 0 < den)
    (hlow : 2 * (k * den) ≤ 2 * num + den) (hhigh : 2 * num ≤ 2 * (k * den) + den)
    (hodd : k % 2 = 1 → 2 * (k * den) < 2 * num + den ∧ 2 * num < 2 * (k * den) + den) :
    roundHalfEven num den = k := by
  have hsplit := Nat.div_add_mod' num den
  have hrest := Nat.mod_lt num hd
  have hfloor : num / den = k ∨ num / den + 1 = k := by
    have hle : num / den < k + 1 := by
      rw [Nat.div_lt_iff_lt_mul hd, Nat.succ_mul]
      omega
    have hge : k - 1 ≤ num / den := by
      rw [Nat.le_div_iff_mul_le hd, Nat.sub_mul, one_mul]
      omega
    omega
  simp only [roundHalfEven]
  rcases hfloor with hk | rfl
  · rw [hk] at hsplit ⊢
    split
    · rfl
    · split <;> omega
  · have hnext : (num / den + 1) * den = num / den * den + den := Nat.succ_mul _ _
    split
    · omega
    · split <;> omega

namespace Format

variable {F : Format} {units num den : ℕ}

private theorem shift_div_le {s : ℕ} (hd : 0 < den) (h : num < 2 ^ (s + F.precision) * den) :
    F.shift (num / den) ≤ s := by
  have hprec := F.precision_pos
  rw [shift]
  rcases Nat.eq_zero_or_pos (num / den) with hzero | hpos
  · rw [hzero, Nat.log2_zero]
    omega
  · have := (Nat.log2_lt hpos.ne').mpr ((Nat.div_lt_iff_lt_mul hd).mpr h)
    omega

private theorem le_shift_div {s : ℕ} (hd : 0 < den) (h : 2 ^ (s + F.precision) * den ≤ 2 * num) :
    s ≤ F.shift (num / den) := by
  have hprec := F.precision_pos
  obtain ⟨p, hp⟩ : ∃ p, s + F.precision = p + 1 := ⟨s + F.precision - 1, by omega⟩
  rw [hp, pow_succ', Nat.mul_assoc] at h
  have hle : 2 ^ p ≤ num / den := (Nat.le_div_iff_mul_le hd).mpr (by omega)
  have hlog := (Nat.le_log2 (by have := Nat.two_pow_pos p; omega)).mpr hle
  rw [shift]
  omega

private theorem interval_eq (h : F.Representable units) :
    ∃ k s, units = k * 2 ^ s ∧ F.shift units = s ∧ k < 2 ^ F.precision ∧
      (s ≠ 0 → 2 ^ F.precision ≤ 2 * k) ∧
      F.interval units =
        ⟨4 * units - (if s ≠ 0 ∧ 2 * k = 2 ^ F.precision then 2 ^ s else 2 * 2 ^ s),
          4 * units + 2 * 2 ^ s, k % 2 == 0⟩ := by
  obtain ⟨k, hk⟩ := h.pow_shift_dvd
  rw [Nat.mul_comm] at hk
  have hstep := Nat.two_pow_pos (F.shift units)
  refine ⟨k, F.shift units, hk, rfl, ?_, fun hs => ?_, ?_⟩
  · have hlt := F.lt_two_pow_shift units
    nth_rewrite 1 [hk] at hlt
    rw [pow_add, Nat.mul_comm] at hlt
    exact Nat.lt_of_mul_lt_mul_left hlt
  · have hle := F.two_pow_le_of_shift_ne_zero units hs
    nth_rewrite 2 [hk] at hle
    rw [pow_add, Nat.mul_comm k, Nat.mul_left_comm] at hle
    exact Nat.le_of_mul_le_mul_left hle hstep
  · have hprec : 2 * 2 ^ (F.precision - 1) = 2 ^ F.precision := by
      rw [← pow_succ', Nat.sub_add_cancel F.precision_pos]
    have hnarrow : (1 < 2 ^ F.shift units ∧ units = 2 ^ F.shift units * 2 ^ (F.precision - 1)) ↔
        (F.shift units ≠ 0 ∧ 2 * k = 2 ^ F.precision) := by
      rw [Nat.one_lt_two_pow_iff, ← hprec]
      nth_rewrite 2 [hk]
      rw [Nat.mul_comm k, Nat.mul_right_inj hstep.ne', Nat.mul_right_inj two_ne_zero]
    have hquotient : units / 2 ^ F.shift units = k := by
      nth_rewrite 1 [hk]
      exact Nat.mul_div_cancel _ hstep
    simp only [interval, Nat.shiftLeft_eq, Nat.one_mul, hquotient, Bool.and_eq_true,
      decide_eq_true_eq, beq_iff_eq, hnarrow]

private theorem Interval.contains_iff {i : Interval} :
    i.contains num den = true ↔ i.low * den ≤ num ∧ num ≤ i.high * den ∧
      (i.closed = false → i.low * den < num ∧ num < i.high * den) := by
  rw [contains]
  split
  · rename_i hclosed
    simp [hclosed]
  · rename_i hclosed
    rw [Bool.and_eq_true, decide_eq_true_iff, decide_eq_true_iff]
    exact ⟨fun h => ⟨h.1.le, h.2.le, fun _ => h⟩,
      fun h => h.2.2 (Bool.eq_false_of_not_eq_true hclosed)⟩

private theorem nearest_eq_of_shift {k s : ℕ} (hd : 0 < den) (hshift : F.shift (num / den) = s)
    (hlow : 2 * (k * (den * 2 ^ s)) ≤ 2 * num + den * 2 ^ s)
    (hhigh : 2 * num ≤ 2 * (k * (den * 2 ^ s)) + den * 2 ^ s)
    (hodd : k % 2 = 1 → 2 * (k * (den * 2 ^ s)) < 2 * num + den * 2 ^ s ∧
      2 * num < 2 * (k * (den * 2 ^ s)) + den * 2 ^ s) :
    F.nearest num den = k * 2 ^ s := by
  have hscale : 0 < den * 2 ^ s := Nat.mul_pos hd (Nat.two_pow_pos s)
  simp only [nearest, hshift, Nat.shiftLeft_eq, roundHalfEven_eq hscale hlow hhigh hodd]

/-- A significand whose magnitude is longer than a quotient just below it is a power of two. -/
private theorem eq_two_pow_of_short {k s : ℕ} (hlong : 2 ^ F.precision ≤ 2 * k)
    (hlow : 4 * (k * (den * 2 ^ s)) ≤ 4 * num + 2 * (den * 2 ^ s))
    (hshort : 2 * num < 2 ^ F.precision * (den * 2 ^ s)) : 2 * k = 2 ^ F.precision := by
  have heven : 2 ^ F.precision % 2 = 0 := by
    rw [← Nat.sub_add_cancel F.precision_pos, pow_succ, Nat.mul_mod_left]
  by_contra hne
  have hnext : (2 ^ F.precision + 2) * (den * 2 ^ s) ≤ 2 * k * (den * 2 ^ s) :=
    Nat.mul_le_mul_right _ (by omega)
  rw [Nat.add_mul, Nat.mul_assoc 2 k] at hnext
  omega

private theorem nearest_below_two_pow {k s : ℕ} (hd : 0 < den) (hs : s ≠ 0)
    (hpower : 2 * k = 2 ^ F.precision)
    (hlow : 4 * (k * (den * 2 ^ s)) ≤ 4 * num + den * 2 ^ s)
    (hhigh : num < k * (den * 2 ^ s)) : F.nearest num den = k * 2 ^ s := by
  obtain ⟨t, rfl⟩ : ∃ t, s = t + 1 := ⟨s - 1, by omega⟩
  have hscale : 0 < den * 2 ^ t := Nat.mul_pos hd (Nat.two_pow_pos t)
  have hhalf : den * 2 ^ (t + 1) = 2 * (den * 2 ^ t) := by ring
  have hwhole : k * (den * 2 ^ (t + 1)) = 2 * k * (den * 2 ^ t) := by ring
  have hbound : 2 ^ (t + F.precision) * den = 2 * k * (den * 2 ^ t) := by
    rw [hpower]
    ring
  have hlong : den * 2 ^ t ≤ 2 * k * (den * 2 ^ t) := by
    rw [hpower]
    exact Nat.le_mul_of_pos_left _ (Nat.two_pow_pos _)
  have hshift : F.shift (num / den) = t := by
    apply le_antisymm
    · exact shift_div_le hd (by omega)
    · exact le_shift_div hd (by omega)
  rw [nearest_eq_of_shift (k := 2 * k) hd hshift (by omega) (by omega) (by omega)]
  ring

/-- The quotients of quarter units in the interval of a magnitude round to it. -/
private theorem nearest_of_contains (h : F.Representable units) (hd : 0 < den)
    (hmem : (F.interval units).contains (4 * num) den = true) : F.nearest num den = units := by
  obtain ⟨k, s, hunits, -, hk, hlong, hinterval⟩ := interval_eq h
  have hscale : 0 < den * 2 ^ s := Nat.mul_pos hd (Nat.two_pow_pos s)
  have hwhole : units * den = k * (den * 2 ^ s) := by
    rw [hunits]
    ring
  have hbound : 2 ^ (s + F.precision) * den = 2 ^ F.precision * (den * 2 ^ s) := by ring
  have hroom : (k + 1) * (den * 2 ^ s) ≤ 2 ^ F.precision * (den * 2 ^ s) :=
    Nat.mul_le_mul_right _ hk
  rw [Nat.succ_mul] at hroom
  obtain ⟨hlow, hhigh, hopen⟩ := Interval.contains_iff.mp hmem
  rw [hinterval] at hlow hhigh hopen
  simp only [Nat.sub_mul, Nat.add_mul, ite_mul, Nat.mul_assoc, hwhole, Nat.mul_comm (2 ^ s) den,
    tsub_le_iff_right] at hlow hhigh hopen
  have hlow' : 4 * (k * (den * 2 ^ s)) ≤ 4 * num + 2 * (den * 2 ^ s) := by
    split at hlow <;> omega
  rw [hunits]
  by_cases hsame : s = 0 ∨ 2 ^ (s + F.precision) * den ≤ 2 * num
  · have hshift : F.shift (num / den) = s := by
      refine le_antisymm (shift_div_le hd (by omega)) ?_
      rcases hsame with rfl | hlarge
      · exact Nat.zero_le _
      · exact le_shift_div hd hlarge
    refine nearest_eq_of_shift hd hshift (by omega) (by omega) fun hk1 => ?_
    have hlt := hopen (by simp [hk1])
    split at hlt <;> omega
  · -- The quotient is shorter than the magnitude, so this is a power of two and its step is narrow.
    rw [not_or, not_le, hbound] at hsame
    obtain ⟨hs, hshort⟩ := hsame
    have hpower := eq_two_pow_of_short (hlong hs) hlow' hshort
    rw [if_pos ⟨hs, hpower⟩] at hlow
    rw [← hpower, Nat.mul_assoc] at hshort
    exact nearest_below_two_pow hd hs hpower hlow (by omega)

/-! ### Rational quarter units -/

/-- A rational number of quarter units lies in the interval. -/
structure Interval.Mem (i : Interval) (q : ℚ) : Prop where
  low_le : i.low ≤ q
  le_high : q ≤ i.high
  strict : i.closed = false → i.low < q ∧ q < i.high

theorem Interval.mem_of_lt {i : Interval} {q : ℚ} (hlow : i.low < q) (hhigh : q < i.high) :
    i.Mem q :=
  ⟨hlow.le, hhigh.le, fun _ => ⟨hlow, hhigh⟩⟩

theorem Interval.contains_iff_mem {i : Interval} (hd : 0 < den) :
    i.contains num den = true ↔ i.Mem (num / den) := by
  have hpos : (0 : ℚ) < den := by exact_mod_cast hd
  have hlow : (i.low : ℚ) ≤ num / den ↔ i.low * den ≤ num := by
    rw [le_div_iff₀ hpos]
    exact_mod_cast Iff.rfl
  have hhigh : (num / den : ℚ) ≤ i.high ↔ num ≤ i.high * den := by
    rw [div_le_iff₀ hpos]
    exact_mod_cast Iff.rfl
  have hlow' : (i.low : ℚ) < num / den ↔ i.low * den < num := by
    rw [lt_div_iff₀ hpos]
    exact_mod_cast Iff.rfl
  have hhigh' : (num / den : ℚ) < i.high ↔ num < i.high * den := by
    rw [div_lt_iff₀ hpos]
    exact_mod_cast Iff.rfl
  rw [contains_iff, ← hlow, ← hhigh, ← hlow', ← hhigh']
  exact ⟨fun h => ⟨h.1, h.2.1, h.2.2⟩, fun h => ⟨h.low_le, h.le_high, h.strict⟩⟩

theorem nearest_of_mem (h : F.Representable units) (hd : 0 < den)
    (hmem : (F.interval units).Mem (4 * (num / den))) : F.nearest num den = units := by
  apply nearest_of_contains h hd
  rw [Interval.contains_iff_mem hd]
  push_cast
  rwa [mul_div_assoc]

theorem interval_end (h : F.Representable units) (hpos : 0 < units) {c : ℕ}
    (hc : c = (F.interval units).low ∨ c = (F.interval units).high) :
    ∃ m w : ℕ, c = m * 2 ^ w ∧ 0 < m ∧ m < 2 ^ (F.precision + 1) ∧
      |(4 * units - c : ℚ)| = 2 ^ w := by
  obtain ⟨k, s, hunits, -, hk, -, hinterval⟩ := interval_eq h
  have hk0 : 0 < k := Nat.pos_of_mul_pos_right (hunits ▸ hpos)
  have hprec := pow_succ 2 F.precision
  have hbelow : ∀ {m w : ℕ}, 4 * units = (m + 1) * 2 ^ w → c = 4 * units - 2 ^ w →
      c = m * 2 ^ w ∧ |(4 * units - c : ℚ)| = 2 ^ w := by
    intro m w hwhole hc
    rw [Nat.add_mul m 1, Nat.one_mul] at hwhole
    have hc' : c = m * 2 ^ w := by omega
    have hsum : (4 * units : ℚ) = c + 2 ^ w := by
      rw [hc']
      exact_mod_cast hwhole
    refine ⟨hc', ?_⟩
    rw [hsum, add_sub_cancel_left]
    exact abs_of_pos (by positivity)
  rw [hinterval] at hc
  rcases hc with hc | hc
  · by_cases hnarrow : s ≠ 0 ∧ 2 * k = 2 ^ F.precision
    · rw [if_pos hnarrow] at hc
      have hwhole : 4 * units = (4 * k - 1 + 1) * 2 ^ s := by
        rw [hunits, Nat.sub_add_cancel (by omega)]
        ring
      obtain ⟨hc', hstep⟩ := hbelow hwhole hc
      exact ⟨4 * k - 1, s, hc', by omega, by omega, hstep⟩
    · rw [if_neg hnarrow, ← pow_succ'] at hc
      have hwhole : 4 * units = (2 * k - 1 + 1) * 2 ^ (s + 1) := by
        rw [hunits, Nat.sub_add_cancel (by omega)]
        ring
      obtain ⟨hc', hstep⟩ := hbelow hwhole hc
      exact ⟨2 * k - 1, s + 1, hc', by omega, by omega, hstep⟩
  · have hc' : c = (2 * k + 1) * 2 ^ (s + 1) := by
      rw [hc, hunits]
      ring
    have hsum : (c : ℚ) = 4 * units + 2 ^ (s + 1) := by
      rw [hc, pow_succ']
      push_cast
      rfl
    refine ⟨2 * k + 1, s + 1, hc', by omega, by omega, ?_⟩
    rw [hsum, sub_add_cancel_left, abs_neg]
    exact abs_of_pos (by positivity)

theorem interval_low_le (F : Format) (units : ℕ) : (F.interval units).low ≤ 4 * units :=
  Nat.sub_le _ _

theorem lt_interval_high (F : Format) (units : ℕ) : 4 * units < (F.interval units).high := by
  have hstep := Nat.two_pow_pos (F.shift units)
  simp only [interval, Nat.shiftLeft_eq]
  omega

theorem interval_size (h : F.Representable units) (hpos : 0 < units) :
    (F.interval units).low + 3 * 2 ^ F.shift units ≤ (F.interval units).high ∧
      (F.interval units).high < 2 ^ (F.precision + 2) * 2 ^ F.shift units := by
  obtain ⟨k, s, hunits, hs, hk, -, hinterval⟩ := interval_eq h
  have hk0 : 0 < k := Nat.pos_of_mul_pos_right (hunits ▸ hpos)
  have hstep := Nat.two_pow_pos s
  have hle : 2 ^ s ≤ k * 2 ^ s := Nat.le_mul_of_pos_left _ hk0
  have hroom : (k + 1) * 2 ^ s ≤ 2 ^ F.precision * 2 ^ s := Nat.mul_le_mul_right _ hk
  rw [Nat.succ_mul] at hroom
  have hprec : 2 ^ (F.precision + 2) * 2 ^ s = 4 * (2 ^ F.precision * 2 ^ s) := by ring
  rw [hs, hinterval, hunits, hprec]
  constructor
  · simp only
    split <;> omega
  · simp only
    omega

theorem Representable.shift_le (h : F.Representable units) : F.shift units ≤ F.maxShift := by
  have hlimit := h.lt_limit
  rw [limit, Nat.one_shiftLeft, Nat.add_comm] at hlimit
  have hle : F.shift (units / 1) ≤ F.maxShift :=
    shift_div_le Nat.one_pos (hlimit.trans_eq (Nat.mul_one _).symm)
  rwa [Nat.div_one] at hle

end Format

namespace Binary

variable {F G : Format} {units : ℕ}

theorem round_of_mem (negative : Bool) (h : F.Representable units) {num den : ℕ} (hd : 0 < den)
    (hmem : (F.interval units).Mem (4 * (num / den))) :
    round negative num den = finite negative units h := by
  have hnearest := Format.nearest_of_mem h hd hmem
  simp only [round, hnearest, h.lt_limit, dif_pos]

/-- A number of another format in the interval of a magnitude is converted to it. -/
theorem convert_of_mem {x : Binary G} (hx : x.isFinite) (hpos : 0 < x.value)
    (h : F.Representable units)
    (hmem : (F.interval units).Mem (4 * (x.value * F.unitsPerOne))) :
    x.convert = finite false units h := by
  obtain ⟨negative, digits, hdigits, rfl⟩ := exists_eq_finite hx
  obtain rfl := eq_false_of_value_pos hpos
  rw [value_finite, if_neg (by decide), div_mul_eq_mul_div] at hmem
  exact round_of_mem false h G.unitsPerOne_pos (by exact_mod_cast hmem)

end Binary

end RateGovernor
