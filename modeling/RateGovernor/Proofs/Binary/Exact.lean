import Mathlib
import RateGovernor.Binary.Basic

/-!
# Exact arithmetic on natural numbers

Arithmetic rounds, but a result that the format holds is not changed by rounding. For natural
numbers that the format holds, sums, products, exact quotients and comparisons are therefore those
of the naturals, and a difference cut off at zero is the truncated one.
-/

namespace RateGovernor

theorem roundHalfEven_mul_right (num den : Nat) {scale : Nat} (hs : 0 < scale) :
    roundHalfEven (num * scale) (den * scale) = roundHalfEven num den := by
  have hlt : ∀ a b : Nat, 2 * (a * scale) < b * scale ↔ 2 * a < b := fun a b => by
    rw [← Nat.mul_assoc, Nat.mul_lt_mul_right hs]
  have hgt : ∀ a b : Nat, b * scale < 2 * (a * scale) ↔ b < 2 * a := fun a b => by
    rw [← Nat.mul_assoc, Nat.mul_lt_mul_right hs]
  simp only [roundHalfEven, Nat.mul_div_mul_right _ _ hs, Nat.mul_mod_mul_right, hlt, hgt]

private theorem roundHalfEven_mul_self (quotient : Nat) {den : Nat} (hd : 0 < den) :
    roundHalfEven (quotient * den) den = quotient := by
  have h := roundHalfEven_mul_right quotient 1 hd
  rwa [Nat.one_mul, roundHalfEven_one] at h

namespace Format

variable {F : Format}

theorem unitsPerOne_pos (F : Format) : 0 < F.unitsPerOne := by
  rw [unitsPerOne, Nat.one_shiftLeft]
  exact Nat.two_pow_pos _

theorem nearest_mul_right (F : Format) (num den : Nat) {scale : Nat} (hs : 0 < scale) :
    F.nearest (num * scale) (den * scale) = F.nearest num den := by
  simp only [nearest, Nat.mul_div_mul_right _ _ hs]
  have hshift : ∀ s, (den * scale) <<< s = den <<< s * scale := fun s => by
    rw [Nat.shiftLeft_eq, Nat.shiftLeft_eq, Nat.mul_right_comm]
  rw [hshift, roundHalfEven_mul_right _ _ hs]

namespace Representable

theorem lt_limit {units : Nat} (h : F.Representable units) : units < F.limit := by
  obtain ⟨significand, shift, rfl, hsig, hshift⟩ := h
  rw [Nat.one_shiftLeft] at hsig
  rw [limit, Nat.one_shiftLeft, Nat.shiftLeft_eq, Nat.pow_add]
  calc significand * 2 ^ shift < 2 ^ F.precision * 2 ^ shift :=
        Nat.mul_lt_mul_of_pos_right hsig (Nat.two_pow_pos _)
    _ ≤ 2 ^ F.precision * 2 ^ F.maxShift :=
        Nat.mul_le_mul_left _ (Nat.pow_le_pow_right (by decide) hshift)

theorem pow_shift_dvd {units : Nat} (h : F.Representable units) : 2 ^ F.shift units ∣ units := by
  obtain ⟨significand, shift, rfl, hsig, -⟩ := h
  rw [Nat.one_shiftLeft] at hsig
  rw [Nat.shiftLeft_eq]
  rcases Nat.eq_zero_or_pos significand with rfl | hpos
  · simp
  · have hlog : (significand * 2 ^ shift).log2 < F.precision + shift := by
      rw [Nat.log2_lt (Nat.mul_ne_zero hpos.ne' (Nat.two_pow_pos _).ne'), Nat.pow_add]
      exact Nat.mul_lt_mul_of_pos_right hsig (Nat.two_pow_pos _)
    have hle : F.shift (significand * 2 ^ shift) ≤ shift := by
      rw [Format.shift]
      omega
    exact (Nat.pow_dvd_pow 2 hle).mul_left _

private theorem nearest_eq {units : Nat} (h : F.Representable units) :
    F.nearest units 1 = units := by
  obtain ⟨quotient, hq⟩ := h.pow_shift_dvd
  simp only [nearest, Nat.div_one, Nat.shiftLeft_eq, Nat.one_mul]
  generalize F.shift units = s at hq ⊢
  rw [hq, Nat.mul_comm (2 ^ s) quotient, roundHalfEven_mul_self _ (Nat.two_pow_pos s)]

theorem of_dvd {units divisor : Nat} (h : F.Representable units) (hne : units ≠ 0)
    (hd : divisor ∣ units) : F.Representable divisor := by
  obtain ⟨significand, shift, rfl, hsig, hshift⟩ := h
  rw [Nat.shiftLeft_eq] at hd hne
  obtain ⟨short, power, hs, hp, rfl⟩ := (Nat.dvd_mul).mp hd
  obtain ⟨k, hk, rfl⟩ := (Nat.dvd_prime_pow Nat.prime_two).mp hp
  have hpos : 0 < significand := Nat.pos_of_ne_zero (Nat.ne_zero_of_mul_ne_zero_left hne)
  exact ⟨short, k, (Nat.shiftLeft_eq _ _).symm, (Nat.le_of_dvd hpos hs).trans_lt hsig,
    hk.trans hshift⟩

end Representable

/-- The format holds a natural number. -/
def Holds (F : Format) (n : Nat) : Prop := F.Representable (n * F.unitsPerOne)

namespace Holds

theorem zero (F : Format) : F.Holds 0 := by
  rw [Holds, Nat.zero_mul]
  exact F.representable_zero

theorem of_dvd {n divisor : Nat} (h : F.Holds n) (hne : n ≠ 0) (hd : divisor ∣ n) :
    F.Holds divisor :=
  Representable.of_dvd h (Nat.mul_ne_zero hne F.unitsPerOne_pos.ne') (Nat.mul_dvd_mul_right hd _)

theorem shiftLeft {n k : Nat} (hn : n < 2 ^ F.precision) (hk : k + F.places ≤ F.maxShift) :
    F.Holds (n * 2 ^ k) := by
  refine ⟨n, k + F.places, ?_, by rwa [Nat.one_shiftLeft], hk⟩
  rw [unitsPerOne, Nat.one_shiftLeft, Nat.shiftLeft_eq, Nat.pow_add, Nat.mul_assoc]

theorem single_of_lt {n : Nat} (hn : n < 2 ^ 24) : single.Holds n := by
  simpa using shiftLeft (F := single) (k := 0) hn (by decide)

theorem single_two_pow {k : Nat} (hk : k ≤ 127) : single.Holds (2 ^ k) := by
  rcases le_total k 104 with hlow | hhigh
  · have h := shiftLeft (F := single) (n := 1) (k := k) (by decide)
      (by simp only [single]; omega)
    rwa [Nat.one_mul] at h
  · have h := shiftLeft (F := single) (n := 2 ^ (k - 104)) (k := 104)
      (Nat.pow_lt_pow_right (by decide) (by simp only [single]; omega)) (by decide)
    rwa [← Nat.pow_add, Nat.sub_add_cancel hhigh] at h

theorem single_of_le {n : Nat} (hn : n ≤ 2 ^ 24) : single.Holds n := by
  rcases hn.lt_or_eq with hlt | rfl
  · exact single_of_lt hlt
  · exact single_two_pow (by decide)

end Holds

end Format

namespace Binary

variable {F : Format} {a b n : Nat}

private theorem round_mul_right (negative : Bool) (num den : Nat) {scale : Nat} (hs : 0 < scale) :
    (round negative (num * scale) (den * scale) : Binary F) = round negative num den := by
  simp only [round, F.nearest_mul_right num den hs]

theorem round_of_representable (negative : Bool) {units : Nat} (h : F.Representable units) :
    round negative units 1 = .finite negative units h := by
  simp only [round, h.nearest_eq, h.lt_limit, dif_pos]

theorem ofNat_of_holds (h : F.Holds n) :
    (ofNat n : Binary F) = .finite false (n * F.unitsPerOne) h :=
  round_of_representable false h

theorem ofNat_zero : (ofNat 0 : Binary F) = zero false := by
  rw [ofNat_of_holds (.zero F), zero]
  congr 1
  exact Nat.zero_mul _

theorem ofNat_add (ha : F.Holds a) (hb : F.Holds b) :
    (ofNat a + ofNat b : Binary F) = ofNat (a + b) := by
  have hsum : signed false (a * F.unitsPerOne) + signed false (b * F.unitsPerOne) =
      ((a + b) * F.unitsPerOne : Nat) := by
    simp only [signed]
    push_cast
    ring
  change Binary.add _ _ = _
  rw [ofNat_of_holds ha, ofNat_of_holds hb]
  simp only [Binary.add, hsum]
  split
  · rename_i h0
    have hz : a + b = 0 :=
      (Nat.mul_eq_zero.mp (Int.natCast_eq_zero.mp h0)).resolve_right F.unitsPerOne_pos.ne'
    rw [hz, ofNat_zero, Bool.and_self]
  · rw [Int.natAbs_natCast, decide_eq_false (Int.not_lt.mpr (Int.natCast_nonneg _)), ofNat]

theorem ofNat_mul (ha : F.Holds a) (hb : F.Holds b) :
    (ofNat a * ofNat b : Binary F) = ofNat (a * b) := by
  have hscale : a * F.unitsPerOne * (b * F.unitsPerOne) =
      a * b * F.unitsPerOne * F.unitsPerOne := by ring
  change Binary.mul _ _ = _
  rw [ofNat_of_holds ha, ofNat_of_holds hb]
  simp only [Binary.mul, hscale, bne_self_eq_false]
  have h := round_mul_right (F := F) false (a * b * F.unitsPerOne) 1 F.unitsPerOne_pos
  rwa [Nat.one_mul] at h

theorem ofNat_div (ha : F.Holds a) (hb : F.Holds b) (hpos : 0 < b) (hd : b ∣ a) :
    (ofNat a / ofNat b : Binary F) = ofNat (a / b) := by
  obtain ⟨q, rfl⟩ := hd
  have hne : b * F.unitsPerOne ≠ 0 := Nat.mul_ne_zero hpos.ne' F.unitsPerOne_pos.ne'
  have hscale : b * q * F.unitsPerOne * F.unitsPerOne =
      q * F.unitsPerOne * (b * F.unitsPerOne) := by
    ring
  change Binary.div _ _ = _
  rw [ofNat_of_holds ha, ofNat_of_holds hb, Nat.mul_div_cancel_left _ hpos]
  simp only [Binary.div, hne, if_false, hscale, bne_self_eq_false]
  have h := round_mul_right (F := F) false (q * F.unitsPerOne) 1 (Nat.pos_of_ne_zero hne)
  rwa [Nat.one_mul] at h

theorem ofInt_natCast (n : Nat) : (ofInt n : Binary F) = ofNat n := by
  rw [ofInt, ofNat, Int.natAbs_natCast, decide_eq_false (Int.not_lt.mpr (Int.natCast_nonneg _))]

theorem ofNat_mul_div_mul {scale : Nat} (ha : F.Holds (scale * a)) (hb : F.Holds (scale * b))
    (hs : 0 < scale) (ha0 : 0 < a) (hb0 : 0 < b) :
    (ofNat (scale * a) / ofNat (scale * b) : Binary F) = ofNat a / ofNat b := by
  have ha' := ha.of_dvd (Nat.mul_ne_zero hs.ne' ha0.ne') (Nat.dvd_mul_left a scale)
  have hb' := hb.of_dvd (Nat.mul_ne_zero hs.ne' hb0.ne') (Nat.dvd_mul_left b scale)
  have hne : b * F.unitsPerOne ≠ 0 := Nat.mul_ne_zero hb0.ne' F.unitsPerOne_pos.ne'
  have hne' : scale * b * F.unitsPerOne ≠ 0 := by
    rw [Nat.mul_assoc]
    exact Nat.mul_ne_zero hs.ne' hne
  have hnum : scale * a * F.unitsPerOne * F.unitsPerOne =
      a * F.unitsPerOne * F.unitsPerOne * scale := by ring
  have hden : scale * b * F.unitsPerOne = b * F.unitsPerOne * scale := by ring
  rw [ofNat_of_holds ha, ofNat_of_holds hb, ofNat_of_holds ha', ofNat_of_holds hb']
  change Binary.div _ _ = Binary.div _ _
  simp only [Binary.div, hne, hne', if_false, bne_self_eq_false]
  rw [hnum, hden, round_mul_right false _ _ hs]

theorem div_ofNat_one {x : Binary F} (hx : x.isFinite) (hone : F.Holds 1) : x / ofNat 1 = x := by
  cases x with
  | nan => simp [isFinite] at hx
  | infinite negative => simp [isFinite] at hx
  | finite negative units h =>
    change Binary.div _ _ = _
    rw [ofNat_of_holds hone]
    simp only [Binary.div, Nat.one_mul, F.unitsPerOne_pos.ne', if_false, Bool.bne_false]
    have hround := round_mul_right (F := F) negative units 1 F.unitsPerOne_pos
    rwa [Nat.one_mul, round_of_representable negative h] at hround

theorem sub_self_of_finite {x : Binary F} (hx : x.isFinite) : x - x = 0 := by
  cases x with
  | nan => simp [isFinite] at hx
  | infinite negative => simp [isFinite] at hx
  | finite negative units h =>
    have hsum : signed negative units + signed (!negative) units = 0 := by
      cases negative <;> simp [signed]
    change Binary.add _ (Binary.neg _) = ofNat 0
    simp only [Binary.neg, Binary.add, hsum, if_true, Bool.and_not_self, ofNat_zero]

theorem rank_ofNat (h : F.Holds n) :
    (ofNat n : Binary F).rank = some ((n * F.unitsPerOne : Nat) : Int) := by
  rw [ofNat_of_holds h]
  rfl

theorem rank_zero : (0 : Binary F).rank = some 0 := by
  have h := rank_ofNat (Format.Holds.zero F)
  rwa [Nat.zero_mul] at h

theorem lt_iff_rank {x y : Binary F} {j k : Int} (hx : x.rank = some j) (hy : y.rank = some k) :
    x < y ↔ j < k := by
  change Ranked _ _ _ ↔ _
  rw [Ranked, hx, hy]

theorem le_iff_rank {x y : Binary F} {j k : Int} (hx : x.rank = some j) (hy : y.rank = some k) :
    x ≤ y ↔ j ≤ k := by
  change Ranked _ _ _ ↔ _
  rw [Ranked, hx, hy]

theorem not_le_zero_iff {x : Binary F} (hx : x.isFinite) : ¬ x ≤ 0 ↔ 0 < x := by
  cases x with
  | nan => cases hx
  | infinite negative => cases hx
  | finite negative units h =>
    rw [le_iff_rank rfl rank_zero, lt_iff_rank rank_zero rfl, Int.not_le]

theorem ofNat_lt_ofNat (ha : F.Holds a) (hb : F.Holds b) :
    (ofNat a : Binary F) < ofNat b ↔ a < b := by
  rw [lt_iff_rank (rank_ofNat ha) (rank_ofNat hb), Int.ofNat_lt,
    Nat.mul_lt_mul_right F.unitsPerOne_pos]

theorem positivePart_ofNat (h : F.Holds n) : (ofNat n : Binary F).positivePart = ofNat n := by
  have hlt : (0 : Binary F) < ofNat n ↔ 0 < n := ofNat_lt_ofNat (.zero F) h
  rw [positivePart]
  split
  · rfl
  · rename_i hn
    rw [hlt, Nat.not_lt, Nat.le_zero] at hn
    rw [hn]
    rfl

private theorem positivePart_round_true (num den : Nat) :
    (round true num den : Binary F).positivePart = 0 := by
  obtain ⟨magnitude, hrank⟩ : ∃ magnitude : Nat,
      (round true num den : Binary F).rank = some (-(magnitude : Int)) := by
    rw [round]
    split
    · exact ⟨_, rfl⟩
    · exact ⟨_, rfl⟩
  rw [positivePart, if_neg]
  rw [lt_iff_rank rank_zero hrank]
  omega

/-- A number is a given natural number; either zero is zero. -/
def IsNat (x : Binary F) (n : Nat) : Prop :=
  x.isFinite ∧ x.rank = some ((n * F.unitsPerOne : Nat) : Int)

namespace IsNat

variable {x y : Binary F}

private theorem exists_finite (h : x.IsNat n) :
    ∃ negative representable, x = .finite negative (n * F.unitsPerOne) representable ∧
      (negative = true → n = 0) := by
  obtain ⟨hfin, hrank⟩ := h
  cases x with
  | nan => simp [isFinite] at hfin
  | infinite negative => simp [isFinite] at hfin
  | finite negative units representable =>
    have hunits : signed negative units = ((n * F.unitsPerOne : Nat) : Int) := Option.some.inj hrank
    cases negative with
    | false =>
      obtain rfl : units = n * F.unitsPerOne := Int.ofNat.inj hunits
      exact ⟨false, representable, rfl, by simp⟩
    | true =>
      simp only [signed, if_true] at hunits
      have hn : n * F.unitsPerOne = 0 := by omega
      obtain rfl : units = n * F.unitsPerOne := by omega
      exact ⟨true, representable, rfl,
        fun _ => (Nat.mul_eq_zero.mp hn).resolve_right F.unitsPerOne_pos.ne'⟩

theorem holds (h : x.IsNat n) : F.Holds n := by
  obtain ⟨_, representable, -, -⟩ := h.exists_finite
  exact representable

theorem eq_ofNat (h : x.IsNat n) (hpos : 0 < n) : x = ofNat n := by
  obtain ⟨negative, representable, rfl, hsign⟩ := h.exists_finite
  cases negative with
  | false => exact (ofNat_of_holds representable).symm
  | true => exact absurd (hsign rfl) hpos.ne'

theorem mul (hx : x.IsNat a) (hy : y.IsNat b) (hab : F.Holds (a * b)) : (x * y).IsNat (a * b) := by
  obtain ⟨negative, hx', rfl, hxs⟩ := hx.exists_finite
  obtain ⟨negative', hy', rfl, hys⟩ := hy.exists_finite
  have hmul : (finite negative (a * F.unitsPerOne) hx' * finite negative' (b * F.unitsPerOne) hy' :
      Binary F) = finite (negative != negative') (a * b * F.unitsPerOne) hab := by
    have hscale : a * F.unitsPerOne * (b * F.unitsPerOne) =
        a * b * F.unitsPerOne * F.unitsPerOne := by
      ring
    have h := round_mul_right (F := F) (negative != negative') (a * b * F.unitsPerOne) 1
      F.unitsPerOne_pos
    rw [Nat.one_mul, round_of_representable _ hab] at h
    change Binary.mul _ _ = _
    simp only [Binary.mul, hscale, h]
  rw [hmul]
  refine ⟨rfl, congrArg some ?_⟩
  cases negative <;> cases negative' <;> simp_all [signed]

theorem lt_ofNat_iff (hx : x.IsNat a) (hb : F.Holds b) : x < ofNat b ↔ a < b := by
  rw [lt_iff_rank hx.2 (rank_ofNat hb), Int.ofNat_lt, Nat.mul_lt_mul_right F.unitsPerOne_pos]

end IsNat

theorem isNat_ofNat (h : F.Holds n) : (ofNat n : Binary F).IsNat n := by
  refine ⟨?_, rank_ofNat h⟩
  rw [ofNat_of_holds h]
  rfl

theorem ofNat_sub (ha : F.Holds a) (hb : F.Holds b) (hlt : b < a) :
    (ofNat a - ofNat b : Binary F) = ofNat (a - b) := by
  have hsum : signed false (a * F.unitsPerOne) + signed true (b * F.unitsPerOne) =
      (((a - b) * F.unitsPerOne : Nat) : Int) := by
    simp only [signed]
    push_cast [hlt.le]
    ring
  have hne : ((a - b) * F.unitsPerOne : Nat) ≠ 0 :=
    Nat.mul_ne_zero (Nat.sub_ne_zero_of_lt hlt) F.unitsPerOne_pos.ne'
  change Binary.add _ (Binary.neg _) = _
  rw [ofNat_of_holds ha, ofNat_of_holds hb]
  simp only [Binary.neg, Binary.add, Bool.not_false, hsum]
  rw [if_neg (Int.natCast_ne_zero.mpr hne), Int.natAbs_natCast,
    decide_eq_false (Int.not_lt.mpr (Int.natCast_nonneg _)), ofNat]

theorem positivePart_sub (ha : F.Holds a) (hb : F.Holds b) (hab : F.Holds (a - b)) :
    (ofNat a - ofNat b : Binary F).positivePart = ofNat (a - b) := by
  rcases Nat.lt_trichotomy a b with hlt | rfl | hgt
  · have hsum : signed false (a * F.unitsPerOne) + signed true (b * F.unitsPerOne) < 0 := by
      have hmore := Nat.mul_lt_mul_of_pos_right hlt F.unitsPerOne_pos
      simp only [signed, Bool.false_eq_true, if_false, if_true]
      omega
    change (Binary.add _ (Binary.neg _)).positivePart = _
    rw [ofNat_of_holds ha, ofNat_of_holds hb, Nat.sub_eq_zero_of_le hlt.le]
    simp only [Binary.neg, Binary.add, Bool.not_false]
    rw [if_neg hsum.ne, decide_eq_true hsum, positivePart_round_true]
    rfl
  · rw [sub_self_of_finite (isNat_ofNat ha).1, Nat.sub_self]
    exact positivePart_ofNat (.zero F)
  · rw [ofNat_sub ha hb hgt, positivePart_ofNat hab]

/-- Half way between two numbers of single precision, rounding goes to the one that is a multiple of
four. -/
theorem ofNat_four_mul_sub_one (hlow : 2 ^ 24 < 4 * n) (hhigh : 4 * n ≤ 2 ^ 25) :
    (ofNat (4 * n - 1) : Single) = ofNat (4 * n) := by
  have hholds : (Format.single).Holds (4 * n) := by
    have h := Format.Holds.shiftLeft (F := .single) (n := n) (k := 2)
      (show n < 2 ^ 24 by omega) (by decide)
    rwa [Nat.mul_comm] at h
  have hshift : (Format.single).shift ((4 * n - 1) * 2 ^ 149) = 150 := by
    have hlog : ((4 * n - 1) * 2 ^ 149).log2 = 173 := by
      rw [Nat.log2_eq_iff (by omega)]
      constructor <;> omega
    rw [Format.shift, hlog]
    rfl
  have hhalf : roundHalfEven (4 * n - 1) 2 = 2 * n := by
    have hrest : (4 * n - 1) % 2 = 1 := by omega
    simp only [roundHalfEven, hrest, Nat.mul_one, Nat.lt_irrefl, if_false]
    omega
  have hunits : (Format.single).unitsPerOne = 2 ^ 149 := Nat.one_shiftLeft _
  have hnearest : (Format.single).nearest ((4 * n - 1) * (Format.single).unitsPerOne) 1 =
      4 * n * (Format.single).unitsPerOne := by
    rw [hunits, Format.nearest, Nat.div_one]
    simp only [hshift]
    rw [Nat.one_shiftLeft, show 2 ^ 150 = 2 * 2 ^ 149 by norm_num,
      roundHalfEven_mul_right _ _ (by norm_num), hhalf, Nat.shiftLeft_eq]
    omega
  rw [ofNat_of_holds hholds, ofNat]
  simp only [round, hnearest, hholds.lt_limit, dif_pos]

end Binary

end RateGovernor
