import Mathlib
import RateGovernor.Proofs.Dropper.Debt

/-!
# Draining

What is outstanding is the debt and the pending cost together. A leak takes its budget from it, less
what rounding takes back, unless it only charges a slice; so while a bucket goes on to drop, every
leak uses up a part of what was outstanding or one of the slices. Only the slices let rounding add
to what is outstanding: one part in `2 ^ 24` each, and no more than a multiple however many there
are, which a potential shows. The greater a debt is, the more of a budget rounding takes back, and
the work that it is worth grows with its square.
-/

namespace RateGovernor

open Binary

namespace LeakyBucket

/-- The kilobits that are still to be drained. -/
def outstanding (b : LeakyBucket) : ℚ := b.debt.value + b.pending.value

/-- The part of the pending cost that rounding may add to it while a number of slices are
charged. -/
def excess (leaks : ℕ) : ℚ := 4 * (harmonic (leaks + 2 ^ 24) - harmonic (2 ^ 24))

private theorem excess_succ (leaks : ℕ) :
    excess (leaks + 1) = excess leaks + 4 / (leaks + 1 + 2 ^ 24) := by
  rw [excess, excess, Nat.add_right_comm, harmonic_succ, div_eq_mul_inv]
  push_cast
  ring

private theorem excess_nonneg (leaks : ℕ) : 0 ≤ excess leaks := by
  induction leaks with
  | zero => rw [excess, Nat.zero_add, sub_self, mul_zero]
  | succ leaks ih =>
    rw [excess_succ]
    positivity

private theorem excess_le {leaks : ℕ} (h : leaks ≤ 2 ^ 32) : excess leaks ≤ 29 := by
  have hlog : Real.log (leaks + 2 ^ 24 : ℕ) ≤ 33 * Real.log 2 := by
    rw [← Real.log_rpow two_pos]
    refine Real.log_le_log (by positivity) ?_
    exact_mod_cast (by omega : leaks + 2 ^ 24 ≤ 2 ^ 33)
  have hlog' : 24 * Real.log 2 ≤ Real.log (2 ^ 24 + 1 : ℕ) := by
    rw [← Real.log_rpow two_pos]
    exact Real.log_le_log (by positivity) (by norm_num)
  have hupper := harmonic_le_one_add_log (leaks + 2 ^ 24)
  have hlower := log_add_one_le_harmonic (2 ^ 24)
  have htwo := Real.log_two_lt_d9
  have hbound : ((excess leaks : ℚ) : ℝ) ≤ (29 : ℚ) := by
    rw [excess]
    push_cast at *
    linarith
  exact_mod_cast hbound

/-- What is outstanding, and what rounding may still add to it. The pending cost counts twice as
each slice may be rounded up to twice its size when it is charged. -/
def potential (b : LeakyBucket) : ℚ :=
  b.debt.value + 2 * b.pending.value * (1 + excess b.pendingLeaks.toNat)

/-- How many times over rounding may count a debt while a number of slices are charged. -/
def growth (slices : ℕ) : ℚ := min 60 ((1 + 1 / 2 ^ 24) ^ slices)

/-- What rounding may at most make of what is outstanding in a number of leaks: few slices add a
small part each, and many no more than the potential allows. -/
def peak (b : LeakyBucket) (leaks : ℕ) : ℚ :=
  min b.potential (b.outstanding * (1 + 1 / 2 ^ 24) ^ min b.pendingLeaks.toNat leaks)

/-- The budgets that are needed to drain a debt, together in kilobits. The room is what `2 ^ 24`
budgets leave above the greatest debt. -/
def work (room debt : ℚ) : ℚ := debt + debt ^ 2 / (2 * room)

theorem one_le_growth (slices : ℕ) : 1 ≤ growth slices :=
  le_min (by norm_num) (one_le_pow₀ (by norm_num))

theorem growth_le (slices : ℕ) : growth slices ≤ 60 := min_le_left _ _

theorem growth_mono : Monotone growth := fun _ _ hle =>
  min_le_min_left _ (pow_le_pow_right₀ (by norm_num) hle)

section Work

variable {share top room x y : ℚ}

private theorem work_mono (hroom : 0 < room) (hy : 0 ≤ y) (hle : y ≤ x) :
    work room y ≤ work room x := by
  have hsquare : y ^ 2 ≤ x ^ 2 := pow_le_pow_left₀ hy hle 2
  exact add_le_add hle (div_le_div_of_nonneg_right hsquare (by positivity))

theorem work_mul {factor : ℚ} (hpos : 0 < factor) (room x : ℚ) :
    work (factor * room) (factor * x) = factor * work room x := by
  rw [work, work, mul_add, mul_pow, sq factor, mul_left_comm 2, mul_assoc,
    mul_div_mul_left _ _ hpos.ne', mul_div_assoc]

private theorem work_drained (hroom : room = 2 ^ 24 * share - top) (hshare : 0 < share)
    (hpos : 0 < room) (hx : x ≤ top) (hy : 0 < y) (hle : y ≤ (x - share) * (1 + 1 / 2 ^ 24)) :
    work room y + share ≤ work room x := by
  obtain ⟨rest, hrest⟩ : ∃ rest, rest = x - share := ⟨_, rfl⟩
  rw [← hrest] at hle
  have hnonneg : 0 ≤ rest := by
    by_contra hneg
    linarith
  have hmono := work_mono hpos hy.le hle
  have hfew : rest / 2 ^ 24 ≤ share := by linarith
  have hpart := mul_le_mul_of_nonneg_right hfew (by positivity : 0 ≤ rest / 2 ^ 24)
  have hmost := mul_nonneg hnonneg (by linarith : 0 ≤ top - share - rest)
  have hsquares : 2 * room * (rest / 2 ^ 24) + (rest * (1 + 1 / 2 ^ 24)) ^ 2 ≤
      (rest + share) ^ 2 := by
    have hproduct := mul_nonneg hnonneg hshare.le
    have hsquare := mul_pos hshare hshare
    rw [hroom]
    linarith
  have hquotient := div_le_div_of_nonneg_right hsquares (by linarith : 0 ≤ 2 * room)
  rw [add_div, mul_div_cancel_left₀ _ (by linarith : 2 * room ≠ 0)] at hquotient
  rw [show x = rest + share by linarith]
  simp only [work] at hmono ⊢
  linarith

/-- If rounding adds at most half a budget to a debt now and then, that is less than a budget of
work each time. -/
private theorem work_grown {count : ℚ} (hroom : room = 2 ^ 24 * share - top) (hshare : 0 < share)
    (hfit : top ≤ 2 ^ 23 * share) (hcount : 0 ≤ count) (hx : 0 ≤ x) (hle : x ≤ top)
    (hy : 0 ≤ y) (hyle : y ≤ top) (hgrown : y ≤ x + top / 2 ^ 24 * count) :
    work room y ≤ work room x + share * count := by
  have htop : top ≤ room := by linarith
  have hpos : 0 < room := by linarith
  have hadd : top / 2 ^ 24 * count ≤ share / 2 * count :=
    mul_le_mul_of_nonneg_right (by linarith) hcount
  have hnonneg : 0 ≤ top / 2 ^ 24 * count := mul_nonneg (by linarith) hcount
  -- One factor of each square is at most the room.
  have hsquare : y ^ 2 ≤ x ^ 2 + 2 * room * (top / 2 ^ 24 * count) := by
    have hfirst := mul_le_mul_of_nonneg_left hgrown hy
    have hsecond := mul_le_mul_of_nonneg_left hgrown hx
    have hbound := mul_le_mul_of_nonneg_right (by linarith : x + y ≤ 2 * room) hnonneg
    linarith
  have hquotient := div_le_div_of_nonneg_right hsquare (by linarith : 0 ≤ 2 * room)
  rw [add_div, mul_div_cancel_left₀ _ (by linarith : 2 * room ≠ 0)] at hquotient
  rw [work, work]
  linarith

end Work

private theorem toNat_pendingLeaks_leak {b : LeakyBucket} {rate : UInt32}
    (hbusy : b.enabled = true ∧ rate ≠ 0) (hsome : b.pendingLeaks ≠ 0) :
    (b.leak rate).pendingLeaks.toNat = b.pendingLeaks.toNat - 1 := by
  rw [leak_of_spread hbusy hsome]
  exact toNat_pred hsome

namespace Sound

variable {b : LeakyBucket} {rate : UInt32}

theorem outstanding_nonneg (h : b.Sound) : 0 ≤ b.outstanding :=
  add_nonneg h.debt.nonneg h.pending.nonneg

private theorem outstanding_pos (h : b.Sound) (hpos : 0 < b.debt.value) : 0 < b.outstanding :=
  add_pos_of_pos_of_nonneg hpos h.pending.nonneg

private theorem value_drained_le (h : b.Sound) (hrate : rate ≠ 0) :
    (b.debt - b.budget (.ofNat rate.toNat)).positivePart.value ≤ b.debt.value := by
  obtain ⟨hdiff, hle⟩ := h.drained hrate
  rw [value_positivePart hdiff.isFinite]
  exact max_le hle h.debt.nonneg

private theorem value_charged_le (h : b.Sound) (hrate : rate ≠ 0) (hsome : b.pendingLeaks ≠ 0) :
    (b.debt - b.budget (.ofNat rate.toNat) + b.slice).positivePart.value ≤
      (b.debt.value + b.slice.value) * (1 + 1 / 2 ^ 24) := by
  obtain ⟨hsum, -⟩ := h.charged hrate hsome
  obtain ⟨hdiff, hle⟩ := h.drained hrate
  obtain ⟨-, hslice, -⟩ := slice_within h.pending hsome
  have hdebt := h.debt.nonneg
  have hpart := hslice.nonneg
  rw [value_positivePart hsum.isFinite]
  refine max_le ?_ (by positivity)
  rcases le_total 0 ((b.debt - b.budget (.ofNat rate.toNat)).value + b.slice.value) with hpos | hneg
  · have herror := error_add_single hdiff.isFinite hslice.isFinite hsum
    rw [abs_of_nonneg hpos] at herror
    linarith
  · exact (hsum.nonpos hneg).trans (by positivity)

private theorem value_rest_le (h : b.Sound) (hsome : b.pendingLeaks ≠ 0) :
    (b.pending - b.slice).value ≤ (b.pending.value - b.slice.value) * (1 + 1 / 2 ^ 24) := by
  obtain ⟨hdiff, -, -⟩ := rest_within h.pending hsome
  obtain ⟨-, hslice, hle⟩ := slice_within h.pending hsome
  have herror := error_sub_single h.pending.isFinite hslice.isFinite hdiff
  rw [abs_of_nonneg (by linarith)] at herror
  linarith

/-- A leak lowers what is outstanding, except that rounding may add to it while a slice is
charged. -/
private theorem outstanding_leak_le (h : b.Sound) (rate : UInt32) :
    (b.leak rate).outstanding ≤ b.outstanding ∧ (b.leak rate).pendingLeaks = b.pendingLeaks ∨
      (b.leak rate).outstanding ≤ b.outstanding * (1 + 1 / 2 ^ 24) ∧
        (b.leak rate).pendingLeaks.toNat + 1 = b.pendingLeaks.toNat := by
  by_cases hbusy : b.enabled = true ∧ rate ≠ 0
  · by_cases hnone : b.pendingLeaks = 0
    · left
      rw [leak_of_not_spread hbusy hnone]
      exact ⟨add_le_add_left (h.value_drained_le hbusy.2) _, rfl⟩
    · right
      have hcharged := h.value_charged_le hbusy.2 hnone
      have hrest := h.value_rest_le hnone
      have hone := one_le_toNat_iff.mpr hnone
      refine ⟨?_, by rw [toNat_pendingLeaks_leak hbusy hnone]; omega⟩
      rw [leak_of_spread hbusy hnone]
      simp only [outstanding]
      linarith
  · left
    rw [leak_of_idle hbusy]
    exact ⟨le_rfl, rfl⟩

private theorem slice_le (h : b.Sound) (hsome : b.pendingLeaks ≠ 0) :
    b.slice.value ≤ 3 * b.pending.value / b.pendingLeaks.toNat := by
  obtain ⟨hslice, -, -⟩ := slice_within h.pending hsome
  have hpending := h.pending.nonneg
  have hone := one_le_cast_toNat hsome
  have hcount : (2 / 3 * b.pendingLeaks.toNat : ℚ) ≤
      (ofNat b.pendingLeaks.toNat : Single).value := by
    have hround := isRounded_ofNat (F := .single) (.single_two_pow (k := 32) (by decide))
      b.pendingLeaks.toNat_lt.le
    have hbelow := (hround.single_bounds (le_trans (by norm_num) hone)).1
    linarith
  have hquotient : b.pending.value / (ofNat b.pendingLeaks.toNat : Single).value ≤
      b.pending.value / (2 / 3 * b.pendingLeaks.toNat) :=
    div_le_div_of_nonneg_left hpending (by linarith) hcount
  -- Zero is a number of the format, so rounding at most doubles a quotient.
  have hnonneg : 0 ≤ b.pending.value / (ofNat b.pendingLeaks.toNat : Single).value :=
    div_nonneg hpending (by linarith)
  have hdouble := hslice.value_le_add isFinite_zero
  rw [value_zero, zero_sub, abs_neg, abs_of_nonneg hnonneg] at hdouble
  have hshare : b.pending.value / (2 / 3 * b.pendingLeaks.toNat) =
      3 * b.pending.value / b.pendingLeaks.toNat / 2 := by
    field_simp
  linarith

private theorem rest_le_excess (h : b.Sound) (hsome : b.pendingLeaks ≠ 0) :
    (b.pending - b.slice).value ≤ b.pending.value - b.slice.value +
      b.pending.value * (4 / (b.pendingLeaks.toNat + 2 ^ 24)) := by
  obtain ⟨-, hslice, hle⟩ := slice_within h.pending hsome
  obtain ⟨-, -, hkept⟩ := rest_within h.pending hsome
  have hpending := h.pending.nonneg
  have hpart := hslice.nonneg
  have hone := one_le_cast_toNat hsome
  rcases le_total (b.pendingLeaks.toNat : ℚ) (3 * 2 ^ 24) with hfew | hmany
  · -- Rounding keeps less than one part in `2 ^ 24`.
    have hrest := h.value_rest_le hsome
    have hshare : (1 / 2 ^ 24 : ℚ) ≤ 4 / (b.pendingLeaks.toNat + 2 ^ 24) := by
      rw [div_le_div_iff₀ (by norm_num) (by linarith)]
      linarith
    have hexcess := mul_le_mul_of_nonneg_left hshare hpending
    linarith
  · -- Rounding keeps no more than the slice.
    have hshare : (3 / b.pendingLeaks.toNat : ℚ) ≤ 4 / (b.pendingLeaks.toNat + 2 ^ 24) := by
      rw [div_le_div_iff₀ (by linarith) (by linarith)]
      linarith
    have hexcess := mul_le_mul_of_nonneg_left hshare hpending
    have hsliced := h.slice_le hsome
    rw [mul_comm, mul_div_assoc] at hsliced
    linarith

private theorem potential_leak_le (h : b.Sound) (rate : UInt32) :
    (b.leak rate).potential ≤ b.potential := by
  have hdebt := h.debt.nonneg
  have hpending := h.pending.nonneg
  by_cases hbusy : b.enabled = true ∧ rate ≠ 0
  · obtain ⟨hdiff, hle⟩ := h.drained hbusy.2
    by_cases hnone : b.pendingLeaks = 0
    · rw [leak_of_not_spread hbusy hnone]
      have hlower := h.value_drained_le hbusy.2
      simp only [potential]
      linarith
    · rw [leak_of_spread hbusy hnone]
      obtain ⟨hsum, -⟩ := h.charged hbusy.2 hnone
      obtain ⟨-, hslice, -⟩ := slice_within h.pending hnone
      obtain ⟨-, hrest, hrestle⟩ := rest_within h.pending hnone
      have hpart := hslice.nonneg
      have hcharged : (b.debt - b.budget (.ofNat rate.toNat) + b.slice).positivePart.value ≤
          b.debt.value + 2 * b.slice.value := by
        have hsumle := hsum.value_le_add hdiff.isFinite
        rw [sub_add_cancel_left, abs_neg, abs_of_nonneg hpart] at hsumle
        rw [value_positivePart hsum.isFinite]
        exact max_le (by linarith) (by positivity)
      have hkept := h.rest_le_excess hnone
      obtain ⟨n, hn⟩ : ∃ n, b.pendingLeaks.toNat = n + 1 :=
        Nat.exists_eq_add_of_le' (one_le_toNat_iff.mpr hnone)
      have hless := mul_le_mul_of_nonneg_right hrestle (excess_nonneg n)
      simp only [potential, toNat_pred hnone]
      rw [hn] at hkept ⊢
      rw [Nat.add_sub_cancel, excess_succ]
      push_cast at hkept
      linarith
  · rw [leak_of_idle hbusy]

private theorem peak_leak_le (h : b.Sound) (rate : UInt32) (leaks : ℕ) :
    (b.leak rate).peak leaks ≤ b.peak (leaks + 1) := by
  refine min_le_min (h.potential_leak_le rate) ?_
  rcases h.outstanding_leak_le rate with ⟨hlower, hleaks⟩ | ⟨hmore, hleaks⟩
  · rw [hleaks]
    refine mul_le_mul hlower (pow_le_pow_right₀ (by norm_num) ?_) (by positivity)
      h.outstanding_nonneg
    exact min_le_min_left _ leaks.le_succ
  · rw [← hleaks, Nat.add_min_add_right, pow_succ' (1 + 1 / 2 ^ 24 : ℚ), ← mul_assoc]
    exact mul_le_mul_of_nonneg_right hmore (by positivity)

private theorem outstanding_leak_of_not_spread (h : b.Sound) (hbusy : b.enabled = true ∧ rate ≠ 0)
    (hpos : 0 < (b.leak rate).debt.value) (hnone : b.pendingLeaks = 0) :
    (b.leak rate).outstanding ≤
      (b.outstanding - (b.budget (.ofNat rate.toNat)).value) * (1 + 1 / 2 ^ 24) := by
  have hpending := h.pending.nonneg
  obtain ⟨hdiff, -⟩ := h.drained hbusy.2
  have hbudget := (h.budget hbusy.2).2
  rw [leak_of_not_spread hbusy hnone] at hpos ⊢
  have hvalue := value_positivePart_of_pos hdiff.isFinite hpos
  have herror := error_sub_single h.debt.isFinite hbudget.isFinite hdiff
  rw [abs_of_nonneg (hdiff.nonneg_of_pos (hpos.trans_eq hvalue))] at herror
  simp only [outstanding, hvalue]
  linarith

private theorem outstanding_leak_of_spread (h : b.Sound) (hbusy : b.enabled = true ∧ rate ≠ 0)
    (hpos : 0 < (b.leak rate).debt.value) (hsome : b.pendingLeaks ≠ 0) :
    (b.leak rate).outstanding ≤ b.outstanding - (b.budget (.ofNat rate.toNat)).value +
      (2 * b.outstanding + (b.budget (.ofNat rate.toNat)).value) / 2 ^ 24 := by
  have hdebt := h.debt.nonneg
  have hpending := h.pending.nonneg
  obtain ⟨hdiff, hlower⟩ := h.drained hbusy.2
  obtain ⟨hsum, -⟩ := h.charged hbusy.2 hsome
  obtain ⟨-, hslice, -⟩ := slice_within h.pending hsome
  have hbudget := (h.budget hbusy.2).2
  have htake := hbudget.nonneg
  have hrest := h.value_rest_le hsome
  rw [leak_of_spread hbusy hsome] at hpos ⊢
  have hvalue := value_positivePart_of_pos hsum.isFinite hpos
  have hdrain := error_sub_single h.debt.isFinite hbudget.isFinite hdiff
  have habs : |b.debt.value - (b.budget (.ofNat rate.toNat)).value| ≤
      b.debt.value + (b.budget (.ofNat rate.toNat)).value := by
    rw [abs_le]
    constructor <;> linarith
  have hcharge := error_add_single hdiff.isFinite hslice.isFinite hsum
  rw [abs_of_nonneg (hsum.nonneg_of_pos (hpos.trans_eq hvalue))] at hcharge
  simp only [outstanding, hvalue]
  linarith

/-- While debt is left, a leak does a budget's part of the work, or it charges a slice. -/
private theorem leak_descends {share top room : ℚ} (h : b.Sound)
    (hbusy : b.enabled = true ∧ rate ≠ 0)
    (hpos : 0 < (b.leak rate).debt.value) (hroom : room = 2 ^ 24 * share - top)
    (hshare : 0 < share) (hbudget : share ≤ (b.budget (.ofNat rate.toNat)).value)
    (htop : b.outstanding ≤ top) (hfit : top ≤ (2 ^ 23 - 1) * share) :
    (b.leak rate).outstanding ≤ b.outstanding ∧
      work room (b.leak rate).outstanding + share * ((b.leak rate).pendingLeaks.toNat + 1) ≤
        work room b.outstanding + share * b.pendingLeaks.toNat := by
  have hnext := (h.leak rate).outstanding_pos hpos
  have hroom_pos : 0 < room := by linarith
  by_cases hnone : b.pendingLeaks = 0
  · have hle := h.outstanding_leak_of_not_spread hbusy hpos hnone
    have hleaks : (b.leak rate).pendingLeaks = 0 := by rw [leak_of_not_spread hbusy hnone, hnone]
    have hwork := work_drained hroom hshare hroom_pos htop hnext (by linarith)
    rw [hleaks, hnone, UInt32.toNat_zero, Nat.cast_zero]
    constructor <;> linarith
  · have hle := h.outstanding_leak_of_spread hbusy hpos hnone
    have hlower : (b.leak rate).outstanding ≤ b.outstanding := by linarith
    obtain ⟨n, hn⟩ : ∃ n, b.pendingLeaks.toNat = n + 1 :=
      Nat.exists_eq_add_of_le' (one_le_toNat_iff.mpr hnone)
    rw [toNat_pendingLeaks_leak hbusy hnone, hn, Nat.add_sub_cancel]
    push_cast
    exact ⟨hlower, add_le_add_left (work_mono hroom_pos hnext.le hlower) _⟩

/-- A debt from which rounding swallows more than the bitrate does not drain at any rate. -/
theorem leak_eq_self_of_absorbed (h : b.Sound) (hpos : 0 < b.debt.value)
    (hnone : b.pendingLeaks = 0) {y : Single} (hy : y.Within (2 ^ 64))
    (hlt : b.bitrate.value < y.value) (habsorbed : b.debt - y = b.debt) (rate : UInt32) :
    b.leak rate = b := by
  by_cases hbusy : b.enabled = true ∧ rate ≠ 0
  · obtain ⟨hdiff, -⟩ := h.drained hbusy.2
    obtain ⟨hround, hbudget⟩ := h.budget hbusy.2
    have htake := hbudget.nonneg
    have hone := one_le_value_toNat hbusy.2
    rw [Nat.cast_one] at hone
    have hshare := hround.le_value h.bitrate.isFinite (div_le_self h.bitrate.nonneg hone)
    have hkept : IsRounded (b.debt.value - y.value) b.debt := by
      have hdebt := h.debt.le
      have hsmall := hy.le
      have hnonneg := hy.nonneg
      have hbound : |b.debt.value - y.value| ≤ (2 ^ 120 : ℕ) := by
        rw [abs_le]
        push_cast at hdebt hsmall ⊢
        constructor <;> linarith
      have hsub := isRounded_sub h.debt.isFinite hy.isFinite
        (.single_two_pow (k := 120) (by decide)) hbound
      rwa [habsorbed] at hsub
    have hvalue := hkept.value_eq_of_between hdiff (by linarith) (by linarith)
    have hsame := eq_of_value_eq hdiff.isFinite h.debt.isFinite (hpos.trans_eq hvalue.symm) hvalue
    have hpart : b.debt.positivePart = b.debt := if_pos ((pos_iff_value h.debt.isFinite).mpr hpos)
    rw [leak_of_not_spread hbusy hnone, hsame, hpart]
  · exact leak_of_idle hbusy

private theorem of_shouldDrop (h : b.Sound) (hdrop : b.shouldDrop = true) :
    b.enabled = true ∧ 0 < b.debt.value := by
  obtain ⟨⟨henabled, -⟩, hover⟩ := (shouldDrop_iff h.bitrate.isFinite).mp hdrop
  exact ⟨henabled, (pos_iff_value h.debt.isFinite).mp (pos_of_not_neg_of_lt h.threshold hover)⟩

end Sound

section Run

/-- A bucket that is asked after each of a number of leaks, and drops each time. -/
def DropsAll : List UInt32 → LeakyBucket → Prop
  | [], _ => True
  | rate :: rest, b => (b.leak rate).shouldDrop = true ∧ DropsAll rest (b.leak rate)

theorem dropsAll_append (early late : List UInt32) (b : LeakyBucket) :
    DropsAll (early ++ late) b ↔ DropsAll early b ∧ DropsAll late (early.foldl leak b) := by
  induction early generalizing b with
  | nil => simp only [List.nil_append, DropsAll, List.foldl_nil, true_and]
  | cons rate rest ih => simp only [List.cons_append, DropsAll, List.foldl_cons, ih, and_assoc]

theorem dropsAll_of_kept {b : LeakyBucket} (hverdict : b.shouldDrop = true)
    (hkept : ∀ rate, b.leak rate = b) (rates : List UInt32) : DropsAll rates b := by
  induction rates with
  | nil => trivial
  | cons rate rest ih =>
    rw [DropsAll, hkept]
    exact ⟨hverdict, ih⟩

namespace Sound

variable {b : LeakyBucket}

theorem foldl_leak (h : b.Sound) (rates : List UInt32) :
    (rates.foldl LeakyBucket.leak b).Sound := by
  induction rates generalizing b with
  | nil => exact h
  | cons rate rest ih => exact ih (h.leak rate)

private theorem outstanding_le_peak (h : b.Sound) (leaks : ℕ) : b.outstanding ≤ b.peak leaks := by
  have hpending := h.pending.nonneg
  refine le_min ?_ (le_mul_of_one_le_right h.outstanding_nonneg (one_le_pow₀ (by norm_num)))
  rw [potential, outstanding]
  linarith [mul_nonneg hpending (excess_nonneg b.pendingLeaks.toNat)]

private theorem peak_le (h : b.Sound) (leaks : ℕ) :
    b.peak leaks ≤ b.outstanding * growth (min b.pendingLeaks.toNat leaks) := by
  have hdebt := h.debt.nonneg
  have hpending := h.pending.nonneg
  have hexcess := mul_le_mul_of_nonneg_left (excess_le b.pendingLeaks.toNat_lt.le) hpending
  rw [peak, growth, mul_min_of_nonneg _ _ h.outstanding_nonneg]
  refine min_le_min ?_ le_rfl
  rw [potential, outstanding]
  linarith

/-- Each slice adds at most one part in `2 ^ 24` of the peak. -/
theorem outstanding_foldl_leak_le (h : b.Sound) (rates : List UInt32) {top : ℚ}
    (htop : b.peak rates.length ≤ top) :
    (rates.foldl LeakyBucket.leak b).outstanding ≤ top ∧
      (rates.foldl LeakyBucket.leak b).pendingLeaks.toNat ≤ b.pendingLeaks.toNat ∧
      (rates.foldl LeakyBucket.leak b).outstanding +
          top / 2 ^ 24 * (rates.foldl LeakyBucket.leak b).pendingLeaks.toNat ≤
        b.outstanding + top / 2 ^ 24 * b.pendingLeaks.toNat := by
  have hle := (h.outstanding_le_peak _).trans htop
  induction rates generalizing b with
  | nil => exact ⟨hle, le_rfl, le_rfl⟩
  | cons rate rest ih =>
    have hpeak := (h.peak_leak_le rate rest.length).trans htop
    obtain ⟨hlast, hfewer, hrest⟩ :=
      ih (h.leak rate) hpeak (((h.leak rate).outstanding_le_peak _).trans hpeak)
    rw [List.foldl_cons]
    rcases h.outstanding_leak_le rate with ⟨hlower, hleaks⟩ | ⟨hmore, hleaks⟩
    · rw [hleaks] at hfewer hrest
      exact ⟨hlast, hfewer, hrest.trans (add_le_add_left hlower _)⟩
    · refine ⟨hlast, by omega, hrest.trans ?_⟩
      rw [← hleaks]
      push_cast
      linarith

/-- A bucket drops no longer than its slices and the work that its debt is worth. -/
theorem length_le_of_dropsAll {share top room : ℚ} {rates : List UInt32} (h : b.Sound)
    (hdrops : DropsAll rates b) (hroom : room = 2 ^ 24 * share - top) (hshare : 0 < share)
    (hrates : ∀ rate ∈ rates, rate ≠ 0 ∧ share ≤ (b.budget (.ofNat rate.toNat)).value)
    (htop : b.outstanding ≤ top) (hfit : top ≤ (2 ^ 23 - 1) * share) :
    share * rates.length ≤ work room b.outstanding + share * b.pendingLeaks.toNat := by
  have hnonneg := h.outstanding_nonneg
  induction rates generalizing b with
  | nil =>
    have hpos : 0 < room := by linarith
    rw [List.length_nil, Nat.cast_zero, mul_zero, work]
    positivity
  | cons rate rest ih =>
    obtain ⟨hdrop, hlater⟩ := hdrops
    obtain ⟨hrate, hbudget⟩ := hrates rate List.mem_cons_self
    obtain ⟨henabled, hpos⟩ := (h.leak rate).of_shouldDrop hdrop
    rw [enabled_leak] at henabled
    obtain ⟨hle, hdescends⟩ :=
      h.leak_descends ⟨henabled, hrate⟩ hpos hroom hshare hbudget htop hfit
    have hrest := ih (h.leak rate) hlater
      (fun later hmem => by
        obtain ⟨hne, hpart⟩ := hrates later (List.mem_cons_of_mem _ hmem)
        refine ⟨hne, ?_⟩
        simpa only [LeakyBucket.budget, bitrate_leak] using hpart)
      (hle.trans htop) (h.leak rate).outstanding_nonneg
    rw [List.length_cons]
    push_cast
    linarith

theorem length_le_of_dropsAll_foldl {share top room : ℚ} {early late : List UInt32} (h : b.Sound)
    (hdrops : DropsAll late (early.foldl LeakyBucket.leak b)) (hroom : room = 2 ^ 24 * share - top)
    (hshare : 0 < share)
    (hrates : ∀ rate ∈ late, rate ≠ 0 ∧
      share ≤ ((early.foldl LeakyBucket.leak b).budget (.ofNat rate.toNat)).value)
    (htop : b.outstanding * growth (min b.pendingLeaks.toNat early.length) ≤ top)
    (hfit : top ≤ (2 ^ 23 - 1) * share) :
    share * late.length ≤ work room b.outstanding + share * b.pendingLeaks.toNat := by
  have hsound := h.foldl_leak early
  have hpeak := (h.peak_le early.length).trans htop
  obtain ⟨hbelow, hfewer, hgrown⟩ := h.outstanding_foldl_leak_le early hpeak
  have hlater := hsound.length_le_of_dropsAll hdrops hroom hshare hrates hbelow hfit
  obtain ⟨charged, hcharged⟩ := Nat.exists_eq_add_of_le hfewer
  rw [hcharged] at hgrown ⊢
  push_cast at hgrown ⊢
  have hwork := work_grown hroom hshare (by linarith) charged.cast_nonneg h.outstanding_nonneg
    ((h.outstanding_le_peak _).trans hpeak) hsound.outstanding_nonneg hbelow (by linarith)
  linarith

end Sound

/-- A bucket for whole numbers of kilobits, without a window and without slices. -/
def holding (bitrate debt : ℕ) : LeakyBucket :=
  ⟨⟨0, 0⟩, .ofNat debt, 0, .ofNat bitrate, 30, 0, 0, true⟩

theorem leak_holding {bitrate debt next : ℕ} (hbitrate : (Format.single).Holds bitrate)
    (h : (.ofNat debt - .ofNat bitrate : Single).positivePart = .ofNat next) :
    (holding bitrate debt).leak 1 = holding bitrate next := by
  have hfinite : (.ofNat bitrate : Single).isFinite := (isNat_ofNat hbitrate).1
  have hbudget : (holding bitrate debt).budget (.ofNat (1 : UInt32).toNat) = .ofNat bitrate := by
    rw [budget_toNat _ (by decide)]
    exact div_ofNat_one hfinite (.single_of_lt (by decide))
  rw [leak_of_not_spread ⟨rfl, by decide⟩ rfl, hbudget]
  exact congrArg (fun debt : Single => { holding bitrate next with debt }) h

theorem dropsAll_holding {bitrate : ℕ} {d : ℕ → ℕ} {count : ℕ}
    (hleak : ∀ i < count, (holding bitrate (d i)).leak 1 = holding bitrate (d (i + 1)))
    (hdrop : ∀ i < count, (holding bitrate (d (i + 1))).shouldDrop = true) :
    DropsAll (List.replicate count 1) (holding bitrate (d 0)) := by
  induction count generalizing d with
  | zero => trivial
  | succ count ih =>
    rw [List.replicate_succ, DropsAll, hleak 0 count.succ_pos]
    exact ⟨hdrop 0 count.succ_pos, ih (d := fun i => d (i + 1))
      (fun i hi => hleak (i + 1) (Nat.succ_lt_succ hi))
      (fun i hi => hdrop (i + 1) (Nat.succ_lt_succ hi))⟩

end Run

end LeakyBucket

end RateGovernor
