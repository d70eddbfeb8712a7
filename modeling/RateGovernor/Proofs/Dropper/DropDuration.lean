import Mathlib
import RateGovernor.Proofs.Dropper.Draining

/-!
# How long a bucket drops

The whole frame rate of steady arrivals is above their own rate by at most half a frame, so it
leaves each leak at least half of what the target allows for an interval, and more unless the
interval is two seconds. What it leaves beyond a half makes up for what rounding takes back, as long
as the debt is worth less than about eight million budgets, and less the closer the interval is to
two seconds. Then a bucket goes on to drop for at most twice the time that its debt takes to drain
at the target, one interval for each slice, and three more.
-/

namespace RateGovernor

open Binary

namespace LeakyBucket

variable {b : LeakyBucket} {target rate : UInt32} {interval : ℕ}

/-- The whole frame rate of arrivals at an interval in milliseconds, a half rounded up. -/
def steadyFrames (interval : ℕ) : ℕ := (2000 + interval) / (2 * interval)

/-- The milliseconds in which as many frames arrive as the whole frame rate counts for a second. -/
def pace (interval : ℕ) : ℚ := steadyFrames interval * interval

/-- The kilobits that a target in bits per second allows for a frame of steady arrivals. -/
def allowance (target : UInt32) (interval : ℕ) : ℚ := target.toNat / 1000 / steadyFrames interval

/-- The budgets that a debt is worth. -/
def worth (b : LeakyBucket) (target : UInt32) (interval : ℕ) : ℚ :=
  b.outstanding / allowance target interval

/-- How many budgets a debt may be worth when frames arrive at an interval and a number of slices
may be charged before the rates suit it: about half of what makes rounding swallow a budget, and
less the closer the pace is to two seconds. -/
def debtLimit (interval slices : ℕ) : ℚ :=
  max 9000
    (min 8000000 (33000000 * (2000 - pace interval) / (4000 - pace interval)) / growth slices)

private theorem one_le_steadyFrames (hpos : 1 ≤ interval) (hslow : interval ≤ 2000) :
    1 ≤ steadyFrames interval := by
  rw [steadyFrames, Nat.le_div_iff_mul_le (by omega)]
  omega

private theorem le_steadyFrames (hpos : 1 ≤ interval) {frames : ℕ}
    (hfit : 2 * (frames * interval) ≤ 2000 + interval) : frames ≤ steadyFrames interval := by
  rw [steadyFrames, Nat.le_div_iff_mul_le (by omega)]
  linarith

private theorem one_le_pace (hpos : 1 ≤ interval) (hslow : interval ≤ 2000) :
    1 ≤ pace interval := by
  rw [pace]
  exact_mod_cast Nat.mul_pos (one_le_steadyFrames hpos hslow) hpos

private theorem pace_le (hslow : interval ≤ 2000) :
    pace interval ≤ 1999 ∨ pace interval = 2000 := by
  have hfit : steadyFrames interval * (2 * interval) ≤ 2000 + interval := Nat.div_mul_le_self _ _
  have hle : steadyFrames interval * interval ≤ 2000 := by linarith
  rw [pace]
  rcases hle.eq_or_lt with heq | hlt
  · exact .inr (by exact_mod_cast heq)
  · exact .inl (by exact_mod_cast Nat.le_of_lt_succ hlt)

private theorem allowance_pos (htarget : target ≠ 0) (hpos : 1 ≤ interval)
    (hslow : interval ≤ 2000) :
    0 < allowance target interval := by
  have htarget' : (0 : ℚ) < target.toNat := one_pos.trans_le (one_le_cast_toNat htarget)
  have hframes : (0 : ℚ) < steadyFrames interval := by
    exact_mod_cast one_le_steadyFrames hpos hslow
  rw [allowance]
  positivity

private theorem Sound.allowance_le_budget (h : b.Sound)
    (hbitrate : b.bitrate = (kilobitsPerSecond target).positivePart) (htarget : target ≠ 0)
    (hpos : 1 ≤ interval) (hrate : 1 ≤ rate.toNat)
    (hfit : 2 * (rate.toNat * interval) ≤ 2000 + interval) :
    allowance target interval * (1 - 1 / 2 ^ 22) ≤ (b.budget (.ofNat rate.toNat)).value := by
  have hne := one_le_toNat_iff.mp hrate
  have hsmall : rate.toNat ≤ 2000 := by nlinarith
  have hexact : (ofNat rate.toNat : Single).value = rate.toNat := value_literal (by omega)
  have hkilobits := kilobitsPerSecond_ge htarget
  have htarget' := one_le_cast_toNat htarget
  have hvalue : b.bitrate.value = (kilobitsPerSecond target).value := by
    rw [hbitrate, positivePart_kilobitsPerSecond]
  have hrate' : (1 : ℚ) ≤ rate.toNat := by exact_mod_cast hrate
  have hsmall' : (rate.toNat : ℚ) ≤ 2000 := by exact_mod_cast hsmall
  have hframes : (rate.toNat : ℚ) ≤ steadyFrames interval := by
    exact_mod_cast le_steadyFrames hpos hfit
  obtain ⟨hbudget, -⟩ := h.budget hne
  rw [hexact, hvalue] at hbudget
  have hlarge : 1 / 2 ^ 100 ≤ (kilobitsPerSecond target).value / rate.toNat := by
    rw [le_div_iff₀ (by linarith)]
    linarith
  calc allowance target interval * (1 - 1 / 2 ^ 22)
      ≤ (target.toNat / 1000 : ℚ) / rate.toNat * (1 - 1 / 2 ^ 22) :=
        mul_le_mul_of_nonneg_right
          (div_le_div_of_nonneg_left (by positivity) (by linarith) hframes) (by norm_num)
    _ = (target.toNat / 1000 : ℚ) * (1 - 1 / 2 ^ 22) / rate.toNat := by ring
    _ ≤ (kilobitsPerSecond target).value * (1 - 1 / 2 ^ 24) / rate.toNat :=
        div_le_div_of_nonneg_right (by linarith) (by linarith)
    _ = (kilobitsPerSecond target).value / rate.toNat * (1 - 1 / 2 ^ 24) := by ring
    _ ≤ (b.budget (.ofNat rate.toNat)).value := (hbudget.single_bounds hlarge).1

section Limit

variable {worth growth pace : ℚ}

private theorem work_le_of_small (hmost : growth ≤ 60) (hnonneg : 0 ≤ worth)
    (hsmall : worth ≤ 9000) :
    work (2 ^ 24 * (1 - 1 / 2 ^ 22) - worth * growth) worth ≤ (1 - 1 / 2 ^ 22) * (worth + 3) := by
  have hgrown := mul_le_mul_of_nonneg_left hmost hnonneg
  have hsquare := mul_le_mul_of_nonneg_left hsmall hnonneg
  have hpart : worth ^ 2 / (2 * (2 ^ 24 * (1 - 1 / 2 ^ 22) - worth * growth)) ≤ 5 / 2 := by
    rw [div_le_iff₀ (by linarith)]
    linarith
  rw [work]
  linarith

private theorem work_le_of_large (hpos : 1 ≤ pace) (hpace : pace ≤ 1999) (hone : 1 ≤ growth)
    (hnonneg : 0 ≤ worth) (hgrown : worth * growth ≤ 8000000)
    (hfast : worth * growth ≤ 33000000 * (2000 - pace) / (4000 - pace)) :
    work (2 ^ 24 * (1 - 1 / 2 ^ 22) - worth * growth) worth ≤
      (1 - 1 / 2 ^ 22) * (worth * (2000 / pace)) := by
  have hself : worth ≤ worth * growth := le_mul_of_one_le_right hnonneg hone
  generalize worth * growth = grown at *
  obtain ⟨room, hroom⟩ : ∃ room, room = 2 ^ 24 * (1 - 1 / 2 ^ 22) - grown := ⟨_, rfl⟩
  rw [← hroom]
  rw [le_div_iff₀ (by linarith)] at hfast
  have hroom_pos : 0 < room := by linarith
  have hsquare : worth ^ 2 / (2 * room) ≤ worth * (grown / (2 * room)) := by
    rw [← mul_div_assoc, sq]
    exact div_le_div_of_nonneg_right (mul_le_mul_of_nonneg_left hself hnonneg) (by linarith)
  have hpart : 1 + grown / (2 * room) ≤ (1 - 1 / 2 ^ 22) * (2000 / pace) := by
    rw [← mul_div_assoc, one_add_div (by linarith), div_le_div_iff₀ (by linarith) (by linarith),
      hroom]
    linarith
  have htime := mul_le_mul_of_nonneg_left hpart hnonneg
  rw [work]
  linarith

end Limit

section Limit

variable {worth : ℚ} {slices : ℕ}

private theorem mul_growth_le (hnonneg : 0 ≤ worth) (hlimit : worth ≤ debtLimit interval slices) :
    worth * growth slices ≤ 8000000 := by
  have hone := one_le_growth slices
  rcases le_max_iff.mp hlimit with hsmall | hlarge
  · have hgrown := mul_le_mul_of_nonneg_left (growth_le slices) hnonneg
    linarith
  · exact ((le_div_iff₀ (by linarith)).mp hlarge).trans (min_le_left _ _)

/-- The work of a debt within the limit takes no longer than twice its time at the target, and three
intervals more. -/
private theorem work_le_of_le_debtLimit (hpos : 1 ≤ interval) (hslow : interval ≤ 2000)
    (hnonneg : 0 ≤ worth) (hlimit : worth ≤ debtLimit interval slices) :
    work (2 ^ 24 * (1 - 1 / 2 ^ 22) - worth * growth slices) worth ≤
      (1 - 1 / 2 ^ 22) * (worth * (2000 / pace interval) + 3) := by
  have hone := one_le_growth slices
  have hmost := growth_le slices
  have hgrown := mul_growth_le hnonneg hlimit
  have hpace := one_le_pace hpos hslow
  have hpace' := pace_le hslow
  rw [debtLimit] at hlimit
  generalize pace interval = pace at *
  have htime : worth ≤ worth * (2000 / pace) := by
    refine le_mul_of_one_le_right hnonneg ((one_le_div (by linarith)).mpr ?_)
    rcases hpace' with hless | htwo <;> linarith
  rcases le_max_iff.mp hlimit with hsmall | hlarge
  · linarith [work_le_of_small hmost hnonneg hsmall]
  · have hfast := ((le_div_iff₀ (by linarith)).mp hlarge).trans (min_le_right _ _)
    rcases hpace' with hless | rfl
    · linarith [work_le_of_large hpace hless hone hnonneg hgrown hfast]
    · -- At two seconds there is no time to lose.
      have hself := le_mul_of_one_le_right hnonneg hone
      norm_num at hfast
      linarith [work_le_of_small hmost hnonneg (by linarith)]

end Limit

@[simp] theorem bitrate_foldl_leak (b : LeakyBucket) (rates : List UInt32) :
    (rates.foldl leak b).bitrate = b.bitrate := by
  induction rates generalizing b with
  | nil => rfl
  | cons rate rest ih => rw [List.foldl_cons, ih, bitrate_leak]

private theorem Sound.target_ne_zero (h : b.Sound)
    (hbitrate : b.bitrate = (kilobitsPerSecond target).positivePart)
    (hdrop : b.shouldDrop = true) : target ≠ 0 := by
  rintro rfl
  have hzero : (ofNat (0 : UInt32).toNat : Single).value = 0 := value_zero
  obtain ⟨hround, hwithin⟩ := isRounded_kilobitsPerSecond 0
  rw [hzero, zero_div] at hround
  have hpos := (pos_iff_value h.bitrate.isFinite).mp
    ((shouldDrop_iff h.bitrate.isFinite).mp hdrop).1.2
  rw [hbitrate, value_positivePart hwithin.isFinite, max_eq_right (hround.nonpos le_rfl)] at hpos
  exact lt_irrefl _ hpos

private theorem outstanding_eq_mul_worth (b : LeakyBucket) (htarget : target ≠ 0)
    (hpos : 1 ≤ interval) (hslow : interval ≤ 2000) :
    b.outstanding = allowance target interval * b.worth target interval := by
  rw [worth, mul_div_cancel₀ _ (allowance_pos htarget hpos hslow).ne']

private theorem two_mul_drain_eq (b : LeakyBucket) (target : UInt32) (hpos : 1 ≤ interval)
    (hslow : interval ≤ 2000) :
    2 * (1000 * b.outstanding / (target.toNat / 1000)) =
      b.worth target interval * (2000 / pace interval) * interval := by
  have hframes : (steadyFrames interval : ℚ) ≠ 0 := by
    exact_mod_cast Nat.ne_of_gt (one_le_steadyFrames hpos hslow)
  have hpos' : (interval : ℚ) ≠ 0 := by exact_mod_cast Nat.ne_of_gt hpos
  rw [worth, allowance, pace, div_div_eq_mul_div]
  field_simp
  ring

section Late

variable {early late : List UInt32} {slices : ℕ}

private theorem Sound.length_late_le_work (h : b.Sound)
    (hbitrate : b.bitrate = (kilobitsPerSecond target).positivePart) (htarget : target ≠ 0)
    (hpos : 1 ≤ interval) (hslow : interval ≤ 2000)
    (hdrops : DropsAll late (early.foldl LeakyBucket.leak b))
    (hlate : ∀ rate ∈ late, 1 ≤ rate.toNat ∧ 2 * (rate.toNat * interval) ≤ 2000 + interval)
    (hslices : min b.pendingLeaks.toNat early.length ≤ slices)
    (hgrown : b.worth target interval * growth slices ≤ 8000000) :
    (1 - 1 / 2 ^ 22) * (late.length : ℚ) ≤
      work (2 ^ 24 * (1 - 1 / 2 ^ 22) - b.worth target interval * growth slices)
          (b.worth target interval) +
        (1 - 1 / 2 ^ 22) * b.pendingLeaks.toNat := by
  have hallowance := allowance_pos htarget hpos hslow
  have hrates : ∀ rate ∈ late, rate ≠ 0 ∧ allowance target interval * (1 - 1 / 2 ^ 22) ≤
      ((early.foldl LeakyBucket.leak b).budget (.ofNat rate.toNat)).value := by
    intro rate hmem
    obtain ⟨hrate, hfit⟩ := hlate rate hmem
    exact ⟨one_le_toNat_iff.mp hrate, (h.foldl_leak early).allowance_le_budget
      ((b.bitrate_foldl_leak early).trans hbitrate) htarget hpos hrate hfit⟩
  have hout := b.outstanding_eq_mul_worth htarget hpos hslow
  generalize b.worth target interval = worth at *
  generalize allowance target interval = allowance at *
  have hroom : allowance * (2 ^ 24 * (1 - 1 / 2 ^ 22) - worth * growth slices) =
      2 ^ 24 * (allowance * (1 - 1 / 2 ^ 22)) -
        b.outstanding * growth slices := by
    rw [hout]
    ring
  have hfit : b.outstanding * growth slices ≤
      (2 ^ 23 - 1) * (allowance * (1 - 1 / 2 ^ 22)) := by
    have hscaled := mul_le_mul_of_nonneg_left hgrown hallowance.le
    rw [hout]
    linarith
  have hpeak := mul_le_mul_of_nonneg_left (growth_mono hslices) h.outstanding_nonneg
  have hcount := h.length_le_of_dropsAll_foldl hdrops hroom (by linarith) hrates hpeak hfit
  rw [hout, work_mul hallowance] at hcount
  refine le_of_mul_le_mul_left ?_ hallowance
  linarith

private theorem Sound.length_late_le (h : b.Sound)
    (hbitrate : b.bitrate = (kilobitsPerSecond target).positivePart) (htarget : target ≠ 0)
    (hpos : 1 ≤ interval) (hslow : interval ≤ 2000)
    (hdrops : DropsAll late (early.foldl LeakyBucket.leak b))
    (hlate : ∀ rate ∈ late, 1 ≤ rate.toNat ∧ 2 * (rate.toNat * interval) ≤ 2000 + interval)
    (hslices : min b.pendingLeaks.toNat early.length ≤ slices)
    (hlimit : b.worth target interval ≤ debtLimit interval slices) :
    (late.length : ℚ) ≤ b.worth target interval * (2000 / pace interval) +
      3 + b.config.keyFrameSpread.toNat := by
  have hworth : 0 ≤ b.worth target interval :=
    div_nonneg h.outstanding_nonneg (allowance_pos htarget hpos hslow).le
  have hcount := h.length_late_le_work hbitrate htarget hpos hslow hdrops hlate hslices
    (mul_growth_le hworth hlimit)
  have hwork := work_le_of_le_debtLimit hpos hslow hworth hlimit
  have hleaks : (b.pendingLeaks.toNat : ℚ) ≤ b.config.keyFrameSpread.toNat := by
    exact_mod_cast h.pendingLeaks
  linarith

/-- A bucket does not drop for longer, once the rates suit the interval, than twice the time that
its debt takes to drain, twice the window of the estimate, and one interval for each slice and two
more. -/
theorem Sound.duration_le {window : ℚ} (h : b.Sound)
    (hbitrate : b.bitrate = (kilobitsPerSecond target).positivePart) (hpos : 1 ≤ interval)
    (hslow : interval ≤ 2000) (hwindow : interval ≤ window)
    (hearly : early.length * interval ≤ window) (hdrops : DropsAll (early ++ late) b)
    (hlate : ∀ rate ∈ late, 1 ≤ rate.toNat ∧ 2 * (rate.toNat * interval) ≤ 2000 + interval)
    (hslices : min b.pendingLeaks.toNat early.length ≤ slices)
    (hlimit : b.worth target interval ≤ debtLimit interval slices) :
    ((early.length + late.length : ℕ) * interval : ℚ) ≤
      2 * (1000 * b.outstanding / (target.toNat / 1000)) + 2 * window +
        (b.config.keyFrameSpread.toNat + 2) * interval := by
  have hinterval : (0 : ℚ) ≤ interval := interval.cast_nonneg
  have hnonneg := h.outstanding_nonneg
  have hdrain : 0 ≤ 2 * (1000 * b.outstanding / (target.toNat / 1000)) := by positivity
  have hspread : 0 ≤ (b.config.keyFrameSpread.toNat + 2 : ℚ) * interval := by positivity
  push_cast
  cases late with
  | nil =>
    rw [List.length_nil, Nat.cast_zero, add_zero]
    linarith
  | cons first others =>
    obtain ⟨-, hdrops_late⟩ := (dropsAll_append _ _ _).mp hdrops
    have htarget : target ≠ 0 := by
      refine ((h.foldl_leak early).leak first).target_ne_zero ?_ hdrops_late.1
      rw [bitrate_leak, bitrate_foldl_leak, hbitrate]
    have hcount := h.length_late_le hbitrate htarget hpos hslow hdrops_late hlate hslices hlimit
    have htime := mul_le_mul_of_nonneg_right hcount hinterval
    rw [b.two_mul_drain_eq target hpos hslow]
    linarith

end Late

end LeakyBucket

end RateGovernor
