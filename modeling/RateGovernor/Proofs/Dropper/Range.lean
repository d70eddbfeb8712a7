import Mathlib
import RateGovernor.Proofs.Binary.Single
import RateGovernor.Proofs.Dropper.Bucket

/-!
# The range of the numbers in a bucket

Nobody checks the rates that a bucket is given: they may be infinite, below zero or no numbers at
all. The target and the frame rate that it keeps are then infinite at worst, so that a leak may
lower the debt infinitely far, but never raise it so; and what frames and slices add to a large debt
is lost in rounding. One call of any kind keeps the debt and the pending cost in range, and a slice
that is the last one leaves nothing pending.
-/

namespace RateGovernor

open Binary

namespace LeakyBucket

theorem within_kilobits (size : UInt64) : (kilobits size).Within (2 ^ 58) := by
  have hn : (ofNat size.toNat : Single).Within (2 ^ 64) :=
    within_ofNat (.single_two_pow (by decide)) size.toNat_lt.le
  have height : (ofNat 8 : Single).Within 8 := within_literal (by decide)
  have hthousand : (ofNat 1000 : Single).value = (1000 : ℕ) := value_literal (by decide)
  have hbits : (ofNat size.toNat * ofNat 8 : Single).Within (2 ^ 67) :=
    (hn.isRounded_mul height (.single_two_pow (by decide)) (by decide)).2
  exact (hbits.isRounded_div (within_literal (by decide : 1000 < 2 ^ 24)).isFinite
    (by decide : 0 < 1000) hthousand.ge (.single_two_pow (by decide)) (by decide)).2

theorem budget_toNat (b : LeakyBucket) {rate : UInt32} (hrate : rate ≠ 0) :
    b.budget (.ofNat rate.toNat) = b.bitrate / .ofNat rate.toNat := by
  rw [budget, if_pos (pos_toNat hrate)]

section Charge

variable {b : LeakyBucket}

theorem setRates_within (hdebt : b.debt.Within (2 ^ 120)) (bitrate frameRate : Single) :
    (b.setRates bitrate frameRate).debt.Within (2 ^ 120) := by
  simp only [LeakyBucket.setRates]
  split
  · rename_i hscale
    have hratio := within_ratio bitrate.nonneg_positivePart hscale.2 hscale.1
    exact (hdebt.isRounded_mul hratio (.single_two_pow (by decide)) (by decide)).2
  · exact hdebt

/-- What is charged of a frame is lost on a debt of `2 ^ 120` kilobits, and what is deferred on a
pending cost of `2 ^ 93`. -/
private theorem fill_within (hdebt : b.debt.Within (2 ^ 120)) (hpending : b.pending.Within (2 ^ 93))
    (size : UInt64) (isDelta : Bool) :
    (b.fill size isDelta).debt.Within (2 ^ 120) ∧
      (b.fill size isDelta).pending.Within (2 ^ 93) := by
  have hcost := within_kilobits size
  by_cases henabled : b.enabled = true
  · by_cases hdefers : b.Defers size isDelta
    · rw [fill_of_defers henabled hdefers]
      obtain ⟨-, -, hpos, hlt⟩ := hdefers
      have hfinite := isFinite_of_nonneg_of_lt (nonneg_of_pos hpos) hlt
      rw [pos_iff_value hfinite] at hpos
      rw [lt_iff_value hfinite hcost.isFinite] at hlt
      have hbudget : (b.budget b.frameRate).Within (2 ^ 58) := hcost.of_le hfinite hpos.le hlt.le
      have hrest : (kilobits size - b.budget b.frameRate).Within (2 ^ 58) := by
        have hnonneg : 0 ≤ (kilobits size).value - (b.budget b.frameRate).value := by linarith
        have hle : (kilobits size).value - (b.budget b.frameRate).value ≤ (2 ^ 58 : ℕ) := by
          linarith [hcost.le]
        exact (isRounded_sub hcost.isFinite hfinite (.single_two_pow (k := 58) (by decide))
          (by rwa [abs_of_nonneg hnonneg])).within (.single_two_pow (by decide)) hnonneg hle
      exact ⟨within_add_small (k := 96) (by decide) hdebt hbudget (by decide),
        within_add_small (k := 69) (by decide) hpending hrest (by decide)⟩
    · rw [fill_of_not_defers henabled hdefers]
      exact ⟨within_add_small (k := 96) (by decide) hdebt hcost (by decide), hpending⟩
  · rw [fill_of_off (Bool.eq_false_of_not_eq_true henabled)]
    exact ⟨hdebt, hpending⟩

theorem slice_within (hpending : b.pending.Within (2 ^ 93)) (hsome : b.pendingLeaks ≠ 0) :
    IsRounded (b.pending.value / (ofNat b.pendingLeaks.toNat : Single).value) b.slice ∧
      b.slice.Within (2 ^ 93) ∧ b.slice.value ≤ b.pending.value := by
  have hone := one_le_value_toNat hsome
  obtain ⟨hslice, hwithin⟩ := hpending.isRounded_div (isFinite_toNat b.pendingLeaks) Nat.one_pos
    hone (.single_two_pow (k := 93) (by decide)) (by decide)
  rw [Nat.cast_one] at hone
  exact ⟨hslice, hwithin, hslice.le_value hpending.isFinite (div_le_self hpending.nonneg hone)⟩

theorem rest_within (hpending : b.pending.Within (2 ^ 93)) (hsome : b.pendingLeaks ≠ 0) :
    IsRounded (b.pending.value - b.slice.value) (b.pending - b.slice) ∧
      (b.pending - b.slice).Within (2 ^ 93) ∧
      (b.pending - b.slice).value ≤ b.pending.value := by
  obtain ⟨-, hslice, hle⟩ := slice_within hpending hsome
  have hnonneg : 0 ≤ b.pending.value - b.slice.value := by linarith
  have hpart := hslice.nonneg
  have hbound : b.pending.value - b.slice.value ≤ (2 ^ 93 : ℕ) := by linarith [hpending.le]
  have hdiff := isRounded_sub hpending.isFinite hslice.isFinite
    (.single_two_pow (k := 93) (by decide)) (by rwa [abs_of_nonneg hnonneg])
  exact ⟨hdiff, hdiff.within (.single_two_pow (by decide)) hnonneg hbound,
    hdiff.le_value hpending.isFinite (by linarith)⟩

end Charge

/-- The debt and the pending cost of a bucket are finite and not below zero, and no key frame is to
be charged over more leaks than the settings say. -/
structure Contained (b : LeakyBucket) : Prop where
  debt : b.debt.Within (2 ^ 120)
  pending : b.pending.Within (2 ^ 93)
  pendingLeaks : b.pendingLeaks.toNat ≤ b.config.keyFrameSpread.toNat

namespace Contained

variable {b : LeakyBucket}

theorem setRates (h : b.Contained) (bitrate frameRate : Single) :
    (b.setRates bitrate frameRate).Contained :=
  ⟨setRates_within h.debt bitrate frameRate, h.pending, h.pendingLeaks⟩

theorem fill (h : b.Contained) (size : UInt64) (isDelta : Bool) :
    (b.fill size isDelta).Contained := by
  have hconfig : (b.fill size isDelta).config = b.config :=
    congrArg Terms.config (b.terms_fill size isDelta)
  obtain ⟨hdebt, hpending⟩ := fill_within h.debt h.pending size isDelta
  refine ⟨hdebt, hpending, ?_⟩
  rw [hconfig]
  rcases b.pendingLeaks_fill size isDelta with ⟨hleaks, -⟩ | ⟨hleaks, -⟩
  · rw [hleaks]
  · rw [hleaks]
    exact h.pendingLeaks

theorem leak (h : b.Contained) (hbitrate : 0 ≤ b.bitrate) (rate : UInt32) :
    (b.leak rate).Contained := by
  by_cases hbusy : b.enabled = true ∧ rate ≠ 0
  · have hbudget : 0 ≤ b.budget (.ofNat rate.toNat) := by
      rw [b.budget_toNat hbusy.2]
      exact nonneg_div_toNat hbitrate hbusy.2
    have hdrained := atMost_sub h.debt hbudget
    by_cases hnone : b.pendingLeaks = 0
    · rw [leak_of_not_spread hbusy hnone]
      exact ⟨hdrained.positivePart, h.pending, h.pendingLeaks⟩
    · obtain ⟨-, hslice, -⟩ := slice_within h.pending hnone
      obtain ⟨-, hrest, -⟩ := rest_within h.pending hnone
      have hcharged := hdrained.add_small (k := 96) (by decide) hslice (by decide)
      rw [leak_of_spread hbusy hnone]
      refine ⟨hcharged.positivePart, hrest, ?_⟩
      have hleaks := h.pendingLeaks
      change (b.pendingLeaks - 1).toNat ≤ b.config.keyFrameSpread.toNat
      rw [toNat_pred hnone]
      omega
  · rw [leak_of_idle hbusy]
    exact h

end Contained

section Last

variable {b : LeakyBucket} {rate : UInt32}

private theorem slice_last (hpending : b.pending.isFinite) (hlast : b.pendingLeaks = 1) :
    b.slice = b.pending := by
  rw [slice, hlast]
  exact div_ofNat_one hpending (.single_of_lt (by decide))

private theorem leak_last (hbusy : b.enabled = true ∧ rate ≠ 0) (hpending : b.pending.isFinite)
    (hlast : b.pendingLeaks = 1) :
    b.leak rate = { b with
      debt := (b.debt - b.budget (.ofNat rate.toNat) + b.pending).positivePart
      pending := 0
      pendingLeaks := 0 } := by
  have hsome : b.pendingLeaks ≠ 0 := by
    rw [hlast]
    decide
  rw [leak_of_spread hbusy hsome, slice_last hpending hlast, sub_self_of_finite hpending, hlast]
  rfl

end Last

/-- A bucket in range: neither rate is below zero, and nothing is pending once no leak is left for
it. -/
structure InRange (b : LeakyBucket) : Prop extends Contained b where
  bitrate : 0 ≤ b.bitrate
  frameRate : 0 ≤ b.frameRate
  settled : b.pendingLeaks = 0 → b.pending = 0

theorem inRange_reset (b : LeakyBucket) : b.reset.InRange := by
  have hzero : (0 : Single) ≤ 0 := (within_zero 0).zero_le
  exact ⟨⟨within_zero _, within_zero _, Nat.zero_le _⟩, hzero, hzero, fun _ => rfl⟩

namespace InRange

variable {b b' : LeakyBucket}

theorem of_terms (h : b.InRange) (hcontained : b'.Contained) (hterms : b'.terms = b.terms)
    (hsettled : b'.pendingLeaks = 0 → b'.pending = 0) : b'.InRange := by
  have hbitrate : b'.bitrate = b.bitrate := congrArg Terms.bitrate hterms
  have hframeRate : b'.frameRate = b.frameRate := congrArg Terms.frameRate hterms
  refine ⟨hcontained, ?_, ?_, hsettled⟩
  · rw [hbitrate]
    exact h.bitrate
  · rw [hframeRate]
    exact h.frameRate

theorem setRates (h : b.InRange) (bitrate frameRate : Single) :
    (b.setRates bitrate frameRate).InRange :=
  ⟨h.toContained.setRates bitrate frameRate, bitrate.nonneg_positivePart,
    frameRate.nonneg_positivePart, h.settled⟩

theorem fill (h : b.InRange) (size : UInt64) (isDelta : Bool) : (b.fill size isDelta).InRange := by
  apply h.of_terms (h.toContained.fill size isDelta) (b.terms_fill size isDelta)
  intro hnone
  rcases b.pendingLeaks_fill size isDelta with ⟨hleaks, hspread⟩ | ⟨hleaks, hkept⟩
  · rw [hleaks] at hnone
    exact absurd hnone (UInt32.pos_iff_ne_zero.mp hspread)
  · rw [hleaks] at hnone
    rw [hkept]
    exact h.settled hnone

theorem leak (h : b.InRange) (rate : UInt32) : (b.leak rate).InRange := by
  apply h.of_terms (h.toContained.leak h.bitrate rate) (b.terms_leak rate)
  by_cases hbusy : b.enabled = true ∧ rate ≠ 0
  · by_cases hnone : b.pendingLeaks = 0
    · rw [leak_of_not_spread hbusy hnone]
      exact h.settled
    · rw [leak_of_spread hbusy hnone]
      intro hdone
      have hlast : b.pendingLeaks = 1 := sub_eq_zero.mp hdone
      change b.pending - b.slice = 0
      rw [slice_last h.pending.isFinite hlast, sub_self_of_finite h.pending.isFinite]
  · rw [leak_of_idle hbusy]
    exact h.settled

theorem receive (h : b.InRange) (c : Call) : (b.receive c).InRange := by
  cases c with
  | perform command =>
    cases command with
    | reset => exact b.inRange_reset
    | setRates bitrate frameRate => exact h.setRates bitrate frameRate
    | fill size isDelta => exact h.fill size isDelta
    | leak rate => exact h.leak rate
    | enable enabled =>
      exact ⟨⟨h.debt, h.pending, h.pendingLeaks⟩, h.bitrate, h.frameRate, h.settled⟩
  | shouldDrop => exact h

theorem foldl_receive (h : b.InRange) (calls : List Call) :
    (calls.foldl LeakyBucket.receive b).InRange := by
  induction calls generalizing b with
  | nil => exact h
  | cons c rest ih => exact ih (h.receive c)

end InRange

private theorem config_foldl_receive (calls : List Call) (b : LeakyBucket) :
    (calls.foldl receive b).config = b.config := by
  induction calls generalizing b with
  | nil => rfl
  | cons c rest ih =>
    rw [List.foldl_cons, ih]
    cases c with
    | perform command => exact b.config_apply command
    | shouldDrop => rfl

/-- Whatever its settings, and whatever rates, frames and leaks a bucket is given in any order,
every call completes, its debt and the pending cost of a key frame are finite and not below zero,
and its target and frame rate are numbers not below zero. A key frame is to be charged over no more
leaks than the settings say, and without a leak to come nothing is pending: the last slice is all
that was left. -/
theorem numbers_stay_in_range (config : BucketConfig) (calls : List Call) :
    ∃ b, (∃ verdict, Dropper.callAll false calls (create config) = .ok verdict b) ∧
      b.debt.isFinite = true ∧ 0 ≤ b.debt ∧ b.pending.isFinite = true ∧ 0 ≤ b.pending ∧
      0 ≤ b.bitrate ∧ 0 ≤ b.frameRate ∧ b.pendingLeaks ≤ config.keyFrameSpread ∧
      (b.pendingLeaks = 0 → b.pending = 0) ∧
      ∀ rate, b.enabled = true → rate ≠ 0 → b.pendingLeaks = 1 →
        b.leak rate = { b with
          debt := (b.debt - b.budget (.ofNat rate.toNat) + b.pending).positivePart
          pending := 0
          pendingLeaks := 0 } := by
  have h := (create config).inRange_reset.foldl_receive calls
  have hspread := h.pendingLeaks
  rw [config_foldl_receive] at hspread
  refine ⟨calls.foldl receive (create config), callAll_eq false calls (create config),
    h.debt.isFinite, h.debt.zero_le, h.pending.isFinite, h.pending.zero_le, h.bitrate, h.frameRate,
    ?spread, h.settled, ?last⟩
  case spread =>
    rw [UInt32.le_iff_toNat_le]
    exact hspread
  case last =>
    intro rate henabled hrate hlast
    exact leak_last ⟨henabled, hrate⟩ h.pending.isFinite hlast

/-- Of a key frame of 400 kilobits the budget of 10 is charged at once and the rest in two slices,
after which nothing is left. -/
theorem numbers_stay_in_range_last_slice :
    let calls : List Call := [.perform (.setRates 300 30), .perform (.fill 50000 false),
      .perform (.leak 30)]
    ∃ b, (∃ verdict, Dropper.callAll false calls (create ⟨1, 2⟩) = .ok verdict b) ∧
      b.pendingLeaks = 1 ∧ b.pending = 195 ∧ b.debt = 195 ∧
      (b.leak 30).debt = 380 ∧ (b.leak 30).pending = 0 := by
  intro calls
  obtain ⟨b, ⟨verdict, hcalls⟩, -, -, -, -, -, -, -, -, hlast⟩ := numbers_stay_in_range ⟨1, 2⟩ calls
  obtain ⟨henabled, hleaks, hpending, hdebt, hcharged⟩ :
      b.enabled = true ∧ b.pendingLeaks = 1 ∧ b.pending = 195 ∧ b.debt = 195 ∧
        (b.debt - b.budget 30 + b.pending).positivePart = 380 := by
    cases hcalls
    decide +kernel
  have hleak := hlast 30 henabled (by decide) hleaks
  refine ⟨b, ⟨verdict, hcalls⟩, hleaks, hpending, hdebt, ?_, ?_⟩
  · rw [hleak]
    exact hcharged
  · rw [hleak]

end LeakyBucket

end RateGovernor
