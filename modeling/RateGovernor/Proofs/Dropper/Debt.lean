import Mathlib
import RateGovernor.Governor.Parameters
import RateGovernor.Proofs.Dropper.Range

/-!
# The numbers in a sound bucket

The targets that a governor tells its bucket are finite, and then so are the budgets: every number
that a leak computes is an exact result, rounded once. A leak takes its budget from the debt and
moves at most one slice of the pending cost to it.
-/

namespace RateGovernor

open Binary

theorem isRounded_kilobitsPerSecond (n : UInt32) :
    IsRounded ((ofNat n.toNat : Single).value / 1000) (kilobitsPerSecond n) ∧
      (kilobitsPerSecond n).Within (2 ^ 32) := by
  have hfit : (Format.single).Holds (2 ^ 32) := .single_two_pow (by decide)
  have hthousand : (ofNat 1000 : Single).value = (1000 : ℕ) := value_literal (by decide)
  have hn : (ofNat n.toNat : Single).Within (2 ^ 32) := within_ofNat hfit n.toNat_lt.le
  have h := hn.isRounded_div (within_literal (by decide : 1000 < 2 ^ 24)).isFinite
    (by decide : 0 < 1000) hthousand.ge hfit (by decide)
  rw [hthousand, Nat.cast_ofNat] at h
  exact h

theorem kilobitsPerSecond_ge {n : UInt32} (hn : n ≠ 0) :
    (n.toNat / 1000 : ℚ) * (1 - 1 / 2 ^ 24) ^ 2 ≤ (kilobitsPerSecond n).value := by
  have hpos := one_le_cast_toNat hn
  have hcount := (isRounded_ofNat (F := .single) (.single_two_pow (k := 32) (by decide))
    n.toNat_lt.le).single_bounds (le_trans (by norm_num) hpos)
  have hscaled := (isRounded_kilobitsPerSecond n).1.single_bounds (by linarith)
  linarith

private theorem kilobitsPerSecond_zero : kilobitsPerSecond 0 = 0 := by
  decide +kernel

theorem kilobitsPerSecond_pos_iff {n : UInt32} : 0 < kilobitsPerSecond n ↔ 0 < n := by
  rw [UInt32.pos_iff_ne_zero]
  constructor
  · rintro hpos rfl
    rw [kilobitsPerSecond_zero] at hpos
    exact not_zero_lt_zero hpos
  · intro hn
    have hone := one_le_cast_toNat hn
    rw [pos_iff_value (isRounded_kilobitsPerSecond n).2.isFinite]
    linarith [kilobitsPerSecond_ge hn]

theorem positivePart_kilobitsPerSecond (n : UInt32) :
    (kilobitsPerSecond n).positivePart = kilobitsPerSecond n := by
  rw [positivePart]
  split
  · rfl
  · rename_i hn
    rw [kilobitsPerSecond_pos_iff, UInt32.pos_iff_ne_zero, not_not] at hn
    rw [hn, kilobitsPerSecond_zero]

namespace LeakyBucket

/-- The numbers of a bucket are finite and not below zero, except that the threshold may be
infinite or no number, and no key frame is still to be charged over more leaks than the settings
say. -/
structure Sound (b : LeakyBucket) : Prop where
  debt : b.debt.Within (2 ^ 120)
  pending : b.pending.Within (2 ^ 93)
  bitrate : b.bitrate.Within (2 ^ 32)
  threshold : ¬ b.threshold < 0
  pendingLeaks : b.pendingLeaks.toNat ≤ b.config.keyFrameSpread.toNat

theorem sound_reset (b : LeakyBucket) : b.reset.Sound :=
  ⟨within_zero _, within_zero _, within_zero _, not_zero_lt_zero, Nat.zero_le _⟩

namespace Sound

variable {b b' : LeakyBucket} {rate : UInt32}

theorem setRates (h : b.Sound) (hwindow : 0 ≤ b.config.window) {bitrate : Single}
    (hrate : bitrate.Within (2 ^ 32)) (frameRate : Single) :
    (b.setRates bitrate frameRate).Sound := by
  have hpart := within_positivePart hrate.isFinite hrate.le
  exact ⟨setRates_within h.debt bitrate frameRate, h.pending, hpart,
    not_neg_mul hpart.isFinite hpart.nonneg hwindow, h.pendingLeaks⟩

private theorem contained (h : b.Sound) : b.Contained := ⟨h.debt, h.pending, h.pendingLeaks⟩

theorem of_terms (h : b.Sound) (hcontained : b'.Contained) (hterms : b'.terms = b.terms) :
    b'.Sound := by
  have hbitrate : b'.bitrate = b.bitrate := congrArg Terms.bitrate hterms
  have hthreshold : b'.threshold = b.threshold := congrArg Terms.threshold hterms
  refine ⟨hcontained.debt, hcontained.pending, ?_, ?_, hcontained.pendingLeaks⟩
  · rw [hbitrate]
    exact h.bitrate
  · rw [hthreshold]
    exact h.threshold

theorem fill (h : b.Sound) (size : UInt64) (isDelta : Bool) : (b.fill size isDelta).Sound :=
  h.of_terms (h.contained.fill size isDelta) (b.terms_fill size isDelta)

theorem leak (h : b.Sound) (rate : UInt32) : (b.leak rate).Sound :=
  h.of_terms (h.contained.leak h.bitrate.zero_le rate) (b.terms_leak rate)

theorem budget (h : b.Sound) (hrate : rate ≠ 0) :
    IsRounded (b.bitrate.value / (ofNat rate.toNat : Single).value)
      (b.budget (.ofNat rate.toNat)) ∧ (b.budget (.ofNat rate.toNat)).Within (2 ^ 32) := by
  have hone := one_le_value_toNat hrate
  rw [b.budget_toNat hrate]
  exact h.bitrate.isRounded_div (isFinite_toNat rate) Nat.one_pos hone
    (.single_two_pow (by decide)) (by decide)

theorem drained (h : b.Sound) (hrate : rate ≠ 0) :
    IsRounded (b.debt.value - (b.budget (.ofNat rate.toNat)).value)
        (b.debt - b.budget (.ofNat rate.toNat)) ∧
      (b.debt - b.budget (.ofNat rate.toNat)).value ≤ b.debt.value := by
  obtain ⟨-, hbudget⟩ := h.budget hrate
  have hdebt := h.debt.le
  have hnonneg := h.debt.nonneg
  have hsmall : (b.budget (.ofNat rate.toNat)).value ≤ (2 ^ 120 : ℕ) :=
    hbudget.le.trans (by norm_num)
  have hpart := hbudget.nonneg
  have hdiff : IsRounded (b.debt.value - (b.budget (.ofNat rate.toNat)).value)
      (b.debt - b.budget (.ofNat rate.toNat)) := by
    refine isRounded_sub h.debt.isFinite hbudget.isFinite
      (.single_two_pow (k := 120) (by decide)) ?_
    rw [abs_le]
    constructor <;> linarith
  exact ⟨hdiff, hdiff.le_value h.debt.isFinite (by linarith)⟩

theorem charged (h : b.Sound) (hrate : rate ≠ 0) (hsome : b.pendingLeaks ≠ 0) :
    IsRounded ((b.debt - b.budget (.ofNat rate.toNat)).value + b.slice.value)
        (b.debt - b.budget (.ofNat rate.toNat) + b.slice) ∧
      (b.debt - b.budget (.ofNat rate.toNat) + b.slice).value ≤ (2 ^ 120 : ℕ) := by
  obtain ⟨hdiff, hle⟩ := h.drained hrate
  obtain ⟨-, hslice, -⟩ := slice_within h.pending hsome
  exact isRounded_add_small (k := 96) (by decide) hdiff.isFinite (hle.trans h.debt.le) hslice
    (by decide)

end Sound

end LeakyBucket

end RateGovernor
