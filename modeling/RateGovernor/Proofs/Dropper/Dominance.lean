import Mathlib
import RateGovernor.Proofs.Binary.Order
import RateGovernor.Proofs.Dropper.Range

/-!
# Larger frames

Two buckets take the same calls, except that the delta frames of the second are at least as large.
What a call does to the rates, to the switch and to the pending cost does not depend on the debt, so
the buckets differ in their debts alone; and what it does to the debt keeps the order of any two
debts, roundings included. So the second bucket drops at least as often.
-/

namespace RateGovernor

open Binary

/-- The same call twice, or two delta frames of which the second is at least as large. -/
inductive Call.NoLighter : Call → Call → Prop
  | same (c : Call) : NoLighter c c
  | delta {size size' : UInt64} (h : size ≤ size') :
    NoLighter (.perform (.fill size true)) (.perform (.fill size' true))

namespace LeakyBucket

private theorem kilobits_mono {size size' : UInt64} (h : size ≤ size') :
    kilobits size ≤ kilobits size' := by
  have hcount : ∀ n : UInt64, (ofNat n.toNat : Single).Within (2 ^ 64) := fun n =>
    within_ofNat (.single_two_pow (by decide)) n.toNat_lt.le
  have height : (ofNat 8 : Single).Within 8 := within_literal (by decide)
  have hbits : ∀ n : UInt64, (ofNat n.toNat * ofNat 8 : Single).isFinite := fun n =>
    ((hcount n).isRounded_mul height (.single_two_pow (k := 67) (by decide)) (by decide)).2.isFinite
  have hthousand : (ofNat 1000 : Single).Within 1000 := within_literal (by decide)
  have hpos : (0 : Single) < ofNat 1000 := by decide +kernel
  apply div_le_div_of_pos ?_ (hbits size) (hbits size') hthousand.isFinite hpos
  apply mul_le_mul_of_nonneg ?_ (hcount size).isFinite (hcount size').isFinite height.isFinite
    height.zero_le
  exact ofNat_le_ofNat_of_le (UInt64.le_iff_toNat_le.mp h)

/-- Two buckets that differ in their debts alone, the second debt being no smaller. -/
def Dominated (b b' : LeakyBucket) : Prop := ∃ debt, b' = { b with debt } ∧ b.debt ≤ debt

namespace Dominated

variable {b b' : LeakyBucket}

theorem setRates (hb : b.Contained) (hb' : b'.Contained) (h : Dominated b b')
    (bitrate frameRate : Single) :
    Dominated (b.setRates bitrate frameRate) (b'.setRates bitrate frameRate) := by
  obtain ⟨debt, rfl, hle⟩ := h
  refine ⟨_, rfl, ?_⟩
  simp only [LeakyBucket.setRates]
  split
  · rename_i hscale
    have hratio := within_ratio bitrate.nonneg_positivePart hscale.2 hscale.1
    exact mul_le_mul_of_nonneg hle hb.debt.isFinite hb'.debt.isFinite hratio.isFinite
      hratio.zero_le
  · exact hle

/-- Whether a frame is deferred does not depend on the debt, nor does what is charged of it. -/
theorem fill (h : Dominated b b') (size : UInt64) (isDelta : Bool) :
    Dominated (b.fill size isDelta) (b'.fill size isDelta) := by
  obtain ⟨debt, rfl, hle⟩ := h
  by_cases henabled : b.enabled = true
  · by_cases hdefers : b.Defers size isDelta
    · have hbudget : (b.budget b.frameRate).isFinite :=
        isFinite_of_nonneg_of_lt (nonneg_of_pos hdefers.2.2.1) hdefers.2.2.2
      rw [fill_of_defers henabled hdefers, fill_of_defers (b := { b with debt }) henabled hdefers]
      exact ⟨_, rfl, add_le_add_of_finite hle hbudget⟩
    · rw [fill_of_not_defers henabled hdefers,
        fill_of_not_defers (b := { b with debt }) henabled hdefers]
      exact ⟨_, rfl, add_le_add_of_finite hle (within_kilobits size).isFinite⟩
  · rw [Bool.not_eq_true] at henabled
    rw [fill_of_off henabled, fill_of_off (b := { b with debt }) henabled]
    exact ⟨debt, rfl, hle⟩

private theorem fill_larger (hb' : b'.Contained) (h : Dominated b b') {size size' : UInt64}
    (hsize : size ≤ size') : Dominated (b.fill size true) (b'.fill size' true) := by
  obtain ⟨debt, rfl, hle⟩ := h
  by_cases henabled : b.enabled = true
  · have hfirst : b.debt + kilobits size ≤ debt + kilobits size :=
      add_le_add_of_finite hle (within_kilobits size).isFinite
    have hsecond : debt + kilobits size ≤ debt + kilobits size' := by
      rw [Binary.add_comm debt, Binary.add_comm debt]
      exact add_le_add_of_finite (kilobits_mono hsize) hb'.debt.isFinite
    rw [fill_delta henabled, fill_delta (b := { b with debt }) henabled]
    exact ⟨_, rfl, Binary.le_trans hfirst hsecond⟩
  · rw [Bool.not_eq_true] at henabled
    rw [fill_of_off henabled, fill_of_off (b := { b with debt }) henabled]
    exact ⟨debt, rfl, hle⟩

theorem leak (hb : b.InRange) (hb' : b'.InRange) (h : Dominated b b') (rate : UInt32) :
    Dominated (b.leak rate) (b'.leak rate) := by
  obtain ⟨debt, rfl, hle⟩ := h
  by_cases hbusy : b.enabled = true ∧ rate ≠ 0
  · have hbudget : 0 ≤ b.budget (.ofNat rate.toNat) := by
      rw [b.budget_toNat hbusy.2]
      exact nonneg_div_toNat hb.bitrate hbusy.2
    have hdrained := sub_le_sub_of_nonneg hle hb.debt.isFinite hb'.debt.isFinite hbudget
    by_cases hnone : b.pendingLeaks = 0
    · rw [leak_of_not_spread hbusy hnone, leak_of_not_spread (b := { b with debt }) hbusy hnone]
      exact ⟨_, rfl, positivePart_le_positivePart hdrained⟩
    · obtain ⟨-, hslice, -⟩ := slice_within hb.pending hnone
      have hcharged := add_le_add_of_finite hdrained hslice.isFinite
      rw [leak_of_spread hbusy hnone, leak_of_spread (b := { b with debt }) hbusy hnone]
      exact ⟨_, rfl, positivePart_le_positivePart hcharged⟩
  · rw [leak_of_idle hbusy, leak_of_idle (b := { b with debt }) hbusy]
    exact ⟨debt, rfl, hle⟩

theorem receive (hb : b.InRange) (hb' : b'.InRange) (h : Dominated b b') {c c' : Call}
    (hcall : c.NoLighter c') : Dominated (b.receive c) (b'.receive c') := by
  cases hcall with
  | delta hsize => exact h.fill_larger hb'.toContained hsize
  | same c =>
    cases c with
    | shouldDrop => exact h
    | perform command =>
      cases command with
      | setRates bitrate frameRate =>
        exact h.setRates hb.toContained hb'.toContained bitrate frameRate
      | fill size isDelta => exact h.fill size isDelta
      | leak rate => exact h.leak hb hb' rate
      | reset =>
        obtain ⟨debt, rfl, -⟩ := h
        exact ⟨_, rfl, Binary.le_refl isFinite_zero⟩
      | enable enabled =>
        obtain ⟨debt, rfl, hle⟩ := h
        exact ⟨_, rfl, hle⟩

theorem foldl_receive (hb : b.InRange) (hb' : b'.InRange) (h : Dominated b b')
    {calls calls' : List Call} (hcalls : List.Forall₂ Call.NoLighter calls calls') :
    Dominated (calls.foldl LeakyBucket.receive b) (calls'.foldl LeakyBucket.receive b') := by
  induction hcalls generalizing b b' with
  | nil => exact h
  | cons hcall hrest ih => exact ih (hb.receive _) (hb'.receive _) (h.receive hb hb' hcall)

theorem shouldDrop (h : Dominated b b') (hdrop : b.shouldDrop = true) : b'.shouldDrop = true := by
  obtain ⟨debt, rfl, hle⟩ := h
  simp only [LeakyBucket.shouldDrop, Bool.and_eq_true, decide_eq_true_iff] at hdrop ⊢
  obtain ⟨hactive, hover⟩ := hdrop
  exact ⟨hactive, Binary.lt_of_lt_of_le hover hle⟩

end Dominated

/-- Give two fresh buckets with one configuration the same calls, except that the delta frames of
the second are at least as large. After any number of the calls the second debt is no smaller than
the first, rates, threshold, switch and the pending cost of key frames are the same, and the second
bucket drops if the first one does. -/
theorem larger_frames_keep_drops (config : BucketConfig) {calls calls' : List Call}
    (hcalls : List.Forall₂ Call.NoLighter calls calls') (n : ℕ) :
    ∃ b b', (∃ verdict, Dropper.callAll false (calls.take n) (create config) = .ok verdict b) ∧
      (∃ verdict, Dropper.callAll false (calls'.take n) (create config) = .ok verdict b') ∧
      b.debt ≤ b'.debt ∧ b'.terms = b.terms ∧ b'.threshold = b.threshold ∧
      b'.pending = b.pending ∧ b'.pendingLeaks = b.pendingLeaks ∧
      ∀ verdict, Dropper.call verdict .shouldDrop b = .ok true b →
        Dropper.call verdict .shouldDrop b' = .ok true b' := by
  have hfresh : (create config).InRange := (create config).inRange_reset
  have hstart : Dominated (create config) (create config) :=
    ⟨(create config).debt, rfl, Binary.le_refl isFinite_zero⟩
  have hend := hstart.foldl_receive hfresh hfresh (List.forall₂_take n hcalls)
  refine ⟨_, _, callAll_eq false _ _, callAll_eq false _ _, ?_⟩
  have hverdict := hend.shouldDrop
  obtain ⟨debt, hlast, hle⟩ := hend
  generalize (calls'.take n).foldl receive (create config) = b' at hlast hverdict ⊢
  generalize (calls.take n).foldl receive (create config) = b at hlast hle hverdict ⊢
  subst hlast
  refine ⟨hle, rfl, rfl, rfl, rfl, ?_⟩
  intro verdict hdrop
  rw [call_shouldDrop] at hdrop ⊢
  rw [hverdict (EStateM.Result.ok.inj hdrop).1]

/-- A key frame is half charged when the target falls; behind it come delta frames of 160 and of 240
kilobits, and both buckets drop. -/
theorem larger_frames_keep_drops_halved :
    let calls (size : UInt64) : List Call := [.perform (.setRates 300 30),
      .perform (.fill 11250 false), .perform (.leak 30), .perform (.fill size true),
      .perform (.setRates 150 30), .perform (.leak 30), .shouldDrop]
    List.Forall₂ Call.NoLighter (calls 20000) (calls 30000) ∧
      ∃ b b', (∃ verdict, Dropper.callAll false (calls 20000) (create ⟨1 / 2, 2⟩) = .ok verdict b) ∧
        (∃ verdict, Dropper.callAll false (calls 30000) (create ⟨1 / 2, 2⟩) = .ok verdict b') ∧
        b.debt = 135 ∧ b'.debt = 175 ∧ b'.pending = b.pending ∧
        Dropper.call false .shouldDrop b' = .ok true b' := by
  intro calls
  have hcalls : List.Forall₂ Call.NoLighter (calls 20000) (calls 30000) :=
    .cons (.same _) (.cons (.same _) (.cons (.same _) (.cons (.delta (by decide))
      (.cons (.same _) (.cons (.same _) (.cons (.same _) .nil))))))
  obtain ⟨b, b', hrun, hrun', -, -, -, hpending, -, hverdict⟩ :=
    larger_frames_keep_drops ⟨1 / 2, 2⟩ hcalls 7
  obtain ⟨hdebt, hdrop⟩ : b.debt = 135 ∧ b.shouldDrop = true := by
    obtain ⟨verdict, hrun⟩ := hrun
    cases hrun
    decide +kernel
  have hcall : Dropper.call false .shouldDrop b = .ok true b := by rw [call_shouldDrop, hdrop]
  refine ⟨hcalls, b, b', hrun, hrun', hdebt, ?_, hpending, hverdict false hcall⟩
  obtain ⟨verdict, hrun'⟩ := hrun'
  cases hrun'
  decide +kernel

end LeakyBucket

end RateGovernor
