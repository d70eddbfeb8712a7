import Mathlib
import RateGovernor.Dropper.LeakyBucket
import RateGovernor.Proofs.Binary.Exact
import RateGovernor.Proofs.Dropper.Faults

/-!
# The leaky bucket as a dropper

A bucket completes every call, and no call changes its settings. Filling and draining it leave alone
all but the debt and the pending cost; a leak drains only while the bucket is on, and charges a
slice only while one is due.
-/

namespace RateGovernor

namespace LeakyBucket

theorem call_perform (verdict : Bool) (command : Command) (b : LeakyBucket) :
    Dropper.call verdict (.perform command) b = .ok verdict (b.apply command) := rfl

theorem call_shouldDrop (verdict : Bool) (b : LeakyBucket) :
    Dropper.call verdict .shouldDrop b = .ok b.shouldDrop b := rfl

theorem reliable : Dropper.Reliable LeakyBucket := by
  intro verdict c b
  cases c with
  | perform command => exact ⟨verdict, b.apply command, call_perform verdict command b⟩
  | shouldDrop => exact ⟨b.shouldDrop, b, call_shouldDrop verdict b⟩

/-- What a call makes of a bucket. -/
def receive (b : LeakyBucket) : Call → LeakyBucket
  | .perform command => b.apply command
  | .shouldDrop => b

theorem callAll_eq (verdict : Bool) (calls : List Call) (b : LeakyBucket) :
    ∃ answer, Dropper.callAll verdict calls b = .ok answer (calls.foldl receive b) := by
  induction calls generalizing verdict b with
  | nil => exact ⟨verdict, rfl⟩
  | cons c rest ih =>
    cases c with
    | perform command =>
      rw [Dropper.callAll_cons_of_ok (call_perform verdict command b)]
      exact ih verdict (b.apply command)
    | shouldDrop =>
      rw [Dropper.callAll_cons_of_ok (call_shouldDrop verdict b)]
      exact ih b.shouldDrop b

/-- All of a bucket but the debt and the pending cost of a key frame. -/
structure Terms where
  config : BucketConfig
  threshold : Single
  bitrate : Single
  frameRate : Single
  enabled : Bool

def terms (b : LeakyBucket) : Terms := ⟨b.config, b.threshold, b.bitrate, b.frameRate, b.enabled⟩

private theorem terms_chargeSlice (b : LeakyBucket) : b.chargeSlice.terms = b.terms := by
  rw [chargeSlice]
  split <;> rfl

@[simp] theorem terms_fill (b : LeakyBucket) (size : UInt64) (isDelta : Bool) :
    (b.fill size isDelta).terms = b.terms := by
  simp only [fill]
  split
  · split <;> rfl
  · rfl

@[simp] theorem terms_leak (b : LeakyBucket) (rate : UInt32) : (b.leak rate).terms = b.terms := by
  simp only [leak]
  split
  · exact terms_chargeSlice { b with debt := _ }
  · rfl

@[simp] theorem bitrate_fill (b : LeakyBucket) (size : UInt64) (isDelta : Bool) :
    (b.fill size isDelta).bitrate = b.bitrate :=
  congrArg Terms.bitrate (b.terms_fill size isDelta)

@[simp] theorem bitrate_leak (b : LeakyBucket) (rate : UInt32) :
    (b.leak rate).bitrate = b.bitrate :=
  congrArg Terms.bitrate (b.terms_leak rate)

@[simp] theorem enabled_fill (b : LeakyBucket) (size : UInt64) (isDelta : Bool) :
    (b.fill size isDelta).enabled = b.enabled :=
  congrArg Terms.enabled (b.terms_fill size isDelta)

@[simp] theorem enabled_leak (b : LeakyBucket) (rate : UInt32) :
    (b.leak rate).enabled = b.enabled :=
  congrArg Terms.enabled (b.terms_leak rate)

@[simp] theorem bitrate_setRates (b : LeakyBucket) (bitrate frameRate : Single) :
    (b.setRates bitrate frameRate).bitrate = bitrate.positivePart := rfl

theorem shouldDrop_iff {b : LeakyBucket} (hbitrate : b.bitrate.isFinite) :
    b.shouldDrop = true ↔ (b.enabled = true ∧ 0 < b.bitrate) ∧ b.threshold < b.debt := by
  rw [shouldDrop, Bool.and_eq_true, Bool.and_eq_true, Bool.not_eq_true', decide_eq_false_iff_not,
    Binary.not_le_zero_iff hbitrate, decide_eq_true_iff]

theorem debt_setRates_of_no_target {b : LeakyBucket} (h : ¬ 0 < b.bitrate)
    {bitrate frameRate : Single} : (b.setRates bitrate frameRate).debt = b.debt :=
  if_neg fun hscale => h hscale.1

section Fill

variable {b : LeakyBucket} {size : UInt64} {isDelta : Bool}

/-- A key frame that costs more than one interval's budget, the rest of which is deferred. -/
def Defers (b : LeakyBucket) (size : UInt64) (isDelta : Bool) : Prop :=
  (!isDelta) = true ∧ 0 < b.config.keyFrameSpread ∧ 0 < b.budget b.frameRate ∧
    b.budget b.frameRate < kilobits size

theorem fill_of_off (hoff : b.enabled = false) : b.fill size isDelta = b := by
  simp [fill, hoff]

theorem fill_of_defers (henabled : b.enabled = true) (hdefers : b.Defers size isDelta) :
    b.fill size isDelta = { b with
      debt := b.debt + b.budget b.frameRate
      pending := b.pending + (kilobits size - b.budget b.frameRate)
      pendingLeaks := b.config.keyFrameSpread } := by
  rw [Defers] at hdefers
  simp only [fill, if_pos henabled, if_pos hdefers]

theorem fill_of_not_defers (henabled : b.enabled = true) (hwhole : ¬ b.Defers size isDelta) :
    b.fill size isDelta = { b with debt := b.debt + kilobits size } := by
  rw [Defers] at hwhole
  simp only [fill, if_pos henabled, if_neg hwhole]

theorem fill_delta (henabled : b.enabled = true) (size : UInt64) :
    b.fill size true = { b with debt := b.debt + kilobits size } := by
  apply fill_of_not_defers henabled
  rintro ⟨hkey, -⟩
  cases hkey

/-- A frame is deferred anew over as many leaks as the settings say, or not at all. -/
theorem pendingLeaks_fill (b : LeakyBucket) (size : UInt64) (isDelta : Bool) :
    (b.fill size isDelta).pendingLeaks = b.config.keyFrameSpread ∧ 0 < b.config.keyFrameSpread ∨
      (b.fill size isDelta).pendingLeaks = b.pendingLeaks ∧
        (b.fill size isDelta).pending = b.pending := by
  by_cases henabled : b.enabled = true
  · by_cases hdefers : b.Defers size isDelta
    · rw [fill_of_defers henabled hdefers]
      exact .inl ⟨rfl, hdefers.2.1⟩
    · rw [fill_of_not_defers henabled hdefers]
      exact .inr ⟨rfl, rfl⟩
  · rw [fill_of_off (Bool.eq_false_of_not_eq_true henabled)]
    exact .inr ⟨rfl, rfl⟩

end Fill

/-- The part of the pending cost that the next leak moves to the debt. -/
def slice (b : LeakyBucket) : Single := b.pending / .ofNat b.pendingLeaks.toNat

section Leak

variable {b : LeakyBucket} {rate : UInt32}

theorem chargeSlice_eq_self (h : b.pendingLeaks = 0) : b.chargeSlice = b := by
  rw [chargeSlice, if_neg]
  rw [h]
  decide

theorem leak_of_idle (hidle : ¬ (b.enabled = true ∧ rate ≠ 0)) : b.leak rate = b := by
  rw [leak, if_neg hidle]

theorem leak_of_not_spread (hbusy : b.enabled = true ∧ rate ≠ 0) (hnone : b.pendingLeaks = 0) :
    b.leak rate = { b with debt := (b.debt - b.budget (.ofNat rate.toNat)).positivePart } := by
  have hcharge : ∀ debt, { b with debt }.chargeSlice = { b with debt } := fun _ =>
    chargeSlice_eq_self hnone
  simp only [leak, if_pos hbusy, hcharge]

theorem leak_of_spread (hbusy : b.enabled = true ∧ rate ≠ 0) (hsome : b.pendingLeaks ≠ 0) :
    b.leak rate = { b with
      debt := (b.debt - b.budget (.ofNat rate.toNat) + b.slice).positivePart
      pending := b.pending - b.slice
      pendingLeaks := b.pendingLeaks - 1 } := by
  have hpos : 0 < b.pendingLeaks := UInt32.pos_iff_ne_zero.mpr hsome
  simp only [leak, chargeSlice, slice, if_pos hbusy, if_pos hpos]

theorem pendingLeaks_leak_of_none (hnone : b.pendingLeaks = 0) :
    (b.leak rate).pendingLeaks = 0 := by
  by_cases hbusy : b.enabled = true ∧ rate ≠ 0
  · rw [leak_of_not_spread hbusy hnone]
    exact hnone
  · rw [leak_of_idle hbusy]
    exact hnone

end Leak

theorem config_apply (b : LeakyBucket) (command : Command) :
    (b.apply command).config = b.config := by
  cases command with
  | reset => rfl
  | setRates bitrate frameRate => rfl
  | fill size isDelta => exact congrArg Terms.config (b.terms_fill size isDelta)
  | leak frameRate => exact congrArg Terms.config (b.terms_leak frameRate)
  | enable enabled => rfl

theorem keeps_config (config : BucketConfig) :
    Dropper.Keeps fun b : LeakyBucket => b.config = config := by
  intro verdict c b hb
  cases c with
  | perform command => exact (b.config_apply command).trans hb
  | shouldDrop => exact hb

end LeakyBucket

end RateGovernor
