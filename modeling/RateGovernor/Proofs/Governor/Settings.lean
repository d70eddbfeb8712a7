import Mathlib
import RateGovernor.Proofs.FrameRate.Window
import RateGovernor.Proofs.Governor.History

/-!
# What the settings are checked for

An estimator over any settings at all is run with every access to its slots checked. Two slots are
enough for that never to fail. For a rate there has to be a slot between the newest and the oldest
one, and an arrival that is older than the newest one must be able to count. The settings that are
accepted are those with which both is the case.
-/

namespace RateGovernor

namespace Arrivals

variable {a a' : Arrivals} {maxAge now time : Int}

private theorem slot?_zero_eq_none_iff : a.slot? 0 = none ↔ a.capacity = 0 := by
  rw [slot?, List.getElem?_eq_none_iff, Nat.le_zero]
  rfl

private theorem exists_record? (h : 0 < a.capacity) (time : Int) :
    ∃ a', a.record? time = some a' ∧ a'.capacity = a.capacity ∧ a'.slot? 0 = some (some time) := by
  cases hslot : a.slot? 0 with
  | none => exact absurd (slot?_zero_eq_none_iff.mp hslot) h.ne'
  | some slot =>
    cases slot with
    | none =>
      refine ⟨_, record?_of_unused hslot, ?_, rfl⟩
      simp only [capacity, List.length_cons, List.length_drop] at h ⊢
      omega
    | some newest =>
      refine ⟨_, record?_of_used hslot, ?_, rfl⟩
      simp only [capacity, List.length_cons, List.length_dropLast] at h ⊢
      omega

private theorem of_record? (h : a.record? time = some a') :
    a'.capacity = a.capacity ∧ a'.slot? 0 = some (some time) := by
  have hpos : 0 < a.capacity := by
    apply Nat.pos_of_ne_zero
    intro hnone
    rw [record?_of_missing (slot?_zero_eq_none_iff.mpr hnone)] at h
    cases h
  obtain ⟨taken, htaken, hkept⟩ := exists_record? hpos time
  obtain rfl : taken = a' := Option.some.inj (htaken.symm.trans h)
  exact hkept

private theorem exists_rate? (h : 2 ≤ a.capacity) (maxAge now : Int) :
    ∃ rate, a.rate? maxAge now = some rate := by
  cases hslot : a.slot? 0 with
  | none =>
    have hnone := slot?_zero_eq_none_iff.mp hslot
    omega
  | some slot =>
    cases slot with
    | none => exact ⟨0, rate?_of_unused hslot⟩
    | some newest =>
      have hrange : 1 ≤ a.capacity - 1 ∧ a.capacity - 1 ≤ a.capacity := by omega
      rw [rate?_of_used hslot, range?, if_pos hrange]
      exact ⟨_, rfl⟩

private theorem age_le_of_mem_recent {slots : List (Option Int)}
    (h : time ∈ recent maxAge now slots) :
    now - time ≤ maxAge := by
  induction slots with
  | nil => cases h
  | cons slot rest ih =>
    cases slot with
    | none => cases h
    | some first =>
      rw [recent] at h
      split at h
      · rename_i hage
        rcases List.mem_cons.mp h with rfl | hrest
        · exact hage
        · exact ih hrest
      · cases h

private theorem rate?_eq_zero (hnewest : a.slot? 0 = some (some now))
    (h : a.capacity ≤ 2 ∨ maxAge ≤ 0)
    {rate : Single} (hrate : a.rate? maxAge now = some rate) : rate = 0 := by
  rw [rate?_of_used hnewest, Option.map_eq_some_iff] at hrate
  obtain ⟨slots, hslots, rfl⟩ := hrate
  apply rateOver_eq_zero
  intro time htime
  rcases h with hsmall | hold
  · have hnone : slots = [] := by
      rw [range?] at hslots
      split at hslots
      · cases hslots
        apply List.eq_nil_of_length_eq_zero
        rw [List.length_drop, List.length_take]
        omega
      · cases hslots
    rw [hnone] at htime
    cases htime
  · have hage := age_le_of_mem_recent htime
    omega

end Arrivals

namespace FrameRateEstimator

/-- Record an arrival, if the table has the slot for it. -/
def record? (e : FrameRateEstimator) (time : Int) : Option FrameRateEstimator :=
  (e.arrivals.record? time).map fun arrivals => { e with arrivals }

/-- Compute the estimate anew, if the table has the slots to scan. -/
def estimate? (e : FrameRateEstimator) (now : Int) : Option FrameRateEstimator :=
  (e.arrivals.rate? e.maxAge now).map fun rate => { e with rate }

/-- A measurement that fails on an access to a slot that is not there. -/
def step? (e : FrameRateEstimator) : Measurement → Option FrameRateEstimator
  | .record time => e.record? time
  | .estimate now => e.estimate? now
  | .update now => (e.record? now).bind (·.estimate? now)
  | .reset => some e.reset

def run? (e : FrameRateEstimator) (measurements : List Measurement) : Option FrameRateEstimator :=
  measurements.foldlM step? e

variable {e e' : FrameRateEstimator} {m : Measurement} {measurements : List Measurement}
  {now : Int}

private theorem record_of_record? (h : e.record? now = some e') : e.record now = e' := by
  obtain ⟨arrivals, hrecord, rfl⟩ := Option.map_eq_some_iff.mp h
  rw [record, hrecord, Option.getD_some]

private theorem estimate_of_estimate? (h : e.estimate? now = some e') : e.estimate now = e' := by
  obtain ⟨rate, hrate, rfl⟩ := Option.map_eq_some_iff.mp h
  rw [estimate, hrate, Option.getD_some]

/-- A measurement that does not fail does what it does unchecked. -/
private theorem step_of_step? (h : e.step? m = some e') : e.step m = e' := by
  cases m with
  | record time => exact record_of_record? h
  | estimate now => exact estimate_of_estimate? h
  | update now =>
    obtain ⟨next, hrecord, hestimate⟩ := Option.bind_eq_some_iff.mp h
    rw [step, update, record_of_record? hrecord, estimate_of_estimate? hestimate]
  | reset => exact Option.some.inj h

private theorem run_of_run? (h : e.run? measurements = some e') : e.run measurements = e' := by
  induction measurements generalizing e with
  | nil => exact Option.some.inj h
  | cons m rest ih =>
    rw [run?, List.foldlM_cons] at h
    obtain ⟨next, hstep, hrest⟩ := Option.bind_eq_some_iff.mp h
    rw [run, List.foldl_cons, step_of_step? hstep]
    exact ih hrest

private theorem of_record? (h : e.record? now = some e') :
    e'.capacity = e.capacity ∧ e'.maxAge = e.maxAge ∧
      e'.arrivals.slot? 0 = some (some now) := by
  obtain ⟨arrivals, hrecord, rfl⟩ := Option.map_eq_some_iff.mp h
  obtain ⟨hcapacity, hnewest⟩ := Arrivals.of_record? hrecord
  exact ⟨hcapacity, rfl, hnewest⟩

private theorem of_estimate? (h : e.estimate? now = some e') :
    e'.arrivals = e.arrivals ∧ e'.maxAge = e.maxAge ∧
      e.arrivals.rate? e.maxAge now = some e'.rate := by
  obtain ⟨rate, hrate, rfl⟩ := Option.map_eq_some_iff.mp h
  exact ⟨rfl, rfl, hrate⟩

private theorem step?_keeps (h : e.step? m = some e') :
    e'.capacity = e.capacity ∧ e'.maxAge = e.maxAge := by
  cases m with
  | record time =>
    obtain ⟨hcapacity, hage, -⟩ := of_record? h
    exact ⟨hcapacity, hage⟩
  | estimate now =>
    obtain ⟨harrivals, hage, -⟩ := of_estimate? h
    exact ⟨congrArg Arrivals.capacity harrivals, hage⟩
  | update now =>
    obtain ⟨next, hrecord, hestimate⟩ := Option.bind_eq_some_iff.mp h
    obtain ⟨hcapacity, hage, -⟩ := of_record? hrecord
    obtain ⟨harrivals, hage', -⟩ := of_estimate? hestimate
    exact ⟨(congrArg Arrivals.capacity harrivals).trans hcapacity, hage'.trans hage⟩
  | reset =>
    obtain rfl : e.reset = e' := Option.some.inj h
    exact ⟨List.length_replicate, rfl⟩

private theorem run?_keeps (h : e.run? measurements = some e') :
    e'.capacity = e.capacity ∧ e'.maxAge = e.maxAge := by
  induction measurements generalizing e with
  | nil =>
    obtain rfl : e = e' := Option.some.inj h
    exact ⟨rfl, rfl⟩
  | cons m rest ih =>
    rw [run?, List.foldlM_cons] at h
    obtain ⟨next, hstep, hrest⟩ := Option.bind_eq_some_iff.mp h
    obtain ⟨hcapacity, hage⟩ := step?_keeps hstep
    obtain ⟨hcapacity', hage'⟩ := ih hrest
    exact ⟨hcapacity'.trans hcapacity, hage'.trans hage⟩

private theorem exists_step? (h : 2 ≤ e.capacity) (m : Measurement) :
    ∃ e', e.step? m = some e' := by
  have hrecord : ∀ time, ∃ e', e.record? time = some e' := by
    intro time
    obtain ⟨arrivals, hrecord, -⟩ := Arrivals.exists_record? (Nat.zero_lt_of_lt h) time
    exact ⟨_, Option.map_eq_some_iff.mpr ⟨arrivals, hrecord, rfl⟩⟩
  have hestimate : ∀ {next : FrameRateEstimator}, 2 ≤ next.capacity → ∀ now,
      ∃ e', next.estimate? now = some e' := by
    intro next hnext now
    obtain ⟨rate, hrate⟩ := Arrivals.exists_rate? hnext next.maxAge now
    exact ⟨_, Option.map_eq_some_iff.mpr ⟨rate, hrate, rfl⟩⟩
  cases m with
  | record time => exact hrecord time
  | estimate now => exact hestimate h now
  | update now =>
    obtain ⟨next, hnext⟩ := hrecord now
    obtain ⟨e', he'⟩ := hestimate ((of_record? hnext).1.symm ▸ h) now
    exact ⟨e', Option.bind_eq_some_iff.mpr ⟨next, hnext, he'⟩⟩
  | reset => exact ⟨e.reset, rfl⟩

private theorem exists_run? (h : 2 ≤ e.capacity) (measurements : List Measurement) :
    ∃ e', e.run? measurements = some e' := by
  induction measurements generalizing e with
  | nil => exact ⟨e, rfl⟩
  | cons m rest ih =>
    obtain ⟨next, hstep⟩ := exists_step? h m
    obtain ⟨e', hrest⟩ := ih ((step?_keeps hstep).1.symm ▸ h)
    rw [run?, List.foldlM_cons]
    exact ⟨e', Option.bind_eq_some_iff.mpr ⟨next, hstep, hrest⟩⟩

private theorem step?_update_eq_none (h : e.capacity < 2) (now : Int) :
    e.step? (.update now) = none := by
  rw [Option.eq_none_iff_forall_ne_some]
  intro e' hstep
  obtain ⟨next, hrecord, hestimate⟩ := Option.bind_eq_some_iff.mp hstep
  obtain ⟨hcapacity, -, hnewest⟩ := of_record? hrecord
  obtain ⟨-, -, hrate⟩ := of_estimate? hestimate
  rw [Arrivals.rate?_of_used hnewest, Option.map_eq_some_iff] at hrate
  obtain ⟨slots, hslots, -⟩ := hrate
  have hnext : next.arrivals.capacity < 2 := hcapacity.trans_lt h
  have hempty : ¬(1 ≤ next.arrivals.capacity - 1 ∧
      next.arrivals.capacity - 1 ≤ next.arrivals.capacity) := by omega
  rw [Arrivals.range?, if_neg hempty] at hslots
  cases hslots

/-- With two slots at most, or without a window, an update never shows a rate. -/
private theorem rate_of_update (h : e.capacity ≤ 2 ∨ e.maxAge ≤ 0)
    (hstep : e.step? (.update now) = some e') : e'.rate = 0 := by
  obtain ⟨next, hrecord, hestimate⟩ := Option.bind_eq_some_iff.mp hstep
  obtain ⟨hcapacity, hage, hnewest⟩ := of_record? hrecord
  obtain ⟨-, -, hrate⟩ := of_estimate? hestimate
  rw [← hcapacity, ← hage] at h
  exact Arrivals.rate?_eq_zero hnewest h hrate

end FrameRateEstimator

namespace EstimatorConfig

open FrameRateEstimator

/-- No sequence of measurements fails. -/
def InBounds (config : EstimatorConfig) : Prop :=
  ∀ measurements, ∃ e, (ofConfig config).run? measurements = some e

/-- Some updates at times that do not go back show a positive rate. -/
def Estimates (config : EstimatorConfig) : Prop :=
  ∃ times : List Int, times.SortedLE ∧
    ∃ e, (ofConfig config).run? (times.map .update) = some e ∧ 0 < e.rate

variable {config : EstimatorConfig}

private theorem capacity_ofConfig (config : EstimatorConfig) :
    (ofConfig config).capacity = config.historySize.toNat := List.length_replicate

private theorem inBounds_iff : config.InBounds ↔ 2 ≤ config.historySize.toNat := by
  constructor
  · intro hbounds
    rw [← capacity_ofConfig]
    apply Nat.le_of_not_lt
    intro hshort
    obtain ⟨e, hrun⟩ := hbounds [.update 0]
    rw [run?, List.foldlM_cons, step?_update_eq_none hshort] at hrun
    cases hrun
  · intro hsize
    exact exists_run? ((capacity_ofConfig config).symm ▸ hsize)

private theorem estimates_iff :
    config.Estimates ↔ 3 ≤ config.historySize.toNat ∧ 0 < config.maxAge.toInt := by
  constructor
  · rintro ⟨times, -, e, hrun, hpos⟩
    rw [← capacity_ofConfig]
    by_contra hinvalid
    have hzero : e.rate = 0 := by
      obtain rfl | ⟨earlier, last, rfl⟩ := times.eq_nil_or_concat'
      · obtain rfl : ofConfig config = e := Option.some.inj hrun
        rfl
      · rw [List.map_append, run?, List.foldlM_append] at hrun
        obtain ⟨before, hearlier, hlast⟩ := Option.bind_eq_some_iff.mp hrun
        obtain ⟨after, hstep, hend⟩ := Option.bind_eq_some_iff.mp hlast
        obtain rfl : after = e := Option.some.inj hend
        obtain ⟨hcapacity, hage⟩ := run?_keeps hearlier
        apply rate_of_update ?_ hstep
        rw [hcapacity, hage]
        change _ ∨ config.maxAge.toInt ≤ 0
        omega
    rw [hzero] at hpos
    exact absurd hpos (by decide +kernel)
  · rintro ⟨hsize, hage⟩
    have hbounds : config.InBounds := inBounds_iff.mpr (by omega)
    obtain ⟨e, hrun⟩ := hbounds [.update 0, .update 1]
    refine ⟨[0, 1], by decide, e, hrun, ?_⟩
    have hunchecked := run_of_run? hrun
    rw [run_ofConfig hsize] at hunchecked
    rw [← hunchecked]
    have hcounted : countedTimes config.historySize.toNat config.maxAge.toInt 1 [1, 0] = [0] := by
      have hscan : 1 ≤ config.historySize.toNat - 2 := by omega
      rw [countedTimes, List.tail_cons, List.take_of_length_le hscan]
      exact List.takeWhile_cons_of_pos (decide_eq_true hage)
    change 0 < loggedRate config.historySize.toNat config.maxAge.toInt 1 [1, 0]
    rw [loggedRate_cons, hcounted]
    exact rateOver_pos rfl (by norm_num) (by norm_num) (by norm_num)

/-- The settings that are accepted are those with which an estimator never reaches for a slot that
is not there, and with which it can show a rate. With all others neither an estimator nor a governor
is built, over whatever dropper, and the settings are what is at fault. -/
theorem validate_iff_usable (config : EstimatorConfig) :
    (config.validate = .ok () ↔ config.InBounds ∧ config.Estimates) ∧
      ((∃ error, FrameRateEstimator.create config = .error error) ↔
        ¬(config.InBounds ∧ config.Estimates)) ∧
      ∀ {σ : Type} [Dropper σ] (dropper : σ),
        (∃ error, Governor.create config dropper = .error (.invalidConfig error)) ↔
          ¬(config.InBounds ∧ config.Estimates) := by
  have hvalid : config.validate = .ok () ↔ config.InBounds ∧ config.Estimates := by
    rw [validate_eq_ok_iff, inBounds_iff, estimates_iff]
    omega
  refine ⟨hvalid, ?estimator, ?governor⟩
  case estimator =>
    rw [← hvalid]
    cases h : config.validate with
    | ok => simp [create_eq_ok h]
    | error error => simp [FrameRateEstimator.create, h, bind, Except.bind]
  case governor =>
    intro σ _ dropper
    rw [← hvalid]
    cases h : config.validate with
    | error error => simp [Governor.create_of_invalid h]
    | ok =>
      cases hconfigured : Governor.configure .zero (Governor.unconfigured config dropper) with
      | ok done fresh => simp [Governor.create_of_configure_ok h hconfigured]
      | error cause left => simp [Governor.create_of_configure_error h hconfigured]

end EstimatorConfig

end RateGovernor
