import Mathlib
import RateGovernor.FrameRate.Estimator

/-!
# The estimator against an unbounded log

An estimator moves arrivals through a fixed number of slots. The reference forgets nothing but at a
reset: it keeps the log of all times recorded since then, newest first, and reads the rate off the
log. After any run the slots hold the newest end of the log, and the estimates are those of the
reference.
-/

namespace RateGovernor

/-- The rate that a log of times, newest first, shows at a time. The span goes from the newest time
back over those that follow it within the capacity, the last one excepted, as long as none of them
is too old. -/
def loggedRate (capacity : Nat) (maxAge now : Int) : List Int → Single
  | [] => 0
  | newest :: earlier =>
    let used := (earlier.take (capacity - 2)).takeWhile (now - · ≤ maxAge)
    match used.getLast? with
    | none => 0
    | some oldest =>
      if newest - oldest ≤ 0 then 0 else .ofNat used.length * 1000 / .ofInt (newest - oldest)

/-- The times of a log, newest first, that an estimate at a time counts. -/
def countedTimes (capacity : Nat) (maxAge now : Int) (times : List Int) : List Int :=
  (times.tail.take (capacity - 2)).takeWhile (now - · ≤ maxAge)

section Counted

variable {capacity : Nat} {maxAge now : Int} {times : List Int}

theorem loggedRate_cons (capacity : Nat) (maxAge now newest : Int) (earlier : List Int) :
    loggedRate capacity maxAge now (newest :: earlier) =
      Arrivals.rateOver newest (countedTimes capacity maxAge now (newest :: earlier)) := rfl

theorem countedTimes_sublist : (countedTimes capacity maxAge now times).Sublist times.tail :=
  (List.takeWhile_sublist _).trans (List.take_sublist _ _)

theorem length_countedTimes_le :
    (countedTimes capacity maxAge now times).length ≤ capacity - 2 :=
  (List.takeWhile_sublist _).length_le.trans (List.length_take_le _ _)

theorem age_le_of_mem_countedTimes {time : Int}
    (h : time ∈ countedTimes capacity maxAge now times) : now - time ≤ maxAge := by
  simpa using List.mem_takeWhile_imp h

end Counted

/-- The times that the estimate depends on are those in front of the last slot. -/
theorem loggedRate_congr {capacity : Nat} (hc : 2 ≤ capacity) {times times' : List Int}
    (h : times.take (capacity - 1) = times'.take (capacity - 1)) (maxAge now : Int) :
    loggedRate capacity maxAge now times = loggedRate capacity maxAge now times' := by
  obtain ⟨k, rfl⟩ : ∃ k, capacity = k + 2 := ⟨capacity - 2, by omega⟩
  cases times with
  | nil =>
    cases times' with
    | nil => rfl
    | cons newest' earlier' => simp at h
  | cons newest earlier =>
    cases times' with
    | nil => simp at h
    | cons newest' earlier' =>
      simp only [show k + 2 - 1 = k + 1 from rfl, List.take_succ_cons, List.cons.injEq] at h
      simp only [loggedRate, Nat.add_sub_cancel_right, h.1, h.2]

theorem EstimatorConfig.validate_eq_ok_iff {config : EstimatorConfig} :
    config.validate = .ok () ↔ 3 ≤ config.historySize.toNat ∧ 0 < config.maxAge.toInt := by
  have hsize : ¬ config.historySize < 3 ↔ 3 ≤ config.historySize.toNat := by
    rw [UInt64.lt_iff_toNat_lt]
    exact Nat.not_lt
  have hage : ¬ config.maxAge ≤ 0 ↔ 0 < config.maxAge.toInt := by
    rw [Int64.le_iff_toInt_le]
    exact Int.not_le
  rw [← hsize, ← hage, validate]
  split
  · simp [*]
  · split <;> simp [*]

namespace Arrivals

section Slots

variable {a : Arrivals} {maxAge now time newest : Int}

theorem record?_of_missing (h : a.slot? 0 = none) : a.record? time = none := by
  rw [record?, h]
  rfl

theorem record?_of_unused (h : a.slot? 0 = some none) :
    a.record? time = some ⟨some time :: a.slots.drop 1⟩ := by
  rw [record?, h]
  rfl

theorem record?_of_used (h : a.slot? 0 = some (some newest)) :
    a.record? time = some ⟨some time :: a.slots.dropLast⟩ := by
  rw [record?, h]
  rfl

theorem rate?_of_missing (h : a.slot? 0 = none) : a.rate? maxAge now = none := by
  rw [rate?, h]
  rfl

theorem rate?_of_unused (h : a.slot? 0 = some none) : a.rate? maxAge now = some 0 := by
  rw [rate?, h]
  rfl

theorem rate?_of_used (h : a.slot? 0 = some (some newest)) :
    a.rate? maxAge now =
      (a.range? 1 (a.capacity - 1)).map fun slots => rateOver newest (recent maxAge now slots) := by
  rw [Option.map_eq_bind]
  simp only [rate?, h, Option.bind_eq_bind, Option.bind_some]
  rfl

end Slots

/-- The table that the newest end of a log fills. -/
def ofLog (capacity : Nat) (times : List Int) : Arrivals :=
  ⟨(times.take capacity).map some ++ List.replicate (capacity - times.length) none⟩

variable {capacity : Nat} {times : List Int}

private theorem empty_eq_ofLog (capacity : Nat) : empty capacity = ofLog capacity [] := by
  simp [empty, ofLog]

@[simp] theorem capacity_ofLog : (ofLog capacity times).capacity = capacity := by
  simp only [Arrivals.capacity, ofLog, List.length_append, List.length_map, List.length_take,
    List.length_replicate]
  omega

@[simp] theorem clear_ofLog : (ofLog capacity times).clear = ofLog capacity [] := by
  rw [clear, capacity_ofLog, empty_eq_ofLog]

private theorem count_ofLog : (ofLog capacity times).count = min times.length capacity := by
  have hused : ∀ slot ∈ (times.take capacity).map some, slot.isSome = true := by
    intro slot hslot
    obtain ⟨time, -, rfl⟩ := List.mem_map.mp hslot
    rfl
  rw [count, ofLog, List.takeWhile_append_of_pos hused]
  simp [Nat.min_comm]

theorem slots_ofLog_cons (capacity : Nat) (newest : Int) (earlier : List Int) :
    (ofLog (capacity + 1) (newest :: earlier)).slots =
      some newest :: (ofLog capacity earlier).slots := by
  simp [ofLog]

theorem take_slots_ofLog {front : Nat} (h : front ≤ capacity) :
    (ofLog capacity times).slots.take front = (ofLog front times).slots := by
  simp only [ofLog, List.take_append, ← List.map_take, List.take_take, List.length_map,
    List.length_take, List.take_replicate]
  congr 2
  · rw [Nat.min_eq_left h]
  · omega

private theorem record?_ofLog (hc : 0 < capacity) (time : Int) :
    (ofLog capacity times).record? time = some (ofLog capacity (time :: times)) := by
  obtain ⟨k, rfl⟩ : ∃ k, capacity = k + 1 := ⟨capacity - 1, by omega⟩
  cases times with
  | nil => simp [record?, slot?, ofLog, List.replicate_succ]
  | cons newest earlier =>
    have hdrop : (ofLog (k + 1) (newest :: earlier)).slots.dropLast =
        (ofLog k (newest :: earlier)).slots := by
      have hlen : (ofLog (k + 1) (newest :: earlier)).slots.length = k + 1 := capacity_ofLog
      rw [List.dropLast_eq_take, hlen, Nat.add_sub_cancel, take_slots_ofLog (Nat.le_succ k)]
    have hslot : (ofLog (k + 1) (newest :: earlier)).slot? 0 = some (some newest) := by
      rw [slot?, slots_ofLog_cons, List.getElem?_cons_zero]
    rw [record?_of_used hslot, hdrop, ← slots_ofLog_cons]

theorem recent_ofLog (maxAge now : Int) :
    recent maxAge now (ofLog capacity times).slots =
      (times.take capacity).takeWhile (now - · ≤ maxAge) := by
  induction times generalizing capacity with
  | nil => cases capacity <;> rfl
  | cons newest earlier ih =>
    cases capacity with
    | zero => simp [ofLog, recent]
    | succ k =>
      rw [slots_ofLog_cons, List.take_succ_cons, List.takeWhile_cons, recent, ih]
      simp only [decide_eq_true_eq]

private theorem rate?_ofLog (hc : 3 ≤ capacity) (maxAge now : Int) :
    (ofLog capacity times).rate? maxAge now = some (loggedRate capacity maxAge now times) := by
  obtain ⟨k, rfl⟩ : ∃ k, capacity = k + 2 := ⟨capacity - 2, by omega⟩
  cases times with
  | nil => simp [rate?, slot?, ofLog, List.replicate_succ, loggedRate]
  | cons newest earlier =>
    have hslot : (ofLog (k + 2) (newest :: earlier)).slot? 0 = some (some newest) := by
      rw [slot?, slots_ofLog_cons, List.getElem?_cons_zero]
    have hrange : (ofLog (k + 2) (newest :: earlier)).range? 1 (k + 1) =
        some (ofLog k earlier).slots := by
      rw [range?, if_pos (by simp), take_slots_ofLog (Nat.le_succ _), slots_ofLog_cons,
        List.drop_succ_cons, List.drop_zero]
    rw [rate?_of_used hslot, capacity_ofLog, show k + 2 - 1 = k + 1 from rfl, hrange,
      Option.map_some, recent_ofLog]
    rfl

end Arrivals

/-- What can be done to an estimator. -/
inductive Measurement where
  | record (time : Int)
  | estimate (now : Int)
  | update (now : Int)
  | reset
  deriving DecidableEq, Repr

/-- The times recorded since the last reset, newest first, in a history that is newest first. -/
def loggedTimes : List Measurement → List Int
  | [] => []
  | .record time :: past => time :: loggedTimes past
  | .update now :: past => now :: loggedTimes past
  | .estimate _ :: past => loggedTimes past
  | .reset :: _ => []

/-- The estimate computed last since the last reset, in a history that is newest first. -/
def lastEstimate (config : EstimatorConfig) : List Measurement → Single
  | [] => 0
  | .record _ :: past => lastEstimate config past
  | .estimate now :: past =>
    loggedRate config.historySize.toNat config.maxAge.toInt now (loggedTimes past)
  | .update now :: past =>
    loggedRate config.historySize.toNat config.maxAge.toInt now (now :: loggedTimes past)
  | .reset :: _ => 0

namespace FrameRateEstimator

def step (e : FrameRateEstimator) : Measurement → FrameRateEstimator
  | .record time => e.record time
  | .estimate now => e.estimate now
  | .update now => e.update now
  | .reset => e.reset

/-- An estimator after a run of measurements. -/
def run (e : FrameRateEstimator) (measurements : List Measurement) : FrameRateEstimator :=
  measurements.foldl step e

/-- The estimator that a log leaves, with the estimate it computed last. -/
def ofLog (config : EstimatorConfig) (times : List Int) (rate : Single) : FrameRateEstimator :=
  ⟨.ofLog config.historySize.toNat times, config.maxAge.toInt, rate⟩

variable {config : EstimatorConfig} {times : List Int} {rate : Single}

theorem ofConfig_eq_ofLog (config : EstimatorConfig) : ofConfig config = ofLog config [] 0 := by
  rw [ofConfig, ofLog, Arrivals.empty_eq_ofLog]

@[simp] theorem reset_ofLog : (ofLog config times rate).reset = ofLog config [] 0 := by
  simp only [reset, ofLog, Arrivals.clear_ofLog]

private theorem record_ofLog (hc : 3 ≤ config.historySize.toNat) (time : Int) :
    (ofLog config times rate).record time = ofLog config (time :: times) rate := by
  simp only [record, ofLog, Arrivals.record?_ofLog (by omega : 0 < config.historySize.toNat),
    Option.getD_some]

theorem estimate_ofLog (hc : 3 ≤ config.historySize.toNat) (now : Int) :
    (ofLog config times rate).estimate now = ofLog config times
      (loggedRate config.historySize.toNat config.maxAge.toInt now times) := by
  simp only [estimate, ofLog, Arrivals.rate?_ofLog hc, Option.getD_some]

theorem update_ofLog (hc : 3 ≤ config.historySize.toNat) (now : Int) :
    (ofLog config times rate).update now = ofLog config (now :: times)
      (loggedRate config.historySize.toNat config.maxAge.toInt now (now :: times)) := by
  rw [update, record_ofLog hc, estimate_ofLog hc]

theorem run_ofConfig (hc : 3 ≤ config.historySize.toNat) (measurements : List Measurement) :
    (ofConfig config).run measurements = ofLog config (loggedTimes measurements.reverse)
      (lastEstimate config measurements.reverse) := by
  induction measurements using List.reverseRecOn with
  | nil => exact ofConfig_eq_ofLog config
  | append_singleton earlier measurement ih =>
    rw [run] at ih
    rw [run, List.foldl_append, ih, List.reverse_append, List.reverse_singleton,
      List.singleton_append, List.foldl_cons, List.foldl_nil]
    cases measurement with
    | record time => exact record_ofLog hc time
    | estimate now => exact estimate_ofLog hc now
    | update now => exact update_ofLog hc now
    | reset => exact reset_ofLog

theorem create_eq_ok (h : config.validate = .ok ()) : create config = .ok (ofConfig config) := by
  rw [create, h]
  rfl

/-- With valid settings an estimator is built, and after any run of measurements its slots hold the
newest end of the log, followed by unused ones; it estimates at every time what the log shows, its
rate is the estimate computed last, and runs whose logs agree in front of the last slot estimate
alike. -/
theorem run_refines_log (hsize : 3 ≤ config.historySize.toNat) (hage : 0 < config.maxAge.toInt) :
    ∃ fresh, create config = .ok fresh ∧ ∀ measurements : List Measurement,
      let capacity := config.historySize.toNat
      let times := loggedTimes measurements.reverse
      let e := fresh.run measurements
      e.arrivals.slots = (times.take (min times.length capacity)).map some ++
          List.replicate (capacity - times.length) none ∧
        e.capacity = capacity ∧ e.sampleCount = min times.length capacity ∧
        (∀ now, (e.estimate now).rate = loggedRate capacity config.maxAge.toInt now times) ∧
        e.rate = lastEstimate config measurements.reverse ∧
        ∀ others : List Measurement,
          (loggedTimes others.reverse).take (capacity - 1) = times.take (capacity - 1) →
            ∀ now, ((fresh.run others).estimate now).rate = (e.estimate now).rate := by
  have hvalid := EstimatorConfig.validate_eq_ok_iff.mpr ⟨hsize, hage⟩
  refine ⟨ofConfig config, create_eq_ok hvalid, fun measurements => ?_⟩
  simp only [run_ofConfig hsize, estimate_ofLog hsize]
  refine ⟨?_, Arrivals.capacity_ofLog, Arrivals.count_ofLog, fun _ => rfl, rfl, ?_⟩
  · rw [ofLog, Arrivals.ofLog, List.append_cancel_right_eq]
    congr 1
    rw [List.take_eq_take_iff]
    omega
  · intro others hsame now
    exact loggedRate_congr (by omega) hsame _ now

/-- Three slots hold three arrivals, of which the second one alone makes the span. -/
theorem run_refines_log_three :
    3 ≤ (3 : UInt64).toNat ∧ 0 < (2000 : Int64).toInt ∧
      ∃ fresh, create ⟨3, 2000⟩ = .ok fresh ∧
        (fresh.run [.update 10, .update 20, .update 40]).arrivals.slots =
          [some 40, some 20, some 10] ∧
        (fresh.run [.update 10, .update 20, .update 40]).rate = 50 := by
  obtain ⟨fresh, hfresh, hrun⟩ := @run_refines_log ⟨3, 2000⟩ (by decide) (by decide)
  obtain ⟨hslots, -, -, -, hrate, -⟩ := hrun [.update 10, .update 20, .update 40]
  exact ⟨by decide, by decide, fresh, hfresh, hslots, hrate.trans (by decide +kernel)⟩

end FrameRateEstimator

end RateGovernor
