import Mathlib
import RateGovernor.Proofs.FrameRate.Cadence

/-!
# The window of an estimate

An estimate counts the arrivals from the second slot on and stops at the first one that is too old.
As long as times do not go back the slots are in order, and whatever follows that arrival is too old
as well, so the scan counts all the arrivals in the window. As the time of the estimate moves on
they leave the window, the oldest first, and none comes back; and the rate is zero exactly if none
of those that count lies before the newest arrival.
-/

namespace RateGovernor

open Binary

section Scan

variable {α : Type} {p q : α → Bool} {xs : List α}

/-- Where nothing that follows a rejected element is accepted, a scan that stops at the first
rejected one finds all that are accepted. -/
private theorem takeWhile_eq_filter (h : xs.Pairwise fun x y => p y = true → p x = true) :
    xs.takeWhile p = xs.filter p := by
  induction xs with
  | nil => rfl
  | cons x rest ih =>
    obtain ⟨hx, hrest⟩ := List.pairwise_cons.mp h
    by_cases hp : p x = true
    · rw [List.takeWhile_cons_of_pos hp, List.filter_cons_of_pos hp, ih hrest]
    · rw [List.takeWhile_cons_of_neg hp, List.filter_cons_of_neg hp]
      symm
      rw [List.filter_eq_nil_iff]
      intro y hy hpy
      exact hp (hx y hy hpy)

private theorem takeWhile_prefix_takeWhile (h : ∀ x, q x = true → p x = true) (xs : List α) :
    xs.takeWhile q <+: xs.takeWhile p := by
  induction xs with
  | nil => exact List.prefix_rfl
  | cons x rest ih =>
    by_cases hq : q x = true
    · rw [List.takeWhile_cons_of_pos hq, List.takeWhile_cons_of_pos (h x hq)]
      exact (List.prefix_cons_inj x).mpr ih
    · rw [List.takeWhile_cons_of_neg hq]
      exact List.nil_prefix

private theorem getLast?_eq_min? {times : List Int} (h : times.SortedGE) :
    times.getLast? = times.min? := by
  by_cases hne : times = []
  · rw [hne]
    rfl
  · rw [List.getLast?_eq_some_getLast hne]
    symm
    rw [List.min?_eq_some_iff]
    constructor
    · exact List.getLast_mem hne
    · intro time hmem
      exact h.pairwise.rel_getLast hmem

private theorem length_filter_reduceOption (slots : List (Option α)) :
    (slots.reduceOption.filter p).length = slots.countP (·.any p) := by
  rw [← List.countP_eq_length_filter, List.reduceOption, List.countP_filterMap]
  congr 1
  funext slot
  cases slot <;> rfl

end Scan

section Log

variable {capacity : ℕ} {maxAge now now' newest : Int} {times earlier : List Int}

private theorem sortedGE_countedTimes (hsorted : times.SortedGE) :
    (countedTimes capacity maxAge now times).SortedGE :=
  (hsorted.pairwise.sublist (countedTimes_sublist.trans times.tail_sublist)).sortedGE

private theorem countedTimes_eq_filter (hsorted : times.SortedGE) :
    countedTimes capacity maxAge now times =
      (times.tail.take (capacity - 2)).filter (now - · ≤ maxAge) := by
  apply takeWhile_eq_filter
  have hinner := hsorted.pairwise.sublist ((List.take_sublist (capacity - 2) _).trans
    times.tail_sublist)
  apply hinner.imp
  intro earlier later hle hrecent
  simp only [decide_eq_true_eq] at hrecent ⊢
  omega

theorem countedTimes_prefix_of_le (hle : now ≤ now') :
    countedTimes capacity maxAge now' times <+: countedTimes capacity maxAge now times := by
  apply takeWhile_prefix_takeWhile
  intro time hrecent
  simp only [decide_eq_true_eq] at hrecent ⊢
  omega

private theorem countedTimes_eq_nil (hsorted : (newest :: earlier).SortedGE)
    (hstalled : maxAge < now - newest) :
    countedTimes capacity maxAge now (newest :: earlier) = [] := by
  rw [List.eq_nil_iff_forall_not_mem]
  intro time hmem
  have hage := age_le_of_mem_countedTimes hmem
  have hle := List.rel_of_pairwise_cons hsorted.pairwise (countedTimes_sublist.subset hmem)
  omega

theorem rateOver_eq_zero (h : ∀ time ∈ earlier, newest ≤ time) :
    Arrivals.rateOver newest earlier = 0 := by
  cases hlast : earlier.getLast? with
  | none => simp only [Arrivals.rateOver, hlast]
  | some oldest =>
    have hspan : newest - oldest ≤ 0 := sub_nonpos.mpr (h oldest (List.mem_of_getLast? hlast))
    simp only [Arrivals.rateOver, hlast, if_pos hspan]

theorem rateOver_pos {oldest : Int} (hlast : earlier.getLast? = some oldest)
    (hfew : earlier.length ≤ 2 ^ 64) (hlt : oldest < newest) (hspan : newest - oldest ≤ 2 ^ 64) :
    0 < Arrivals.rateOver newest earlier := by
  have hsome : 1 ≤ earlier.length :=
    List.length_pos_of_mem (List.mem_of_getLast? hlast)
  obtain ⟨span, hdistance⟩ := Int.eq_ofNat_of_zero_le (sub_pos.mpr hlt).le
  have hpos : ¬ (span : Int) ≤ 0 := by omega
  simp only [Arrivals.rateOver, hlast, hdistance, if_neg hpos]
  exact FrameRateEstimator.rate_pos hsome hfew (by omega) (by omega)

/-- An ordered log shows no rate exactly if none of the times that count lies before the newest. -/
private theorem loggedRate_isZero_iff (hsorted : (newest :: earlier).SortedGE)
    (hcapacity : capacity ≤ 2 ^ 64) (hage : maxAge ≤ 2 ^ 64) (hnow : newest ≤ now) :
    (loggedRate capacity maxAge now (newest :: earlier)).isZero = true ↔
      ∀ time ∈ countedTimes capacity maxAge now (newest :: earlier), newest ≤ time := by
  rw [loggedRate_cons]
  constructor
  · intro hzero time hmem
    by_contra hlt
    -- Some arrival counts, and the span reaches back to the last of those that do.
    have hne := List.ne_nil_of_mem hmem
    have hlast := List.getLast?_eq_some_getLast hne
    have holdest := (sortedGE_countedTimes hsorted).pairwise.rel_getLast hmem
    have hspan := age_le_of_mem_countedTimes (List.getLast_mem hne)
    have hfew : (countedTimes capacity maxAge now (newest :: earlier)).length ≤ 2 ^ 64 :=
      length_countedTimes_le.trans ((Nat.sub_le _ _).trans hcapacity)
    have hpos := rateOver_pos hlast hfew (holdest.trans_lt (not_le.mp hlt)) (by omega)
    rw [isZero_of_pos hpos] at hzero
    cases hzero
  · intro h
    rw [rateOver_eq_zero h]
    decide +kernel

theorem loggedRate_eq_zero_of_le (hsorted : (newest :: earlier).SortedGE)
    (hcapacity : capacity ≤ 2 ^ 64) (hage : maxAge ≤ 2 ^ 64) (hnow : newest ≤ now)
    (hle : now ≤ now')
    (hzero : (loggedRate capacity maxAge now (newest :: earlier)).isZero = true) :
    loggedRate capacity maxAge now' (newest :: earlier) = 0 := by
  rw [loggedRate_isZero_iff hsorted hcapacity hage hnow] at hzero
  rw [loggedRate_cons]
  apply rateOver_eq_zero
  intro time hmem
  exact hzero time ((countedTimes_prefix_of_le hle).subset hmem)

theorem loggedRate_eq_zero_of_stalled (hsorted : (newest :: earlier).SortedGE)
    (hstalled : maxAge < now - newest) :
    loggedRate capacity maxAge now (newest :: earlier) = 0 := by
  rw [loggedRate_cons, countedTimes_eq_nil hsorted hstalled]
  rfl

end Log

/-- The time at which a measurement is made. -/
def Measurement.time? : Measurement → Option Int
  | .record time | .estimate time | .update time => some time
  | .reset => none

theorem loggedTimes_sublist (past : List Measurement) :
    (loggedTimes past).Sublist (past.filterMap Measurement.time?) := by
  induction past with
  | nil => exact .slnil
  | cons measurement past ih =>
    cases measurement with
    | record time => exact ih.cons_cons time
    | update now => exact ih.cons_cons now
    | estimate now => exact ih.cons now
    | reset => exact List.nil_sublist _

/-- Whether a measurement logs its time. -/
def Measurement.isArrival : Measurement → Bool
  | .record _ | .update _ => true
  | .estimate _ | .reset => false

theorem loggedTimes_append {idle : List Measurement} (h : ∀ m ∈ idle, m.isArrival = false)
    (past : List Measurement) :
    loggedTimes (idle ++ past) = loggedTimes past ∨ loggedTimes (idle ++ past) = [] := by
  induction idle with
  | nil => exact .inl rfl
  | cons measurement idle ih =>
    obtain ⟨hfirst, hrest⟩ := List.forall_mem_cons.mp h
    cases measurement with
    | record time => cases hfirst
    | update now => cases hfirst
    | estimate now => exact ih hrest
    | reset => exact .inr rfl

section Ordered

variable {measurements : List Measurement}

private theorem sortedGE_loggedTimes
    (hordered : (measurements.filterMap Measurement.time?).SortedLE) :
    (loggedTimes measurements.reverse).SortedGE := by
  have hlogged := loggedTimes_sublist measurements.reverse
  rw [List.filterMap_reverse] at hlogged
  exact (hordered.reverse.pairwise.sublist hlogged).sortedGE

private theorem le_latest_of_mem_loggedTimes
    (hordered : (measurements.filterMap Measurement.time?).SortedLE) :
    ∀ time ∈ loggedTimes measurements.reverse, ∃ latest,
      (measurements.filterMap Measurement.time?).getLast? = some latest ∧ time ≤ latest := by
  intro time hmem
  have hseen := (loggedTimes_sublist measurements.reverse).subset hmem
  rw [List.filterMap_reverse, List.mem_reverse] at hseen
  exact ⟨_, List.getLast?_eq_some_getLast (List.ne_nil_of_mem hseen),
    hordered.pairwise.rel_getLast hseen⟩

end Ordered

namespace Arrivals

variable {capacity : ℕ} {times : List Int}

private theorem reduceOption_slots_ofLog :
    (ofLog capacity times).slots.reduceOption = times.take capacity := by
  rw [ofLog, List.reduceOption_append, List.reduceOption_replicate_none, List.append_nil,
    List.reduceOption, List.filterMap_map]
  exact List.filterMap_some

end Arrivals

namespace FrameRateEstimator

/-- The slots between the first and the last one. -/
def innerSlots (e : FrameRateEstimator) : List (Option Int) :=
  (e.arrivals.slots.take (e.capacity - 1)).drop 1

/-- The arrivals that an estimate at a time counts, newest first. -/
def counted (e : FrameRateEstimator) (now : Int) : List Int :=
  Arrivals.recent e.maxAge now e.innerSlots

private theorem rate_estimate {e : FrameRateEstimator} {newest : Int} (hc : 2 ≤ e.capacity)
    (hfirst : e.arrivals.slot? 0 = some (some newest)) (now : Int) :
    (e.estimate now).rate = Arrivals.rateOver newest (e.counted now) := by
  have hrange : e.arrivals.range? 1 (e.arrivals.capacity - 1) = some e.innerSlots := by
    rw [Arrivals.range?, if_pos ⟨Nat.le_sub_one_of_lt hc, Nat.sub_le _ _⟩]
    rfl
  simp only [estimate, Arrivals.rate?, hfirst, hrange, Option.bind_eq_bind, Option.bind_some,
    Option.getD_some]
  rfl

variable {config : EstimatorConfig} {times : List Int} {rate : Single}

private theorem innerSlots_ofLog (hc : 3 ≤ config.historySize.toNat) :
    (ofLog config times rate).innerSlots =
      (Arrivals.ofLog (config.historySize.toNat - 2) times.tail).slots := by
  obtain ⟨k, hk⟩ : ∃ k, config.historySize.toNat = k + 2 :=
    ⟨config.historySize.toNat - 2, by omega⟩
  simp only [innerSlots, ofLog, capacity, Arrivals.capacity_ofLog, hk]
  cases times with
  | nil => simp [Arrivals.ofLog]
  | cons newest earlier =>
    rw [Arrivals.slots_ofLog_cons, Nat.add_sub_cancel_right, show k + 2 - 1 = k + 1 from rfl,
      List.take_succ_cons, List.drop_succ_cons, List.drop_zero, List.tail_cons,
      Arrivals.take_slots_ofLog (Nat.le_succ k)]

theorem counted_ofLog (hc : 3 ≤ config.historySize.toNat) (now : Int) :
    (ofLog config times rate).counted now =
      countedTimes config.historySize.toNat config.maxAge.toInt now times := by
  rw [counted, innerSlots_ofLog hc, Arrivals.recent_ofLog]
  rfl

private theorem reduceOption_innerSlots_ofLog (hc : 3 ≤ config.historySize.toNat) :
    (ofLog config times rate).innerSlots.reduceOption =
      times.tail.take (config.historySize.toNat - 2) := by
  rw [innerSlots_ofLog hc, Arrivals.reduceOption_slots_ofLog]

private theorem sortedGE_counted_ofLog (hc : 3 ≤ config.historySize.toNat)
    (hsorted : times.SortedGE) (now : Int) : ((ofLog config times rate).counted now).SortedGE := by
  rw [counted_ofLog hc]
  exact sortedGE_countedTimes hsorted

/-- With valid settings, and as long as times do not go back, the arrivals in the slots stand in
order, newest first, and none is later than the latest time seen. An estimate therefore counts all
arrivals between the first and the last slot that are not too old, though it stops at the first one
that is; and the oldest one that it counts is the least of them. -/
theorem counted_eq_window (hsize : 3 ≤ config.historySize.toNat) (hage : 0 < config.maxAge.toInt)
    {measurements : List Measurement}
    (hordered : (measurements.filterMap Measurement.time?).SortedLE) :
    ∃ fresh, create config = .ok fresh ∧
      let e := fresh.run measurements
      let stored := e.arrivals.slots.reduceOption
      stored.SortedGE ∧
      (∀ time ∈ stored, ∃ latest,
        (measurements.filterMap Measurement.time?).getLast? = some latest ∧ time ≤ latest) ∧
      ∀ now,
        let window := e.innerSlots.reduceOption.filter (now - · ≤ config.maxAge.toInt)
        e.counted now = window ∧
        (e.counted now).length =
          e.innerSlots.countP (fun slot => slot.any (now - · ≤ config.maxAge.toInt)) ∧
        (e.counted now).getLast? = window.min? ∧
        ∀ newest, e.arrivals.slot? 0 = some (some newest) →
          (e.estimate now).rate = Arrivals.rateOver newest window := by
  have hvalid := EstimatorConfig.validate_eq_ok_iff.mpr ⟨hsize, hage⟩
  refine ⟨ofConfig config, create_eq_ok hvalid, ?_⟩
  have hsorted := sortedGE_loggedTimes hordered
  have hlatest := le_latest_of_mem_loggedTimes hordered
  rw [run_ofConfig hsize]
  generalize loggedTimes measurements.reverse = times at hsorted hlatest ⊢
  intro e stored
  have hstored : stored = times.take config.historySize.toNat := Arrivals.reduceOption_slots_ofLog
  rw [hstored]
  refine ⟨(hsorted.pairwise.sublist (List.take_sublist _ _)).sortedGE, ?latest, ?window⟩
  case latest =>
    intro time hmem
    exact hlatest time (List.mem_of_mem_take hmem)
  case window =>
    intro now window
    have hall : e.counted now = window := by
      simp only [e, window]
      rw [counted_ofLog hsize, countedTimes_eq_filter hsorted, reduceOption_innerSlots_ofLog hsize]
    rw [← hall]
    refine ⟨rfl, ?_, getLast?_eq_min? (sortedGE_counted_ofLog hsize hsorted now), ?_⟩
    · rw [hall]
      exact length_filter_reduceOption e.innerSlots
    · intro newest hfirst
      apply rate_estimate ?_ hfirst
      simp only [e, ofLog, capacity, Arrivals.capacity_ofLog]
      omega

/-- Of two arrivals between the first and the last slot one is too old. -/
theorem counted_eq_window_partly :
    let measurements : List Measurement :=
      [.record 0, .reset, .update 20, .update 50, .estimate 60, .update 120, .update 130]
    (measurements.filterMap Measurement.time?).SortedLE ∧
      ∃ fresh, create ⟨4, 100⟩ = .ok fresh ∧
        (fresh.run measurements).arrivals.slots = [some 130, some 120, some 50, some 20] ∧
        (fresh.run measurements).counted 160 = [120] ∧
        ((fresh.run measurements).estimate 160).rate = 100 := by
  intro measurements
  have hordered : (measurements.filterMap Measurement.time?).SortedLE := by
    rw [List.sortedLE_iff_pairwise]
    decide
  obtain ⟨fresh, hfresh, -, -, hwindow⟩ :=
    @counted_eq_window ⟨4, 100⟩ (by decide) (by decide) measurements hordered
  obtain ⟨hcounted, -, -, hrate⟩ := hwindow 160
  cases hfresh
  refine ⟨hordered, _, rfl, by decide, hcounted.trans (by decide), ?_⟩
  rw [hrate 130 (by decide)]
  decide +kernel

end FrameRateEstimator

end RateGovernor
