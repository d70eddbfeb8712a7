import Mathlib
import RateGovernor.Dropper.LeakyBucket
import RateGovernor.Proofs.Governor.Account

/-!
# The time zero of the clock

A clock may start anywhere. Move all of its readings by one offset: the arrivals in the slots move
along, all that is computed from them are differences, and nothing else looks at the time. So a run
is the same in all but the times that stand in the slots.
-/

namespace RateGovernor

namespace Arrivals

/-- The same slots used, at times moved by an offset. -/
def shifted (d : Int) (a : Arrivals) : Arrivals := ⟨a.slots.map (Option.map (· + d))⟩

variable {a : Arrivals} {d : Int}

@[simp] theorem capacity_shifted : (a.shifted d).capacity = a.capacity :=
  List.length_map _

@[simp] theorem shifted_empty (capacity : Nat) : (empty capacity).shifted d = empty capacity := by
  rw [shifted, empty, List.map_replicate, Option.map_none]

@[simp] theorem clear_shifted : (a.shifted d).clear = a.clear.shifted d := by
  rw [clear, clear, capacity_shifted, shifted_empty]

private theorem slot?_shifted (index : Nat) :
    (a.shifted d).slot? index = (a.slot? index).map (Option.map (· + d)) :=
  List.getElem?_map

private theorem range?_shifted (start stop : Nat) :
    (a.shifted d).range? start stop =
      (a.range? start stop).map (List.map (Option.map (· + d))) := by
  rw [range?, range?, capacity_shifted]
  split
  · rw [Option.map_some, List.map_drop, List.map_take]
    rfl
  · rfl

private theorem record?_shifted (time : Int) :
    (a.shifted d).record? (time + d) = (a.record? time).map (shifted d) := by
  have hmoved : (a.shifted d).slot? 0 = (a.slot? 0).map (Option.map (· + d)) := slot?_shifted 0
  cases hslot : a.slot? 0 with
  | none =>
    rw [hslot, Option.map_none] at hmoved
    rw [record?_of_missing hmoved, record?_of_missing hslot, Option.map_none]
  | some slot =>
    rw [hslot, Option.map_some] at hmoved
    cases slot with
    | none =>
      rw [record?_of_unused hmoved, record?_of_unused hslot, shifted, ← List.map_drop]
      rfl
    | some newest =>
      rw [record?_of_used hmoved, record?_of_used hslot, shifted, ← List.map_dropLast]
      rfl

private theorem recent_shifted (maxAge now : Int) (slots : List (Option Int)) :
    recent maxAge (now + d) (slots.map (Option.map (· + d))) =
      (recent maxAge now slots).map (· + d) := by
  induction slots with
  | nil => rfl
  | cons slot rest ih =>
    cases slot with
    | none => rfl
    | some time =>
      have hage : now + d - (time + d) = now - time := by omega
      simp only [List.map_cons, Option.map_some, recent, hage, ih]
      split
      · rfl
      · rfl

private theorem rateOver_shifted (newest : Int) (earlier : List Int) :
    rateOver (newest + d) (earlier.map (· + d)) = rateOver newest earlier := by
  unfold rateOver
  rw [List.getLast?_map, List.length_map]
  cases earlier.getLast? with
  | none => rfl
  | some oldest =>
    have hspan : newest + d - (oldest + d) = newest - oldest := by omega
    rw [Option.map_some]
    dsimp only
    rw [hspan]

private theorem rate?_shifted (maxAge now : Int) :
    (a.shifted d).rate? maxAge (now + d) = a.rate? maxAge now := by
  have hmoved : (a.shifted d).slot? 0 = (a.slot? 0).map (Option.map (· + d)) := slot?_shifted 0
  cases hslot : a.slot? 0 with
  | none =>
    rw [hslot, Option.map_none] at hmoved
    rw [rate?_of_missing hmoved, rate?_of_missing hslot]
  | some slot =>
    rw [hslot, Option.map_some] at hmoved
    cases slot with
    | none => rw [rate?_of_unused hmoved, rate?_of_unused hslot]
    | some newest =>
      rw [rate?_of_used hmoved, rate?_of_used hslot, capacity_shifted, range?_shifted,
        Option.map_map]
      congr 1
      funext slots
      rw [Function.comp_apply, recent_shifted, rateOver_shifted]

end Arrivals

namespace FrameRateEstimator

def shifted (d : Int) (e : FrameRateEstimator) : FrameRateEstimator :=
  { e with arrivals := e.arrivals.shifted d }

variable {e : FrameRateEstimator} {d : Int}

private theorem shifted_ofConfig (config : EstimatorConfig) :
    (ofConfig config).shifted d = ofConfig config := by
  rw [shifted, ofConfig, Arrivals.shifted_empty]

private theorem reset_shifted : (e.shifted d).reset = e.reset.shifted d := by
  simp only [reset, shifted, Arrivals.clear_shifted]

private theorem record_shifted (time : Int) :
    (e.shifted d).record (time + d) = (e.record time).shifted d := by
  simp only [record, shifted, Arrivals.record?_shifted]
  cases e.arrivals.record? time with
  | none => rfl
  | some arrivals => rfl

private theorem estimate_shifted (now : Int) :
    (e.shifted d).estimate (now + d) = (e.estimate now).shifted d := by
  simp only [estimate, shifted, Arrivals.rate?_shifted]

private theorem update_shifted (now : Int) :
    (e.shifted d).update (now + d) = (e.update now).shifted d := by
  rw [update, record_shifted, estimate_shifted, update]

end FrameRateEstimator

/-- The same operation at a reading moved by an offset. -/
def Request.shifted (d : Int) (r : Request) : Request := { r with now := r.now + d }

namespace Control

def shifted (d : Int) (c : Control) : Control := { c with estimator := c.estimator.shifted d }

variable {c : Control} {d : Int}

private theorem step_shifted (r : Request) :
    (c.shifted d).step (r.shifted d) = (c.step r).shifted d := by
  obtain ⟨now, operation⟩ := r
  cases operation with
  | configure p => exact Control.ext rfl rfl FrameRateEstimator.reset_shifted rfl
  | reset => exact Control.ext rfl rfl FrameRateEstimator.reset_shifted rfl
  | measureFrameRate => exact Control.ext rfl rfl (FrameRateEstimator.estimate_shifted now) rfl
  | shouldDrop => exact Control.ext rfl rfl (FrameRateEstimator.update_shifted now) rfl
  | _ => rfl

private theorem calls_shifted (r : Request) : (c.shifted d).calls (r.shifted d) = c.calls r := by
  obtain ⟨now, operation⟩ := r
  cases operation with
  | _ => rfl

end Control

namespace Governor

variable {σ : Type}

variable {d : Int}

def shifted (d : Int) (g : Governor σ) : Governor σ :=
  { g with estimator := g.estimator.shifted d }

private theorem answer_shifted (g : Governor σ) (r : Request) (verdict : Bool) :
    (g.shifted d).answer (r.shifted d) verdict = g.answer r verdict := by
  obtain ⟨now, operation⟩ := r
  cases operation with
  | _ => rfl

variable [Dropper σ]

/-- A request at a moved reading is answered alike, or interrupted alike, by a governor whose
arrivals are moved, and moves no more than the arrivals. -/
private theorem event_after_shifted (g : Governor σ) (r : Request) :
    ((g.shifted d).event (r.shifted d)).answer? = (g.event r).answer? ∧
      (g.shifted d).after (r.shifted d) = (g.after r).shifted d := by
  have hstep : (g.shifted d).control.step (r.shifted d) = (g.control.step r).shifted d :=
    Control.step_shifted (c := g.control) r
  have hcalls : Dropper.callAll false
      (((g.shifted d).control.step (r.shifted d)).calls (r.shifted d)) (g.shifted d).dropper =
        Dropper.callAll false ((g.control.step r).calls r) g.dropper := by
    rw [hstep, Control.calls_shifted]
    rfl
  cases h : Dropper.callAll false ((g.control.step r).calls r) g.dropper with
  | ok verdict dropper =>
    have hplain := perform_of_ok h
    have hmoved := perform_of_ok (hcalls.trans h)
    have hdone : (g.shifted d).completed (r.shifted d) verdict dropper =
        (g.completed r verdict dropper).shifted d := by
      rw [completed, hstep]
      rfl
    rw [hdone, answer_shifted] at hmoved
    rw [event_of_ok hmoved, after_of_ok hmoved, event_of_ok hplain, after_of_ok hplain]
    exact ⟨rfl, rfl⟩
  | error e dropper =>
    have hplain := perform_of_error h
    have hmoved := perform_of_error (hcalls.trans h)
    rw [event_of_error hmoved, after_of_error hmoved, event_of_error hplain,
      after_of_error hplain, hstep]
    exact ⟨rfl, rfl⟩

private theorem afterAll_shifted (g : Governor σ) (requests : List Request) :
    (g.shifted d).afterAll (requests.map (·.shifted d)) = (g.afterAll requests).shifted d := by
  induction requests generalizing g with
  | nil => rfl
  | cons r rest ih =>
    rw [List.map_cons, afterAll_cons, (event_after_shifted g r).2, ih, afterAll_cons]

private theorem log_shifted (g : Governor σ) (requests : List Request) :
    ((g.shifted d).log (requests.map (·.shifted d))).map (·.answer?) =
      (g.log requests).map (·.answer?) := by
  induction requests generalizing g with
  | nil => rfl
  | cons r rest ih =>
    obtain ⟨hanswer, hafter⟩ := event_after_shifted (d := d) g r
    rw [List.map_cons, log, log, hafter, List.map_append, List.map_append, ih, List.map_singleton,
      List.map_singleton, hanswer]

variable {config : EstimatorConfig} {dropper : σ} {fresh : Governor σ}

private theorem shifted_of_create (hcreate : create config dropper = .ok fresh) :
    fresh.shifted d = fresh := by
  obtain ⟨-, hcontrol⟩ := control_of_create hcreate
  have hestimator : fresh.estimator = .ofConfig config := by
    rw [FrameRateEstimator.ofConfig_eq_ofLog]
    exact congrArg Control.estimator hcontrol
  rw [shifted, hestimator, FrameRateEstimator.shifted_ofConfig, ← hestimator]

/-- Move all readings of the clock by one offset. Over any dropper whatever, and whichever of its
calls are interrupted, every request is answered the same, and after any number of them the reports,
the calls made and the droppers are the same. What a governor keeps differs in the times of its
arrivals alone. -/
theorem answers_at_any_offset {inner : σ} {faults : List Nat} {fresh : Governor (Recorder σ)}
    (hcreate : create config (Recorder.create inner faults) = .ok fresh) (d : Int)
    (requests : List Request) :
    let moved := requests.map (·.shifted d)
    (fresh.log moved).map (·.answer?) = (fresh.log requests).map (·.answer?) ∧
      ∀ n, let g := fresh.afterAll (requests.take n)
        let h := fresh.afterAll (moved.take n)
        h.report = g.report ∧ h.dropper.calls = g.dropper.calls ∧
          h.dropper.inner = g.dropper.inner ∧ h = g.shifted d := by
  intro moved
  have hfresh : fresh.shifted d = fresh := shifted_of_create hcreate
  constructor
  · have hlog := log_shifted (d := d) fresh requests
    rwa [hfresh] at hlog
  · intro n g h
    have hafter : h = g.shifted d := by
      have hrun := afterAll_shifted (d := d) fresh (requests.take n)
      rwa [hfresh, List.map_take] at hrun
    rw [hafter]
    exact ⟨rfl, rfl, rfl, rfl⟩

/-- A capture at time zero and the same one more than fifty years later, with the second leak
interrupted in both. -/
theorem answers_at_any_offset_epoch :
    let capture (start : Int) : List Request := [⟨start, .configure ⟨0, 300000, 30⟩⟩,
      ⟨start, .shouldDrop⟩, ⟨start + 40, .shouldDrop⟩, ⟨start + 40, .recordFrame .delta 150000⟩,
      ⟨start + 80, .shouldDrop⟩, ⟨start + 100, .measureFrameRate⟩]
    ∃ fresh : Governor (Recorder LeakyBucket),
      create .standard (Recorder.create (LeakyBucket.create .standard) [6]) = .ok fresh ∧
      (fresh.log (capture 1700000000000)).map (·.answer?) = [some (.frameRate 25),
        some (.verdict true), some (.accounting .recorded), none, some (.verdict false),
        some .done] ∧
      (fresh.afterAll (capture 1700000000000)).dropper.inner.debt = 1188 := by
  intro capture
  obtain ⟨fresh, hcreate⟩ : ∃ fresh : Governor (Recorder LeakyBucket),
    create .standard (Recorder.create (LeakyBucket.create .standard) [6]) = .ok fresh := ⟨_, rfl⟩
  obtain ⟨hanswers, hstates⟩ := answers_at_any_offset hcreate 1700000000000 (capture 0)
  obtain ⟨-, -, hbucket, -⟩ := hstates 6
  have hmoved : (capture 0).map (·.shifted 1700000000000) = capture 1700000000000 := by decide
  rw [hmoved] at hanswers hbucket
  refine ⟨fresh, hcreate, hanswers.trans ?_, (congrArg LeakyBucket.debt hbucket).trans ?_⟩
  all_goals
    cases hcreate
    decide +kernel

end Governor

end RateGovernor
