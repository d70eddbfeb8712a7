import Mathlib
import RateGovernor.Proofs.Dropper.Debt
import RateGovernor.Proofs.Dropper.Faults
import RateGovernor.Proofs.FrameRate.HalfUp
import RateGovernor.Proofs.FrameRate.Range
import RateGovernor.Proofs.Governor.CallHistory

/-!
# The rates that a governor shows and passes on

A governor shows a measured and a configured frame rate and passes one of them on to its dropper,
beside a bitrate in kilobits. None of them is ever a NaN or below zero, whatever it is configured
with, in whatever order the times come, and whether or not calls are interrupted. Whole frames are
those of the rate measured last, and with a window of two seconds or less the dropper drains
whenever there is one.
-/

namespace RateGovernor

open Binary

section History

variable {config : EstimatorConfig} {bitrate frameRate : Single}

private theorem nonneg_configured (past : List Request) : 0 ≤ (configured past).frameRate := by
  induction past with
  | nil => exact (within_zero 0).zero_le
  | cons r past ih =>
    obtain ⟨now, operation⟩ := r
    cases operation with
    | configure p => exact nonneg_positivePart p.frameRate
    | reset => exact (within_zero 0).zero_le
    | _ => exact ih

private theorem nonneg_frameRateInForce (config : EstimatorConfig) (past : List Request) :
    0 ≤ frameRateInForce config past := by
  rw [frameRateInForce]
  split
  · exact (measuredRate_within config past).zero_le
  · rw [heldToZero_eq]
    exact nonneg_positivePart _

private theorem of_setRates_mem_callsOn {past : List Request} {r : Request}
    (h : .perform (.setRates bitrate frameRate) ∈ callsOn config past r) :
    (∃ n, bitrate = kilobitsPerSecond n) ∧ 0 ≤ frameRate := by
  have hrestart : ∀ p, .perform (.setRates bitrate frameRate) ∈ restartCalls p →
      (∃ n, bitrate = kilobitsPerSecond n) ∧ 0 ≤ frameRate := by
    intro p hp
    obtain ⟨rfl, rfl⟩ : bitrate = kilobitsPerSecond p.targetBitrate ∧
      frameRate = p.clamped.frameRate := by simpa [restartCalls_eq] using hp
    exact ⟨⟨_, rfl⟩, nonneg_positivePart _⟩
  obtain ⟨now, operation⟩ := r
  cases operation with
  | configure p => exact hrestart p h
  | reset => exact hrestart ⟨0, 0, 0⟩ h
  | updateTarget n =>
    obtain ⟨rfl, rfl⟩ : bitrate = kilobitsPerSecond ((configured past).cap n) ∧
      frameRate = frameRateInForce config past := by
        simpa [callsOn, kilobitsPerSecond_cap] using h
    exact ⟨⟨_, rfl⟩, nonneg_frameRateInForce config past⟩
  | shouldDrop => cases hon : switchedOn past <;> simp [callsOn, hon] at h
  | recordFrame kind size => by_cases hsize : size = 0 <;> simp [callsOn, hsize] at h
  | setDropping enabled => simp [callsOn] at h
  | _ => cases h

private theorem of_setRates_mem_callsOf {past : List Request}
    (h : .perform (.setRates bitrate frameRate) ∈ callsOf config past) :
    (∃ n, bitrate = kilobitsPerSecond n) ∧ 0 ≤ frameRate := by
  induction past with
  | nil =>
    have hreset : .perform (.setRates bitrate frameRate) ∈ callsOn config [] ⟨0, .reset⟩ := h
    exact of_setRates_mem_callsOn hreset
  | cons r past ih =>
    rcases List.mem_append.mp h with hearlier | hnew
    · exact ih hearlier
    · exact of_setRates_mem_callsOn hnew

end History

section Order

private theorem filterMap_measurement_sublist (requests : List Request) :
    ((requests.filterMap Request.measurement?).filterMap Measurement.time?).Sublist
      (requests.map Request.now) := by
  induction requests with
  | nil => exact .slnil
  | cons r rest ih =>
    obtain ⟨now, operation⟩ := r
    cases operation with
    | shouldDrop => exact ih.cons_cons now
    | measureFrameRate => exact ih.cons_cons now
    | _ => exact ih.cons now

private theorem measuredRate_inRange (config : EstimatorConfig) {requests : List Request}
    (hordered : (requests.map Request.now).SortedLE) :
    RateInRange config.historySize.toNat config.maxAge.toInt
      (measuredRate config requests.reverse) := by
  apply lastEstimate_inRange
  have hsorted := hordered.reverse
  rw [← List.map_reverse] at hsorted
  exact (hsorted.pairwise.sublist (filterMap_measurement_sublist _)).sortedGE

end Order

namespace Governor

variable {σ : Type} [Dropper σ] {config : EstimatorConfig} {inner : σ} {faults : List ℕ}
  {fresh : Governor (Recorder σ)}

private theorem exists_made (g : Governor (Recorder σ)) (r : Request) :
    ∃ made, made <+: (g.control.step r).calls r ∧
      made.head? = ((g.control.step r).calls r).head? ∧
      (g.after r).dropper.calls = g.dropper.calls ++ made := by
  obtain ⟨made, hmost, hhead, hmade⟩ :=
    Recorder.calls_of_callAll false ((g.control.step r).calls r) g.dropper
  refine ⟨made, hmost, hhead, ?_⟩
  cases hcalls : Dropper.callAll false ((g.control.step r).calls r) g.dropper with
  | ok verdict dropper =>
    rw [hcalls] at hmade
    rw [after, perform_of_ok hcalls]
    exact hmade
  | error e dropper =>
    rw [hcalls] at hmade
    rw [after, perform_of_error hcalls]
    exact hmade

/-- Whatever is interrupted, the calls that are made are among those of the history. -/
private theorem calls_sublist_callsOf
    (hcreate : create config (Recorder.create inner faults) = .ok fresh) (requests : List Request) :
    (fresh.afterAll requests).dropper.calls.Sublist (callsOf config requests.reverse) := by
  have hc := (control_of_create hcreate).1
  induction requests using List.reverseRecOn with
  | nil =>
    obtain ⟨-, hreset⟩ := create_eq_ok_iff.mp hcreate
    obtain ⟨made, hmost, -, hmade⟩ :=
      exists_made (unconfigured config (Recorder.create inner faults)) ⟨0, .reset⟩
    rw [after_of_ok (r := ⟨0, .reset⟩) hreset] at hmade
    rw [control_unconfigured, Control.step_ofHistory hc, calls_ofHistory_cons] at hmost
    change fresh.dropper.calls.Sublist _
    rw [hmade]
    exact hmost.sublist
  | append_singleton earlier r ih =>
    obtain ⟨made, hmost, -, hmade⟩ := exists_made (fresh.afterAll earlier) r
    rw [control_afterAll_create hcreate, Control.step_ofHistory hc, calls_ofHistory_cons] at hmost
    rw [afterAll_append, List.reverse_append, List.reverse_singleton, List.singleton_append,
      callsOf]
    change ((fresh.afterAll earlier).after r).dropper.calls.Sublist _
    rw [hmade]
    exact ih.append hmost.sublist

private theorem rate_afterAll {g : Governor σ} {dropper : σ}
    (hcreate : create config dropper = .ok g) (requests : List Request) :
    (g.afterAll requests).estimator.rate = measuredRate config requests.reverse :=
  congrArg (fun c => c.estimator.rate) (control_afterAll_create hcreate requests)

private theorem rate_after {g : Governor σ} {dropper : σ} (hcreate : create config dropper = .ok g)
    (requests : List Request) (r : Request) :
    ((g.afterAll requests).after r).estimator.rate =
      measuredRate config (requests ++ [r]).reverse := by
  rw [← rate_afterAll hcreate, afterAll_append]
  rfl

private theorem parameters_afterAll {g : Governor σ} {dropper : σ}
    (hcreate : create config dropper = .ok g) (requests : List Request) :
    (g.afterAll requests).parameters = configured requests.reverse :=
  congrArg Control.parameters (control_afterAll_create hcreate requests)

/-- Over every dropper, whichever calls are interrupted, after any requests with any frame rates at
any times: no call told the dropper a bitrate or a frame rate that is a NaN or below zero, every
bitrate was finite, and the frame rates that a governor shows are not NaNs nor below zero, the
measured one being finite. -/
theorem rates_never_negative_or_nan
    (hcreate : create config (Recorder.create inner faults) = .ok fresh)
    (requests : List Request) :
    let g := fresh.afterAll requests
    (∀ bitrate frameRate, .perform (.setRates bitrate frameRate) ∈ g.dropper.calls →
      bitrate.isFinite ∧ 0 ≤ bitrate ∧ 0 ≤ frameRate) ∧
    ∀ now,
      (∃ p, perform now .readParameters g = .ok (.parameters p) g ∧ 0 ≤ p.frameRate) ∧
      ∃ shown, perform now .readReport g = .ok (.report shown) g ∧
        0 ≤ shown.configuredFrameRate ∧ shown.inputFrameRate.isFinite ∧
        0 ≤ shown.inputFrameRate := by
  intro g
  have hparameters : 0 ≤ g.parameters.frameRate := by
    rw [parameters_afterAll hcreate]
    exact nonneg_configured _
  have hrate : g.estimator.rate.Within (2 ^ 74) := by
    rw [rate_afterAll hcreate]
    exact measuredRate_within config _
  constructor
  · intro bitrate frameRate hmade
    obtain ⟨⟨n, rfl⟩, hframeRate⟩ :=
      of_setRates_mem_callsOf ((calls_sublist_callsOf hcreate requests).subset hmade)
    have hbitrate := (isRounded_kilobitsPerSecond n).2
    exact ⟨hbitrate.isFinite, hbitrate.zero_le, hframeRate⟩
  · intro now
    exact ⟨⟨g.parameters, rfl, hparameters⟩, g.report, rfl, hparameters, hrate.isFinite,
      hrate.zero_le⟩

/-- A rate that is a NaN or below zero is taken as zero, and an infinite one is passed on, though
times go back and a restart is interrupted between its calls. -/
theorem rates_never_negative_or_nan_backwards :
    let requests : List Request :=
      [⟨500, .configure ⟨0, 300000, .nan⟩⟩, ⟨500, .shouldDrop⟩, ⟨100, .shouldDrop⟩,
        ⟨80, .configure ⟨0, 500000, .infinite true⟩⟩, ⟨90, .configure ⟨0, 800000, .infinite false⟩⟩,
        ⟨40, .updateTarget 900000⟩]
    ∃ fresh : Governor (Recorder Scripted),
      create ⟨3, 2000⟩ (Recorder.create (Scripted.create [false]) [9]) = .ok fresh ∧
      let g := fresh.afterAll requests
      .perform (.setRates 300 0) ∈ g.dropper.calls ∧
      .perform (.setRates 500 0) ∈ g.dropper.calls ∧
      .perform (.setRates 900 (.infinite false)) ∈ g.dropper.calls ∧
      (900 : Single).isFinite ∧ 0 ≤ (900 : Single) ∧ (0 : Single) ≤ .infinite false ∧
      (∃ p, perform 0 .readParameters g = .ok (.parameters p) g ∧ 0 ≤ p.frameRate) ∧
      ∃ shown, perform 0 .readReport g = .ok (.report shown) g ∧
        0 ≤ shown.configuredFrameRate ∧ shown.inputFrameRate.isFinite := by
  intro requests
  obtain ⟨fresh, hcreate⟩ : ∃ fresh : Governor (Recorder Scripted),
    create ⟨3, 2000⟩ (Recorder.create (Scripted.create [false]) [9]) = .ok fresh := ⟨_, rfl⟩
  obtain ⟨hrates, hanswers⟩ := rates_never_negative_or_nan hcreate requests
  obtain ⟨hparameters, shown, hreport, hconfigured, hmeasured, -⟩ := hanswers 0
  have hmade : ∀ call ∈ [Call.perform (.setRates 300 0), .perform (.setRates 500 0),
      .perform (.setRates 900 (.infinite false))],
      call ∈ (fresh.afterAll requests).dropper.calls := by
    cases hcreate
    decide +kernel
  simp only [List.forall_mem_cons, List.not_mem_nil, false_imp_iff, implies_true, and_true] at hmade
  obtain ⟨hnan, hnegative, hinfinite⟩ := hmade
  obtain ⟨hfinite, hnonneg, hframeRate⟩ := hrates _ _ hinfinite
  exact ⟨fresh, hcreate, hnan, hnegative, hinfinite, hfinite, hnonneg, hframeRate, hparameters,
    shown, hreport, hconfigured, hmeasured⟩

private theorem estimator_after (g : Governor σ) (r : Request) :
    (g.after r).estimator = (g.control.step r).estimator :=
  congrArg Control.estimator (control_after g r)

private theorem eq_of_leak_mem_calls {c : Control} {r : Request} {n : UInt32}
    (h : .perform (.leak n) ∈ c.calls r) : n = c.estimator.roundedRate := by
  obtain ⟨now, operation⟩ := r
  cases operation with
  | shouldDrop => cases hon : c.droppingEnabled <;> simpa [Control.calls, hon] using h
  | recordFrame kind size => by_cases hsize : size = 0 <;> simp [Control.calls, hsize] at h
  | _ => simp [Control.calls] at h

/-- A query makes the dropper drain once, whatever is interrupted. -/
private theorem exists_leak (g : Governor (Recorder σ)) (now : Int) :
    let g' := g.after ⟨now, .shouldDrop⟩
    ∃ asked, (asked = [] ∨ asked = [.shouldDrop]) ∧
      g'.dropper.calls = g.dropper.calls ++ .perform (.leak g'.estimator.roundedRate) :: asked := by
  intro g'
  obtain ⟨made, hmost, hhead, hmade⟩ := exists_made g ⟨now, .shouldDrop⟩
  have hleak : (g.control.step ⟨now, .shouldDrop⟩).calls ⟨now, .shouldDrop⟩ =
      .perform (.leak g'.estimator.roundedRate) ::
        if g.droppingEnabled then [.shouldDrop] else [] := by
    rw [estimator_after]
    rfl
  rw [hleak] at hmost hhead
  cases made with
  | nil => cases hhead
  | cons first asked =>
    cases hhead
    refine ⟨asked, ?_, hmade⟩
    have hasked := (List.prefix_cons_inj _).mp hmost
    cases hon : g.droppingEnabled with
    | false =>
      left
      simpa [hon] using hasked
    | true =>
      rw [hon, if_pos rfl, List.prefix_cons_iff] at hasked
      simpa using hasked

open FrameRateEstimator in
/-- Whole frames are a rate with its half rounded up, exactly but for the rates whose sum with a
half is rounded up to a whole number, which get one frame more. That holds of every number that is
not negative; every estimator shows such a rate after any measurements at any times; and a governor
over any dropper, whichever calls are interrupted, drains at and answers with whole frames of the
rate that it has measured last. -/
theorem whole_frames_round_half_up :
    (∀ rate : Single, rate.isFinite → 0 ≤ rate.value → RoundsHalfUp rate (roundRate rate)) ∧
    (∀ config : EstimatorConfig, config.validate = .ok () →
      ∃ fresh, FrameRateEstimator.create config = .ok fresh ∧ ∀ measurements,
        let e := fresh.run measurements
        e.rate.isFinite ∧ 0 ≤ e.rate.value ∧ RoundsHalfUp e.rate e.roundedRate) ∧
    ∀ (config : EstimatorConfig) (inner : σ) (faults : List ℕ) (fresh : Governor (Recorder σ)),
      create config (Recorder.create inner faults) = .ok fresh → ∀ requests r,
        let g := fresh.afterAll requests
        let e := (g.after r).estimator
        e.rate.isFinite ∧ 0 ≤ e.rate.value ∧ RoundsHalfUp e.rate e.roundedRate ∧
        (∃ made, (g.after r).dropper.calls = g.dropper.calls ++ made ∧
          ∀ n, .perform (.leak n) ∈ made → n = e.roundedRate) ∧
        (r.operation = .measureFrameRate →
          perform r.now r.operation g = .ok (.frameRate e.roundedRate) (g.after r)) := by
  refine ⟨fun rate => roundsHalfUp_roundRate, ?estimator, ?governor⟩
  case estimator =>
    intro config hvalid
    refine ⟨.ofConfig config, create_eq_ok hvalid, ?_⟩
    intro measurements e
    have hrate : e.rate.Within (2 ^ 74) := by
      simp only [e, rate_run (EstimatorConfig.validate_eq_ok_iff.mp hvalid).1]
      exact lastEstimate_within config _
    exact ⟨hrate.isFinite, hrate.nonneg, roundsHalfUp_roundRate hrate.isFinite hrate.nonneg⟩
  case governor =>
    intro config inner faults fresh hcreate requests r g e
    have hrate : e.rate.Within (2 ^ 74) := by
      simp only [e, g, rate_after hcreate]
      exact measuredRate_within config _
    refine ⟨hrate.isFinite, hrate.nonneg, roundsHalfUp_roundRate hrate.isFinite hrate.nonneg,
      ?_, ?_⟩
    · obtain ⟨made, hmost, -, hmade⟩ := exists_made g r
      refine ⟨made, hmade, ?_⟩
      intro n hleak
      simp only [e, estimator_after]
      exact eq_of_leak_mem_calls (hmost.subset hleak)
    · obtain ⟨now, operation⟩ := r
      rintro rfl
      rfl

open FrameRateEstimator in
/-- Two and a half frames a second are three, also where the call that drains is interrupted. -/
theorem whole_frames_round_half_up_two_and_a_half :
    let requests : List Request :=
      [⟨0, .configure ⟨0, 300000, 30⟩⟩, ⟨100, .shouldDrop⟩, ⟨500, .shouldDrop⟩]
    RoundsHalfUp (5 / 2) (roundRate (5 / 2)) ∧
      (∃ fresh, FrameRateEstimator.create ⟨3, 2000⟩ = .ok fresh ∧
        let e := fresh.run [.update 100, .update 500]
        e.rate = 5 / 2 ∧ e.roundedRate = 3 ∧ RoundsHalfUp e.rate e.roundedRate) ∧
      ∃ fresh : Governor (Recorder Scripted),
        create ⟨3, 2000⟩ (Recorder.create (Scripted.create [true]) [6]) = .ok fresh ∧
        let g := fresh.afterAll requests
        let g' := g.after ⟨600, .measureFrameRate⟩
        g.dropper.calls.getLast? = some (.perform (.leak 3)) ∧
          RoundsHalfUp g'.estimator.rate g'.estimator.roundedRate ∧
          perform 600 .measureFrameRate g = .ok (.frameRate 3) g' := by
  intro requests
  obtain ⟨hround, hestimator, hgovernor⟩ := @whole_frames_round_half_up Scripted _
  obtain ⟨fresh, hfresh, hrun⟩ := hestimator ⟨3, 2000⟩ (by decide)
  obtain ⟨-, -, hrate⟩ := hrun [.update 100, .update 500]
  obtain ⟨governor, hcreate⟩ : ∃ governor,
    create ⟨3, 2000⟩ (Recorder.create (Scripted.create [true]) [6]) = .ok governor := ⟨_, rfl⟩
  obtain ⟨-, -, hmeasured, -, hanswer⟩ :=
    hgovernor _ _ _ governor hcreate requests ⟨600, .measureFrameRate⟩
  refine ⟨hround _ (by decide +kernel) (by decide +kernel), ⟨fresh, hfresh, ?rate, ?frames, hrate⟩,
    governor, hcreate, ?leak, hmeasured, (hanswer rfl).trans ?answer⟩
  case rate =>
    cases hfresh
    decide +kernel
  case frames =>
    cases hfresh
    decide +kernel
  case leak =>
    cases hcreate
    decide +kernel
  case answer =>
    congr 2
    cases hcreate
    decide +kernel

/-- Just below half a frame a second is one frame and not none, and some input has that rate: many
frames at once, after one that the window has not lost yet. -/
theorem largest_rate_below_half_counts :
    ∃ rate : Single, rate.isFinite ∧ rate.value = 1 / 2 - 1 / 2 ^ 25 ∧
      (FrameRateEstimator.roundRate rate).toNat = 1 ∧ halfUp rate.value = 0 ∧
      ∃ fresh, FrameRateEstimator.create ⟨5595, 11186001⟩ = .ok fresh ∧
        let e := fresh.run (.update 0 :: List.replicate 5593 (.update 11186001))
        e.rate = rate ∧ e.roundedRate = 1 := by
  let rate : Single := .ofNat 5593 * 1000 / .ofInt 11186001
  have hvalue : rate.value = 1 / 2 - 1 / 2 ^ 25 := by decide +kernel
  have hround : FrameRateEstimator.roundRate rate = 1 := by decide +kernel
  have hrate := @FrameRateEstimator.rate_run_burst ⟨5595, 11186001⟩ 5592 11186001
    (by decide) (by decide) (by decide)
  refine ⟨rate, by decide +kernel, hvalue, by rw [hround]; rfl, ?_, .ofConfig _, rfl, hrate, ?_⟩
  · rw [hvalue]
    norm_num [halfUp, UInt32.size]
  · rw [FrameRateEstimator.roundedRate, hrate]
    exact hround

/-- With valid settings, and as long as times do not go back, every estimate is a number that is not
negative, and either zero or within the range of the slots and the window. If the window is two
seconds or less, only a rate of zero is no whole frame, so a governor over any dropper, whichever
calls are interrupted, makes the dropper drain at every query with a rate above zero. -/
theorem rates_in_range (hsize : 3 ≤ config.historySize.toNat) (hage : 0 < config.maxAge.toInt) :
    (∃ fresh, FrameRateEstimator.create config = .ok fresh ∧ ∀ measurements,
      (measurements.filterMap Measurement.time?).SortedLE →
        let e := fresh.run measurements
        e.rate.isFinite ∧ 0 ≤ e.rate ∧
          RateInRange config.historySize.toNat config.maxAge.toInt e.rate ∧
          (config.maxAge.toInt ≤ 2000 → (e.roundedRate = 0 ↔ e.rate = 0))) ∧
    (config.maxAge.toInt ≤ 2000 → ∀ (inner : σ) (faults : List ℕ) (fresh : Governor (Recorder σ)),
      create config (Recorder.create inner faults) = .ok fresh → ∀ requests now,
        (requests.map Request.now ++ [now]).SortedLE →
          let g := fresh.afterAll requests
          let g' := g.after ⟨now, .shouldDrop⟩
          ∃ rate asked, (asked = [] ∨ asked = [.shouldDrop]) ∧
            g'.dropper.calls = g.dropper.calls ++ .perform (.leak rate) :: asked ∧
            (rate = 0 ↔ g'.estimator.rate = 0)) := by
  constructor
  · have hvalid := EstimatorConfig.validate_eq_ok_iff.mpr ⟨hsize, hage⟩
    refine ⟨.ofConfig config, FrameRateEstimator.create_eq_ok hvalid, ?_⟩
    intro measurements hordered e
    have hrate : e.rate = lastEstimate config measurements.reverse :=
      FrameRateEstimator.rate_run hsize measurements
    have hwithin := lastEstimate_within config measurements.reverse
    have hsorted := hordered.reverse
    rw [← List.filterMap_reverse] at hsorted
    have hrange := lastEstimate_inRange config hsorted
    rw [FrameRateEstimator.roundedRate, hrate]
    exact ⟨hwithin.isFinite, hwithin.zero_le, hrange, hrange.roundRate_eq_zero_iff hwithin hage⟩
  · intro hshort inner faults fresh hcreate requests now hordered g g'
    obtain ⟨asked, hasked, hcalls⟩ := exists_leak g now
    refine ⟨_, asked, hasked, hcalls, ?_⟩
    have hrate := rate_after hcreate requests ⟨now, .shouldDrop⟩
    have hrange : RateInRange config.historySize.toNat config.maxAge.toInt g'.estimator.rate := by
      simp only [g', g, hrate]
      apply measuredRate_inRange
      rw [List.map_append]
      exact hordered
    have hwithin : g'.estimator.rate.Within (2 ^ 74) := by
      simp only [g', g, hrate]
      exact measuredRate_within config _
    exact hrange.roundRate_eq_zero_iff hwithin hage hshort

/-- One interval over the whole default window is half a frame a second, and the dropper drains. -/
theorem rates_in_range_slowest :
    3 ≤ (3 : UInt64).toNat ∧ 0 < (2000 : Int64).toInt ∧
      (∃ fresh, FrameRateEstimator.create ⟨3, 2000⟩ = .ok fresh ∧
        let e := fresh.run [.update 0, .estimate 10, .update 2000]
        e.rate = 1 / 2 ∧ RateInRange 3 2000 e.rate ∧ e.roundedRate ≠ 0) ∧
      ∃ fresh : Governor (Recorder Scripted),
        create ⟨3, 2000⟩ (Recorder.create (Scripted.create []) []) = .ok fresh ∧
        let g := fresh.afterAll [⟨0, .shouldDrop⟩]
        let g' := g.after ⟨2000, .shouldDrop⟩
        ∃ rate asked, g'.dropper.calls = g.dropper.calls ++ .perform (.leak rate) :: asked ∧
          rate ≠ 0 := by
  have hage : 0 < (2000 : Int64).toInt := by decide
  obtain ⟨⟨fresh, hfresh, hrun⟩, hgovernor⟩ :=
    @rates_in_range Scripted _ ⟨3, 2000⟩ (by decide) hage
  obtain ⟨-, -, hrange, hzero⟩ := hrun [.update 0, .estimate 10, .update 2000] (by
    rw [List.sortedLE_iff_pairwise]
    decide)
  have hrate : (fresh.run [.update 0, .estimate 10, .update 2000]).rate = 1 / 2 := by
    cases hfresh
    decide +kernel
  obtain ⟨governor, hcreate⟩ : ∃ governor,
    create ⟨3, 2000⟩ (Recorder.create (Scripted.create []) []) = .ok governor := ⟨_, rfl⟩
  obtain ⟨rate, asked, -, hcalls, hdrains⟩ := hgovernor (by decide) _ _ governor hcreate
    [⟨0, .shouldDrop⟩] 2000 (by
      rw [List.sortedLE_iff_pairwise]
      decide)
  refine ⟨by decide, hage, ⟨fresh, hfresh, hrate, hrange, ?_⟩, governor, hcreate, rate, asked,
    hcalls, ?_⟩
  · rw [ne_eq, hzero (by decide), hrate]
    decide +kernel
  · rw [ne_eq, hdrains]
    cases hcreate
    decide +kernel

end Governor

end RateGovernor
