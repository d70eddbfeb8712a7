import Mathlib
import RateGovernor.Proofs.FrameRate.Window
import RateGovernor.Proofs.Governor.History

/-!
# Input that stalls

Without a new frame a measured rate does not come back: arrivals only leave the window, and once the
newest one is too old itself there is no rate. A governor then measures no frame rate until it is
asked about the next frame, whatever else it does in between.
-/

namespace RateGovernor

namespace FrameRateEstimator

variable {config : EstimatorConfig} {measurements idle : List Measurement} {last now now' : Int}
  {earlier : List Int}

private theorem exists_run_idle (hc : 3 ≤ config.historySize.toNat)
    (hidle : ∀ m ∈ idle, m.isArrival = false) (measurements : List Measurement) :
    ∃ times rate, ((ofConfig config).run measurements).run idle = ofLog config times rate ∧
      (times = loggedTimes measurements.reverse ∨ times = []) := by
  have hrun := run_ofConfig hc (measurements ++ idle)
  rw [run, List.foldl_append, List.reverse_append] at hrun
  refine ⟨_, _, hrun, ?_⟩
  apply loggedTimes_append
  intro m hm
  exact hidle m (List.mem_reverse.mp hm)

/-- As time passes without an arrival, no more intervals count than before, a rate that is zero
stays zero, and it is zero once the newest arrival is too old. -/
private theorem estimate_decays (hc : 3 ≤ config.historySize.toNat)
    (hlog : loggedTimes measurements.reverse = last :: earlier)
    (hsorted : (last :: earlier).SortedGE) (hlast : last ≤ now) (hle : now ≤ now')
    (hidle : ∀ m ∈ idle, m.isArrival = false) :
    let e := (ofConfig config).run measurements
    let later := (e.estimate now).run idle
    (later.counted now').length ≤ (e.counted now).length ∧
      ((e.estimate now).rate.isZero = true → (later.estimate now').rate = 0) ∧
      (config.maxAge.toInt < now - last → (e.estimate now).rate = 0) := by
  intro e later
  have hcapacity : config.historySize.toNat ≤ 2 ^ 64 := config.historySize.toNat_lt.le
  have hage : config.maxAge.toInt ≤ 2 ^ 64 := config.maxAge.toInt_lt.le.trans (by norm_num)
  have hrun : e = ofLog config (last :: earlier) (lastEstimate config measurements.reverse) := by
    rw [← hlog]
    exact run_ofConfig hc measurements
  have hidle' : ∀ m ∈ .estimate now :: idle, m.isArrival = false :=
    List.forall_mem_cons.mpr ⟨rfl, hidle⟩
  obtain ⟨times, rate, hlater, htimes⟩ := exists_run_idle hc hidle' measurements
  have hlater' : later = ofLog config times rate := hlater
  rw [hlog] at htimes
  rw [hrun, hlater', counted_ofLog hc, counted_ofLog hc, estimate_ofLog hc, estimate_ofLog hc]
  refine ⟨?count, ?zero, loggedRate_eq_zero_of_stalled hsorted⟩
  case count =>
    obtain rfl | rfl := htimes
    · exact (countedTimes_prefix_of_le hle).length_le
    · simp [countedTimes]
  case zero =>
    intro hzero
    obtain rfl | rfl := htimes
    · exact loggedRate_eq_zero_of_le hsorted hcapacity hage hlast hle hzero
    · rfl

end FrameRateEstimator

private theorem captureTimes_append {idle : List Request}
    (hidle : ∀ r ∈ idle, r.operation ≠ .shouldDrop) (past : List Request) :
    captureTimes (idle ++ past) = captureTimes past ∨ captureTimes (idle ++ past) = [] := by
  rw [captureTimes, List.filterMap_append]
  apply loggedTimes_append
  intro m hm
  obtain ⟨⟨now, operation⟩, hr, hmeasured⟩ := List.mem_filterMap.mp hm
  have hasked := hidle _ hr
  cases operation with
  | shouldDrop => exact absurd rfl hasked
  | configure p =>
    cases hmeasured
    rfl
  | reset =>
    cases hmeasured
    rfl
  | measureFrameRate =>
    cases hmeasured
    rfl
  | _ => cases hmeasured

namespace Governor

variable {σ : Type} [Dropper σ] {config : EstimatorConfig} {dropper : σ} {fresh : Governor σ}

private theorem perform_measureFrameRate (hcreate : create config dropper = .ok fresh)
    (requests : List Request) (now : Int) :
    ∃ g', perform now .measureFrameRate (fresh.afterAll requests) =
      .ok (.frameRate (FrameRateEstimator.roundRate (loggedRate config.historySize.toNat
        config.maxAge.toInt now (captureTimes requests.reverse)))) g' := by
  have hc := (control_of_create hcreate).1
  have hcontrol := control_afterAll_create hcreate requests
  have hestimator : (fresh.afterAll requests).estimator =
      .ofLog config (captureTimes requests.reverse) (measuredRate config requests.reverse) :=
    congrArg Control.estimator hcontrol
  have hperform : perform now .measureFrameRate (fresh.afterAll requests) = .ok
      (.frameRate ((fresh.afterAll requests).estimator.estimate now).roundedRate)
      ((fresh.afterAll requests).completed ⟨now, .measureFrameRate⟩ false
        (fresh.afterAll requests).dropper) :=
    perform_of_ok (r := ⟨now, .measureFrameRate⟩) rfl
  rw [hestimator, FrameRateEstimator.estimate_ofLog hc] at hperform
  exact ⟨_, hperform⟩

private theorem measures_nothing_of_stalled (hcreate : create config dropper = .ok fresh)
    {past idle : List Request} {last now : Int} {earlier : List Int}
    (hlog : captureTimes past.reverse = last :: earlier) (hsorted : (last :: earlier).SortedGE)
    (hidle : ∀ r ∈ idle, r.operation ≠ .shouldDrop) (hstalled : config.maxAge.toInt < now - last) :
    ∃ g', perform now .measureFrameRate (fresh.afterAll (past ++ idle)) =
      .ok (.frameRate 0) g' := by
  obtain ⟨g', hperform⟩ := perform_measureFrameRate hcreate (past ++ idle) now
  have hnone : loggedRate config.historySize.toNat config.maxAge.toInt now
      (captureTimes (past ++ idle).reverse) = 0 := by
    rw [List.reverse_append]
    have hidle' : ∀ r ∈ idle.reverse, r.operation ≠ .shouldDrop := by
      intro r hr
      exact hidle r (List.mem_reverse.mp hr)
    obtain hsame | hforgotten := captureTimes_append hidle' past.reverse
    · rw [hsame, hlog]
      exact loggedRate_eq_zero_of_stalled hsorted hstalled
    · rw [hforgotten]
      rfl
  have hround : FrameRateEstimator.roundRate 0 = 0 := by decide +kernel
  rw [hnone, hround] at hperform
  exact ⟨g', hperform⟩

/-- Let an estimator with valid settings have logged times that do not go back. At two times from
the newest one on, without an arrival between them, no more intervals count at the later one than at
the earlier; a rate that is zero at the earlier one is zero at the later; and once the newest
arrival is older than the greatest age, the rate is zero. So a governor, over any dropper and
whether or not calls to it were interrupted, measures a frame rate of zero from then on until it is
asked about the next frame. -/
theorem stalled_input_decays (hsize : 3 ≤ config.historySize.toNat)
    (hage : 0 < config.maxAge.toInt) :
    (∃ fresh, FrameRateEstimator.create config = .ok fresh ∧
      ∀ measurements last earlier, loggedTimes measurements.reverse = last :: earlier →
        (last :: earlier).SortedGE → ∀ now now', last ≤ now → now ≤ now' →
        ∀ idle, (∀ m ∈ idle, m.isArrival = false) →
          let e := fresh.run measurements
          let later := (e.estimate now).run idle
          (later.counted now').length ≤ (e.counted now).length ∧
            ((e.estimate now).rate.isZero = true → (later.estimate now').rate = 0) ∧
            (config.maxAge.toInt < now - last → (e.estimate now).rate = 0)) ∧
    ∀ (dropper : σ) fresh, create config dropper = .ok fresh →
      ∀ past last earlier, captureTimes past.reverse = last :: earlier →
        (last :: earlier).SortedGE → ∀ idle, (∀ r ∈ idle, r.operation ≠ .shouldDrop) →
        ∀ now, config.maxAge.toInt < now - last →
          ∃ g', perform now .measureFrameRate (fresh.afterAll (past ++ idle)) =
            .ok (.frameRate 0) g' := by
  have hvalid := EstimatorConfig.validate_eq_ok_iff.mpr ⟨hsize, hage⟩
  constructor
  · refine ⟨.ofConfig config, FrameRateEstimator.create_eq_ok hvalid, ?_⟩
    intro measurements last earlier hlog hsorted now now' hlast hle idle hidle
    exact FrameRateEstimator.estimate_decays hsize hlog hsorted hlast hle hidle
  · intro dropper fresh hcreate past last earlier hlog hsorted idle hidle now hstalled
    exact measures_nothing_of_stalled hcreate hlog hsorted hidle hstalled

/-- A rate that rises while its arrivals leave the window goes to zero all the same, and stays there
through other requests, an interrupted one among them. -/
theorem stalled_input_decays_rising :
    let past : List Request := [⟨0, .configure ⟨0, 300000, 30⟩⟩, ⟨0, .shouldDrop⟩,
      ⟨50, .shouldDrop⟩, ⟨60, .shouldDrop⟩]
    let idle : List Request := [⟨170, .recordFrame .key 900⟩, ⟨180, .updateTarget 200000⟩,
      ⟨190, .setDropping false⟩]
    3 ≤ (4 : UInt64).toNat ∧ 0 < (100 : Int64).toInt ∧
      (∃ fresh, FrameRateEstimator.create ⟨4, 100⟩ = .ok fresh ∧
        let e := fresh.run [.update 0, .update 50, .update 60]
        (e.estimate 90).rate < (e.estimate 120).rate ∧
        (((e.estimate 90).run [.estimate 100]).counted 120).length ≤ (e.counted 90).length ∧
        (e.estimate 161).rate = 0 ∧
        (((e.estimate 161).run [.estimate 90]).estimate 200).rate = 0) ∧
      ∃ fresh g' : Governor (Recorder Scripted),
        create ⟨4, 100⟩ (Recorder.create (Scripted.create [true]) [10]) = .ok fresh ∧
        perform 200 .measureFrameRate (fresh.afterAll (past ++ idle)) = .ok (.frameRate 0) g' := by
  intro past idle
  have hage : 0 < (100 : Int64).toInt := by decide
  have hlog : loggedTimes [.update 60, .update 50, .update 0] = [60, 50, 0] := rfl
  have hsorted : [(60 : Int), 50, 0].SortedGE := by
    rw [List.sortedGE_iff_pairwise]
    decide
  obtain ⟨⟨fresh, hfresh, hestimates⟩, hmeasures⟩ :=
    @stalled_input_decays (Recorder Scripted) _ ⟨4, 100⟩ (by decide) hage
  obtain ⟨hfewer, -, -⟩ := hestimates [.update 0, .update 50, .update 60] 60 [50, 0] hlog hsorted
    90 120 (by decide) (by decide) [.estimate 100] (by simp [Measurement.isArrival])
  obtain ⟨-, hstays, hzero⟩ := hestimates [.update 0, .update 50, .update 60] 60 [50, 0] hlog
    hsorted 161 200 (by decide) (by decide) [.estimate 90] (by simp [Measurement.isArrival])
  have hnone := hzero (by decide)
  obtain ⟨governor, hcreate⟩ : ∃ governor, create ⟨4, 100⟩
    (Recorder.create (Scripted.create [true]) [10]) = .ok governor := ⟨_, rfl⟩
  obtain ⟨g', hmeasured⟩ := hmeasures _ governor hcreate past 60 [50, 0] rfl hsorted idle
    (by simp [idle]) 200 (by decide)
  refine ⟨by decide, hage, ⟨fresh, hfresh, ?rises, hfewer, hnone, hstays ?zero⟩, governor, g',
    hcreate, hmeasured⟩
  case rises =>
    cases hfresh
    decide +kernel
  case zero =>
    rw [hnone]
    decide +kernel

end Governor

end RateGovernor
