import Mathlib
import RateGovernor.Proofs.FrameRate.ArrivalLog
import RateGovernor.Proofs.Governor.Step

/-!
# The control of a governor as a function of its history

A history is a list of requests, newest first. What a governor has in force (its parameters, its
target, the arrivals it has seen, its last estimate, and whether dropping is on) can be read off the
history, whatever the dropper and whether or not a request was interrupted.
-/

namespace RateGovernor

theorem EncodingParameters.clamped_zero : zero.clamped = zero := by
  decide

theorem EncodingParameters.toNat_cap (p : EncodingParameters) (n : UInt32) :
    (p.cap n).toNat =
      if 0 < p.maxBitrate.toInt then min n.toNat p.maxBitrate.toInt.toNat else n.toNat := by
  have hiff : 0 < p.maxBitrate ↔ 0 < p.maxBitrate.toInt := by
    rw [Int32.lt_iff_toInt_lt, Int32.toInt_zero]
  rw [cap]
  by_cases hpos : 0 < p.maxBitrate
  · have hceiling : p.maxBitrate.toUInt32.toNat = p.maxBitrate.toInt.toNat :=
      Int32.toNat_toUInt32_of_le (Int32.le_of_lt hpos)
    rw [if_pos hpos, if_pos (hiff.mp hpos), ← hceiling]
    rw [Std.min_eq_if]
    by_cases hle : n ≤ p.maxBitrate.toUInt32
    · rw [if_pos hle, Nat.min_eq_left (UInt32.le_iff_toNat_le.mp hle)]
    · rw [if_neg hle, Nat.min_eq_right (Nat.le_of_not_le (mt UInt32.le_iff_toNat_le.mpr hle))]
  · rw [if_neg hpos, if_neg (mt hiff.mpr hpos)]

/-- What a request does to the estimator. -/
def Request.measurement? (r : Request) : Option Measurement :=
  match r.operation with
  | .configure _ | .reset => some .reset
  | .shouldDrop => some (.update r.now)
  | .measureFrameRate => some (.estimate r.now)
  | _ => none

def configured : List Request → EncodingParameters
  | [] => .zero
  | r :: past =>
    match r.operation with
    | .configure p => p.clamped
    | .reset => .zero
    | _ => configured past

/-- The target that the last configuration or network bitrate set. -/
def targetInForce : List Request → UInt32
  | [] => 0
  | r :: past =>
    match r.operation with
    | .configure p => p.targetBitrate
    | .reset => 0
    | .updateTarget n => (configured past).cap n
    | _ => targetInForce past

/-- Whether dropping was switched on last; it is at first. -/
def switchedOn : List Request → Bool
  | [] => true
  | r :: past =>
    match r.operation with
    | .setDropping enabled => enabled
    | _ => switchedOn past

/-- The times of the frames captured since the last configuration. -/
def captureTimes (past : List Request) : List Int :=
  loggedTimes (past.filterMap Request.measurement?)

/-- The frame rate measured last since the last configuration. -/
def measuredRate (config : EstimatorConfig) (past : List Request) : Single :=
  lastEstimate config (past.filterMap Request.measurement?)

namespace Control

def ofHistory (config : EstimatorConfig) (past : List Request) : Control where
  parameters := configured past
  target := targetInForce past
  estimator := .ofLog config (captureTimes past) (measuredRate config past)
  droppingEnabled := switchedOn past

theorem step_ofHistory {config : EstimatorConfig} (hc : 3 ≤ config.historySize.toNat)
    (past : List Request) (r : Request) :
    (ofHistory config past).step r = ofHistory config (r :: past) := by
  obtain ⟨now, operation⟩ := r
  cases operation with
  | configure p =>
    exact Control.ext rfl rfl FrameRateEstimator.reset_ofLog rfl
  | reset =>
    exact Control.ext EncodingParameters.clamped_zero rfl FrameRateEstimator.reset_ofLog rfl
  | measureFrameRate =>
    exact Control.ext rfl rfl (FrameRateEstimator.estimate_ofLog hc now) rfl
  | shouldDrop =>
    exact Control.ext rfl rfl (FrameRateEstimator.update_ofLog hc now) rfl
  | updateTarget n => rfl
  | recordFrame kind size => rfl
  | setDropping enabled => rfl
  | readTarget => rfl
  | readParameters => rfl
  | readReport => rfl

theorem foldl_step_ofHistory {config : EstimatorConfig} (hc : 3 ≤ config.historySize.toNat)
    (past requests : List Request) :
    requests.foldl step (ofHistory config past) = ofHistory config (requests.reverse ++ past) := by
  induction requests generalizing past with
  | nil => rfl
  | cons r rest ih =>
    rw [List.foldl_cons, step_ofHistory hc, ih, List.reverse_cons, List.append_assoc]
    rfl

end Control

namespace Governor

variable {σ : Type} {config : EstimatorConfig} {dropper : σ} {fresh : Governor σ}

/-- A governor whose construction has not yet told the dropper anything. -/
def unconfigured (config : EstimatorConfig) (dropper : σ) : Governor σ :=
  ⟨.zero, 0, .ofConfig config, dropper, true, .zero⟩

theorem control_unconfigured (config : EstimatorConfig) (dropper : σ) :
    (unconfigured config dropper).control = Control.ofHistory config [] :=
  Control.ext rfl rfl (FrameRateEstimator.ofConfig_eq_ofLog config) rfl

variable [Dropper σ]

theorem create_of_configure_ok {g : Governor σ} (hvalid : config.validate = .ok ())
    (h : configure .zero (unconfigured config dropper) = .ok () g) :
    create config dropper = .ok g := by
  rw [unconfigured] at h
  rw [create, FrameRateEstimator.create_eq_ok hvalid]
  simp only [Except.mapError, bind, Except.bind, h]
  rfl

theorem create_of_configure_error {e : Interruption} {g : Governor σ}
    (hvalid : config.validate = .ok ())
    (h : configure .zero (unconfigured config dropper) = .error e g) :
    create config dropper = .error (.interrupted e) := by
  rw [unconfigured] at h
  rw [create, FrameRateEstimator.create_eq_ok hvalid]
  simp only [Except.mapError, bind, Except.bind, h]
  rfl

theorem create_of_invalid {e : ConfigError} (hinvalid : config.validate = .error e) :
    create config dropper = .error (.invalidConfig e) := by
  rw [create, FrameRateEstimator.create, hinvalid]
  rfl

/-- A governor is built by validating its settings and then resetting it. -/
theorem create_eq_ok_iff :
    create config dropper = .ok fresh ↔
      config.validate = .ok () ∧
        perform 0 .reset (unconfigured config dropper) = .ok .done fresh := by
  have hperform : perform 0 .reset (unconfigured config dropper) =
      (configure .zero >>= fun _ => pure .done) (unconfigured config dropper) := rfl
  rw [hperform]
  cases hvalid : config.validate with
  | error e =>
    rw [create_of_invalid hvalid]
    simp
  | ok u =>
    cases hrun : configure .zero (unconfigured config dropper) with
    | ok u g =>
      rw [create_of_configure_ok hvalid hrun, bind_of_ok hrun]
      simp [pure, EStateM.pure]
    | error e g =>
      rw [create_of_configure_error hvalid hrun, bind_of_error hrun]
      simp

theorem control_of_create (h : create config dropper = .ok fresh) :
    3 ≤ config.historySize.toNat ∧ fresh.control = Control.ofHistory config [] := by
  obtain ⟨hvalid, hreset⟩ := create_eq_ok_iff.mp h
  have hc := (EstimatorConfig.validate_eq_ok_iff.mp hvalid).1
  obtain ⟨verdict, -, hfresh, -⟩ := callAll_of_perform (r := ⟨0, .reset⟩) hreset
  refine ⟨hc, ?_⟩
  rw [hfresh, completed, control_assemble, control_unconfigured, Control.step_ofHistory hc]
  rfl

/-- After any run of a governor, its control is what the history says. -/
theorem control_afterAll_create (h : create config dropper = .ok fresh) (requests : List Request) :
    (fresh.afterAll requests).control = Control.ofHistory config requests.reverse := by
  obtain ⟨hc, hfresh⟩ := control_of_create h
  rw [control_afterAll, hfresh, Control.foldl_step_ofHistory hc, List.append_nil]

end Governor

end RateGovernor
