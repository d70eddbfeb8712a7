import Mathlib
import RateGovernor.Proofs.FrameRate.Range
import RateGovernor.Proofs.Governor.History

/-!
# What the dropper is told

The calls that a governor makes can be written down from its history before any of them is made:
nothing that the dropper answers changes what it is told later. The list is written with clamps, a
ceiling and a rounding of its own, which are then shown to be the governor's. To observe the calls,
a recorder without faults is put in front of the dropper; it changes neither the answers nor the
states.
-/

namespace RateGovernor

open Binary FrameRateEstimator

/-! ### What the calls are, from the history alone -/

/-- The parameters that were asked for last, which are zeros at first and after a reset. -/
def requestedParameters : List Request → EncodingParameters
  | [] => ⟨0, 0, 0⟩
  | r :: past =>
    match r.operation with
    | .configure p => p
    | .reset => ⟨0, 0, 0⟩
    | _ => requestedParameters past

/-- A frame rate, with zero in place of what is below zero or not a number. -/
def heldToZero : Single → Single
  | .infinite false => .infinite false
  | .finite false units h => .finite false units h
  | _ => 0

/-- The frame rate to budget for: the one measured last, or the configured one without any. -/
def frameRateInForce (config : EstimatorConfig) (past : List Request) : Single :=
  if 0 < (measuredRate config past).value then measuredRate config past
  else heldToZero (requestedParameters past).frameRate

/-- A bitrate, or the ceiling if that is positive and less. -/
def heldToCeiling (ceiling : Int32) (bitrate : UInt32) : ℕ :=
  if 0 < ceiling.toInt then min bitrate.toNat ceiling.toInt.toNat else bitrate.toNat

/-- The whole part of a rate and a half, within 32 bits. -/
def wholeFrames (rate : Single) : ℕ := min ⌊(rate + 1 / 2).value⌋₊ (2 ^ 32 - 1)

/-- The calls that start over with new parameters. -/
def restartCalls (p : EncodingParameters) : List Call :=
  [.perform .reset,
    .perform (.setRates (.ofNat p.targetBitrate.toNat / 1000) (heldToZero p.frameRate))]

/-- The calls that a request makes after a history. -/
def callsOn (config : EstimatorConfig) (past : List Request) (r : Request) : List Call :=
  match r.operation with
  | .configure p => restartCalls p
  | .reset => restartCalls ⟨0, 0, 0⟩
  | .updateTarget n =>
    [.perform (.setRates (.ofNat (heldToCeiling (requestedParameters past).maxBitrate n) / 1000)
      (frameRateInForce config past))]
  | .shouldDrop =>
    let rate := loggedRate config.historySize.toNat config.maxAge.toInt r.now
      (r.now :: captureTimes past)
    .perform (.leak (.ofNat (wholeFrames rate))) :: if switchedOn past then [.shouldDrop] else []
  | .recordFrame kind size => if size = 0 then [] else [.perform (.fill size (kind == .delta))]
  | .setDropping enabled => [.perform (.enable enabled)]
  | .measureFrameRate | .readTarget | .readParameters | .readReport => []

/-- All calls made in a history, which is newest first; the construction makes the first ones. -/
def callsOf (config : EstimatorConfig) : List Request → List Call
  | [] => restartCalls ⟨0, 0, 0⟩
  | r :: past => callsOf config past ++ callsOn config past r

section Agreement

private theorem configured_eq_clamped (past : List Request) :
    configured past = (requestedParameters past).clamped := by
  induction past with
  | nil => exact EncodingParameters.clamped_zero.symm
  | cons r past ih =>
    obtain ⟨now, operation⟩ := r
    cases operation with
    | configure p => rfl
    | reset => exact EncodingParameters.clamped_zero.symm
    | _ => exact ih

theorem heldToZero_eq (rate : Single) : heldToZero rate = rate.positivePart := by
  rw [positivePart]
  cases rate with
  | nan => rfl
  | infinite negative => cases negative <;> rfl
  | finite negative units h =>
    cases negative with
    | true =>
      rw [if_neg]
      · rfl
      · rw [lt_iff_rank rank_zero rfl, signed_true]
        omega
    | false =>
      split
      · rfl
      · rename_i hzero
        rw [lt_iff_rank rank_zero rfl, signed_false] at hzero
        obtain rfl : units = 0 := by omega
        exact ofNat_zero.symm

theorem restartCalls_eq (p : EncodingParameters) :
    restartCalls p = [.perform .reset,
      .perform (.setRates (kilobitsPerSecond p.targetBitrate) p.clamped.frameRate)] := by
  rw [restartCalls, heldToZero_eq]
  rfl

theorem kilobitsPerSecond_cap (past : List Request) (n : UInt32) :
    kilobitsPerSecond ((configured past).cap n) =
      .ofNat (heldToCeiling (requestedParameters past).maxBitrate n) / 1000 := by
  rw [kilobitsPerSecond, EncodingParameters.toNat_cap, configured_eq_clamped]
  rfl

private theorem roundRate_eq_wholeFrames {rate : Single} (hrate : rate.Within (2 ^ 74)) :
    roundRate rate = .ofNat (wholeFrames rate) := by
  rw [roundRate, truncate_eq_floor (isRounded_add_half hrate).isFinite]
  rfl

theorem measuredRate_within (config : EstimatorConfig) (past : List Request) :
    (measuredRate config past).Within (2 ^ 74) :=
  lastEstimate_within config _

private theorem frameRate_ofHistory (config : EstimatorConfig) (past : List Request) :
    (Control.ofHistory config past).frameRate = frameRateInForce config past := by
  have hmeasured := measuredRate_within config past
  have hconfigured :
      (configured past).frameRate = heldToZero (requestedParameters past).frameRate := by
    rw [configured_eq_clamped, heldToZero_eq]
    rfl
  change (if (measuredRate config past).isZero then (configured past).frameRate
    else measuredRate config past) = _
  rw [frameRateInForce, hconfigured]
  rcases hmeasured.nonneg.eq_or_lt with hzero | hpos
  · rw [if_pos ((isZero_iff_value hmeasured.isFinite).mpr hzero.symm), if_neg hzero.not_lt]
  · rw [if_neg (mt (isZero_iff_value hmeasured.isFinite).mp hpos.ne'), if_pos hpos]

theorem calls_ofHistory_cons (config : EstimatorConfig) (past : List Request) (r : Request) :
    (Control.ofHistory config (r :: past)).calls r = callsOn config past r := by
  obtain ⟨now, operation⟩ := r
  cases operation with
  | configure p => exact (restartCalls_eq p).symm
  | reset => exact (restartCalls_eq ⟨0, 0, 0⟩).symm
  | updateTarget n =>
    simp only [callsOn, ← kilobitsPerSecond_cap, ← frameRate_ofHistory]
    rfl
  | shouldDrop =>
    have hrate := loggedRate_within config.historySize.toNat_lt.le config.maxAge.toInt now
      (now :: captureTimes past)
    simp only [callsOn, ← roundRate_eq_wholeFrames hrate]
    rfl
  | _ => rfl

end Agreement

/-! ### The calls of a run -/

/-- The calls that requests make one after the other, from a given control on. -/
def Control.callsAlong (c : Control) : List Request → List Call
  | [] => []
  | r :: rest => (c.step r).calls r ++ (c.step r).callsAlong rest

theorem Control.callsAlong_append (c : Control) (requests later : List Request) :
    c.callsAlong (requests ++ later) =
      c.callsAlong requests ++ (requests.foldl step c).callsAlong later := by
  induction requests generalizing c with
  | nil => rfl
  | cons r rest ih =>
    rw [List.cons_append, callsAlong, callsAlong, ih, List.append_assoc]
    rfl

theorem Control.forall_mem_callsAlong {P : Call → Prop} {requests : List Request}
    (h : ∀ r ∈ requests, ∀ (c : Control), ∀ call ∈ c.calls r, P call) (c : Control) :
    ∀ call ∈ c.callsAlong requests, P call := by
  induction requests generalizing c with
  | nil =>
    intro call hcall
    cases hcall
  | cons r rest ih =>
    intro call hcall
    obtain hfirst | hlater := List.mem_append.mp hcall
    · exact h r List.mem_cons_self _ call hfirst
    · exact ih (fun r' hr' => h r' (List.mem_cons_of_mem r hr')) _ call hlater

/-- After a history, the calls of the requests to come are those that their history adds. -/
theorem Control.callsAlong_ofHistory {config : EstimatorConfig}
    (hc : 3 ≤ config.historySize.toNat) (past requests : List Request) :
    callsOf config past ++ (Control.ofHistory config past).callsAlong requests =
      callsOf config (requests.reverse ++ past) := by
  induction requests generalizing past with
  | nil => exact List.append_nil _
  | cons r rest ih =>
    rw [callsAlong, Control.step_ofHistory hc, calls_ofHistory_cons, List.reverse_cons,
      List.append_assoc, List.singleton_append, ← List.append_assoc]
    exact ih (r :: past)

namespace Governor

variable {σ : Type}

/-- A governor with a recorder in front of its dropper. -/
def recorded (g : Governor σ) (made : List Call) : Governor (Recorder σ) :=
  assemble g.control ⟨g.dropper, made, []⟩ g.counters

private theorem answer_recorded (g : Governor σ) (made : List Call) (r : Request) (verdict : Bool) :
    (g.recorded made).answer r verdict = g.answer r verdict := by
  obtain ⟨now, operation⟩ := r
  cases operation <;> rfl

variable [Dropper σ]

/-- Carry out requests until one is interrupted, and return the answers. -/
def run (requests : List Request) : Action σ (List Answer) :=
  requests.mapM fun r => perform r.now r.operation

variable {config : EstimatorConfig} {inner : σ} {g g' fresh final : Governor σ}

private theorem perform_recorded {r : Request} {a : Answer}
    (h : perform r.now r.operation g = .ok a g') (made : List Call) :
    perform r.now r.operation (g.recorded made) =
      .ok a (g'.recorded (made ++ (g.control.step r).calls r)) := by
  obtain ⟨verdict, hcalls, hdone, hanswer⟩ := callAll_of_perform h
  have hrecorded := perform_of_ok (g := g.recorded made) (r := r)
    (Recorder.callAll_ok hcalls made)
  have hnext : (g.recorded made).completed r verdict
      ⟨g'.dropper, made ++ (g.control.step r).calls r, []⟩ =
        g'.recorded (made ++ (g.control.step r).calls r) := by
    rw [hdone]
    rfl
  rw [hnext] at hrecorded
  rw [hrecorded, answer_recorded, hanswer]

theorem run_cons_eq_ok {r : Request} {rest : List Request} {answers : List Answer}
    (h : run (r :: rest) g = .ok answers final) :
    ∃ a as next, answers = a :: as ∧ perform r.now r.operation g = .ok a next ∧
      run rest next = .ok as final := by
  rw [run, List.mapM_cons] at h
  obtain ⟨a, next, hfirst, hlater⟩ := bind_eq_ok h
  obtain ⟨as, last, hrest, hreturn⟩ := bind_eq_ok hlater
  cases hreturn
  exact ⟨a, as, next, rfl, hfirst, hrest⟩

theorem run_cons_of_ok {next : Governor σ} {r : Request} {rest : List Request} {a : Answer}
    {as : List Answer} (hfirst : perform r.now r.operation g = .ok a next)
    (hrest : run rest next = .ok as final) : run (r :: rest) g = .ok (a :: as) final := by
  rw [run, List.mapM_cons, bind_of_ok hfirst]
  exact bind_of_ok hrest _

theorem run_append_of_ok {next : Governor σ} {requests later : List Request}
    {answers as : List Answer} (hfirst : run requests g = .ok answers next)
    (hlater : run later next = .ok as final) :
    run (requests ++ later) g = .ok (answers ++ as) final := by
  rw [run, List.mapM_append]
  change (run requests >>= _) g = _
  rw [bind_of_ok hfirst]
  exact bind_of_ok hlater _

theorem afterAll_of_run {requests : List Request} {answers : List Answer}
    (h : run requests g = .ok answers final) : g.afterAll requests = final := by
  induction requests generalizing g answers with
  | nil =>
    cases h
    rfl
  | cons r rest ih =>
    obtain ⟨a, as, next, rfl, hfirst, hrest⟩ := run_cons_eq_ok h
    rw [afterAll_cons, after_of_ok hfirst]
    exact ih hrest

theorem exists_run_of_reliable (h : Dropper.Reliable σ) (requests : List Request)
    (g : Governor σ) : ∃ answers final, run requests g = .ok answers final := by
  induction requests generalizing g with
  | nil => exact ⟨[], g, rfl⟩
  | cons r rest ih =>
    obtain ⟨verdict, dropper, hcalls⟩ := h.callAll false ((g.control.step r).calls r) g.dropper
    obtain ⟨as, last, hrest⟩ := ih (g.completed r verdict dropper)
    exact ⟨_, last, run_cons_of_ok (perform_of_ok hcalls) hrest⟩

/-- What the recorder holds after a run are the calls that follow from the control alone. -/
theorem run_recorded_along {requests : List Request} {answers : List Answer}
    (hrun : run requests g = .ok answers final) (made : List Call) :
    run requests (g.recorded made) =
      .ok answers (final.recorded (made ++ g.control.callsAlong requests)) := by
  induction requests generalizing g answers made with
  | nil =>
    cases hrun
    rw [Control.callsAlong, List.append_nil]
    rfl
  | cons r rest ih =>
    obtain ⟨a, as, next, rfl, hfirst, hrest⟩ := run_cons_eq_ok hrun
    have hnext := ih hrest (made ++ (g.control.step r).calls r)
    rw [control_of_perform hfirst, List.append_assoc] at hnext
    exact run_cons_of_ok (perform_recorded hfirst made) hnext

theorem run_recorded (hc : 3 ≤ config.historySize.toNat) {past requests : List Request}
    {answers : List Answer} (hg : g.control = Control.ofHistory config past)
    (h : run requests g = .ok answers final) :
    run requests (g.recorded (callsOf config past)) =
      .ok answers (final.recorded (callsOf config (requests.reverse ++ past))) := by
  rw [run_recorded_along h, hg, Control.callsAlong_ofHistory hc]

/-- Whatever a dropper answers, the calls it receives in a run are those that the history of the
requests determines, and to observe them changes nothing. -/
theorem run_calls_eq_callsOf {requests : List Request} {answers : List Answer}
    (hcreate : create config inner = .ok fresh) (hrun : run requests fresh = .ok answers final) :
    ∃ spied observed, create config (Recorder.create inner []) = .ok spied ∧
      run requests spied = .ok answers observed ∧
      observed.dropper.calls = callsOf config requests.reverse ∧
      observed.dropper.inner = final.dropper ∧
      observed.control = final.control ∧ observed.counters = final.counters := by
  obtain ⟨hvalid, hreset⟩ := create_eq_ok_iff.mp hcreate
  obtain ⟨hc, hfresh⟩ := control_of_create hcreate
  have hconstruct := perform_recorded (r := ⟨0, .reset⟩) hreset []
  rw [control_unconfigured, Control.step_ofHistory hc, calls_ofHistory_cons] at hconstruct
  refine ⟨fresh.recorded (callsOf config []),
    final.recorded (callsOf config (requests.reverse ++ [])),
    create_eq_ok_iff.mpr ⟨hvalid, hconstruct⟩, run_recorded hc hfresh hrun, ?_, rfl, rfl, rfl⟩
  rw [List.append_nil]
  rfl

/-- A dropper that refuses every frame is told the capped target, zero for a configured rate below
zero, 66 frames and two thirds as 67, and the configured rate as soon as the measured one is lost;
an empty frame, a measurement and its own verdicts tell it nothing. -/
theorem run_calls_eq_callsOf_refusing :
    let requests : List Request :=
      [⟨0, .configure ⟨500000, 300000, -30⟩⟩, ⟨0, .updateTarget 900000⟩,
        ⟨0, .configure ⟨0, 300000, 30⟩⟩, ⟨20, .shouldDrop⟩, ⟨35, .shouldDrop⟩,
        ⟨40, .updateTarget 900000⟩, ⟨50, .recordFrame .key 1200⟩, ⟨50, .recordFrame .delta 0⟩,
        ⟨2100, .measureFrameRate⟩, ⟨2100, .updateTarget 400000⟩, ⟨2110, .setDropping false⟩,
        ⟨2120, .shouldDrop⟩, ⟨2130, .reset⟩]
    ∃ fresh answers final spied observed,
      create ⟨3, 2000⟩ (Scripted.create [true]) = .ok fresh ∧
      run requests fresh = .ok answers final ∧
      create ⟨3, 2000⟩ (Recorder.create (Scripted.create [true]) []) = .ok spied ∧
      run requests spied = .ok answers observed ∧
      observed.dropper.calls =
        [.perform .reset, .perform (.setRates 0 0), .perform .reset, .perform (.setRates 300 0),
          .perform (.setRates 500 0), .perform .reset, .perform (.setRates 300 30),
          .perform (.leak 0), .shouldDrop, .perform (.leak 67), .shouldDrop,
          .perform (.setRates 900 (1000 / 15)), .perform (.fill 1200 false),
          .perform (.setRates 400 30), .perform (.enable false), .perform (.leak 0),
          .perform .reset, .perform (.setRates 0 0)] := by
  intro requests
  obtain ⟨fresh, hcreate⟩ : ∃ fresh,
    create ⟨3, 2000⟩ (Scripted.create [true]) = .ok fresh := ⟨_, rfl⟩
  obtain ⟨answers, final, hrun⟩ := exists_run_of_reliable Scripted.reliable requests fresh
  obtain ⟨spied, observed, hspied, hobserved, hcalls, -⟩ := run_calls_eq_callsOf hcreate hrun
  refine ⟨fresh, answers, final, spied, observed, hcreate, hrun, hspied, hobserved, ?_⟩
  rw [hcalls]
  decide +kernel

end Governor

end RateGovernor
