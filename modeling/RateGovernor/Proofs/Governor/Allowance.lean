import Mathlib
import RateGovernor.Proofs.Governor.Starvation

/-!
# An encoder within its allowance

Frames are captured at a steady interval right after a configuration, and each one that is encoded
costs no more than one interval's worth of the target. The first query measures no rate and drains
nothing, but the bucket is still empty; every later one measures the same rate, however full the
history is by then, and drains what the last frame cost. So the bucket is empty after every query,
and no frame is dropped.
-/

namespace RateGovernor

open Binary FrameRateEstimator

/-- The kilobits of a target that one of the frames at a steady interval may cost. -/
def frameAllowance (target : UInt32) (interval : ℕ) : Single :=
  kilobitsPerSecond target / .ofNat (paceRate interval).toNat

private theorem within_frameAllowance (target : UInt32) {interval : ℕ}
    (hpace : 1 ≤ (paceRate interval).toNat) :
    (frameAllowance target interval).Within (2 ^ 32) := by
  have htarget := (isRounded_kilobitsPerSecond target).2
  have hone := one_le_value_toNat (one_le_toNat_iff.mp hpace)
  exact (htarget.isRounded_div (isFinite_toNat _) Nat.one_pos hone (.single_two_pow (by decide))
    (by decide)).2

namespace LeakyBucket

variable {b : LeakyBucket} {rate : UInt32}

private theorem debt_leak_eq_zero (h : b.Sound) (hbusy : b.enabled = true ∧ rate ≠ 0)
    (hnone : b.pendingLeaks = 0)
    (hle : b.debt.value ≤ (b.budget (.ofNat rate.toNat)).value) : (b.leak rate).debt = 0 := by
  obtain ⟨hdiff, -⟩ := h.drained hbusy.2
  rw [leak_of_not_spread hbusy hnone]
  apply positivePart_of_nonpos hdiff.isFinite
  apply hdiff.nonpos
  linarith

private theorem value_debt_fill_delta (henabled : b.enabled = true) (hdebt : b.debt = 0)
    (size : UInt64) :
    (b.fill size true).debt.value = (kilobits size).value := by
  have hcost := within_kilobits size
  have hsum : IsRounded ((0 : Single).value + (kilobits size).value) (0 + kilobits size) := by
    apply isRounded_add isFinite_zero hcost.isFinite (.single_two_pow (k := 58) (by decide))
    rw [value_zero, zero_add, abs_of_nonneg hcost.nonneg]
    exact hcost.le
  rw [value_zero, zero_add] at hsum
  rw [fill_delta henabled, hdebt]
  exact le_antisymm (hsum.le_value hcost.isFinite le_rfl) (hsum.value_le hcost.isFinite le_rfl)

private theorem not_shouldDrop_of_debt_eq_zero (h : b.Sound) (hdebt : b.debt = 0) :
    b.shouldDrop = false := by
  have hthreshold := h.threshold
  rw [shouldDrop, hdebt, decide_eq_false hthreshold, Bool.and_false]

end LeakyBucket

namespace Governor

/-- After a configuration a number of frames was captured at a steady interval, the last one at the
given time. None of them was dropped, and the debt is within the allowance of one frame. -/
structure Paced (config : EstimatorConfig) (target : UInt32) (interval n : ℕ) (clock : Int)
    (g : Governor LeakyBucket) : Prop where
  log : ∃ past, g.control = Control.ofHistory config past ∧
    Steady interval n clock (captureTimes past) ∧ (captureTimes past).length = n
  sound : g.dropper.Sound
  enabled : g.dropper.enabled = true
  bitrate : g.dropper.bitrate = kilobitsPerSecond target
  pendingLeaks : g.dropper.pendingLeaks = 0
  unfilled : n = 0 → g.dropper.debt = 0
  debt : g.dropper.debt.value ≤ (frameAllowance target interval).value
  dropped : g.counters.dropped = 0

namespace Paced

variable {config : EstimatorConfig} {target : UInt32} {interval n : ℕ} {clock : Int}
  {g : Governor LeakyBucket}

private theorem budget_eq (h : Paced config target interval n clock g)
    (hpace : 1 ≤ (paceRate interval).toNat) :
    g.dropper.budget (.ofNat (paceRate interval).toNat) = frameAllowance target interval := by
  rw [g.dropper.budget_toNat (one_le_toNat_iff.mp hpace), h.bitrate, frameAllowance]

/-- A query drains what the frame before it cost, so it leaves no debt and lets the frame pass. -/
theorem query (hc : 3 ≤ config.historySize.toNat) (hpos : 1 ≤ interval)
    (hage : interval ≤ config.maxAge.toInt) (hshort : config.maxAge.toInt ≤ 2000)
    (h : Paced config target interval n clock g) :
    ∃ g', perform (clock + interval) .shouldDrop g = .ok (.verdict false) g' ∧
      g'.dropper.debt = 0 ∧ Paced config target interval (n + 1) (clock + interval) g' := by
  obtain ⟨past, hcontrol, hsteady, hlength⟩ := h.log
  have hpace := one_le_paceRate hpos (by omega)
  have hrate := queryRate_of_steady hc hpos hage hshort hsteady hlength
  have hquery := perform_shouldDrop (clock + interval) g
  rw [roundedRate_update hc hcontrol, hrate] at hquery
  have hdebt : (g.dropper.leak (if n = 0 then 0 else paceRate interval)).debt = 0 := by
    by_cases hn : n = 0
    · rw [if_pos hn, LeakyBucket.leak_of_idle (by simp)]
      exact h.unfilled hn
    · rw [if_neg hn]
      apply LeakyBucket.debt_leak_eq_zero h.sound ⟨h.enabled, one_le_toNat_iff.mp hpace⟩
        h.pendingLeaks
      rw [h.budget_eq hpace]
      exact h.debt
  generalize (if n = 0 then 0 else paceRate interval) = rate at hquery hdebt
  have hkeep := LeakyBucket.not_shouldDrop_of_debt_eq_zero (h.sound.leak rate) hdebt
  simp only [hkeep, Bool.and_false] at hquery
  have hafter := control_of_perform (r := ⟨clock + interval, .shouldDrop⟩) hquery
  rw [hcontrol, Control.step_ofHistory hc] at hafter
  refine ⟨_, hquery, hdebt, ?_⟩
  exact {
    log := ⟨_, hafter, hsteady.cons, by rw [captureTimes_shouldDrop, List.length_cons, hlength]⟩
    sound := h.sound.leak rate
    enabled := (LeakyBucket.enabled_leak _ _).trans h.enabled
    bitrate := (LeakyBucket.bitrate_leak _ _).trans h.bitrate
    pendingLeaks := LeakyBucket.pendingLeaks_leak_of_none h.pendingLeaks
    unfilled := fun hnone => absurd hnone (Nat.succ_ne_zero n)
    debt := by
      change (g.dropper.leak rate).debt.value ≤ _
      rw [hdebt, value_zero]
      exact (within_frameAllowance target hpace).nonneg
    dropped := h.dropped }

theorem record (h : Paced config target interval (n + 1) clock g) (hdebt : g.dropper.debt = 0)
    (hpace : 1 ≤ (paceRate interval).toNat) {size : UInt64}
    (hsize : LeakyBucket.kilobits size ≤ frameAllowance target interval) :
    ∃ g', perform clock (.recordFrame .delta size) g =
        .ok (.accounting (if size = 0 then .ignored else .recorded)) g' ∧
      Paced config target interval (n + 1) clock g' := by
  rw [le_iff_value (LeakyBucket.within_kilobits size).isFinite
    (within_frameAllowance target hpace).isFinite] at hsize
  have hrecord := perform_recordFrame clock .delta size g
  obtain ⟨past, hcontrol, hsteady, hlength⟩ := h.log
  refine ⟨_, hrecord, ?_⟩
  by_cases hempty : size = 0
  · simp only [hempty, if_true]
    exact ⟨⟨past, hcontrol, hsteady, hlength⟩, h.sound, h.enabled, h.bitrate, h.pendingLeaks,
      h.unfilled, h.debt, h.dropped⟩
  · simp only [hempty, if_false]
    exact {
      log := ⟨past, hcontrol, hsteady, hlength⟩
      sound := h.sound.fill size true
      enabled := (LeakyBucket.enabled_fill _ _ _).trans h.enabled
      bitrate := (LeakyBucket.bitrate_fill _ _ _).trans h.bitrate
      pendingLeaks := by
        change (g.dropper.fill size true).pendingLeaks = 0
        rw [LeakyBucket.fill_delta h.enabled]
        exact h.pendingLeaks
      unfilled := fun hnone => absurd hnone (Nat.succ_ne_zero n)
      debt := by
        change (g.dropper.fill size true).debt.value ≤ _
        rw [LeakyBucket.value_debt_fill_delta h.enabled hdebt]
        exact hsize
      dropped := by
        change (if size = 0 then g.counters else g.counters.countFrame size.toNat).dropped = 0
        rw [if_neg hempty]
        exact h.dropped }

end Paced

/-- Capture cycles at a steady interval after the given time, each with a delta frame. -/
def cycles (interval : ℕ) : List UInt64 → Int → List Request
  | [], _ => []
  | size :: rest, clock =>
    ⟨clock + interval, .shouldDrop⟩ :: ⟨clock + interval, .recordFrame .delta size⟩ ::
      cycles interval rest (clock + interval)

/-- What a capture cycle is answered with if its frame is not dropped. -/
def passed (size : UInt64) : List Answer :=
  [.verdict false, .accounting (if size = 0 then .ignored else .recorded)]

section Run

variable {config : EstimatorConfig} {target : UInt32} {interval n : ℕ} {clock : Int}
  {g : Governor LeakyBucket}

theorem Paced.run (hc : 3 ≤ config.historySize.toNat) (hpos : 1 ≤ interval)
    (hage : interval ≤ config.maxAge.toInt) (hshort : config.maxAge.toInt ≤ 2000)
    {sizes : List UInt64}
    (hsizes : ∀ size ∈ sizes, LeakyBucket.kilobits size ≤ frameAllowance target interval)
    (h : Paced config target interval n clock g) :
    ∃ next, Governor.run (cycles interval sizes clock) g = .ok (sizes.flatMap passed) next ∧
      Paced config target interval (n + sizes.length) (clock + sizes.length * interval) next := by
  induction sizes generalizing n clock g with
  | nil =>
    refine ⟨g, rfl, ?_⟩
    simpa using h
  | cons size rest ih =>
    have hsize := hsizes size List.mem_cons_self
    have hrest := fun s hs => hsizes s (List.mem_cons_of_mem size hs)
    obtain ⟨asked, hquery, hdebt, hpaced⟩ := h.query hc hpos hage hshort
    obtain ⟨charged, hrecord, hpaced'⟩ :=
      hpaced.record hdebt (one_le_paceRate hpos (by omega)) hsize
    obtain ⟨next, hrun, hlast⟩ := ih hrest hpaced'
    refine ⟨next, ?_, ?_⟩
    · exact run_cons_of_ok (r := ⟨clock + interval, .shouldDrop⟩) hquery
        (run_cons_of_ok (r := ⟨clock + interval, .recordFrame .delta size⟩) hrecord hrun)
    · have hcount : n + (size :: rest).length = n + 1 + rest.length := by
        rw [List.length_cons]
        omega
      have htime : clock + (size :: rest).length * interval =
          clock + interval + rest.length * interval := by
        rw [List.length_cons]
        push_cast
        ring
      rw [hcount, htime]
      exact hlast

private theorem paced_of_configure {bucket : BucketConfig} {fresh g' : Governor LeakyBucket}
    {p : EncodingParameters} {now : Int} {a : Answer}
    (hcreate : create config (LeakyBucket.create bucket) = .ok fresh)
    (hwindow : 0 ≤ bucket.window) (past : List Request)
    (hdropping : (fresh.afterAll past).droppingEnabled = true)
    (hconfigure : perform now (.configure p) (fresh.afterAll past) = .ok a g')
    (hpace : 1 ≤ (paceRate interval).toNat) (clock : Int) :
    Paced config p.targetBitrate interval 0 clock g' := by
  have hc := (control_of_create hcreate).1
  have hreached := after_of_ok (r := ⟨now, .configure p⟩) hconfigure
  have hwindow' : 0 ≤ (LeakyBucket.create bucket).config.window := hwindow
  have hagrees := ((agrees_of_create hwindow' hcreate).afterAll hwindow past).after hwindow
    ⟨now, .configure p⟩
  have hcoupled := ((coupled_of_create rfl hcreate).afterAll past).after ⟨now, .configure p⟩
  rw [hreached] at hagrees hcoupled
  have hcontrol := control_of_perform (r := ⟨now, .configure p⟩) hconfigure
  rw [perform_configure] at hconfigure
  obtain ⟨-, rfl⟩ := EStateM.Result.ok.inj hconfigure
  generalize hbucket : (fresh.afterAll past).dropper.reset.setRates
    (kilobitsPerSecond p.targetBitrate) p.clamped.frameRate = b at hagrees hcoupled hcontrol ⊢
  have hempty : b.debt = 0 := by
    rw [← hbucket]
    exact LeakyBucket.debt_setRates_of_no_target not_zero_lt_zero
  rw [control_afterAll_create hcreate, Control.step_ofHistory hc] at hcontrol
  exact {
    log := ⟨_, hcontrol, fun time hmem => absurd hmem List.not_mem_nil, rfl⟩
    sound := hagrees.sound
    enabled := hcoupled.enabled.trans hdropping
    bitrate := hcoupled.bitrate
    pendingLeaks := congrArg LeakyBucket.pendingLeaks hbucket.symm
    unfilled := fun _ => hempty
    debt := by
      change b.debt.value ≤ _
      rw [hempty, value_zero]
      exact (within_frameAllowance p.targetBitrate hpace).nonneg
    dropped := rfl }

/-- Right after a configuration, while dropping is on and no two seconds count for the rate, frames
that are captured at a steady interval and cost at most the target over the rounded rate, which is
at least one frame per second, are never dropped, however many there are: every query is answered
not to drop, the count of drops stays at zero, and no debt is left after any query. -/
theorem never_drops_within_allowance {bucket : BucketConfig} {fresh : Governor LeakyBucket}
    (hcreate : create config (LeakyBucket.create bucket) = .ok fresh)
    (hwindow : 0 ≤ bucket.window) (hshort : config.maxAge.toInt ≤ 2000) (past : List Request)
    (hdropping : (fresh.afterAll past).droppingEnabled = true) (p : EncodingParameters)
    (hpos : 1 ≤ interval) (hage : interval ≤ config.maxAge.toInt) (now clock : Int) :
    1 ≤ (paceRate interval).toNat ∧
      ∃ g, perform now (.configure p) (fresh.afterAll past) = .ok .done g ∧
        ∀ sizes : List UInt64, (∀ size ∈ sizes,
            LeakyBucket.kilobits size ≤ frameAllowance p.targetBitrate interval) →
          ∃ next g', run (cycles interval sizes clock) g = .ok (sizes.flatMap passed) next ∧
            perform (clock + (sizes.length + 1) * interval) .shouldDrop next =
              .ok (.verdict false) g' ∧
            g'.dropper.debt = 0 ∧ g'.report.framesDropped = 0 := by
  have hc := (control_of_create hcreate).1
  have hpace := one_le_paceRate hpos (by omega : interval ≤ 2000)
  have hconfigure := perform_configure now p (fresh.afterAll past)
  have hpaced := paced_of_configure hcreate hwindow past hdropping hconfigure hpace clock
  refine ⟨hpace, _, hconfigure, ?_⟩
  intro sizes hsizes
  obtain ⟨next, hrun, hnext⟩ := hpaced.run hc hpos hage hshort hsizes
  obtain ⟨g', hquery, hdebt, hlast⟩ := hnext.query hc hpos hage hshort
  have htime : clock + sizes.length * interval + interval =
      clock + (sizes.length + 1) * interval := by ring
  rw [htime] at hquery
  refine ⟨next, g', hrun, hquery, hdebt, ?_⟩
  change UInt64.ofNat g'.counters.dropped = 0
  rw [hlast.dropped]
  rfl

/-- At twenty-five frames a second, 1500 bytes a frame are all of 300 kilobits per second. -/
theorem never_drops_within_allowance_full :
    ∃ fresh g next, create .standard (LeakyBucket.create .standard) = .ok fresh ∧
      perform 0 (.configure ⟨0, 300000, 30⟩) fresh = .ok .done g ∧
      LeakyBucket.kilobits 1500 = frameAllowance 300000 40 ∧
      run (cycles 40 [1500, 1500, 0] 0) g = .ok ([1500, 1500, 0].flatMap passed) next := by
  obtain ⟨fresh, hcreate⟩ : ∃ fresh,
    create .standard (LeakyBucket.create .standard) = .ok fresh := ⟨_, rfl⟩
  have hwindow : 0 ≤ BucketConfig.standard.window := by decide +kernel
  have hdropping : (fresh.afterAll []).droppingEnabled = true := by
    cases hcreate
    rfl
  have hshort : EstimatorConfig.standard.maxAge.toInt ≤ 2000 := by decide
  have hage : (40 : ℕ) ≤ EstimatorConfig.standard.maxAge.toInt := by decide
  have hfull : LeakyBucket.kilobits 1500 = frameAllowance 300000 40 := by decide +kernel
  have hsizes : ∀ size ∈ [1500, 1500, 0],
      LeakyBucket.kilobits size ≤ frameAllowance 300000 40 := by
    rw [List.forall_mem_cons, List.forall_mem_cons, List.forall_mem_singleton]
    decide +kernel
  obtain ⟨-, g, hconfigure, hnever⟩ := never_drops_within_allowance hcreate hwindow hshort []
    hdropping ⟨0, 300000, 30⟩ (by decide) hage 0 0
  obtain ⟨next, -, hrun, -⟩ := hnever [1500, 1500, 0] hsizes
  exact ⟨fresh, g, next, hcreate, hconfigure, hfull, hrun⟩

end Run

end Governor

end RateGovernor
