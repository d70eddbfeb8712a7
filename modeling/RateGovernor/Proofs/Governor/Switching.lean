import Mathlib
import RateGovernor.Proofs.Governor.Coupling
import RateGovernor.Proofs.Governor.Interleaving

/-!
# Dropping switched off for a while

A bucket that is switched off still takes new rates, but neither charges frames nor drains, and the
governor goes on measuring and counting. So the debt waits until dropping is on again, and only the
verdicts and their count show that it was off.
-/

namespace RateGovernor

/-- Neither a configuration nor a reset nor a switch of dropping. -/
def Request.isRoutine (r : Request) : Bool :=
  match r.operation with
  | .configure _ | .reset | .setDropping _ => false
  | _ => true

namespace Call

/-- Neither a reset nor a switch. -/
def isRoutine : Call → Bool
  | .perform .reset | .perform (.enable _) => false
  | _ => true

def setsRates : Call → Bool
  | .perform (.setRates _ _) => true
  | _ => false

end Call

namespace Control

variable {r : Request} {c : Control} {enabled : Bool}

def switched (c : Control) (enabled : Bool) : Control := { c with droppingEnabled := enabled }

private theorem switched_eq_self (h : c.droppingEnabled = enabled) : c.switched enabled = c := by
  rw [← h]
  rfl

private theorem step_switched (hr : r.isRoutine = true) (c : Control) (enabled : Bool) :
    (c.switched enabled).step r = (c.step r).switched enabled := by
  obtain ⟨now, operation⟩ := r
  cases operation with
  | configure p => cases hr
  | reset => cases hr
  | setDropping enabled => cases hr
  | _ => rfl

private theorem foldl_step_switched {segment : List Request} (h : ∀ r ∈ segment, r.isRoutine = true)
    (c : Control) (enabled : Bool) :
    segment.foldl step (c.switched enabled) = (segment.foldl step c).switched enabled := by
  induction segment generalizing c with
  | nil => rfl
  | cons r rest ih =>
    rw [List.foldl_cons, List.foldl_cons, step_switched (h r List.mem_cons_self)]
    exact ih (fun r' hr' => h r' (List.mem_cons_of_mem r hr')) (c.step r)

private theorem routine_calls (hr : r.isRoutine = true) (c : Control) :
    ∀ call ∈ c.calls r, call.isRoutine = true ∧ (call.setsRates = true → r.isUpdate = true) := by
  obtain ⟨now, operation⟩ := r
  intro call hcall
  cases operation with
  | configure p => cases hr
  | reset => cases hr
  | setDropping enabled => cases hr
  | updateTarget n =>
    rw [List.mem_singleton.mp hcall]
    exact ⟨rfl, fun _ => rfl⟩
  | shouldDrop =>
    -- The bucket leaks and may be asked for its verdict.
    have hquery : call = .perform (.leak c.estimator.roundedRate) ∨ call = .shouldDrop := by
      simp only [calls] at hcall
      grind
    obtain rfl | rfl := hquery
    · simp [Call.isRoutine, Call.setsRates]
    · simp [Call.isRoutine, Call.setsRates]
  | recordFrame kind size =>
    have hcharge : call = .perform (.fill size (kind == .delta)) := by
      simp only [calls] at hcall
      grind
    rw [hcharge]
    simp [Call.isRoutine, Call.setsRates]
  | _ => cases hcall

private theorem filter_setsRates_toggled (c : Control) (segment : List Request) (now later : Int) :
    (c.callsAlong (⟨now, .setDropping false⟩ :: (segment ++ [⟨later, .setDropping true⟩]))).filter
        Call.setsRates = ((c.switched false).callsAlong segment).filter Call.setsRates := by
  have hcalls : c.callsAlong (⟨now, .setDropping false⟩ ::
      (segment ++ [⟨later, .setDropping true⟩])) = .perform (.enable false) ::
        ((c.switched false).callsAlong segment ++ [.perform (.enable true)]) := by
    change _ :: (c.switched false).callsAlong (segment ++ _) = _
    rw [callsAlong_append]
    rfl
  rw [hcalls, List.filter_cons_of_neg (by decide), List.filter_append,
    List.filter_cons_of_neg (by decide), List.filter_nil, List.append_nil]

private theorem routine_callsAlong {segment : List Request} (h : ∀ r ∈ segment, r.isRoutine = true)
    (c : Control) : ∀ call ∈ c.callsAlong segment, call.isRoutine = true := by
  apply forall_mem_callsAlong
  intro r hr c call hcall
  exact (routine_calls (h r hr) c call hcall).1

private theorem filter_setsRates_callsAlong {segment : List Request}
    (h : ∀ r ∈ segment, r.isRoutine = true) (hnone : ∀ r ∈ segment, r.isUpdate = false)
    (c : Control) : (c.callsAlong segment).filter Call.setsRates = [] := by
  rw [List.filter_eq_nil_iff]
  apply forall_mem_callsAlong
  intro r hr c call hcall hsets
  have hupdate := (routine_calls (h r hr) c call hcall).2 hsets
  rw [hnone r hr] at hupdate
  cases hupdate

end Control

namespace LeakyBucket

variable {calls : List Call} {call : Call} {b : LeakyBucket} {enabled : Bool}

def switched (b : LeakyBucket) (enabled : Bool) : LeakyBucket := { b with enabled }

private theorem switched_eq_self (h : b.enabled = enabled) : b.switched enabled = b := by
  rw [← h]
  rfl

private theorem receive_switched_off (hcall : call.isRoutine = true) (b : LeakyBucket) :
    (b.switched false).receive call =
      (if call.setsRates then b.receive call else b).switched false := by
  cases call with
  | shouldDrop => rfl
  | perform command =>
    cases command with
    | reset => cases hcall
    | enable enabled => cases hcall
    | setRates bitrate frameRate => rfl
    | fill size isDelta => rfl
    | leak frameRate => rfl

/-- Of routine calls a bucket that is off keeps those that set its rates, and nothing else. -/
private theorem foldl_receive_switched_off (h : ∀ call ∈ calls, call.isRoutine = true)
    (b : LeakyBucket) :
    calls.foldl receive (b.switched false) =
      ((calls.filter Call.setsRates).foldl receive b).switched false := by
  rw [List.foldl_filter]
  induction calls generalizing b with
  | nil => rfl
  | cons call rest ih =>
    rw [List.foldl_cons, List.foldl_cons, receive_switched_off (h call List.mem_cons_self)]
    exact ih (fun call' hcall' => h call' (List.mem_cons_of_mem call hcall')) _

private theorem enabled_foldl_receive (h : ∀ call ∈ calls, call.isRoutine = true)
    (b : LeakyBucket) :
    (calls.foldl receive b).enabled = b.enabled := by
  induction calls generalizing b with
  | nil => rfl
  | cons call rest ih =>
    rw [List.foldl_cons, ih fun call' hcall' => h call' (List.mem_cons_of_mem call hcall')]
    have hcall := h call List.mem_cons_self
    cases call with
    | shouldDrop => rfl
    | perform command =>
      cases command with
      | reset => cases hcall
      | enable enabled => cases hcall
      | setRates bitrate frameRate => rfl
      | fill size isDelta => exact b.enabled_fill size isDelta
      | leak frameRate => exact b.enabled_leak frameRate

end LeakyBucket

namespace Governor

section AnyDropper

variable {σ : Type} [Dropper σ] {g h final final' : Governor σ} {segment : List Request}
  {answers answers' : List Answer}

private theorem run_agreeButDropped (hcounters : g.counters.AgreeButDropped h.counters)
    (hg : run segment g = .ok answers final) (hh : run segment h = .ok answers' final') :
    final.counters.AgreeButDropped final'.counters := by
  induction segment generalizing g h answers answers' with
  | nil =>
    cases hg
    cases hh
    exact hcounters
  | cons r rest ih =>
    obtain ⟨a, as, next, -, hfirst, hrest⟩ := run_cons_eq_ok hg
    obtain ⟨a', as', next', -, hfirst', hrest'⟩ := run_cons_eq_ok hh
    obtain ⟨verdict, -, hdone, -⟩ := callAll_of_perform hfirst
    obtain ⟨verdict', -, hdone', -⟩ := callAll_of_perform hfirst'
    refine ih ?_ hrest hrest'
    rw [hdone, hdone']
    exact hcounters.count r verdict verdict'

private theorem control_of_run (hrun : run segment g = .ok answers final) :
    final.control = segment.foldl Control.step g.control := by
  rw [← afterAll_of_run hrun, control_afterAll]

end AnyDropper

variable {g final kept : Governor LeakyBucket} {segment : List Request}
  {answers answersOn : List Answer}

/-- Dropping switched on or off, by the governor and in its bucket. -/
def switched (g : Governor LeakyBucket) (enabled : Bool) : Governor LeakyBucket :=
  { g with dropper := g.dropper.switched enabled, droppingEnabled := enabled }

private theorem perform_setDropping (now : Int) (enabled : Bool) (g : Governor LeakyBucket) :
    perform now (.setDropping enabled) g = .ok .done (g.switched enabled) := rfl

private theorem verdicts_of_off (hoff : g.droppingEnabled = false)
    (hsegment : ∀ r ∈ segment, r.isRoutine = true) (hrun : run segment g = .ok answers final) :
    List.Forall₂ (fun r a => r.operation = .shouldDrop → a = .verdict false) segment answers := by
  induction segment generalizing g answers with
  | nil =>
    cases hrun
    exact .nil
  | cons r rest ih =>
    obtain ⟨a, as, next, rfl, hfirst, hrest⟩ := run_cons_eq_ok hrun
    have hnext : next.droppingEnabled = false := by
      have hstep := Control.step_switched (hsegment r List.mem_cons_self) g.control false
      rw [Control.switched_eq_self hoff, ← control_of_perform hfirst] at hstep
      exact congrArg Control.droppingEnabled hstep
    refine .cons ?_ (ih hnext (fun r' hr' => hsegment r' (List.mem_cons_of_mem r hr')) hrest)
    intro hquery
    rw [hquery, perform_shouldDrop, hoff] at hfirst
    cases hfirst
    rfl

/-- After routine requests with dropping off, and with dropping on again, the bucket has taken the
rates that it was told, and that is all. -/
private theorem dropper_of_switched (hbucket : g.dropper.enabled = true)
    (hsegment : ∀ r ∈ segment, r.isRoutine = true)
    (hrun : run segment (g.switched false) = .ok answers final) :
    (final.switched true).dropper =
      (((g.control.switched false).callsAlong segment).filter Call.setsRates).foldl
        LeakyBucket.receive g.dropper := by
  let calls := (g.control.switched false).callsAlong segment
  have hroutine : ∀ call ∈ calls, call.isRoutine = true :=
    Control.routine_callsAlong hsegment (g.control.switched false)
  let rated := (calls.filter Call.setsRates).foldl LeakyBucket.receive g.dropper
  have henabled : rated.enabled = true := by
    rw [← hbucket]
    apply LeakyBucket.enabled_foldl_receive
    intro call hcall
    exact hroutine call (List.mem_filter.mp hcall).1
  have hoff : final.dropper = rated.switched false := by
    rw [← afterAll_of_run hrun, dropper_afterAll_eq_foldl]
    exact LeakyBucket.foldl_receive_switched_off hroutine g.dropper
  change final.dropper.switched true = rated
  rw [hoff]
  exact LeakyBucket.switched_eq_self henabled

private theorem control_of_switched (hon : g.droppingEnabled = true)
    (hsegment : ∀ r ∈ segment, r.isRoutine = true)
    (hrun : run segment (g.switched false) = .ok answers final)
    (hkept : run segment g = .ok answersOn kept) :
    (final.switched true).control = kept.control := by
  have hleft := Control.foldl_step_switched hsegment g.control true
  rw [Control.switched_eq_self hon] at hleft
  calc (final.switched true).control
    _ = (segment.foldl Control.step (g.control.switched false)).switched true :=
      congrArg (Control.switched · true) (control_of_run hrun)
    _ = (segment.foldl Control.step g.control).switched true := by
      rw [Control.foldl_step_switched hsegment]
      rfl
    _ = kept.control := by
      rw [control_of_run hkept]
      exact hleft.symm

/-- Take any governor over a leaky bucket with dropping on in both, and switch dropping off and,
after a segment without configurations, resets and other switches, on again. Every query in the
segment is answered with no drop. The bucket is then what the new rates alone, among all calls that
it received meanwhile, would have made of it: without a bitrate from the network in the segment, the
same bucket as before. And parameters, target, estimator, switch and all counts but that of dropped
frames are what the same segment leaves with dropping left on. -/
theorem switched_off_keeps_debt (hon : g.droppingEnabled = true)
    (hbucket : g.dropper.enabled = true) (hsegment : ∀ r ∈ segment, r.isRoutine = true)
    (now later : Int) :
    let toggled := ⟨now, .setDropping false⟩ :: (segment ++ [⟨later, .setDropping true⟩])
    ∃ answers answersOn final kept observed,
      run toggled g = .ok (.done :: (answers ++ [.done])) final ∧
      run segment g = .ok answersOn kept ∧
      run toggled (g.recorded []) = .ok (.done :: (answers ++ [.done])) observed ∧
      List.Forall₂ (fun r a => r.operation = .shouldDrop → a = .verdict false) segment answers ∧
      final.dropper =
        (observed.dropper.calls.filter Call.setsRates).foldl LeakyBucket.receive g.dropper ∧
      ((∀ r ∈ segment, r.isUpdate = false) → final.dropper = g.dropper) ∧
      final.control = kept.control ∧
      final.counters.queried = kept.counters.queried ∧
      final.counters.encoded = kept.counters.encoded ∧
      final.counters.bytes = kept.counters.bytes := by
  intro toggled
  obtain ⟨answers, quiet, hquiet⟩ :=
    exists_run_of_reliable LeakyBucket.reliable segment (g.switched false)
  obtain ⟨answersOn, kept, hkept⟩ := exists_run_of_reliable LeakyBucket.reliable segment g
  have hrun : run toggled g = .ok (.done :: (answers ++ [.done])) (quiet.switched true) :=
    run_cons_of_ok (perform_setDropping now false g)
      (run_append_of_ok hquiet (run_cons_of_ok (perform_setDropping later true quiet) rfl))
  have hdropper := dropper_of_switched hbucket hsegment hquiet
  have hcounters : quiet.counters.AgreeButDropped kept.counters :=
    run_agreeButDropped (g := g.switched false) (h := g) ⟨rfl, rfl, rfl⟩ hquiet hkept
  refine ⟨answers, answersOn, quiet.switched true, kept, _, hrun, hkept,
    run_recorded_along hrun [], verdicts_of_off rfl hsegment hquiet, ?rates, ?same,
    control_of_switched hon hsegment hquiet hkept, hcounters.queried, hcounters.encoded,
    hcounters.bytes⟩
  case rates =>
    change _ = ((g.control.callsAlong toggled).filter Call.setsRates).foldl _ _
    rw [Control.filter_setsRates_toggled, hdropper]
  case same =>
    intro hnone
    rw [hdropper, Control.filter_setsRates_callsAlong hsegment hnone]
    rfl

/-- Dropping is switched off with debt above the threshold and a key frame partly charged. Halving
the target meanwhile halves the debt; two queries and a frame leave it alone. -/
theorem switched_off_keeps_debt_halved :
    let past : List Request := [⟨0, .configure ⟨0, 300000, 30⟩⟩, ⟨0, .shouldDrop⟩,
      ⟨20, .recordFrame .delta 50000⟩, ⟨33, .recordFrame .key 25000⟩, ⟨33, .shouldDrop⟩]
    let segment : List Request := [⟨66, .shouldDrop⟩, ⟨66, .recordFrame .delta 5000⟩,
      ⟨80, .updateTarget 150000⟩, ⟨99, .shouldDrop⟩, ⟨99, .measureFrameRate⟩]
    ∃ fresh, create .standard (LeakyBucket.create .standard) = .ok fresh ∧
      let before := fresh.afterAll past
      before.droppingEnabled = true ∧ before.dropper.enabled = true ∧
        (∀ r ∈ segment, r.isRoutine = true) ∧ before.dropper.debt = 419 ∧
        ∃ answers final,
          run (⟨50, .setDropping false⟩ :: (segment ++ [⟨120, .setDropping true⟩])) before =
            .ok (.done :: (answers ++ [.done])) final ∧
          final.dropper.debt = 419 / 2 ∧ final.dropper.pending = before.dropper.pending ∧
          final.dropper.pendingLeaks = 9 := by
  intro past segment
  obtain ⟨fresh, hcreate⟩ : ∃ fresh,
    create .standard (LeakyBucket.create .standard) = .ok fresh := ⟨_, rfl⟩
  let before := fresh.afterAll past
  obtain ⟨hon, hbucket, hdebt, hhalved⟩ :
      before.droppingEnabled = true ∧ before.dropper.enabled = true ∧
        before.dropper.debt = 419 ∧
        let after := (((before.recorded []).afterAll (⟨50, .setDropping false⟩ ::
          (segment ++ [⟨120, .setDropping true⟩]))).dropper.calls.filter Call.setsRates).foldl
          LeakyBucket.receive before.dropper
        after.debt = 419 / 2 ∧ after.pending = before.dropper.pending ∧ after.pendingLeaks = 9 := by
    cases hcreate
    decide +kernel
  have hsegment : ∀ r ∈ segment, r.isRoutine = true := by decide
  obtain ⟨answers, -, final, -, observed, hrun, -, hobserved, -, hdropper, -⟩ :=
    switched_off_keeps_debt hon hbucket hsegment 50 120
  refine ⟨fresh, hcreate, hon, hbucket, hsegment, hdebt, answers, final, hrun, ?_⟩
  rw [hdropper, ← afterAll_of_run hobserved]
  exact hhalved

end Governor

end RateGovernor
