import Mathlib
import RateGovernor.Dropper.LeakyBucket
import RateGovernor.Proofs.Dropper.Faults
import RateGovernor.Proofs.Governor.CallHistory

/-!
# What an interruption leaves behind

A request whose calls fail half way has settled the control of the governor, and its dropper has
seen the calls before the fault. So the governor is in general neither where it was nor where the
request would have taken it: a frame that is not charged leaves no trace, but a reconfiguration that
stops between its two calls leaves a governor with a target and a dropper without one.
-/

namespace RateGovernor

/-- A request that changes the counters when it completes. -/
def Request.Counts (r : Request) : Prop :=
  match r.operation with
  | .shouldDrop | .recordFrame .. => True
  | _ => False

private theorem Counters.countQuery_ne (c : Counters) (dropped : Bool) :
    c.countQuery dropped ≠ c := by
  intro h
  have hqueried : c.queried + 1 = c.queried := congrArg Counters.queried h
  omega

private theorem Counters.countFrame_ne (c : Counters) (size : ℕ) : c.countFrame size ≠ c := by
  intro h
  have hencoded : c.encoded + 1 = c.encoded := congrArg Counters.encoded h
  omega

private theorem Request.count_eq_self_iff {r : Request} {control : Control}
    (hcalls : control.calls r ≠ []) (verdict : Bool) (c : Counters) :
    r.count verdict c = c ↔ ¬ r.Counts := by
  obtain ⟨now, operation⟩ := r
  cases operation with
  | shouldDrop => exact iff_of_false (c.countQuery_ne verdict) (not_not_intro trivial)
  | recordFrame kind size =>
    by_cases hsize : size = 0
    · simp [Control.calls, hsize] at hcalls
    · refine iff_of_false ?_ (not_not_intro trivial)
      simp only [Request.count, hsize, if_false]
      exact c.countFrame_ne size.toNat
  | configure p => exact iff_of_true rfl not_false
  | reset => exact iff_of_true rfl not_false
  | updateTarget n => exact iff_of_true rfl not_false
  | measureFrameRate => exact iff_of_true rfl not_false
  | setDropping enabled => exact iff_of_true rfl not_false
  | readTarget => exact iff_of_true rfl not_false
  | readParameters => exact iff_of_true rfl not_false
  | readReport => exact iff_of_true rfl not_false

namespace Governor

variable {σ : Type}

private theorem assemble_inj {c c' : Control} {d d' : σ} {n n' : Counters} :
    assemble c d n = assemble c' d' n' ↔ c = c' ∧ d = d' ∧ n = n' := by
  constructor
  · intro h
    exact ⟨congrArg control h, congrArg Governor.dropper h, congrArg Governor.counters h⟩
  · rintro ⟨rfl, rfl, rfl⟩
    rfl

/-- A governor without the recorder in front of its dropper. -/
def unrecorded (g : Governor (Recorder σ)) : Governor σ :=
  assemble g.control g.dropper.inner g.counters

private theorem answer_unrecorded (g : Governor (Recorder σ)) (r : Request) (verdict : Bool) :
    g.unrecorded.answer r verdict = g.answer r verdict := by
  obtain ⟨now, operation⟩ := r
  cases operation <;> rfl

variable [Dropper σ] {g g' : Governor (Recorder σ)} {r : Request} {e : Interruption}

/-- A request that completes in spite of possible faults does what it does without them. -/
theorem perform_unrecorded {a : Answer} (h : perform r.now r.operation g = .ok a g') :
    perform r.now r.operation g.unrecorded = .ok a g'.unrecorded := by
  obtain ⟨verdict, hcalls, hdone, hanswer⟩ := callAll_of_perform h
  have hplain := perform_of_ok (g := g.unrecorded) (r := r) (Recorder.callAll_inner hcalls)
  have hnext : g.unrecorded.completed r verdict g'.dropper.inner = g'.unrecorded := by
    rw [hdone]
    rfl
  rw [hplain, hnext, hanswer, answer_unrecorded]

theorem run_unrecorded {requests : List Request} {answers : List Answer}
    {final : Governor (Recorder σ)} (h : run requests g = .ok answers final) :
    run requests g.unrecorded = .ok answers final.unrecorded := by
  induction requests generalizing g answers with
  | nil =>
    cases h
    rfl
  | cons r rest ih =>
    obtain ⟨a, as, next, rfl, hfirst, hrest⟩ := run_cons_eq_ok h
    exact run_cons_of_ok (perform_unrecorded hfirst) (ih hrest)

/-- An interrupted request has settled the control, and its dropper has seen the calls before the
fault. -/
private theorem unrecorded_of_interrupted (hreliable : Dropper.Reliable σ)
    (h : perform r.now r.operation g = .error e g') :
    ∃ made c rest verdict, (g.control.step r).calls r = made ++ c :: rest ∧
      Dropper.callAll false made g.dropper.inner = .ok verdict g'.dropper.inner ∧
      g'.unrecorded = assemble (g.control.step r) g'.dropper.inner (r.start g.counters) := by
  cases hcalls : Dropper.callAll false ((g.control.step r).calls r) g.dropper with
  | ok verdict dropper =>
    rw [perform_of_ok hcalls] at h
    cases h
  | error e' dropper =>
    rw [perform_of_error hcalls] at h
    cases h
    obtain ⟨made, c, rest, verdict, hsplit, hmade⟩ :=
      Recorder.callAll_inner_of_error hreliable hcalls
    exact ⟨made, c, rest, verdict, hsplit, hmade, rfl⟩

/-- What an interrupted request leaves, in any state and over any dropper whose interrupted calls
leave it untouched: the control of the completed request, the dropper after the calls before the
fault, and the counters with which the request started. This is where the governor was or where the
request would have taken it in two cases only: the request had not changed anything so far, as is
always so for a frame to be charged, or it counts nothing and its remaining calls would not change
the dropper. -/
theorem interrupted_before_or_completed_iff (hreliable : Dropper.Reliable σ)
    (h : perform r.now r.operation g = .error e g') :
    ∃ made c rest verdict answer completed,
      (g.control.step r).calls r = made ++ c :: rest ∧
      Dropper.callAll false made g.dropper.inner = .ok verdict g'.dropper.inner ∧
      perform r.now r.operation g.unrecorded = .ok answer completed ∧
      g'.unrecorded =
        assemble completed.control g'.dropper.inner (r.start g.counters) ∧
      (∀ kind size, r.operation = .recordFrame kind size → g'.unrecorded = g.unrecorded) ∧
      (g'.unrecorded = g.unrecorded ∨ g'.unrecorded = completed ↔
        completed.control = g.control ∧ g'.dropper.inner = g.dropper.inner ∧
            r.start g.counters = g.counters ∨
          ¬ r.Counts ∧ g'.dropper.inner = completed.dropper) := by
  obtain ⟨made, c, rest, verdict, hsplit, hmade, hleft⟩ := unrecorded_of_interrupted hreliable h
  obtain ⟨verdict', dropper, hall⟩ :=
    hreliable.callAll false ((g.control.step r).calls r) g.dropper.inner
  have hdone := perform_of_ok (g := g.unrecorded) (r := r) hall
  refine ⟨made, c, rest, verdict, _, _, hsplit, hmade, hdone, hleft, ?_, ?_⟩
  · intro kind size hrecord
    -- Charging a frame makes one call only, so none came before the fault.
    obtain ⟨now, operation⟩ := r
    cases hrecord
    have hnone : made = [] := by
      by_cases hsize : size = 0
      · simp [Control.calls, hsize] at hsplit
      · simp only [Control.calls, hsize, if_false] at hsplit
        cases made with
        | nil => rfl
        | cons first others => simp at hsplit
    rw [hnone] at hmade
    have hsame : g.dropper.inner = g'.dropper.inner := (EStateM.Result.ok.inj hmade).2
    rw [hleft, ← hsame]
    rfl
  · have hcalls : (g.control.step r).calls r ≠ [] := by
      rw [hsplit]
      exact List.append_ne_nil_of_right_ne_nil _ (List.cons_ne_nil _ _)
    have hcount := Request.count_eq_self_iff hcalls verdict' (r.start g.counters)
    rw [hleft, unrecorded, completed, assemble_inj, assemble_inj, control_assemble, ← hcount]
    constructor
    · rintro (⟨hc, hd, hn⟩ | ⟨-, hd, hn⟩)
      · exact .inl ⟨hc, hd, hn⟩
      · exact .inr ⟨hn.symm, hd⟩
    · rintro (⟨hc, hd, hn⟩ | ⟨hn, hd⟩)
      · exact .inl ⟨hc, hd, hn⟩
      · exact .inr ⟨rfl, hd, hn.symm⟩

/-- A frame whose charge is interrupted leaves no trace. -/
theorem interrupted_before_or_completed_frame :
    ∃ fresh g' : Governor (Recorder Scripted),
      create .standard (Recorder.create (Scripted.create []) [2]) = .ok fresh ∧
      Dropper.Reliable Scripted ∧
      perform 0 (.recordFrame .delta 1200) fresh = .error {} g' ∧
      g'.unrecorded = fresh.unrecorded := by
  obtain ⟨fresh, hfresh⟩ : ∃ fresh : Governor (Recorder Scripted),
    create .standard (Recorder.create (Scripted.create []) [2]) = .ok fresh := ⟨_, rfl⟩
  obtain ⟨g', hg'⟩ : ∃ g', perform 0 (.recordFrame .delta 1200) fresh = .error {} g' := by
    cases hfresh
    exact ⟨_, rfl⟩
  obtain ⟨-, -, -, -, -, -, -, -, -, -, htrace, -⟩ :=
    interrupted_before_or_completed_iff (r := ⟨0, .recordFrame .delta 1200⟩) Scripted.reliable hg'
  exact ⟨fresh, g', hfresh, Scripted.reliable, hg', htrace .delta 1200 rfl⟩

/-- Configuring again with the same parameters changes nothing if it completes; interrupted between
its two calls it leaves a bucket without a threshold. -/
theorem reconfiguration_interrupted_between :
    ∃ fresh g' : Governor (Recorder LeakyBucket),
      create .standard (Recorder.create (LeakyBucket.create .standard) [5]) = .ok fresh ∧
      let p : EncodingParameters := ⟨0, 300000, 30⟩
      let g := fresh.afterAll [⟨0, .configure p⟩]
      perform 0 (.configure p) g = .error {} g' ∧
        perform 0 (.configure p) g.unrecorded = .ok .done g.unrecorded ∧
        g.unrecorded.dropper.threshold = 300 ∧ g'.unrecorded.dropper.threshold = 0 ∧
        g'.unrecorded ≠ g.unrecorded := by
  refine ⟨_, _, rfl, rfl, rfl, by decide +kernel, by decide +kernel, ?_⟩
  intro h
  have hthreshold := congrArg (fun g : Governor LeakyBucket => g.dropper.threshold) h
  revert hthreshold
  decide +kernel

end Governor

end RateGovernor
