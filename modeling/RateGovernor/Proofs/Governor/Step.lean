import Mathlib
import RateGovernor.Governor.Operation
import RateGovernor.Proofs.Dropper.Calls

/-!
# The anatomy of an operation

Every operation of a governor has the same three parts. It first settles all that no dropper can
influence, the control of the governor; it then makes a list of calls that the control determines;
and it last counts and answers, which alone depends on the verdict. If a call is interrupted, the
first part stands and the last part is left out.
-/

namespace RateGovernor

/-- An operation at a reading of the clock. -/
structure Request where
  now : Int
  operation : Operation
  deriving DecidableEq

/-- The part of a governor that no dropper can influence. -/
@[ext]
structure Control where
  parameters : EncodingParameters
  target : UInt32
  estimator : FrameRateEstimator
  droppingEnabled : Bool

namespace Control

def configure (c : Control) (p : EncodingParameters) : Control :=
  { c with
    parameters := p.clamped
    target := p.targetBitrate
    estimator := c.estimator.reset }

def step (c : Control) (r : Request) : Control :=
  match r.operation with
  | .configure p => c.configure p
  | .reset => c.configure .zero
  | .updateTarget n => { c with target := c.parameters.cap n }
  | .measureFrameRate => { c with estimator := c.estimator.estimate r.now }
  | .shouldDrop => { c with estimator := c.estimator.update r.now }
  | .setDropping enabled => { c with droppingEnabled := enabled }
  | _ => c

def frameRate (c : Control) : Single :=
  if c.estimator.rate.isZero then c.parameters.frameRate else c.estimator.rate

/-- The calls that a request makes once it has settled the control. -/
def calls (c : Control) (r : Request) : List Call :=
  match r.operation with
  | .configure _ | .reset =>
    [.perform .reset, .perform (.setRates (kilobitsPerSecond c.target) c.parameters.frameRate)]
  | .updateTarget _ => [.perform (.setRates (kilobitsPerSecond c.target) c.frameRate)]
  | .shouldDrop =>
    .perform (.leak c.estimator.roundedRate) :: if c.droppingEnabled then [.shouldDrop] else []
  | .recordFrame kind size => if size = 0 then [] else [.perform (.fill size (kind == .delta))]
  | .setDropping enabled => [.perform (.enable enabled)]
  | _ => []

end Control

namespace Request

/-- The counters with which a request starts. -/
def start (r : Request) (c : Counters) : Counters :=
  match r.operation with
  | .configure _ | .reset => .zero
  | _ => c

/-- The counters with which a request ends unless it is interrupted. -/
def count (r : Request) (verdict : Bool) (c : Counters) : Counters :=
  match r.operation with
  | .shouldDrop => c.countQuery verdict
  | .recordFrame _ size => if size = 0 then c else c.countFrame size.toNat
  | _ => c

end Request

namespace Governor

variable {σ : Type}

def control (g : Governor σ) : Control := ⟨g.parameters, g.target, g.estimator, g.droppingEnabled⟩

def assemble (c : Control) (dropper : σ) (counters : Counters) : Governor σ :=
  ⟨c.parameters, c.target, c.estimator, dropper, c.droppingEnabled, counters⟩

@[simp] theorem control_assemble (c : Control) (dropper : σ) (counters : Counters) :
    (assemble c dropper counters).control = c := rfl

def answer (g : Governor σ) (r : Request) (verdict : Bool) : Answer :=
  match r.operation with
  | .configure _ | .reset | .setDropping _ => .done
  | .updateTarget _ | .readTarget => .bitrate g.target
  | .measureFrameRate => .frameRate g.estimator.roundedRate
  | .shouldDrop => .verdict verdict
  | .recordFrame _ size => .accounting (if size = 0 then .ignored else .recorded)
  | .readParameters => .parameters g.parameters
  | .readReport => .report g.report

section Call

variable {α β : Type}

theorem call_of_ok {x : EStateM Interruption σ α} {g : Governor σ} {a : α} {dropper : σ}
    (h : x g.dropper = .ok a dropper) : call x g = .ok a { g with dropper } := by
  rw [call, h]

theorem call_of_error {x : EStateM Interruption σ α} {g : Governor σ} {e : Interruption}
    {dropper : σ} (h : x g.dropper = .error e dropper) :
    call x g = .error e { g with dropper } := by
  rw [call, h]

private theorem call_bind (x : EStateM Interruption σ α) (f : α → EStateM Interruption σ β) :
    call (x >>= f) = call x >>= fun a => call (f a) := by
  funext g
  cases h : x g.dropper with
  | ok a dropper => rw [bind_of_ok (call_of_ok h), call, bind_of_ok h, call]
  | error e dropper => rw [bind_of_error (call_of_error h), call, bind_of_error h]

private theorem call_bind_apply (x : EStateM Interruption σ α) (f : α → Action σ β)
    (g : Governor σ) :
    (call x >>= f) g =
      match x g.dropper with
      | .ok a dropper => f a { g with dropper }
      | .error e dropper => .error e { g with dropper } := by
  cases h : x g.dropper with
  | ok a dropper => exact bind_of_ok (call_of_ok h) f
  | error e dropper => exact bind_of_error (call_of_error h) f

private theorem get_bind_apply (f : Governor σ → Action σ β) (g : Governor σ) :
    (get >>= f) g = f g g := rfl

private theorem set_bind_apply (g' : Governor σ) (f : PUnit → Action σ β) (g : Governor σ) :
    (set g' >>= f) g = f ⟨⟩ g' := rfl

private theorem modify_bind_apply (change : Governor σ → Governor σ) (f : PUnit → Action σ β)
    (g : Governor σ) : (modify change >>= f) g = f ⟨⟩ (change g) := rfl

end Call

variable [Dropper σ]

private theorem call_callAll_cons (verdict : Bool) (c : Call) (rest : List Call) :
    (call (Dropper.callAll verdict (c :: rest)) : Action σ Bool) =
      call (Dropper.call verdict c) >>= fun v => call (Dropper.callAll v rest) := by
  rw [Dropper.callAll, List.foldlM_cons, call_bind]
  rfl

private theorem call_call_perform (verdict : Bool) (command : Command) :
    (call (Dropper.call verdict (.perform command)) : Action σ Bool) =
      call (Dropper.perform command) >>= fun _ => pure verdict := by
  rw [Dropper.call, call_bind]
  rfl

private theorem call_callAll_nil (verdict : Bool) :
    (call (Dropper.callAll verdict []) : Action σ Bool) = pure verdict := rfl

/-- The end of an operation whose calls returned a verdict. -/
def finish (r : Request) (verdict : Bool) : Action σ Answer := fun g =>
  let g' := { g with counters := r.count verdict g.counters }
  .ok (g'.answer r verdict) g'

private theorem perform_eq_parts (g : Governor σ) (r : Request) :
    perform r.now r.operation g =
      (call (Dropper.callAll false ((g.control.step r).calls r)) >>= finish r)
        (assemble (g.control.step r) g.dropper (r.start g.counters)) := by
  obtain ⟨now, operation⟩ := r
  cases operation with
  | configure p =>
    simp only [Control.calls, call_callAll_cons, call_call_perform, call_callAll_nil, perform,
      configure, bind_assoc, pure_bind, modify_bind_apply, call_bind_apply]
    rfl
  | reset =>
    simp only [Control.calls, call_callAll_cons, call_call_perform, call_callAll_nil, perform,
      reset, configure, bind_assoc, pure_bind, modify_bind_apply, call_bind_apply]
    rfl
  | updateTarget n =>
    simp only [Control.calls, call_callAll_cons, call_call_perform, call_callAll_nil, perform,
      updateTarget, bind_assoc, pure_bind, get_bind_apply, set_bind_apply, call_bind_apply]
    rfl
  | measureFrameRate => rfl
  | shouldDrop =>
    -- The switch decides how many calls there are, and no call changes it.
    obtain ⟨parameters, target, estimator, dropper, enabled, counters⟩ := g
    cases enabled with
    | false =>
      simp only [Control.calls, call_callAll_cons, call_call_perform, perform, shouldDrop,
        bind_assoc, pure_bind, modify_bind_apply, get_bind_apply, call_bind_apply]
      rfl
    | true =>
      simp only [Control.calls, Control.step, control, if_true, call_callAll_cons,
        call_call_perform, call_callAll_nil, perform, shouldDrop, bind_assoc, pure_bind,
        modify_bind_apply, get_bind_apply, call_bind_apply]
      rfl
  | recordFrame kind size =>
    by_cases hsize : size = 0
    · simp only [Control.calls, hsize, if_true, perform, recordFrame]
      rfl
    · simp only [Control.calls, hsize, if_false, call_callAll_cons, call_call_perform,
        call_callAll_nil, perform, recordFrame, bind_assoc, pure_bind, call_bind_apply, finish,
        Request.count, answer]
      rfl
  | setDropping enabled =>
    simp only [Control.calls, call_callAll_cons, call_call_perform, call_callAll_nil, perform,
      setDropping, bind_assoc, pure_bind, modify_bind_apply, call_bind_apply]
    rfl
  | readTarget => rfl
  | readParameters => rfl
  | readReport => rfl

/-- The governor after a request whose calls left a dropper and a verdict. -/
def completed (g : Governor σ) (r : Request) (verdict : Bool) (dropper : σ) : Governor σ :=
  assemble (g.control.step r) dropper (r.count verdict (r.start g.counters))

variable {g g' : Governor σ} {r : Request} {dropper : σ}

theorem perform_of_ok {verdict : Bool}
    (h : Dropper.callAll false ((g.control.step r).calls r) g.dropper = .ok verdict dropper) :
    perform r.now r.operation g =
      .ok ((g.completed r verdict dropper).answer r verdict) (g.completed r verdict dropper) := by
  have hcall := call_of_ok (g := assemble (g.control.step r) g.dropper (r.start g.counters)) h
  rw [perform_eq_parts, bind_of_ok hcall]
  rfl

theorem perform_of_error {e : Interruption}
    (h : Dropper.callAll false ((g.control.step r).calls r) g.dropper = .error e dropper) :
    perform r.now r.operation g =
      .error e (assemble (g.control.step r) dropper (r.start g.counters)) := by
  have hcall := call_of_error (g := assemble (g.control.step r) g.dropper (r.start g.counters)) h
  rw [perform_eq_parts, bind_of_error hcall]
  rfl

/-- A request is answered only after all of its calls. -/
theorem callAll_of_perform {a : Answer} (h : perform r.now r.operation g = .ok a g') :
    ∃ verdict, Dropper.callAll false ((g.control.step r).calls r) g.dropper =
        .ok verdict g'.dropper ∧
      g' = g.completed r verdict g'.dropper ∧ a = g'.answer r verdict := by
  cases hcalls : Dropper.callAll false ((g.control.step r).calls r) g.dropper with
  | ok verdict dropper =>
    rw [perform_of_ok hcalls] at h
    cases h
    exact ⟨verdict, rfl, rfl, rfl⟩
  | error e dropper =>
    rw [perform_of_error hcalls] at h
    cases h

theorem control_of_perform {a : Answer} (h : perform r.now r.operation g = .ok a g') :
    g'.control = g.control.step r := by
  obtain ⟨verdict, -, hdone, -⟩ := callAll_of_perform h
  rw [hdone]
  rfl

/-- The governor that a request leaves, answered or interrupted. -/
def after (g : Governor σ) (r : Request) : Governor σ :=
  match perform r.now r.operation g with
  | .ok _ g' => g'
  | .error _ g' => g'

def afterAll (g : Governor σ) (requests : List Request) : Governor σ :=
  requests.foldl after g

theorem after_of_ok {a : Answer} (h : perform r.now r.operation g = .ok a g') :
    g.after r = g' := by
  rw [after, h]

theorem after_of_error {e : Interruption} (h : perform r.now r.operation g = .error e g') :
    g.after r = g' := by
  rw [after, h]

theorem afterAll_cons (g : Governor σ) (r : Request) (rest : List Request) :
    g.afterAll (r :: rest) = (g.after r).afterAll rest := rfl

theorem afterAll_append (g : Governor σ) (requests later : List Request) :
    g.afterAll (requests ++ later) = (g.afterAll requests).afterAll later :=
  List.foldl_append

theorem control_after (g : Governor σ) (r : Request) :
    (g.after r).control = g.control.step r := by
  cases h : Dropper.callAll false ((g.control.step r).calls r) g.dropper with
  | ok verdict dropper =>
    rw [after, perform_of_ok h]
    rfl
  | error e dropper =>
    rw [after, perform_of_error h]
    rfl

theorem control_afterAll (g : Governor σ) (requests : List Request) :
    (g.afterAll requests).control = requests.foldl Control.step g.control := by
  induction requests generalizing g with
  | nil => rfl
  | cons r rest ih =>
    rw [List.foldl_cons, ← control_after]
    exact ih (g.after r)

end Governor

end RateGovernor
