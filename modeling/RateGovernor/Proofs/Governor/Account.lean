import Mathlib
import RateGovernor.Proofs.Governor.History

/-!
# The counters as an account

The counters of a governor are compared with a log of everything that was asked of it and what came
of each request. Only what came after the last configuration counts, be it completed or interrupted,
and of that only what was answered. A step lemma says what one request adds, whatever the dropper
does to it; the account of a run follows by induction.
-/

namespace RateGovernor

/-- A request with its answer, or without one if it was interrupted. -/
structure Event where
  request : Request
  answer? : Option Answer

namespace Event

/-- Counting starts over: the governor is configured or reset, even if a call to the dropper is
interrupted. -/
def restarts (e : Event) : Bool :=
  match e.request.operation with
  | .configure _ | .reset => true
  | _ => false

/-- A drop query was answered. -/
def queried (e : Event) : Bool := e.request.operation = .shouldDrop ∧ e.answer?.isSome

/-- A drop query was answered with a drop. -/
def dropped (e : Event) : Bool :=
  e.request.operation = .shouldDrop ∧ e.answer? = some (.verdict true)

private theorem queried_of_dropped (e : Event) (h : e.dropped = true) : e.queried = true := by
  simp only [queried, dropped, decide_eq_true_iff] at h ⊢
  rw [h.2]
  exact ⟨h.1, rfl⟩

/-- The size of a frame that was handed over and charged. -/
def charged? (e : Event) : Option UInt64 :=
  match e.request.operation, e.answer? with
  | .recordFrame _ size, some (.accounting .recorded) => some size
  | _, _ => none

end Event

/-- The events since counting last started over, in a log that is newest first. -/
def sinceRestart (log : List Event) : List Event := log.takeWhile (!·.restarts)

/-- The counters that a log, newest first, accounts for. -/
def account (log : List Event) : Counters where
  queried := (sinceRestart log).countP (·.queried)
  dropped := (sinceRestart log).countP (·.dropped)
  encoded := (sinceRestart log).countP (·.charged?.isSome)
  bytes := (((sinceRestart log).filterMap (·.charged?)).map (·.toNat)).sum

private theorem account_cons_of_restarts {e : Event} (h : e.restarts = true) (log : List Event) :
    account (e :: log) = .zero := by
  have hnone : sinceRestart (e :: log) = [] := by
    rw [sinceRestart, List.takeWhile_cons_of_neg]
    simp [h]
  rw [account, hnone]
  rfl

private theorem sinceRestart_cons {e : Event} (h : e.restarts = false) (log : List Event) :
    sinceRestart (e :: log) = e :: sinceRestart log := by
  apply List.takeWhile_cons_of_pos
  simp [h]

private theorem account_cons_query (now : Int) (verdict : Bool) (log : List Event) :
    account (⟨⟨now, .shouldDrop⟩, some (.verdict verdict)⟩ :: log) =
      (account log).countQuery verdict := by
  rw [account, sinceRestart_cons rfl]
  cases verdict <;> simp [account, Counters.countQuery, Event.queried, Event.dropped,
    Event.charged?]

private theorem account_cons_frame (now : Int) (kind : FrameKind) (size : UInt64)
    (log : List Event) :
    account (⟨⟨now, .recordFrame kind size⟩, some (.accounting .recorded)⟩ :: log) =
      (account log).countFrame size.toNat := by
  rw [account, sinceRestart_cons rfl]
  simp [account, Counters.countFrame, Event.queried, Event.dropped, Event.charged?, Nat.add_comm]

private theorem account_cons_of_idle {e : Event} (hgoes : e.restarts = false)
    (hquery : e.queried = false)
    (hframe : e.charged? = none) (log : List Event) : account (e :: log) = account log := by
  have hdrop : e.dropped = false := by
    apply Bool.eq_false_of_not_eq_true
    intro hdropped
    rw [e.queried_of_dropped hdropped] at hquery
    cases hquery
  rw [account, sinceRestart_cons hgoes]
  simp [account, hquery, hdrop, hframe]

theorem dropped_le_queried (log : List Event) : (account log).dropped ≤ (account log).queried := by
  apply List.countP_mono_left
  intro e _
  exact e.queried_of_dropped

namespace Governor

variable {σ : Type} [Dropper σ] {config : EstimatorConfig} {dropper : σ} {fresh g g' : Governor σ}

/-- A request to a governor and what comes of it. -/
def event (g : Governor σ) (r : Request) : Event where
  request := r
  answer? :=
    match perform r.now r.operation g with
    | .ok a _ => some a
    | .error _ _ => none

/-- The events of a run, newest first; an interrupted request does not end it. -/
def log (g : Governor σ) : List Request → List Event
  | [] => []
  | r :: rest => log (g.after r) rest ++ [g.event r]

variable {r : Request}

theorem event_of_ok {a : Answer} (h : perform r.now r.operation g = .ok a g') :
    g.event r = ⟨r, some a⟩ := by
  rw [event, h]

theorem event_of_error {e : Interruption} (h : perform r.now r.operation g = .error e g') :
    g.event r = ⟨r, none⟩ := by
  rw [event, h]

private theorem counters_of_ok {a : Answer} (h : perform r.now r.operation g = .ok a g') :
    ∃ verdict, g'.counters = r.count verdict (r.start g.counters) ∧ a = g'.answer r verdict := by
  obtain ⟨verdict, -, hdone, hanswer⟩ := callAll_of_perform h
  refine ⟨verdict, ?_, hanswer⟩
  rw [hdone]
  rfl

private theorem counters_of_error {e : Interruption}
    (h : perform r.now r.operation g = .error e g') :
    g'.counters = r.start g.counters := by
  cases hcalls : Dropper.callAll false ((g.control.step r).calls r) g.dropper with
  | ok verdict dropper =>
    rw [perform_of_ok hcalls] at h
    cases h
  | error e' dropper =>
    rw [perform_of_error hcalls] at h
    cases h
    rfl

/-- What one request adds to the account, whether it is answered or interrupted. -/
theorem counters_after {past : List Event} (hg : g.counters = account past) (r : Request) :
    (g.after r).counters = account (g.event r :: past) := by
  cases h : perform r.now r.operation g with
  | ok a g' =>
    obtain ⟨verdict, hcounters, rfl⟩ := counters_of_ok h
    rw [after_of_ok h, event_of_ok h, hcounters, hg]
    obtain ⟨now, operation⟩ := r
    cases operation with
    | configure p => exact (account_cons_of_restarts rfl past).symm
    | reset => exact (account_cons_of_restarts rfl past).symm
    | shouldDrop => exact (account_cons_query now verdict past).symm
    | recordFrame kind size =>
      by_cases hsize : size = 0
      · simp only [Request.count, Request.start, answer, hsize, if_true]
        exact (account_cons_of_idle rfl rfl rfl past).symm
      · simp only [Request.count, Request.start, answer, hsize, if_false]
        exact (account_cons_frame now kind size past).symm
    | _ => exact (account_cons_of_idle rfl rfl rfl past).symm
  | error e g' =>
    rw [after_of_error h, event_of_error h, counters_of_error h, hg]
    obtain ⟨now, operation⟩ := r
    cases operation with
    | configure p => exact (account_cons_of_restarts rfl past).symm
    | reset => exact (account_cons_of_restarts rfl past).symm
    | _ => exact (account_cons_of_idle rfl rfl rfl past).symm

theorem counters_afterAll {past : List Event} (hg : g.counters = account past)
    (requests : List Request) :
    (g.afterAll requests).counters = account (g.log requests ++ past) := by
  induction requests generalizing g past with
  | nil => exact hg
  | cons r rest ih =>
    rw [log, List.append_assoc, List.singleton_append]
    exact ih (counters_after hg r)

theorem counters_of_create (hcreate : create config dropper = .ok fresh) :
    fresh.counters = .zero := by
  have hreset := (create_eq_ok_iff.mp hcreate).2
  obtain ⟨verdict, hcounters, -⟩ := counters_of_ok (r := ⟨0, .reset⟩) hreset
  exact hcounters

/-- Requests that make up whole capture cycles of a governor: a query, and after it a frame exactly
if the query is answered not to drop. A query that is interrupted decides nothing. -/
inductive Captures : Governor σ → List Request → Prop
  | done (g : Governor σ) : Captures g []
  | interrupted {g g' : Governor σ} {now : Int} {e : Interruption} {rest : List Request} :
    perform now .shouldDrop g = .error e g' → Captures g' rest →
    Captures g (⟨now, .shouldDrop⟩ :: rest)
  | dropped {g g' : Governor σ} {now : Int} {rest : List Request} :
    perform now .shouldDrop g = .ok (.verdict true) g' → Captures g' rest →
    Captures g (⟨now, .shouldDrop⟩ :: rest)
  | encoded {g g' g'' : Governor σ} {now later : Int} {kind : FrameKind} {size : UInt64}
      {a : Answer} {rest : List Request} :
    perform now .shouldDrop g = .ok (.verdict false) g' → size ≠ 0 →
    perform later (.recordFrame kind size) g' = .ok a g'' → Captures g'' rest →
    Captures g (⟨now, .shouldDrop⟩ :: ⟨later, .recordFrame kind size⟩ :: rest)

/-- Whole capture cycles keep the balance of queries against drops and frames. -/
theorem Captures.balanced {requests : List Request} (h : Captures g requests)
    (hg : g.counters.queried = g.counters.dropped + g.counters.encoded) :
    (g.afterAll requests).counters.queried =
      (g.afterAll requests).counters.dropped + (g.afterAll requests).counters.encoded := by
  induction h with
  | done g => exact hg
  | @interrupted g g' now e rest hquery hrest ih =>
    have hcounters := counters_of_error (r := ⟨now, .shouldDrop⟩) hquery
    rw [afterAll_cons, after_of_error (r := ⟨now, .shouldDrop⟩) hquery]
    apply ih
    rw [hcounters]
    exact hg
  | @dropped g g' now rest hquery hrest ih =>
    obtain ⟨verdict, hcounters, hanswer⟩ := counters_of_ok (r := ⟨now, .shouldDrop⟩) hquery
    obtain rfl : true = verdict := Answer.verdict.inj hanswer
    rw [afterAll_cons, after_of_ok (r := ⟨now, .shouldDrop⟩) hquery]
    apply ih
    simp only [hcounters, Request.count, Request.start, Counters.countQuery, Bool.toNat_true]
    omega
  | @encoded g g' g'' now later kind size a rest hquery hsize hframe hrest ih =>
    obtain ⟨verdict, hcounters, hanswer⟩ := counters_of_ok (r := ⟨now, .shouldDrop⟩) hquery
    obtain rfl : false = verdict := Answer.verdict.inj hanswer
    obtain ⟨verdict, hcharged, -⟩ := counters_of_ok (r := ⟨later, .recordFrame kind size⟩) hframe
    rw [afterAll_cons, after_of_ok (r := ⟨now, .shouldDrop⟩) hquery, afterAll_cons,
      after_of_ok (r := ⟨later, .recordFrame kind size⟩) hframe]
    apply ih
    simp only [hcharged, hcounters, Request.count, Request.start, if_neg hsize,
      Counters.countFrame, Counters.countQuery, Bool.toNat_false]
    omega

/-- Whatever the dropper does, the report after a run shows what the log of the run accounts for,
as long as the totals fit its fields: of what came after the construction or the last configuration
or reset, interrupted or not, the queries that were answered, those answered with a drop, the frames
that were charged and their bytes. There are never more drops than queries, and whole capture cycles
keep the queries equal to the drops and frames together. -/
theorem counters_eq_account (hcreate : create config dropper = .ok fresh)
    (requests : List Request) :
    let g := fresh.afterAll requests
    let total := account (fresh.log requests)
    g.counters = total ∧ total.dropped ≤ total.queried ∧
      (∀ now, perform now .readReport g = .ok (.report g.report) g) ∧
      (total.queried < 2 ^ 64 → total.encoded < 2 ^ 64 → total.bytes < 2 ^ 64 →
        g.report.framesQueried.toNat = total.queried ∧
        g.report.framesDropped.toNat = total.dropped ∧
        g.report.framesEncoded.toNat = total.encoded ∧
        g.report.bytesEncoded.toNat = total.bytes ∧
        g.report.framesDropped ≤ g.report.framesQueried) ∧
      ∀ cycles, Captures g cycles → total.queried = total.dropped + total.encoded →
        let last := account (g.log cycles ++ fresh.log requests)
        (g.afterAll cycles).counters = last ∧ last.queried = last.dropped + last.encoded := by
  intro g total
  have hzero := counters_of_create hcreate
  have htotal : g.counters = total := by
    have hblank : fresh.counters = account [] := hzero
    have hrun := counters_afterAll hblank requests
    rwa [List.append_nil] at hrun
  have hdropped : total.dropped ≤ total.queried := dropped_le_queried _
  refine ⟨htotal, hdropped, fun now => rfl, ?report, ?cycles⟩
  case report =>
    intro hqueried hencoded hbytes
    have hshown : ∀ {n : ℕ}, n < 2 ^ 64 → (UInt64.ofNat n).toNat = n := fun h =>
      UInt64.toNat_ofNat_of_lt' h
    simp only [report, htotal, UInt64.le_iff_toNat_le]
    rw [hshown hqueried, hshown (hdropped.trans_lt hqueried), hshown hencoded, hshown hbytes]
    exact ⟨rfl, rfl, rfl, rfl, hdropped⟩
  case cycles =>
    intro cycles hcaptures hbalanced
    have hlast := counters_afterAll htotal cycles
    have hbalance := hcaptures.balanced (by rw [htotal]; exact hbalanced)
    rw [hlast] at hbalance
    exact ⟨hlast, hbalance⟩

/-- A frame before a configuration does not count, though the configuration is interrupted; nor do
an interrupted query, an interrupted frame and an empty one. -/
theorem counters_eq_account_interrupted :
    let past : List Request := [⟨0, .recordFrame .key 700⟩, ⟨0, .configure ⟨0, 300000, 30⟩⟩]
    let cycles : List Request := [⟨33, .shouldDrop⟩, ⟨33, .recordFrame .delta 1200⟩,
      ⟨66, .shouldDrop⟩, ⟨99, .shouldDrop⟩]
    let more : List Request := [⟨99, .recordFrame .delta 900⟩, ⟨99, .recordFrame .key 0⟩]
    ∃ fresh : Governor (Recorder Scripted),
      create .standard (Recorder.create (Scripted.create [false, true]) [3, 9, 10]) = .ok fresh ∧
      Captures (fresh.afterAll past) cycles ∧
      let g := fresh.afterAll (past ++ cycles ++ more)
      g.counters = ⟨2, 1, 1, 1200⟩ ∧ g.report.framesQueried.toNat = 2 ∧
        g.report.bytesEncoded.toNat = 1200 := by
  intro past cycles more
  obtain ⟨fresh, hcreate⟩ : ∃ fresh, create .standard
    (Recorder.create (Scripted.create [false, true]) [3, 9, 10]) = .ok fresh := ⟨_, rfl⟩
  obtain ⟨hcounters, -, -, hreport, -⟩ :=
    counters_eq_account hcreate (past ++ cycles ++ more)
  have htotal : account (fresh.log (past ++ cycles ++ more)) = ⟨2, 1, 1, 1200⟩ := by
    cases hcreate
    decide +kernel
  rw [htotal] at hcounters hreport
  obtain ⟨hqueried, -, -, hbytes, -⟩ := hreport (by decide) (by decide) (by decide)
  refine ⟨fresh, hcreate, ?_, hcounters, hqueried, hbytes⟩
  cases hcreate
  exact .encoded rfl (by decide) rfl (.dropped rfl (.interrupted rfl (.done _)))

end Governor

end RateGovernor
