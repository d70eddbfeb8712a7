import Mathlib
import RateGovernor.Proofs.Governor.Interruption

/-!
# Two threads on one governor

An encoder asks about frames and charges them, a bandwidth estimator sends bitrates, and the
governor takes their requests one at a time in any order. The encoder's requests never touch the
target, and a bitrate touches nothing that the encoder's requests depend on except the dropper. So
of all that the two threads see, only the verdicts and their count depend on the order.
-/

namespace RateGovernor

/-- A list is made of two others, each taken in its own order. -/
inductive Interleaves {α : Type} : List α → List α → List α → Prop where
  | nil : Interleaves [] [] []
  | left {x : α} {xs ys zs : List α} : Interleaves xs ys zs → Interleaves (x :: xs) ys (x :: zs)
  | right {y : α} {xs ys zs : List α} : Interleaves xs ys zs → Interleaves xs (y :: ys) (y :: zs)

/-- A bitrate from the network at a reading of the clock. -/
def Request.update (bitrate : Int × UInt32) : Request := ⟨bitrate.1, .updateTarget bitrate.2⟩

/-- A request of the encoder. -/
inductive Request.IsEncoding : Request → Prop where
  | query (now : Int) : IsEncoding ⟨now, .shouldDrop⟩
  | charge (now : Int) (kind : FrameKind) (size : UInt64) : IsEncoding ⟨now, .recordFrame kind size⟩

def Request.isUpdate (r : Request) : Bool :=
  match r.operation with
  | .updateTarget _ => true
  | _ => false

/-- The answers to some of the requests of a run. -/
def answersWhere (p : Request → Bool) (requests : List Request) (answers : List Answer) :
    List Answer :=
  ((requests.zip answers).filter (p ·.1)).map (·.2)

private theorem answersWhere_cons_of_pos {p : Request → Bool} {r : Request} (h : p r = true)
    (requests : List Request) (a : Answer) (answers : List Answer) :
    answersWhere p (r :: requests) (a :: answers) = a :: answersWhere p requests answers := by
  simp [answersWhere, h]

private theorem answersWhere_cons_of_neg {p : Request → Bool} {r : Request} (h : p r = false)
    (requests : List Request) (a : Answer) (answers : List Answer) :
    answersWhere p (r :: requests) (a :: answers) = answersWhere p requests answers := by
  simp [answersWhere, h]

/-- The same answer, or two verdicts. -/
inductive Answer.AgreeButVerdict : Answer → Answer → Prop where
  | same (a : Answer) : AgreeButVerdict a a
  | verdicts (drop drop' : Bool) : AgreeButVerdict (.verdict drop) (.verdict drop')

def Call.leak? : Call → Option UInt32
  | .perform (.leak frameRate) => some frameRate
  | _ => none

/-- The whole frame rates that a dropper is told in its leaks. -/
def leaks (calls : List Call) : List UInt32 := calls.filterMap Call.leak?

private theorem leaks_append (calls calls' : List Call) :
    leaks (calls ++ calls') = leaks calls ++ leaks calls' :=
  List.filterMap_append

/-- Counters that agree on everything but the frames dropped. -/
structure Counters.AgreeButDropped (c c' : Counters) : Prop where
  queried : c.queried = c'.queried
  encoded : c.encoded = c'.encoded
  bytes : c.bytes = c'.bytes

theorem Counters.AgreeButDropped.count {c c' : Counters} (h : c.AgreeButDropped c') (r : Request)
    (verdict verdict' : Bool) :
    (r.count verdict (r.start c)).AgreeButDropped (r.count verdict' (r.start c')) := by
  obtain ⟨now, operation⟩ := r
  cases operation with
  | configure p => exact ⟨rfl, rfl, rfl⟩
  | reset => exact ⟨rfl, rfl, rfl⟩
  | shouldDrop => exact ⟨congrArg (· + 1) h.queried, h.encoded, h.bytes⟩
  | recordFrame kind size =>
    simp only [Request.count]
    split
    · exact h
    · exact ⟨h.queried, congrArg (· + 1) h.encoded, congrArg (· + size.toNat) h.bytes⟩
  | _ => exact h

namespace Governor

variable {σ : Type}

/-- Two governors that differ at most in what the encoder's requests do not depend on, their
verdicts apart: the target, the dropper and the number of frames dropped. -/
structure SameForEncoder (g h : Governor σ) : Prop where
  parameters : g.parameters = h.parameters
  estimator : g.estimator = h.estimator
  droppingEnabled : g.droppingEnabled = h.droppingEnabled
  queried : g.counters.queried = h.counters.queried
  encoded : g.counters.encoded = h.counters.encoded
  bytes : g.counters.bytes = h.counters.bytes

variable [Dropper σ] {g g' h h' final : Governor σ} {r : Request} {a b : Answer}

theorem SameForEncoder.update (hsame : SameForEncoder g h) {bitrate : Int × UInt32}
    (hg : perform bitrate.1 (.updateTarget bitrate.2) g = .ok a g') :
    SameForEncoder g' h ∧ a = .bitrate (g.parameters.cap bitrate.2) ∧
      g'.target = g.parameters.cap bitrate.2 := by
  obtain ⟨verdict, -, hdone, ha⟩ := callAll_of_perform (r := .update bitrate) hg
  rw [ha, hdone]
  exact ⟨⟨hsame.parameters, hsame.estimator, hsame.droppingEnabled, hsame.queried, hsame.encoded,
    hsame.bytes⟩, rfl, rfl⟩

/-- A request of the encoder does not touch the target, and does the same to two governors that are
the same for it; only the verdicts may differ. -/
theorem SameForEncoder.encode (hsame : SameForEncoder g h) (hr : r.IsEncoding)
    (hg : perform r.now r.operation g = .ok a g') (hh : perform r.now r.operation h = .ok b h') :
    SameForEncoder g' h' ∧ g'.target = g.target ∧ Answer.AgreeButVerdict a b ∧
      (g.control.step r).calls r = (h.control.step r).calls r := by
  obtain ⟨verdict, -, hdone, ha⟩ := callAll_of_perform hg
  obtain ⟨verdict', -, hdone', hb⟩ := callAll_of_perform hh
  have hcounters : (r.count verdict (r.start g.counters)).AgreeButDropped
      (r.count verdict' (r.start h.counters)) :=
    Counters.AgreeButDropped.count ⟨hsame.queried, hsame.encoded, hsame.bytes⟩ r verdict verdict'
  rw [ha, hb, hdone, hdone']
  cases hr with
  | query now =>
    have hestimator : g.estimator.update now = h.estimator.update now := by
      rw [hsame.estimator]
    refine ⟨⟨hsame.parameters, hestimator, hsame.droppingEnabled, hcounters.queried,
      hcounters.encoded, hcounters.bytes⟩, rfl, .verdicts verdict verdict', ?_⟩
    simp only [Control.calls, Control.step, control, hestimator, hsame.droppingEnabled]
    rfl
  | charge now kind size =>
    exact ⟨⟨hsame.parameters, hsame.estimator, hsame.droppingEnabled, hcounters.queried,
      hcounters.encoded, hcounters.bytes⟩, rfl, .same _, rfl⟩

/-- Along any interleaving the encoder sees what it sees alone, its verdicts apart, and each bitrate
is answered by the target that it puts in force. -/
theorem SameForEncoder.run {encoding merged : List Request} {updates : List (Int × UInt32)}
    {answers answersAlone : List Answer} {alone : Governor σ}
    (hmerged : Interleaves encoding (updates.map Request.update) merged)
    (hencoding : ∀ r ∈ encoding, r.IsEncoding) (hsame : SameForEncoder g h)
    (hrun : run merged g = .ok answers final) (halone : run encoding h = .ok answersAlone alone) :
    SameForEncoder final alone ∧
      answersWhere Request.isUpdate merged answers =
        updates.map (fun u => .bitrate (g.parameters.cap u.2)) ∧
      final.target = (updates.map fun u => g.parameters.cap u.2).getLast?.getD g.target ∧
      List.Forall₂ Answer.AgreeButVerdict
        (answersWhere (fun r => !r.isUpdate) merged answers) answersAlone ∧
      leaks (g.control.callsAlong merged) = leaks (h.control.callsAlong encoding) := by
  generalize hupdates : updates.map Request.update = requests at hmerged
  induction hmerged generalizing g h updates answers answersAlone with
  | nil =>
    obtain rfl : updates = [] := List.map_eq_nil_iff.mp hupdates
    cases hrun
    cases halone
    exact ⟨hsame, rfl, rfl, .nil, rfl⟩
  | @left r encoding _ merged _ ih =>
    obtain ⟨a, as, next, rfl, hfirst, hrest⟩ := run_cons_eq_ok hrun
    obtain ⟨b, bs, next', rfl, hfirst', hrest'⟩ := run_cons_eq_ok halone
    have hr := hencoding r List.mem_cons_self
    obtain ⟨hnext, htarget, hagree, hcalls⟩ := hsame.encode hr hfirst hfirst'
    have hneg : r.isUpdate = false := by cases hr <;> rfl
    obtain ⟨hend, hbitrates, hlast, hforall, hleaks⟩ :=
      ih (fun r' hr' => hencoding r' (List.mem_cons_of_mem _ hr')) hnext hrest hrest' hupdates
    have hparameters : next.parameters = g.parameters := by
      have hstep := congrArg Control.parameters (control_of_perform hfirst)
      rw [show next.parameters = _ from hstep]
      cases hr <;> rfl
    refine ⟨hend, ?_, ?_, ?_, ?_⟩
    · rw [answersWhere_cons_of_neg hneg, hbitrates, hparameters]
    · rw [hlast, htarget, hparameters]
    · rw [answersWhere_cons_of_pos (by rw [hneg]; rfl)]
      exact .cons hagree hforall
    · rw [Control.callsAlong, Control.callsAlong, leaks_append, leaks_append, hcalls,
        ← control_of_perform hfirst, ← control_of_perform hfirst', hleaks]
  | @right r _ requests merged _ ih =>
    obtain ⟨u, rest, rfl, rfl, hrest'⟩ := List.map_eq_cons_iff.mp hupdates
    obtain ⟨a, as, next, rfl, hfirst, hrest⟩ := run_cons_eq_ok hrun
    obtain ⟨hnext, rfl, htarget⟩ := hsame.update hfirst
    obtain ⟨hend, hbitrates, hlast, hforall, hleaks⟩ := ih hencoding hnext hrest halone hrest'
    have hparameters : next.parameters = g.parameters :=
      congrArg Control.parameters (control_of_perform hfirst)
    refine ⟨hend, ?_, ?_, ?_, ?_⟩
    · rw [answersWhere_cons_of_pos rfl, hbitrates, hparameters, List.map_cons]
    · rw [hlast, htarget, hparameters, List.map_cons, List.getLast?_cons, Option.getD_some]
    · rw [answersWhere_cons_of_neg rfl]
      exact hforall
    · -- A bitrate makes one call, which tells the dropper rates and is no leak.
      rw [Control.callsAlong, leaks_append, ← control_of_perform hfirst, hleaks]
      rfl

/-- From any state of a governor, over any dropper, run the encoder's requests and the network's
bitrates in any interleaving that completes. Each bitrate is answered by the lesser of itself and a
positive ceiling, and the last one stays in force; parameters, estimator, leaks, and the counts of
queries, frames and bytes are those of the encoder's requests alone, and so are the answers to
these, the verdicts apart. -/
theorem run_of_interleaves {encoding merged : List Request} {updates : List (Int × UInt32)}
    {answers answersAlone : List Answer} {alone : Governor σ}
    (hencoding : ∀ r ∈ encoding, r.IsEncoding)
    (hmerged : Interleaves encoding (updates.map Request.update) merged)
    (hrun : run merged g = .ok answers final) (halone : run encoding g = .ok answersAlone alone) :
    let ceiling := g.parameters.maxBitrate.toInt
    ∃ (applied : List UInt32) (observed observedAlone : Governor (Recorder σ)),
      applied.map UInt32.toNat = updates.map (fun u =>
        if 0 < ceiling then min u.2.toNat ceiling.toNat else u.2.toNat) ∧
      answersWhere Request.isUpdate merged answers = applied.map .bitrate ∧
      final.target = applied.getLast?.getD g.target ∧
      final.estimator = alone.estimator ∧ final.parameters = alone.parameters ∧
      final.droppingEnabled = alone.droppingEnabled ∧
      final.counters.queried = alone.counters.queried ∧
      final.counters.encoded = alone.counters.encoded ∧
      final.counters.bytes = alone.counters.bytes ∧
      List.Forall₂ Answer.AgreeButVerdict
        (answersWhere (fun r => !r.isUpdate) merged answers) answersAlone ∧
      Governor.run merged (g.recorded []) = .ok answers observed ∧
      Governor.run encoding (g.recorded []) = .ok answersAlone observedAlone ∧
      leaks observed.dropper.calls = leaks observedAlone.dropper.calls := by
  intro ceiling
  have hself : SameForEncoder g g := ⟨rfl, rfl, rfl, rfl, rfl, rfl⟩
  obtain ⟨hend, hbitrates, hlast, hforall, hleaks⟩ := hself.run hmerged hencoding hrun halone
  refine ⟨updates.map fun u => g.parameters.cap u.2, _, _, ?_, ?_, hlast, hend.estimator,
    hend.parameters, hend.droppingEnabled, hend.queried, hend.encoded, hend.bytes, hforall,
    run_recorded_along hrun [], run_recorded_along halone [], hleaks⟩
  · rw [List.map_map]
    exact List.map_congr_left fun u _ => g.parameters.toNat_cap u.2
  · rw [hbitrates, List.map_map]
    rfl

/-- Two bitrates among two captures, the second bitrate above the ceiling. -/
theorem run_of_interleaves_two :
    let encoding : List Request :=
      [⟨20, .shouldDrop⟩, ⟨20, .recordFrame .delta 1200⟩, ⟨40, .shouldDrop⟩]
    let updates : List (Int × UInt32) := [(30, 400000), (35, 900000)]
    let merged : List Request :=
      [⟨20, .shouldDrop⟩, .update (30, 400000), ⟨20, .recordFrame .delta 1200⟩,
        .update (35, 900000), ⟨40, .shouldDrop⟩]
    (∀ r ∈ encoding, r.IsEncoding) ∧ Interleaves encoding (updates.map Request.update) merged ∧
      ∃ (fresh final alone : Governor Scripted) (answers answersAlone : List Answer),
        create ⟨3, 2000⟩ (Scripted.create [true, false]) = .ok fresh ∧
        run merged (fresh.afterAll [⟨0, .configure ⟨500000, 300000, 30⟩⟩]) = .ok answers final ∧
        run encoding (fresh.afterAll [⟨0, .configure ⟨500000, 300000, 30⟩⟩]) =
          .ok answersAlone alone ∧
        final.target.toNat = 500000 ∧ final.estimator = alone.estimator ∧
        final.counters.bytes = alone.counters.bytes := by
  intro encoding updates merged
  have hencoding : ∀ r ∈ encoding, r.IsEncoding := by
    intro r hr
    simp only [encoding, List.mem_cons, List.not_mem_nil, or_false] at hr
    obtain rfl | rfl | rfl := hr
    · exact .query 20
    · exact .charge 20 .delta 1200
    · exact .query 40
  have hmerged : Interleaves encoding (updates.map Request.update) merged :=
    .left (.right (.left (.right (.left .nil))))
  obtain ⟨fresh, hfresh⟩ : ∃ fresh,
    create ⟨3, 2000⟩ (Scripted.create [true, false]) = .ok fresh := ⟨_, rfl⟩
  have hmax : (fresh.afterAll [⟨0, .configure ⟨500000, 300000, 30⟩⟩]).parameters.maxBitrate =
      500000 := by
    cases hfresh
    rfl
  obtain ⟨answers, final, hrun⟩ := exists_run_of_reliable Scripted.reliable merged
    (fresh.afterAll [⟨0, .configure ⟨500000, 300000, 30⟩⟩])
  obtain ⟨answersAlone, alone, halone⟩ := exists_run_of_reliable Scripted.reliable encoding
    (fresh.afterAll [⟨0, .configure ⟨500000, 300000, 30⟩⟩])
  obtain ⟨applied, -, -, happlied, -, htarget, hestimator, -, -, -, -, hbytes, -⟩ :=
    run_of_interleaves hencoding hmerged hrun halone
  refine ⟨hencoding, hmerged, fresh, final, alone, answers, answersAlone, hfresh, hrun, halone, ?_,
    hestimator, hbytes⟩
  rw [hmax] at happlied
  have hlast : (applied.map UInt32.toNat).getLast? = some 500000 := by
    rw [happlied]
    decide
  rw [List.getLast?_map] at hlast
  obtain ⟨target, hsome, hvalue⟩ := Option.map_eq_some_iff.mp hlast
  rw [htarget, hsome, Option.getD_some, hvalue]

end Governor

end RateGovernor
