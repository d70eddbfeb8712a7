import Mathlib
import RateGovernor.Proofs.Binary.Order
import RateGovernor.Proofs.Dropper.Bucket
import RateGovernor.Proofs.Governor.CallHistory

/-!
# Repeated bitrates

A bandwidth estimator sends the same bitrate many times over. The bucket scales its debt down with
every lower target, so a repeated bitrate must never be taken for a lower one, though each time it
is capped and converted anew.
-/

namespace RateGovernor

theorem EncodingParameters.cap_cap (p : EncodingParameters) (n : UInt32) :
    p.cap (p.cap n) = p.cap n := by
  unfold cap
  split
  · exact (Std.Associative.assoc n _ _).trans (congrArg _ Std.min_self)
  · rfl

theorem LeakyBucket.setRates_setRates (b : LeakyBucket) (bitrate frameRate : Single) :
    (b.setRates bitrate frameRate).setRates bitrate frameRate = b.setRates bitrate frameRate := by
  have hsame : ¬(0 < bitrate.positivePart ∧ bitrate.positivePart < bitrate.positivePart) :=
    fun h => Binary.lt_irrefl _ h.2
  rw [setRates, setRates]
  simp only [if_neg hsame]

namespace Governor

private theorem run_of_unchanged {σ : Type} [Dropper σ] {g : Governor σ} {a : Answer}
    {requests : List Request} (h : ∀ r ∈ requests, perform r.now r.operation g = .ok a g) :
    run requests g = .ok (List.replicate requests.length a) g := by
  induction requests with
  | nil => rfl
  | cons r rest ih =>
    obtain ⟨hfirst, hrest⟩ := List.forall_mem_cons.mp h
    exact run_cons_of_ok hfirst (ih hrest)

/-- The governor with another target, of which it has told its bucket. -/
def retarget (g : Governor LeakyBucket) (target : UInt32) : Governor LeakyBucket :=
  { g with
    target
    dropper := g.dropper.setRates (kilobitsPerSecond target) g.frameRate }

private theorem retarget_retarget (g : Governor LeakyBucket) (target : UInt32) :
    (g.retarget target).retarget target = g.retarget target := by
  have hbucket := g.dropper.setRates_setRates (kilobitsPerSecond target) g.frameRate
  exact congrArg (fun dropper => { g with target, dropper }) hbucket

theorem perform_updateTarget (g : Governor LeakyBucket) (now : Int) (n : UInt32) :
    perform now (.updateTarget n) g =
      .ok (.bitrate (g.parameters.cap n)) (g.retarget (g.parameters.cap n)) := rfl

private theorem perform_updateTarget_retarget {g : Governor LeakyBucket} {target m : UInt32}
    (h : g.parameters.cap m = target) (now : Int) :
    perform now (.updateTarget m) (g.retarget target) =
      .ok (.bitrate target) (g.retarget target) := by
  have hcap : (g.retarget target).parameters.cap m = target := h
  rw [perform_updateTarget, hcap, retarget_retarget]

/-- Let a governor over a leaky bucket, in any state, answer a bitrate from the network with the
bitrate that it uses. However often it is sent either of the two again, at whatever times, it
answers the same and stays as it was after the first time, its bucket included. -/
theorem updateTarget_repeated (g : Governor LeakyBucket) (now : Int) (n : UInt32) :
    ∃ applied once, perform now (.updateTarget n) g = .ok (.bitrate applied) once ∧
      ∀ repeats : List Request,
        (∀ r ∈ repeats, r.operation = .updateTarget n ∨ r.operation = .updateTarget applied) →
        run repeats once = .ok (List.replicate repeats.length (.bitrate applied)) once := by
  refine ⟨_, _, perform_updateTarget g now n, ?_⟩
  intro repeats hrepeats
  apply run_of_unchanged
  intro r hr
  rcases hrepeats r hr with hsame | happlied
  · rw [hsame]
    exact perform_updateTarget_retarget rfl r.now
  · rw [happlied]
    exact perform_updateTarget_retarget (g.parameters.cap_cap n) r.now

/-- A bucket whose window is not a number owes part of a key frame sent at 1200 kilobits per second,
when the network falls to 900 and the codec's ceiling is 600. The debt is halved once. -/
theorem updateTarget_repeated_capped :
    let past : List Request := [⟨0, .configure ⟨600000, 1200000, 30⟩⟩,
      ⟨0, .recordFrame .key 11250⟩, ⟨0, .shouldDrop⟩, ⟨40, .shouldDrop⟩]
    ∃ fresh once : Governor LeakyBucket,
      create .standard (LeakyBucket.create ⟨.nan, 2⟩) = .ok fresh ∧
      (fresh.afterAll past).dropper.debt = 17 ∧ (fresh.afterAll past).dropper.pending = 25 ∧
      perform 40 (.updateTarget 900000) (fresh.afterAll past) = .ok (.bitrate 600000) once ∧
      once.dropper.debt = 17 / 2 ∧ once.dropper.pending = 25 ∧
      run [⟨50, .updateTarget 900000⟩, ⟨60, .updateTarget 600000⟩] once =
        .ok [.bitrate 600000, .bitrate 600000] once := by
  intro past
  obtain ⟨fresh, hcreate⟩ : ∃ fresh, create .standard (LeakyBucket.create ⟨.nan, 2⟩) =
    .ok fresh := ⟨_, rfl⟩
  obtain ⟨applied, once, honce, hrepeated⟩ :=
    updateTarget_repeated (fresh.afterAll past) 40 900000
  have hcap : (fresh.afterAll past).parameters.cap 900000 = 600000 := by
    cases hcreate
    decide +kernel
  rw [perform_updateTarget, hcap] at honce
  cases honce
  have hagain := hrepeated [⟨50, .updateTarget 900000⟩, ⟨60, .updateTarget 600000⟩] (by simp)
  refine ⟨fresh, _, hcreate, ?_, ?_, by rw [perform_updateTarget, hcap], ?_, ?_, hagain⟩
  all_goals
    cases hcreate
    decide +kernel

end Governor

end RateGovernor
