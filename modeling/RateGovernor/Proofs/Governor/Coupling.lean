import Mathlib
import RateGovernor.Proofs.Dropper.Debt
import RateGovernor.Proofs.Governor.Reconfiguration

/-!
# A governor and its bucket

The target and the switch are kept twice: by the governor, and by its bucket, which only learns of
them through calls. Every request that changes one of them passes it on, so the two never differ,
and what the bucket decides can be told from the governor's target and switch and the debt alone.
-/

namespace RateGovernor

namespace LeakyBucket

/-- A bucket with the given settings knows the target and the switch of a control. -/
structure Mirrors (settings : BucketConfig) (c : Control) (b : LeakyBucket) : Prop where
  config : b.config = settings
  bitrate : b.bitrate = kilobitsPerSecond c.target
  threshold : b.threshold = kilobitsPerSecond c.target * settings.window
  enabled : b.enabled = c.droppingEnabled

variable {settings : BucketConfig} {c c' : Control} {b b' : LeakyBucket}

private theorem mirrors_setRates (hconfig : b.config = settings) (c : Control)
    (henabled : b.enabled = c.droppingEnabled) (frameRate : Single) :
    Mirrors settings c (b.setRates (kilobitsPerSecond c.target) frameRate) := by
  have hrate := positivePart_kilobitsPerSecond c.target
  refine ⟨hconfig, hrate, ?_, henabled⟩
  change (kilobitsPerSecond c.target).positivePart * b.config.window = _
  rw [hrate, hconfig]

/-- What leaves the terms of the bucket alone, and the target and the switch of the control, does
not part them. -/
theorem Mirrors.of_terms (h : Mirrors settings c b) (hterms : b'.terms = b.terms)
    (htarget : c'.target = c.target) (henabled : c'.droppingEnabled = c.droppingEnabled) :
    Mirrors settings c' b' := by
  refine ⟨?_, ?_, ?_, ?_⟩
  · exact (congrArg Terms.config hterms).trans h.config
  · rw [htarget]
    exact (congrArg Terms.bitrate hterms).trans h.bitrate
  · rw [htarget]
    exact (congrArg Terms.threshold hterms).trans h.threshold
  · rw [henabled]
    exact (congrArg Terms.enabled hterms).trans h.enabled

theorem foldl_receive_query (c : Control) (now : Int) (b : LeakyBucket) :
    (c.calls ⟨now, .shouldDrop⟩).foldl receive b = b.leak c.estimator.roundedRate := by
  simp only [Control.calls, List.foldl_cons]
  split
  · rfl
  · rfl

theorem Mirrors.step (h : Mirrors settings c b) (r : Request) :
    Mirrors settings (c.step r) (((c.step r).calls r).foldl receive b) := by
  obtain ⟨now, operation⟩ := r
  cases operation with
  | configure p =>
    apply mirrors_setRates (b := b.reset) h.config (c.configure p)
    exact h.enabled
  | reset =>
    apply mirrors_setRates (b := b.reset) h.config (c.configure .zero)
    exact h.enabled
  | updateTarget n =>
    apply mirrors_setRates h.config { c with target := c.parameters.cap n }
    exact h.enabled
  | setDropping enabled => exact ⟨h.config, h.bitrate, h.threshold, rfl⟩
  | shouldDrop =>
    rw [foldl_receive_query]
    exact h.of_terms (b.terms_leak _) rfl rfl
  | recordFrame kind size =>
    by_cases hsize : size = 0
    · simp only [Control.calls, hsize, if_true]
      exact h
    · simp only [Control.calls, hsize, if_false]
      exact h.of_terms (b.terms_fill size (kind == .delta)) rfl rfl
  | measureFrameRate => exact h.of_terms rfl rfl rfl
  | readTarget => exact h
  | readParameters => exact h
  | readReport => exact h

end LeakyBucket

namespace Governor

variable {settings : BucketConfig} {g : Governor LeakyBucket}

theorem dropper_after_eq_foldl (g : Governor LeakyBucket) (r : Request) :
    (g.after r).dropper = ((g.control.step r).calls r).foldl LeakyBucket.receive g.dropper := by
  obtain ⟨verdict, hcalls⟩ := LeakyBucket.callAll_eq false ((g.control.step r).calls r) g.dropper
  rw [after, perform_of_ok hcalls]
  rfl

theorem dropper_afterAll_eq_foldl (g : Governor LeakyBucket) (requests : List Request) :
    (g.afterAll requests).dropper =
      (g.control.callsAlong requests).foldl LeakyBucket.receive g.dropper := by
  induction requests generalizing g with
  | nil => rfl
  | cons r rest ih =>
    rw [Control.callsAlong, List.foldl_append, ← dropper_after_eq_foldl, ← control_after]
    exact ih (g.after r)

theorem target_after (g : Governor LeakyBucket) (r : Request) :
    (g.after r).target = (g.control.step r).target :=
  congrArg Control.target (control_after g r)

/-- The bucket of a governor mirrors its control. -/
def Coupled (settings : BucketConfig) (g : Governor LeakyBucket) : Prop :=
  g.dropper.Mirrors settings g.control

theorem Coupled.after (h : Coupled settings g) (r : Request) : Coupled settings (g.after r) := by
  rw [Coupled, dropper_after_eq_foldl, control_after]
  exact LeakyBucket.Mirrors.step h r

theorem Coupled.afterAll (h : Coupled settings g) (requests : List Request) :
    Coupled settings (g.afterAll requests) := by
  induction requests generalizing g with
  | nil => exact h
  | cons r rest ih => exact ih (h.after r)

theorem coupled_of_create {config : EstimatorConfig} {b : LeakyBucket}
    {fresh : Governor LeakyBucket} (hon : b.enabled = true)
    (hcreate : create config b = .ok fresh) : Coupled b.config fresh := by
  have hfresh := create_eq_configuredAnew (create_eq_ok_iff.mp hcreate).1 b
  rw [hcreate, Except.ok.injEq] at hfresh
  rw [hfresh]
  apply LeakyBucket.mirrors_setRates (b := b.reset) rfl
    (configuredAnew config b.config .zero true b.enabled).control
  exact hon

/-- A query lets the bucket leak at the rate measured with the arrival, and drops if dropping is on
and the bucket says so. -/
theorem perform_shouldDrop (now : Int) (g : Governor LeakyBucket) :
    let b := g.dropper.leak (g.estimator.update now).roundedRate
    let verdict := g.droppingEnabled && b.shouldDrop
    perform now .shouldDrop g =
      .ok (.verdict verdict) (g.completed ⟨now, .shouldDrop⟩ verdict b) := by
  intro b verdict
  have hcalls : Dropper.callAll false ((g.control.step ⟨now, .shouldDrop⟩).calls
      ⟨now, .shouldDrop⟩) g.dropper = .ok verdict b := by
    change Dropper.callAll false
      (.perform (.leak _) :: if g.droppingEnabled then [.shouldDrop] else []) _ = _
    rw [Dropper.callAll_cons_of_ok (LeakyBucket.call_perform _ _ _)]
    by_cases hdropping : g.droppingEnabled
    · rw [if_pos hdropping, Dropper.callAll_cons_of_ok (LeakyBucket.call_shouldDrop _ _)]
      simp only [verdict, hdropping, Bool.true_and]
      rfl
    · rw [if_neg hdropping]
      simp only [verdict, Bool.not_eq_true _ ▸ hdropping, Bool.false_and]
      rfl
  exact perform_of_ok (r := ⟨now, .shouldDrop⟩) hcalls

theorem perform_configure (now : Int) (p : EncodingParameters) (g : Governor LeakyBucket) :
    perform now (.configure p) g = .ok .done (g.completed ⟨now, .configure p⟩ false
      (g.dropper.reset.setRates (kilobitsPerSecond p.targetBitrate) p.clamped.frameRate)) :=
  perform_of_ok (r := ⟨now, .configure p⟩) rfl

theorem perform_recordFrame (now : Int) (kind : FrameKind) (size : UInt64)
    (g : Governor LeakyBucket) :
    perform now (.recordFrame kind size) g =
      .ok (.accounting (if size = 0 then .ignored else .recorded))
        (g.completed ⟨now, .recordFrame kind size⟩ false
          (if size = 0 then g.dropper else g.dropper.fill size (kind == .delta))) := by
  apply perform_of_ok (r := ⟨now, .recordFrame kind size⟩)
  by_cases hsize : size = 0
  · simp only [Control.calls, hsize, if_true]
    rfl
  · simp only [Control.calls, hsize, if_false]
    rfl

theorem Coupled.shouldDrop_iff (h : Coupled settings g) (rate : UInt32) :
    (g.droppingEnabled && (g.dropper.leak rate).shouldDrop) = true ↔
      g.droppingEnabled = true ∧ 0 < g.target ∧
        kilobitsPerSecond g.target * settings.window < (g.dropper.leak rate).debt := by
  have hleak : (g.dropper.leak rate).Mirrors settings g.control :=
    h.of_terms (g.dropper.terms_leak rate) rfl rfl
  have hbitrate : (g.dropper.leak rate).bitrate = kilobitsPerSecond g.target := hleak.bitrate
  have henabled : (g.dropper.leak rate).enabled = g.droppingEnabled := hleak.enabled
  have hfinite : (g.dropper.leak rate).bitrate.isFinite := by
    rw [hbitrate]
    exact (isRounded_kilobitsPerSecond g.target).2.isFinite
  rw [Bool.and_eq_true, LeakyBucket.shouldDrop_iff hfinite, hbitrate, hleak.threshold, henabled,
    kilobitsPerSecond_pos_iff, and_assoc, and_self_left]
  rfl

/-- However a governor over a fresh leaky bucket is used, no call to the bucket fails, and its
target, threshold and switch are those of the governor. So a query answers to drop exactly if
dropping is on, the target is above zero and the debt after the leak exceeds the window's worth of
the target; without a target, or while dropping is off, it does not. -/
theorem bucket_mirrors_governor {config : EstimatorConfig} {bucket : BucketConfig}
    {fresh : Governor LeakyBucket}
    (hcreate : create config (LeakyBucket.create bucket) = .ok fresh) (requests : List Request) :
    let g := fresh.afterAll requests
    (∃ answers, run requests fresh = .ok answers g) ∧
      (∀ now, perform now .readTarget g = .ok (.bitrate g.target) g) ∧
      g.dropper.bitrate = kilobitsPerSecond g.target ∧
      g.dropper.threshold = kilobitsPerSecond g.target * bucket.window ∧
      g.dropper.enabled = g.droppingEnabled ∧
      ∀ now, ∃ verdict g', perform now .shouldDrop g = .ok (.verdict verdict) g' ∧
        g'.dropper = g.dropper.leak (g.estimator.update now).roundedRate ∧
        (verdict = true ↔ g.droppingEnabled = true ∧ 0 < g.target ∧
          kilobitsPerSecond g.target * bucket.window < g'.dropper.debt) ∧
        (g.target = 0 ∨ g.droppingEnabled = false → verdict = false) := by
  intro g
  have hcoupled : Coupled bucket g := (coupled_of_create rfl hcreate).afterAll requests
  have hrun : ∃ answers, run requests fresh = .ok answers g := by
    obtain ⟨answers, final, hrun⟩ := exists_run_of_reliable LeakyBucket.reliable requests fresh
    have hfinal : g = final := afterAll_of_run hrun
    exact ⟨answers, by rw [hfinal, hrun]⟩
  refine ⟨hrun, fun _ => rfl, hcoupled.bitrate, hcoupled.threshold, hcoupled.enabled, ?_⟩
  intro now
  have hiff := hcoupled.shouldDrop_iff (g.estimator.update now).roundedRate
  refine ⟨_, _, perform_shouldDrop now g, rfl, hiff, ?_⟩
  intro hidle
  apply Bool.eq_false_of_not_eq_true
  rw [hiff]
  rintro ⟨hdropping, htarget, -⟩
  cases hidle with
  | inl hzero => exact absurd (hzero ▸ htarget) (by decide)
  | inr hoff => exact absurd (hoff ▸ hdropping) (by decide)

/-- A frame worth more than a second of the target is answered with a drop. -/
theorem bucket_mirrors_governor_overrun :
    let requests : List Request := [⟨0, .configure ⟨0, 300000, 30⟩⟩, ⟨0, .recordFrame .delta 50000⟩]
    ∃ fresh g', create .standard (LeakyBucket.create .standard) = .ok fresh ∧
      perform 33 .shouldDrop (fresh.afterAll requests) = .ok (.verdict true) g' ∧
      g'.dropper.debt = 400 := by
  intro requests
  obtain ⟨fresh, hcreate⟩ : ∃ fresh,
    create .standard (LeakyBucket.create .standard) = .ok fresh := ⟨_, rfl⟩
  obtain ⟨-, -, -, -, -, hquery⟩ := bucket_mirrors_governor hcreate requests
  obtain ⟨verdict, g', hperform, hbucket, hverdict, -⟩ := hquery 33
  obtain ⟨hdropping, htarget, hdebt, hover⟩ :
      let g := fresh.afterAll requests
      let debt := (g.dropper.leak (g.estimator.update 33).roundedRate).debt
      g.droppingEnabled = true ∧ 0 < g.target ∧ debt = 400 ∧
        kilobitsPerSecond g.target * BucketConfig.standard.window < debt := by
    cases hcreate
    decide +kernel
  rw [← hbucket] at hdebt hover
  obtain rfl : verdict = true := hverdict.mpr ⟨hdropping, htarget, hover⟩
  exact ⟨fresh, g', hcreate, hperform, hdebt⟩

end Governor

end RateGovernor
