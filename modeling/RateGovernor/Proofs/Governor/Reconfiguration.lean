import Mathlib
import RateGovernor.Proofs.Dropper.Bucket
import RateGovernor.Proofs.Governor.Interruption

/-!
# A configuration forgets the past

After a completed configuration the state of a governor over a leaky bucket is determined by its
settings, the new parameters and the two switches. Two governors with one set of settings are then
the same for good, whatever happened to them before, interruptions included.
-/

namespace RateGovernor

namespace Governor

section Keeps

variable {σ : Type} [Dropper σ] {P : σ → Prop}

theorem dropper_after (hkeeps : Dropper.Keeps P) {g : Governor σ} (hg : P g.dropper)
    (r : Request) : P (g.after r).dropper := by
  have hall := hkeeps.callAll false ((g.control.step r).calls r) hg
  cases hcalls : Dropper.callAll false ((g.control.step r).calls r) g.dropper with
  | ok verdict dropper =>
    rw [hcalls] at hall
    rw [after, perform_of_ok hcalls]
    exact hall
  | error e dropper =>
    rw [hcalls] at hall
    rw [after, perform_of_error hcalls]
    exact hall

private theorem dropper_afterAll (hkeeps : Dropper.Keeps P) {g : Governor σ} (hg : P g.dropper)
    (requests : List Request) : P (g.afterAll requests).dropper := by
  induction requests generalizing g with
  | nil => exact hg
  | cons r rest ih => exact ih (dropper_after hkeeps hg r)

private theorem dropper_of_create (hkeeps : Dropper.Keeps P) {config : EstimatorConfig}
    {dropper : σ} {fresh : Governor σ} (h : create config dropper = .ok fresh) (hd : P dropper) :
    P fresh.dropper := by
  have hreset := (create_eq_ok_iff.mp h).2
  have hafter := dropper_after hkeeps (g := unconfigured config dropper) hd ⟨0, .reset⟩
  rwa [after, hreset] at hafter

end Keeps

/-- The state in which a configuration leaves every governor with the given settings and
switches. -/
def configuredAnew (config : EstimatorConfig) (bucket : BucketConfig) (p : EncodingParameters)
    (dropping enabled : Bool) : Governor LeakyBucket where
  parameters := p.clamped
  target := p.targetBitrate
  estimator := .ofConfig config
  dropper := { LeakyBucket.create bucket with enabled }.setRates
    (kilobitsPerSecond p.targetBitrate) p.clamped.frameRate
  droppingEnabled := dropping
  counters := .zero

variable {config : EstimatorConfig} {b : LeakyBucket} {faults : List Nat}
  {fresh g' : Governor (Recorder LeakyBucket)} {p : EncodingParameters} {now : Int} {a : Answer}

private theorem reset_eq_configure_zero {σ : Type} [Dropper σ] (now : Int) (g : Governor σ) :
    perform now .reset g = perform now (.configure .zero) g := rfl

private theorem unrecorded_of_configure (h : create config (Recorder.create b faults) = .ok fresh)
    (past : List Request)
    (hconfigure : perform now (.configure p) (fresh.afterAll past) = .ok a g') :
    g'.unrecorded = configuredAnew config b.config p (fresh.afterAll past).droppingEnabled
      (fresh.afterAll past).dropper.inner.enabled := by
  have hcontrol := control_afterAll_create h past
  have hsettings : (fresh.afterAll past).dropper.inner.config = b.config :=
    dropper_afterAll (Recorder.keeps_inner (LeakyBucket.keeps_config b.config))
      (dropper_of_create (Recorder.keeps_inner (LeakyBucket.keeps_config b.config)) h rfl) past
  generalize fresh.afterAll past = g at hcontrol hsettings hconfigure ⊢
  have hplain := perform_unrecorded (r := ⟨now, .configure p⟩) hconfigure
  obtain ⟨verdict, hcalls, hdone, -⟩ := callAll_of_perform hplain
  have hestimator : g.estimator.reset = .ofConfig config := by
    have hlog := congrArg Control.estimator hcontrol
    change g.estimator = _ at hlog
    rw [hlog, FrameRateEstimator.ofConfig_eq_ofLog]
    exact FrameRateEstimator.reset_ofLog
  have hbucket : g'.unrecorded.dropper =
      { LeakyBucket.create b.config with enabled := g.dropper.inner.enabled }.setRates
        (kilobitsPerSecond p.targetBitrate) p.clamped.frameRate := by
    rw [← hsettings]
    exact (EStateM.Result.ok.inj hcalls).2.symm
  rw [hdone, completed, hbucket, configuredAnew, ← hestimator]
  rfl

theorem create_eq_configuredAnew (hvalid : config.validate = .ok ()) (b : LeakyBucket) :
    create config b = .ok (configuredAnew config b.config .zero true b.enabled) := by
  refine create_eq_ok_iff.mpr ⟨hvalid, ?_⟩
  have hcalls : Dropper.callAll false
      (((unconfigured config b).control.step ⟨0, .reset⟩).calls ⟨0, .reset⟩) b =
        .ok false ((b.apply .reset).apply (.setRates (kilobitsPerSecond 0)
          EncodingParameters.zero.clamped.frameRate)) := rfl
  have hperform := perform_of_ok (g := unconfigured config b) (r := ⟨0, .reset⟩) hcalls
  have hestimator : (FrameRateEstimator.ofConfig config).reset = .ofConfig config := by
    rw [FrameRateEstimator.ofConfig_eq_ofLog]
    exact FrameRateEstimator.reset_ofLog
  refine hperform.trans ?_
  rw [configuredAnew, ← hestimator]
  rfl

private theorem run_eq_of_unrecorded {σ : Type} [Dropper σ] {g last : Governor (Recorder σ)}
    {next final : Governor σ} {requests : List Request} {answers as : List Answer}
    (hnext : g.unrecorded = next) (hrun : run requests next = .ok answers final)
    (hlast : run requests g = .ok as last) : as = answers ∧ last.unrecorded = final := by
  have hplain := run_unrecorded hlast
  rw [hnext] at hplain
  have hsame := hplain.symm.trans hrun
  exact EStateM.Result.ok.inj hsame

/-- Two governors over leaky buckets, with one set of settings and the same switches, are taken to
one state by the same configuration, whatever their pasts; so they answer alike from then on. A
second configuration with the same parameters changes nothing, a reset is a configuration with
zeros, and it leaves a fresh governor except for the switches, which stay as they were. -/
theorem configure_forgets_history {b₁ b₂ : LeakyBucket} {faults₁ faults₂ : List Nat}
    {fresh₁ fresh₂ g₁ g₂ : Governor (Recorder LeakyBucket)} (hsettings : b₁.config = b₂.config)
    (h₁ : create config (Recorder.create b₁ faults₁) = .ok fresh₁)
    (h₂ : create config (Recorder.create b₂ faults₂) = .ok fresh₂) (past₁ past₂ : List Request)
    (hdropping :
      (fresh₁.afterAll past₁).droppingEnabled = (fresh₂.afterAll past₂).droppingEnabled)
    (henabled : (fresh₁.afterAll past₁).dropper.inner.enabled =
      (fresh₂.afterAll past₂).dropper.inner.enabled) {now₁ now₂ : Int} {a₁ a₂ : Answer}
    (hc₁ : perform now₁ (.configure p) (fresh₁.afterAll past₁) = .ok a₁ g₁)
    (hc₂ : perform now₂ (.configure p) (fresh₂.afterAll past₂) = .ok a₂ g₂) :
    let before := (fresh₁.afterAll past₁).unrecorded
    ∃ next blank : Governor LeakyBucket, g₁.unrecorded = next ∧ g₂.unrecorded = next ∧
      (∀ later, ∃ answers final, run later next = .ok answers final ∧
        (∀ as last, run later g₁ = .ok as last → as = answers ∧ last.unrecorded = final) ∧
        ∀ as last, run later g₂ = .ok as last → as = answers ∧ last.unrecorded = final) ∧
      (∀ now a g, perform now (.configure p) g₁ = .ok a g → g.unrecorded = next) ∧
      (∀ now (g : Governor (Recorder LeakyBucket)),
        perform now .reset g = perform now (.configure .zero) g) ∧
      create config (LeakyBucket.create b₁.config) = .ok blank ∧
      (∀ now a g, perform now .reset (fresh₁.afterAll past₁) = .ok a g →
        g.unrecorded = { blank with
          droppingEnabled := before.droppingEnabled
          dropper := { blank.dropper with enabled := before.dropper.enabled } }) ∧
      next.droppingEnabled = before.droppingEnabled ∧
      next.dropper.enabled = before.dropper.enabled := by
  intro before
  have hnext₁ := unrecorded_of_configure h₁ past₁ hc₁
  have hnext₂ := unrecorded_of_configure h₂ past₂ hc₂
  rw [← hsettings, ← hdropping, ← henabled] at hnext₂
  have hvalid := (create_eq_ok_iff.mp h₁).1
  have hblank := create_eq_configuredAnew hvalid (LeakyBucket.create b₁.config)
  refine ⟨_, _, hnext₁, hnext₂, ?later, ?twice, fun now g => reset_eq_configure_zero now g, hblank,
    ?reset, rfl, rfl⟩
  case later =>
    intro later
    obtain ⟨answers, final, hrun⟩ := exists_run_of_reliable LeakyBucket.reliable later
      (configuredAnew config b₁.config p before.droppingEnabled before.dropper.enabled)
    exact ⟨answers, final, hrun, fun as last => run_eq_of_unrecorded hnext₁ hrun,
      fun as last => run_eq_of_unrecorded hnext₂ hrun⟩
  case twice =>
    intro now a g hagain
    have hreached : fresh₁.afterAll (past₁ ++ [⟨now₁, .configure p⟩]) = g₁ := by
      rw [afterAll_append]
      exact after_of_ok hc₁
    rw [← hreached] at hagain
    rw [unrecorded_of_configure h₁ _ hagain, hreached]
    have hdropping₁ : g₁.droppingEnabled = before.droppingEnabled :=
      congrArg (fun g : Governor LeakyBucket => g.droppingEnabled) hnext₁
    have henabled₁ : g₁.dropper.inner.enabled = before.dropper.enabled :=
      congrArg (fun g : Governor LeakyBucket => g.dropper.enabled) hnext₁
    rw [hdropping₁, henabled₁]
    rfl
  case reset =>
    intro now a g hreset
    rw [reset_eq_configure_zero] at hreset
    rw [unrecorded_of_configure h₁ past₁ hreset]
    rfl

/-- A key frame still to be charged and a configuration that was interrupted leave no trace behind
the next configuration. -/
theorem configure_forgets_history_interrupted :
    let past : List Request := [⟨0, .configure ⟨0, 300000, 30⟩⟩]
    let more : List Request := [⟨33, .recordFrame .key 50000⟩, ⟨66, .shouldDrop⟩]
    ∃ fresh₁ fresh₂ g₁ g₂ : Governor (Recorder LeakyBucket),
      create .standard (Recorder.create (LeakyBucket.create .standard) []) = .ok fresh₁ ∧
      create .standard (Recorder.create (LeakyBucket.create .standard) [3]) = .ok fresh₂ ∧
      perform 99 (.configure ⟨0, 100000, 15⟩) (fresh₁.afterAll (past ++ more)) = .ok .done g₁ ∧
      perform 99 (.configure ⟨0, 100000, 15⟩) (fresh₂.afterAll past) = .ok .done g₂ ∧
      g₁.unrecorded = g₂.unrecorded := by
  intro past more
  obtain ⟨fresh₁, h₁⟩ : ∃ fresh₁ : Governor (Recorder LeakyBucket),
    create .standard (Recorder.create (LeakyBucket.create .standard) []) = .ok fresh₁ := ⟨_, rfl⟩
  obtain ⟨fresh₂, h₂⟩ : ∃ fresh₂ : Governor (Recorder LeakyBucket),
    create .standard (Recorder.create (LeakyBucket.create .standard) [3]) = .ok fresh₂ := ⟨_, rfl⟩
  obtain ⟨g₁, g₂, hc₁, hc₂, hdropping, henabled⟩ : ∃ g₁ g₂,
      perform 99 (.configure ⟨0, 100000, 15⟩) (fresh₁.afterAll (past ++ more)) = .ok .done g₁ ∧
      perform 99 (.configure ⟨0, 100000, 15⟩) (fresh₂.afterAll past) = .ok .done g₂ ∧
      (fresh₁.afterAll (past ++ more)).droppingEnabled = (fresh₂.afterAll past).droppingEnabled ∧
      (fresh₁.afterAll (past ++ more)).dropper.inner.enabled =
        (fresh₂.afterAll past).dropper.inner.enabled := by
    cases h₁
    cases h₂
    exact ⟨_, _, rfl, rfl, by decide +kernel, by decide +kernel⟩
  obtain ⟨next, -, hnext₁, hnext₂, -⟩ :=
    configure_forgets_history rfl h₁ h₂ (past ++ more) past hdropping henabled hc₁ hc₂
  exact ⟨fresh₁, fresh₂, g₁, g₂, h₁, h₂, hc₁, hc₂, hnext₁.trans hnext₂.symm⟩

end Governor

end RateGovernor
