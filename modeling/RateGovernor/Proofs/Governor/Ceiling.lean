import Mathlib
import RateGovernor.Proofs.Governor.History

/-!
# The target and the ceiling

A bitrate from the network is held to the ceiling of the codec, but a configuration puts its own
target in force as it is. So the target exceeds a ceiling exactly from such a configuration on until
the next configuration, reset or bitrate from the network.
-/

namespace RateGovernor

/-- A target respects a ceiling, if there is one. -/
def WithinCeiling (ceiling : Int32) (target : UInt32) : Prop :=
  0 < ceiling.toInt → (target.toNat : ℤ) ≤ ceiling.toInt

private theorem EncodingParameters.withinCeiling_cap (p : EncodingParameters) (n : UInt32) :
    WithinCeiling p.maxBitrate (p.cap n) := by
  intro hpos
  rw [toNat_cap, if_pos hpos]
  omega

/-- In a history that is newest first, the target in force comes from a configuration that puts it
above its own ceiling. -/
def Overreaches : List Request → Prop
  | [] => False
  | r :: past =>
    match r.operation with
    | .configure p => 0 < p.maxBitrate.toInt ∧ p.maxBitrate.toInt < p.targetBitrate.toNat
    | .reset | .updateTarget _ => False
    | _ => Overreaches past

theorem withinCeiling_targetInForce_iff (past : List Request) :
    WithinCeiling (configured past).maxBitrate (targetInForce past) ↔ ¬ Overreaches past := by
  induction past with
  | nil => exact iff_of_true (fun h => absurd h (lt_irrefl 0)) not_false
  | cons r past ih =>
    obtain ⟨now, operation⟩ := r
    cases operation with
    | configure p =>
      change (0 < p.maxBitrate.toInt → (p.targetBitrate.toNat : ℤ) ≤ p.maxBitrate.toInt) ↔
        ¬ (0 < p.maxBitrate.toInt ∧ p.maxBitrate.toInt < p.targetBitrate.toNat)
      rw [not_and, not_lt]
    | reset => exact iff_of_true (fun h => absurd h (lt_irrefl 0)) not_false
    | updateTarget n => exact iff_of_true ((configured past).withinCeiling_cap n) not_false
    | measureFrameRate => exact ih
    | shouldDrop => exact ih
    | recordFrame kind size => exact ih
    | setDropping enabled => exact ih
    | readTarget => exact ih
    | readParameters => exact ih
    | readReport => exact ih

namespace Governor

variable {σ : Type} [Dropper σ]

private theorem updateTarget_answer {g g' : Governor σ} {now : Int} {n : UInt32} {answer : Answer}
    (h : perform now (.updateTarget n) g = .ok answer g') :
    answer = .bitrate g'.target ∧ WithinCeiling g'.parameters.maxBitrate g'.target := by
  obtain ⟨verdict, -, hdone, hanswer⟩ := callAll_of_perform (r := ⟨now, .updateTarget n⟩) h
  refine ⟨hanswer, ?_⟩
  rw [hdone]
  exact g.parameters.withinCeiling_cap n

/-- In every state that a governor reaches, the target it shows respects the ceiling in force unless
it comes from a configuration that put it above; and every bitrate that an update returns is the
target from then on, and respects the ceiling. -/
theorem shown_target_withinCeiling_iff {config : EstimatorConfig} {dropper : σ}
    {fresh : Governor σ} (h : create config dropper = .ok fresh) (requests : List Request) :
    let g := fresh.afterAll requests
    ∃ target report, (∀ now, perform now .readTarget g = .ok (.bitrate target) g) ∧
      (∀ now, perform now .readReport g = .ok (.report report) g) ∧
      (WithinCeiling g.parameters.maxBitrate target ↔ ¬ Overreaches requests.reverse) ∧
      (WithinCeiling report.maxBitrate report.targetBitrate ↔ ¬ Overreaches requests.reverse) ∧
      ∀ now n answer g', perform now (.updateTarget n) g = .ok answer g' →
        answer = .bitrate g'.target ∧ WithinCeiling g'.parameters.maxBitrate g'.target := by
  intro g
  have hcontrol : g.control = Control.ofHistory config requests.reverse :=
    control_afterAll_create h requests
  have hparameters : g.parameters = configured requests.reverse :=
    congrArg Control.parameters hcontrol
  have htarget : g.target = targetInForce requests.reverse := congrArg Control.target hcontrol
  have hiff : WithinCeiling g.parameters.maxBitrate g.target ↔ ¬ Overreaches requests.reverse := by
    rw [hparameters, htarget]
    exact withinCeiling_targetInForce_iff requests.reverse
  refine ⟨g.target, g.report, fun _ => rfl, fun _ => rfl, hiff, hiff, ?_⟩
  intro now n answer g' hupdate
  exact updateTarget_answer hupdate

/-- The next bitrate from the network repairs a target above the ceiling. -/
theorem shown_target_withinCeiling_repaired :
    ∃ fresh : Governor Scripted, create .standard (Scripted.create []) = .ok fresh ∧
      let g := fresh.afterAll [⟨0, .configure ⟨500000, 800000, 30⟩⟩, ⟨0, .updateTarget 900000⟩]
      perform 0 .readTarget g = .ok (.bitrate 500000) g ∧
        WithinCeiling g.parameters.maxBitrate 500000 := by
  obtain ⟨fresh, hfresh⟩ : ∃ fresh : Governor Scripted,
    create .standard (Scripted.create []) = .ok fresh := ⟨_, rfl⟩
  obtain ⟨target, report, hread, -, hiff, -⟩ := shown_target_withinCeiling_iff hfresh
    [⟨0, .configure ⟨500000, 800000, 30⟩⟩, ⟨0, .updateTarget 900000⟩]
  cases hfresh
  have htarget : target = 500000 := by
    cases hread 0
    rfl
  rw [htarget] at hread hiff
  exact ⟨_, rfl, hread 0, hiff.mpr not_false⟩

/-- A configuration may put the target above its own ceiling. -/
theorem configured_target_exceeds_ceiling :
    ∃ fresh : Governor Scripted, create .standard (Scripted.create []) = .ok fresh ∧
      let g := fresh.afterAll [⟨0, .configure ⟨500000, 800000, 30⟩⟩]
      perform 0 .readTarget g = .ok (.bitrate 800000) g ∧ g.parameters.maxBitrate = 500000 ∧
        ¬ WithinCeiling g.parameters.maxBitrate 800000 :=
  ⟨_, rfl, rfl, rfl, fun h => absurd (h (by decide)) (by decide)⟩

end Governor

end RateGovernor
