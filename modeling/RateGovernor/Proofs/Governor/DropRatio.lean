import Mathlib
import RateGovernor.Proofs.Binary.Double
import RateGovernor.Proofs.Governor.Account

/-!
# The drop ratio

The drop ratio is a quotient of two counters, each rounded to double precision, where counters
beyond 53 bits are no longer exact. Rounding keeps the order of the counters, and a quotient of at
least `2 ^ -64` does not vanish, so the ratio is a proper fraction that is zero exactly if nothing
was dropped. That there are never more drops than queries is in the account of the run.
-/

namespace RateGovernor

namespace Report

variable {r : Report}

private theorem dropRatio_bounds (h : r.framesDropped ≤ r.framesQueried) :
    r.dropRatio.Within 1 ∧ (r.dropRatio.isZero = true ↔ r.framesDropped = 0) := by
  rw [UInt64.le_iff_toNat_le] at h
  have hcount : r.framesDropped = 0 ↔ r.framesDropped.toNat = 0 := UInt64.toNat_inj.symm
  rw [dropRatio, hcount]
  split
  · rename_i hqueried
    rw [hqueried, UInt64.toNat_zero, Nat.le_zero] at h
    refine ⟨Binary.within_zero 1, ?_⟩
    simp [Binary.isZero, Binary.rank_zero, h]
  · rename_i hqueried
    have hpos : 0 < r.framesQueried.toNat := by
      rw [Nat.pos_iff_ne_zero]
      exact fun hzero => hqueried (UInt64.toNat_inj.mp hzero)
    exact Binary.ratio_bounds h hpos r.framesQueried.toNat_lt.le

end Report

namespace Governor

variable {σ : Type} [Dropper σ] {config : EstimatorConfig} {dropper : σ} {fresh : Governor σ}

private theorem dropped_le_queried_afterAll (hcreate : create config dropper = .ok fresh)
    (requests : List Request) :
    (fresh.afterAll requests).counters.dropped ≤ (fresh.afterAll requests).counters.queried := by
  have hblank : fresh.counters = account [] := counters_of_create hcreate
  rw [counters_afterAll hblank requests]
  exact dropped_le_queried _

/-- After any run, with any dropper and with any of the requests interrupted, the ratio that a
report shows is a number from zero to one, as long as the queries fit their field. It is zero
exactly if the report shows no drops. -/
theorem dropRatio_proper_fraction (hcreate : create config dropper = .ok fresh)
    (requests : List Request) (hqueried : (fresh.afterAll requests).counters.queried < 2 ^ 64) :
    let g := fresh.afterAll requests
    (∀ now, perform now .readReport g = .ok (.report g.report) g) ∧
    g.report.dropRatio ≠ .nan ∧ 0 ≤ g.report.dropRatio ∧ g.report.dropRatio ≤ 1 ∧
    (g.report.dropRatio.isZero = true ↔ g.report.framesDropped = 0) := by
  intro g
  have hdropped : g.counters.dropped ≤ g.counters.queried :=
    dropped_le_queried_afterAll hcreate requests
  have hle : g.report.framesDropped ≤ g.report.framesQueried := by
    rw [UInt64.le_iff_toNat_le, report, UInt64.toNat_ofNat_of_lt' hqueried,
      UInt64.toNat_ofNat_of_lt' (hdropped.trans_lt hqueried)]
    exact hdropped
  obtain ⟨hwithin, hzero⟩ := Report.dropRatio_bounds hle
  have hone : (Format.double).Holds 1 := .double_of_lt (by decide)
  refine ⟨fun now => rfl, ?number, hwithin.zero_le, ?proper, hzero⟩
  case number =>
    intro hnan
    have hfinite := hwithin.isFinite
    rw [hnan] at hfinite
    cases hfinite
  case proper =>
    refine (Binary.le_iff_value hwithin.isFinite (Binary.isFinite_ofNat hone)).mpr ?_
    rw [Binary.value_ofNat hone]
    exact hwithin.le

/-- One drop, one frame to encode and one interrupted query, which does not count. -/
theorem dropRatio_proper_fraction_interrupted :
    let requests : List Request := [⟨0, .configure ⟨0, 300000, 30⟩⟩, ⟨33, .shouldDrop⟩,
      ⟨66, .shouldDrop⟩, ⟨99, .shouldDrop⟩]
    ∃ fresh : Governor (Recorder Scripted),
      create .standard (Recorder.create (Scripted.create [false, true]) [9]) = .ok fresh ∧
      let g := fresh.afterAll requests
      g.counters = ⟨2, 1, 0, 0⟩ ∧ g.report.dropRatio ≠ .nan ∧ g.report.dropRatio.isZero = false ∧
        g.report.dropRatio ≤ 1 := by
  intro requests
  obtain ⟨fresh, hcreate⟩ : ∃ fresh, create .standard
    (Recorder.create (Scripted.create [false, true]) [9]) = .ok fresh := ⟨_, rfl⟩
  have hcounters : (fresh.afterAll requests).counters = ⟨2, 1, 0, 0⟩ := by
    cases hcreate
    decide +kernel
  have hdropped : (fresh.afterAll requests).report.framesDropped = 1 := by
    rw [report, hcounters]
    rfl
  have hqueried : (fresh.afterAll requests).counters.queried < 2 ^ 64 := by
    rw [hcounters]
    decide
  obtain ⟨-, hnumber, -, hproper, hzero⟩ := dropRatio_proper_fraction hcreate requests hqueried
  refine ⟨fresh, hcreate, hcounters, hnumber, ?_, hproper⟩
  rw [Bool.eq_false_iff, Ne, hzero, hdropped]
  decide

end Governor

end RateGovernor
