import Mathlib
import RateGovernor.Proofs.Decimal.Reading
import RateGovernor.Proofs.Json.ReadBack

/-!
# Rates that read back

A finite rate is read back from its JSON form bit for bit, a zero with its sign, though it is
written with as few digits as tell it from other rates and read by way of double precision. A rate
that is not finite is written as null and not read back. So a record with rates is read back from
its text if and only if its rates are finite.
-/

namespace RateGovernor.Json

open Binary

private theorem toSingle?_zero (negative : Bool) :
    (rateLayout.ofDecimal negative (Format.single.shortest rateLayout.tie 0)).toSingle? =
      some (zero negative) := by
  have hshortest : Format.single.shortest rateLayout.tie 0 = ⟨0, 1⟩ := by decide +kernel
  have hnumeral : rateLayout.ofDecimal negative ⟨0, 1⟩ =
      ⟨negative, 0, [Digit.ofNat 0], none⟩ := by
    cases negative <;> decide +kernel
  have hfraction : appendFraction 0 0 [Digit.ofNat 0] = (0, -1) := by decide
  have hread : (scale (.ofNat 0) ((-1 : ℤ) + (none : Option ℤ).getD 0)).map convert =
      some (zero false : Single) := by
    decide +kernel
  have hwhole : 0 < UInt64.size := by decide
  rw [hshortest, hnumeral, Numeral.toSingle?_eq rfl hwhole hfraction hread]
  cases negative <;> rfl

theorem decode?_encode_single (x : Single) :
    decode? (encode x) = if x.isFinite then some x else none := by
  cases x with
  | nan => rfl
  | infinite negative => rfl
  | finite negative units h =>
    change (rateLayout.ofDecimal negative (Format.single.shortest rateLayout.tie units)).toSingle? =
      some _
    rcases Nat.eq_zero_or_pos units with rfl | hpos
    · exact toSingle?_zero negative
    · refine Layout.toSingle?_ofDecimal rfl (fun position hposition => ?_)
        (Format.isShort_shortest h hpos) h hpos negative
      rw [rateLayout, Bool.and_eq_true, decide_eq_true_iff, decide_eq_true_iff] at hposition
      exact hposition.2

theorem decode?_encode_parameters (p : EncodingParameters) :
    decode? (encode p) = if p.frameRate.isFinite then some p else none := by
  change ((Value.record ["max_bitrate_bps", "target_bitrate_bps", "frame_rate_fps"]
    [encode p.maxBitrate, encode p.targetBitrate, encode p.frameRate]).fields?
      ["max_bitrate_bps", "target_bitrate_bps", "frame_rate_fps"]).bind encodingParametersOf? = _
  rw [fields?_record (by decide) rfl]
  simp only [Option.bind_some, encodingParametersOf?, decode?_encode, decode?_encode_single]
  split <;> rfl

theorem decode?_encode_bucket (c : BucketConfig) :
    decode? (encode c) = if c.window.isFinite then some c else none := by
  change ((Value.record ["window_secs", "key_frame_spread_frames"]
    [encode c.window, encode c.keyFrameSpread]).fields?
      ["window_secs", "key_frame_spread_frames"]).bind bucketConfigOf? = _
  rw [fields?_record (by decide) rfl]
  simp only [Option.bind_some, bucketConfigOf?, decode?_encode, decode?_encode_single]
  split <;> rfl

theorem decode?_encode_report (r : Report) :
    decode? (encode r) =
      if r.configuredFrameRate.isFinite ∧ r.inputFrameRate.isFinite then some r else none := by
  change ((Value.record reportNames _).fields? reportNames).bind reportOf? = _
  rw [fields?_record (by decide) rfl]
  simp only [Option.bind_some, reportOf?, decode?_encode, decode?_encode_single]
  by_cases hconfigured : r.configuredFrameRate.isFinite = true
  · by_cases hinput : r.inputFrameRate.isFinite = true
    · simp [hconfigured, hinput]
    · simp [hconfigured, hinput]
  · simp [hconfigured]

/-- Codec parameters, bucket settings and reports are read back from their texts, whatever else they
hold, if all their rates are finite, and otherwise their texts are refused. -/
theorem rates_read_back :
    (∀ p : EncodingParameters,
      ofText? (toText p) = if p.frameRate.isFinite then some p else none) ∧
    (∀ c : BucketConfig, ofText? (toText c) = if c.window.isFinite then some c else none) ∧
    ∀ r : Report, ofText? (toText r) =
      if r.configuredFrameRate.isFinite ∧ r.inputFrameRate.isFinite then some r else none := by
  refine ⟨fun p => ?_, fun c => ?_, fun r => ?_⟩
  · rw [ofText?_toText_self, decode?_encode_parameters]
  · rw [ofText?_toText_self, decode?_encode_bucket]
  · rw [ofText?_toText_self, decode?_encode_report]

end RateGovernor.Json
