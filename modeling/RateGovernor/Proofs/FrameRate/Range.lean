import Mathlib
import RateGovernor.Proofs.Binary.Order
import RateGovernor.Proofs.FrameRate.Window

/-!
# The range of a measured rate

A measured rate is always a number and never negative, in whatever order the times come: it is zero,
or intervals per a span above zero. As long as times do not go back, a rate that is not zero lies
between one interval over the whole window and as many intervals as the slots hold over a single
millisecond, both computed in single precision like the rate itself. With a window of two seconds or
less it is at least a half, and so it is not lost when it is rounded to whole frames.
-/

namespace RateGovernor

open Binary

private theorem one_le_ofNat {F : Format} {n : ℕ} (hn : 1 ≤ n) : (1 : Binary F) ≤ ofNat n :=
  ofNat_le_ofNat_of_le hn

private theorem ofNat_pos {n : ℕ} (hn : 1 ≤ n) : (0 : Single) < ofNat n :=
  Binary.lt_of_lt_of_le (by decide +kernel : (0 : Single) < 1) (one_le_ofNat hn)

section Log

variable {capacity : ℕ} {maxAge now newest : Int} {times earlier : List Int}

private theorem rateOver_cases (newest : Int) (earlier : List Int) :
    Arrivals.rateOver newest earlier = 0 ∨
      ∃ oldest ∈ earlier, ∃ span : ℕ, newest - oldest = span ∧ 1 ≤ span ∧ 1 ≤ earlier.length ∧
        Arrivals.rateOver newest earlier = .ofNat earlier.length * 1000 / .ofNat span := by
  cases hlast : earlier.getLast? with
  | none =>
    left
    simp only [Arrivals.rateOver, hlast]
  | some oldest =>
    have hmem := List.mem_of_getLast? hlast
    by_cases hspan : newest - oldest ≤ 0
    · left
      simp only [Arrivals.rateOver, hlast, if_pos hspan]
    · right
      obtain ⟨span, hdistance⟩ := Int.eq_ofNat_of_zero_le (not_le.mp hspan).le
      refine ⟨oldest, hmem, span, hdistance, by omega, List.length_pos_of_mem hmem, ?_⟩
      simp only [Arrivals.rateOver, hlast, if_neg hspan]
      rw [hdistance, ofInt_natCast]

theorem loggedRate_within (hcapacity : capacity ≤ 2 ^ 64) (maxAge now : Int) (times : List Int) :
    (loggedRate capacity maxAge now times).Within (2 ^ 74) := by
  cases times with
  | nil => exact within_zero _
  | cons newest earlier =>
    have hfew : (countedTimes capacity maxAge now (newest :: earlier)).length ≤ 2 ^ 64 :=
      length_countedTimes_le.trans ((Nat.sub_le _ _).trans hcapacity)
    rw [loggedRate_cons]
    obtain hzero | ⟨oldest, -, span, -, hspan, hsome, hrate⟩ :=
      rateOver_cases newest (countedTimes capacity maxAge now (newest :: earlier))
    · rw [hzero]
      exact within_zero _
    · rw [hrate]
      exact (FrameRateEstimator.scaled_bounds hsome hfew).1.div_of_one_le
        (.single_two_pow (by decide)) (.single_of_lt (by decide)) (one_le_ofNat hspan)

private theorem loggedRate_of_recent (hfit : earlier.length + 2 ≤ capacity)
    (hrecent : ∀ time ∈ earlier, now - time ≤ maxAge) :
    loggedRate capacity maxAge now (newest :: earlier) = Arrivals.rateOver newest earlier := by
  have hall : countedTimes capacity maxAge now (newest :: earlier) = earlier := by
    rw [countedTimes, List.tail_cons, List.take_of_length_le (by omega), List.takeWhile_eq_self_iff]
    simpa using hrecent
  rw [loggedRate_cons, hall]

end Log

/-- A rate that is zero, or within what the window and the slots allow. -/
def RateInRange (capacity : ℕ) (maxAge : Int) (rate : Single) : Prop :=
  rate = 0 ∨ 1000 / .ofInt maxAge ≤ rate ∧ rate ≤ .ofNat (capacity - 2) * 1000

section Range

variable {capacity k span window : ℕ} {maxAge now newest : Int} {times earlier : List Int}
  {rate : Single}

private theorem rate_le (hfew : k ≤ capacity - 2) (hk : 1 ≤ k) (hcapacity : capacity ≤ 2 ^ 64)
    (hspan : 1 ≤ span) (hlong : span ≤ 2 ^ 64) :
    (.ofNat k * 1000 / .ofNat span : Single) ≤ .ofNat (capacity - 2) * 1000 := by
  have hfit : (Format.single).Holds (2 ^ 64) := .single_two_pow (by decide)
  have hthousand := within_literal (by decide : 1000 < 2 ^ 24)
  have hone := within_literal (by decide : 1 < 2 ^ 24)
  have hscaled := (FrameRateEstimator.scaled_bounds hk (by omega)).1
  have hquotient : (.ofNat k * 1000 / .ofNat span : Single) ≤ .ofNat k * 1000 / .ofNat 1 :=
    div_le_div_of_le hscaled.isFinite hscaled.zero_le hone.isFinite
      (within_ofNat hfit hlong).isFinite (ofNat_pos le_rfl) (one_le_ofNat hspan)
  rw [div_ofNat_one hscaled.isFinite (.single_of_lt (by decide))] at hquotient
  exact Binary.le_trans hquotient (mul_le_mul_of_nonneg (ofNat_le_ofNat_of_le hfew)
    (within_ofNat hfit (by omega)).isFinite (within_ofNat hfit (by omega)).isFinite
    hthousand.isFinite hthousand.zero_le)

private theorem le_rate (hk : 1 ≤ k) (hlarge : k ≤ 2 ^ 64) (hspan : 1 ≤ span) (hle : span ≤ window)
    (hwindow : window ≤ 2 ^ 64) :
    (1000 / .ofNat window : Single) ≤ .ofNat k * 1000 / .ofNat span := by
  have hfit : (Format.single).Holds (2 ^ 64) := .single_two_pow (by decide)
  have hthousand := within_literal (by decide : 1000 < 2 ^ 24)
  have hone := within_literal (by decide : 1 < 2 ^ 24)
  have hscaled := (FrameRateEstimator.scaled_bounds hk hlarge).1
  have hmore : (1 * 1000 : Single) ≤ .ofNat k * 1000 :=
    mul_le_mul_of_nonneg (one_le_ofNat hk) hone.isFinite (within_ofNat hfit hlarge).isFinite
      hthousand.isFinite hthousand.zero_le
  rw [show (1 * 1000 : Single) = 1000 by decide +kernel] at hmore
  have hdividend : (1000 / .ofNat window : Single) ≤ .ofNat k * 1000 / .ofNat window :=
    div_le_div_of_pos hmore hthousand.isFinite hscaled.isFinite
      (within_ofNat hfit hwindow).isFinite (ofNat_pos (hspan.trans hle))
  exact Binary.le_trans hdividend (div_le_div_of_le hscaled.isFinite hscaled.zero_le
    (within_ofNat hfit (hle.trans hwindow)).isFinite (within_ofNat hfit hwindow).isFinite
    (ofNat_pos hspan) (ofNat_le_ofNat_of_le hle))

theorem loggedRate_inRange (hcapacity : capacity ≤ 2 ^ 64) (hwindow : maxAge ≤ 2 ^ 64)
    (hsorted : (now :: times).SortedGE) :
    RateInRange capacity maxAge (loggedRate capacity maxAge now times) := by
  cases times with
  | nil => exact .inl rfl
  | cons newest earlier =>
    rw [loggedRate_cons]
    obtain hzero | ⟨oldest, hmem, span, hdistance, hspan, hsome, hrate⟩ :=
      rateOver_cases newest (countedTimes capacity maxAge now (newest :: earlier))
    · exact .inl hzero
    · right
      have hfew : (countedTimes capacity maxAge now (newest :: earlier)).length ≤ capacity - 2 :=
        length_countedTimes_le
      have hage := age_le_of_mem_countedTimes hmem
      have hnow := List.rel_of_pairwise_cons hsorted.pairwise (List.mem_cons_self (a := newest))
      have hshort : (span : ℤ) ≤ maxAge := by omega
      obtain ⟨window, rfl⟩ := Int.eq_ofNat_of_zero_le ((Int.natCast_nonneg span).trans hshort)
      have hle : span ≤ window := by exact_mod_cast hshort
      have hlong : window ≤ 2 ^ 64 := by exact_mod_cast hwindow
      rw [hrate, ofInt_natCast]
      exact ⟨le_rate hsome (by omega) hspan hle hlong,
        rate_le hfew hsome hcapacity hspan (hle.trans hlong)⟩

/-- An estimate is zero, or what a log shows at a time that is not before those it holds. -/
private theorem lastEstimate_cases (config : EstimatorConfig) (past : List Measurement) :
    lastEstimate config past = 0 ∨ ∃ now times,
      lastEstimate config past =
        loggedRate config.historySize.toNat config.maxAge.toInt now times ∧
      ((past.filterMap Measurement.time?).SortedGE → (now :: times).SortedGE) := by
  induction past with
  | nil => exact .inl rfl
  | cons measurement past ih =>
    have hlogged := loggedTimes_sublist past
    cases measurement with
    | reset => exact .inl rfl
    | record time =>
      obtain hzero | ⟨now, times, hrate, hordered⟩ := ih
      · exact .inl hzero
      · refine .inr ⟨now, times, hrate, ?_⟩
        intro hsorted
        exact hordered hsorted.pairwise.tail.sortedGE
    | estimate now =>
      refine .inr ⟨now, loggedTimes past, rfl, ?_⟩
      intro hsorted
      exact (hsorted.pairwise.sublist (hlogged.cons_cons now)).sortedGE
    | update now =>
      refine .inr ⟨now, now :: loggedTimes past, rfl, ?_⟩
      intro hsorted
      have hnow := (hsorted.pairwise.sublist (hlogged.cons_cons now))
      refine (List.pairwise_cons.mpr ⟨?_, hnow⟩).sortedGE
      intro time hmem
      obtain rfl | hmem := List.mem_cons.mp hmem
      · exact le_refl time
      · exact List.rel_of_pairwise_cons hnow hmem

theorem lastEstimate_within (config : EstimatorConfig) (past : List Measurement) :
    (lastEstimate config past).Within (2 ^ 74) := by
  obtain hzero | ⟨now, times, hrate, -⟩ := lastEstimate_cases config past
  · rw [hzero]
    exact within_zero _
  · rw [hrate]
    exact loggedRate_within config.historySize.toNat_lt.le _ now times

theorem lastEstimate_inRange (config : EstimatorConfig) {past : List Measurement}
    (hordered : (past.filterMap Measurement.time?).SortedGE) :
    RateInRange config.historySize.toNat config.maxAge.toInt (lastEstimate config past) := by
  obtain hzero | ⟨now, times, hrate, hsorted⟩ := lastEstimate_cases config past
  · exact .inl hzero
  · rw [hrate]
    exact loggedRate_inRange config.historySize.toNat_lt.le
      (config.maxAge.toInt_lt.le.trans (by norm_num)) (hsorted hordered)

/-- With a window of two seconds or less a rate is zero or at least a half. -/
theorem RateInRange.roundRate_eq_zero_iff (h : RateInRange capacity maxAge rate)
    (hwithin : rate.Within (2 ^ 74)) (hpos : 0 < maxAge) (hshort : maxAge ≤ 2000) :
    FrameRateEstimator.roundRate rate = 0 ↔ rate = 0 := by
  constructor
  · intro hround
    obtain hzero | ⟨hlow, -⟩ := h
    · exact hzero
    · obtain ⟨window, rfl⟩ := Int.eq_ofNat_of_zero_le hpos.le
      rw [ofInt_natCast] at hlow
      have hhalf : (1000 / .ofNat 2000 : Single) ≤ .ofNat 1 * 1000 / .ofNat window :=
        le_rate le_rfl (by norm_num) (by omega) (by omega) (by norm_num)
      rw [show (1000 / .ofNat 2000 : Single) = 1 / 2 by decide +kernel,
        show (.ofNat 1 * 1000 : Single) = 1000 by decide +kernel] at hhalf
      have hle := Binary.le_trans hhalf hlow
      rw [le_iff_value FrameRateEstimator.isFinite_half hwithin.isFinite, value_half] at hle
      have hone := (FrameRateEstimator.roundRate_bounds hwithin).1 hle
      rw [hround] at hone
      exact absurd hone (by decide)
  · rintro rfl
    decide +kernel

end Range

namespace FrameRateEstimator

variable {config : EstimatorConfig}

theorem rate_run (hc : 3 ≤ config.historySize.toNat) (measurements : List Measurement) :
    ((ofConfig config).run measurements).rate = lastEstimate config measurements.reverse := by
  rw [run_ofConfig hc]
  rfl

theorem rate_run_burst {n : ℕ} {now : Int} (hfit : n + 3 ≤ config.historySize.toNat)
    (hpos : 0 < now) (hrecent : now ≤ config.maxAge.toInt) :
    ((ofConfig config).run (.update 0 :: List.replicate (n + 1) (.update now))).rate =
      .ofNat (n + 1) * 1000 / .ofInt now := by
  have hlog : loggedTimes (List.replicate n (.update now) ++ [.update 0]) =
      List.replicate n now ++ [0] := by
    induction n with
    | zero => rfl
    | succ n ih =>
      rw [List.replicate_succ, List.replicate_succ, List.cons_append, loggedTimes, ih (by omega),
        List.cons_append]
  have hlatest : ∀ time ∈ List.replicate n now ++ [0], now - time ≤ config.maxAge.toInt := by
    intro time hmem
    simp only [List.mem_append, List.mem_replicate, List.mem_singleton] at hmem
    omega
  have hcounted : loggedRate config.historySize.toNat config.maxAge.toInt now
      (now :: (List.replicate n now ++ [0])) = .ofNat (n + 1) * 1000 / .ofInt now := by
    rw [loggedRate_of_recent (by simpa using hfit) hlatest]
    simp [Arrivals.rateOver, hpos]
  rw [rate_run (by omega), List.reverse_cons, List.reverse_replicate, List.replicate_succ,
    List.cons_append, lastEstimate, hlog, hcounted]

end FrameRateEstimator

end RateGovernor
