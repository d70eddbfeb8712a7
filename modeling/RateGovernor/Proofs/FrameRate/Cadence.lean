import Mathlib
import RateGovernor.Proofs.Binary.Single
import RateGovernor.Proofs.FrameRate.ArrivalLog

/-!
# Steady arrivals

Frames that arrive at a steady interval push everything older out of the estimate. The rate is then
a number of intervals per their span, whatever came before, and rounded to whole frames it is at
least one and at most half a frame too high, as long as the interval is at most two seconds. Where
nothing came before and no count is too large for single precision, the rate is that of one interval
from the second arrival on.
-/

namespace RateGovernor

open Binary

/-- A log whose newest times are a number of steady arrivals, the last one at a given time; what is
older lies before them. -/
def Steady (interval : ℕ) : ℕ → Int → List Int → Prop
  | 0, now, times => ∀ time ∈ times, time ≤ now
  | n + 1, now, times =>
    ∃ earlier, times = now :: earlier ∧ Steady interval n (now - interval) earlier

theorem Steady.cons {interval n : ℕ} {now : Int} {times : List Int}
    (h : Steady interval n now times) :
    Steady interval (n + 1) (now + interval) ((now + interval) :: times) :=
  ⟨times, rfl, by rwa [Int.add_sub_cancel]⟩

/-- Intervals per second over a number of steady intervals. -/
def steadyRate (k interval : ℕ) : Single := .ofNat k * 1000 / .ofInt (k * interval)

section Log

variable {interval n : ℕ} {maxAge now start : Int} {times : List Int}

private theorem Steady.getLast?_takeWhile (h : Steady interval n start times)
    (hold : maxAge < now - (start - n * interval) ∨ times.length ≤ n) (slots : ℕ) {oldest : Int}
    (hlast : ((times.take slots).takeWhile (now - · ≤ maxAge)).getLast? = some oldest) :
    oldest = start - (((times.take slots).takeWhile (now - · ≤ maxAge)).length - 1) * interval := by
  induction n generalizing start times slots with
  | zero =>
    have hnone : (times.take slots).takeWhile (now - · ≤ maxAge) = [] := by
      cases times with
      | nil => simp
      | cons newest earlier =>
        have hnewest := h newest List.mem_cons_self
        have hold := hold.resolve_right (by simp)
        cases slots with
        | zero => rfl
        | succ slots =>
          rw [List.take_succ_cons, List.takeWhile_cons_of_neg]
          simp only [decide_eq_true_eq]
          push_cast at hold
          omega
    rw [hnone] at hlast
    cases hlast
  | succ n ih =>
    obtain ⟨earlier, rfl, hsteady⟩ := h
    cases slots with
    | zero => cases hlast
    | succ slots =>
      rw [List.take_succ_cons] at hlast ⊢
      by_cases hrecent : now - start ≤ maxAge
      · rw [List.takeWhile_cons_of_pos (by simpa using hrecent)] at hlast ⊢
        have hold' : maxAge < now - (start - interval - n * interval) ∨ earlier.length ≤ n := by
          apply hold.imp
          · intro hlong
            push_cast at hlong
            linarith
          · intro hshort
            simpa using hshort
        have hlater := ih hsteady hold' slots
        generalize (earlier.take slots).takeWhile (now - · ≤ maxAge) = rest at hlast hlater ⊢
        cases rest with
        | nil =>
          rw [List.getLast?_singleton, Option.some_inj] at hlast
          simp [hlast]
        | cons next older =>
          rw [List.getLast?_cons_cons] at hlast
          have holdest := hlater hlast
          simp only [List.length_cons] at holdest ⊢
          push_cast at holdest ⊢
          linarith
      · rw [List.takeWhile_cons_of_neg (by simpa using hrecent)] at hlast
        cases hlast

/-- The rate that steady arrivals show once they have lasted for longer than the greatest age, or
from the second one on if there was nothing before them. -/
theorem Steady.loggedRate_eq {capacity : ℕ} (hc : 3 ≤ capacity) (hpos : 1 ≤ interval)
    (hage : interval ≤ maxAge)
    (hold : maxAge < (n + 1) * interval ∨ 1 ≤ n ∧ times.length ≤ n + 1)
    (h : Steady interval (n + 1) now times) :
    ∃ k : ℕ, 1 ≤ k ∧ k ≤ capacity - 2 ∧ k * interval ≤ maxAge ∧
      loggedRate capacity maxAge now times = steadyRate k interval := by
  obtain ⟨earlier, rfl, hsteady⟩ := h
  have hlast : ∀ oldest,
      (countedTimes capacity maxAge now (now :: earlier)).getLast? = some oldest →
      oldest = now - interval -
        ((countedTimes capacity maxAge now (now :: earlier)).length - 1) * interval := by
    intro oldest
    apply hsteady.getLast?_takeWhile
    apply hold.imp
    · intro hlong
      linarith
    · rintro ⟨-, hshort⟩
      simpa using hshort
  have hne : countedTimes capacity maxAge now (now :: earlier) ≠ [] := by
    obtain ⟨m, rfl⟩ : ∃ m, n = m + 1 := by
      refine Nat.exists_eq_succ_of_ne_zero ?_
      rintro rfl
      simp at hold
      omega
    obtain ⟨older, rfl, -⟩ := hsteady
    obtain ⟨slots, hslots⟩ : ∃ slots, capacity - 2 = slots + 1 := ⟨capacity - 3, by omega⟩
    rw [countedTimes, List.tail_cons, hslots, List.take_succ_cons,
      List.takeWhile_cons_of_pos (by simpa using hage)]
    exact List.cons_ne_nil _ _
  have hfew : (countedTimes capacity maxAge now (now :: earlier)).length ≤ capacity - 2 :=
    length_countedTimes_le
  have hrecent : ∀ time ∈ countedTimes capacity maxAge now (now :: earlier), now - time ≤ maxAge :=
    fun _ => age_le_of_mem_countedTimes
  rw [loggedRate_cons]
  generalize countedTimes capacity maxAge now (now :: earlier) = used at hlast hne hfew hrecent ⊢
  have holdest := hlast _ (List.getLast?_eq_some_getLast hne)
  have hspan := hrecent _ (List.getLast_mem hne)
  have hcount := List.length_pos_of_ne_nil hne
  have hdistance : now - used.getLast hne = used.length * interval := by
    rw [holdest]
    ring
  have hdistance_pos : 0 < now - used.getLast hne := by
    rw [hdistance]
    positivity
  refine ⟨used.length, hcount, hfew, by rwa [← hdistance], ?_⟩
  simp only [Arrivals.rateOver, List.getLast?_eq_some_getLast hne]
  rw [if_neg hdistance_pos.not_ge, hdistance]
  rfl

private theorem Steady.loggedRate_eq_zero {capacity : ℕ} (hn : 1 ≤ n) (hage : maxAge < interval)
    (h : Steady interval (n + 1) now times) : loggedRate capacity maxAge now times = 0 := by
  obtain ⟨earlier, rfl, hsteady⟩ := h
  obtain ⟨m, rfl⟩ : ∃ m, n = m + 1 := ⟨n - 1, by omega⟩
  obtain ⟨older, rfl, -⟩ := hsteady
  have hnone : countedTimes capacity maxAge now (now :: (now - interval) :: older) = [] := by
    rw [countedTimes, List.tail_cons]
    cases capacity - 2 with
    | zero => rfl
    | succ slots =>
      rw [List.take_succ_cons, List.takeWhile_cons_of_neg]
      simpa using hage
  rw [loggedRate_cons, hnone]
  rfl

end Log

namespace FrameRateEstimator

variable {rate : Single} {k interval span : ℕ}

theorem toNat_roundRate (rate : Single) :
    (roundRate rate).toNat = (rate + 1 / 2).truncate (UInt32.size - 1) := by
  refine UInt32.toNat_ofNat_of_lt' ?_
  exact (truncate_le_bound _ _).trans_lt (by decide)

theorem isFinite_half : (1 / 2 : Single).isFinite := by
  decide +kernel

theorem isRounded_add_half (hrate : rate.Within (2 ^ 74)) :
    IsRounded (rate.value + (1 / 2 : Single).value) (rate + 1 / 2) := by
  have hnonneg := hrate.nonneg
  have hle := hrate.le
  push_cast at hle
  refine isRounded_add hrate.isFinite isFinite_half (.single_two_pow (k := 75) (by decide)) ?_
  rw [value_half, abs_of_nonneg (by positivity)]
  push_cast
  linarith

theorem roundRate_bounds (hrate : rate.Within (2 ^ 74)) :
    (1 / 2 ≤ rate.value → 1 ≤ (roundRate rate).toNat) ∧
      ((roundRate rate).toNat : ℚ) ≤ (rate.value + 1 / 2) * (1 + 1 / 2 ^ 24) := by
  have hnonneg := hrate.nonneg
  have hsum := isRounded_add_half hrate
  have herror := error_add_single hrate.isFinite isFinite_half hsum
  rw [value_half, abs_of_nonneg (by positivity)] at herror
  rw [value_half] at hsum
  rw [toNat_roundRate]
  constructor
  · intro hhalf
    have hone := hsum.cast_le (.single_of_lt (n := 1) (by decide)) (by push_cast; linarith)
    exact one_le_truncate hsum.isFinite (by exact_mod_cast hone) (by decide)
  · exact (truncate_le_value hsum.isFinite (hsum.nonneg (by positivity)) _).trans (by linarith)

theorem scaled_bounds (hk : 1 ≤ k) (hlarge : k ≤ 2 ^ 64) :
    (.ofNat k * 1000 : Single).Within (2 ^ 74) ∧
      1000 * k * (1 - 1 / 2 ^ 24) ^ 2 ≤ (.ofNat k * 1000 : Single).value ∧
      (.ofNat k * 1000 : Single).value ≤ 1000 * k * (1 + 1 / 2 ^ 24) ^ 2 := by
  rw [show (1000 : Single) = .ofNat 1000 from rfl]
  have hfit : (Format.single).Holds (2 ^ 64) := .single_two_pow (by decide)
  have hone : (1 : ℚ) ≤ k := by exact_mod_cast hk
  have htiny : (1 / 2 ^ 100 : ℚ) ≤ 1 / 2 := by norm_num
  obtain ⟨hcount_low, hcount_high⟩ := (isRounded_ofNat hfit hlarge).single_bounds (by linarith)
  have hthousand : (ofNat 1000 : Single).value = (1000 : ℕ) := value_literal (by decide)
  obtain ⟨hscaled, hwithin⟩ := (within_ofNat hfit hlarge).isRounded_mul
    (within_literal (by decide : 1000 < 2 ^ 24)) (.single_two_pow (k := 74) (by decide)) (by decide)
  rw [hthousand, Nat.cast_ofNat] at hscaled
  obtain ⟨hlow, hhigh⟩ := hscaled.single_bounds (by linarith)
  exact ⟨hwithin, by linarith, by linarith⟩

private theorem span_bounds (hpos : 1 ≤ span) (hspan : span ≤ 2 ^ 64) :
    (.ofInt span : Single).isFinite ∧ 1 ≤ (.ofInt span : Single).value ∧
      span * (1 - 1 / 2 ^ 24) ≤ (.ofInt span : Single).value ∧
      (.ofInt span : Single).value ≤ span * (1 + 1 / 2 ^ 24) := by
  have hpos' : (1 : ℚ) ≤ span := by exact_mod_cast hpos
  have hbound : |((span : ℤ) : ℚ)| ≤ (2 ^ 64 : ℕ) := by
    push_cast
    rw [abs_of_nonneg (by linarith)]
    exact_mod_cast hspan
  have hround := isRounded_ofInt (F := .single) (.single_two_pow (by decide)) hbound
  push_cast at hround
  have hone := hround.cast_le (.single_of_lt (n := 1) (by decide)) (by rwa [Nat.cast_one])
  rw [Nat.cast_one] at hone
  exact ⟨hround.isFinite, hone, hround.single_bounds (le_trans (by norm_num) hpos')⟩

private theorem rate_bounds (hk : 1 ≤ k) (hfew : k ≤ 2 ^ 64) (hpos : 1 ≤ span)
    (hspan : span ≤ 2 ^ 64) :
    (.ofNat k * 1000 / .ofInt span : Single).Within (2 ^ 74) ∧
      1000 * k * (1 - 1 / 2 ^ 20) ≤ (.ofNat k * 1000 / .ofInt span : Single).value * span ∧
      (.ofNat k * 1000 / .ofInt span : Single).value * span ≤ 1000 * k * (1 + 1 / 2 ^ 20) := by
  obtain ⟨hwithin, hscaled_low, hscaled_high⟩ := scaled_bounds hk hfew
  obtain ⟨hfinite, hone, hspan_low, hspan_high⟩ := span_bounds hpos hspan
  obtain ⟨hrate, hrate_within⟩ := hwithin.isRounded_div hfinite Nat.one_pos
    (by rwa [Nat.cast_one]) (.single_two_pow (k := 74) (by decide)) (by decide)
  have hspan_pos : 0 < (.ofInt span : Single).value := by linarith
  have hspan_nonneg : (0 : ℚ) ≤ span := span.cast_nonneg
  have hk' : (1 : ℚ) ≤ k := by exact_mod_cast hk
  set scaled := (.ofNat k * 1000 : Single).value
  set rounded := (.ofInt span : Single).value
  have hexact : scaled / rounded * span * rounded = scaled * span := by
    rw [mul_right_comm, div_mul_cancel₀ _ hspan_pos.ne']
  have hproduct : (0 : ℚ) ≤ k * span := by positivity
  have hlow : 1000 * k * (1 - 1 / 2 ^ 22) ≤ scaled / rounded * span := by
    have hscaled := mul_le_mul_of_nonneg_right hscaled_low hspan_nonneg
    have hrounded := mul_le_mul_of_nonneg_left hspan_high (zero_le_one.trans hk')
    refine le_of_mul_le_mul_right ?_ hspan_pos
    rw [hexact]
    linarith
  have hhigh : scaled / rounded * span ≤ 1000 * k * (1 + 1 / 2 ^ 22) := by
    have hscaled := mul_le_mul_of_nonneg_right hscaled_high hspan_nonneg
    have hrounded := mul_le_mul_of_nonneg_left hspan_low (zero_le_one.trans hk')
    refine le_of_mul_le_mul_right ?_ hspan_pos
    rw [hexact]
    linarith
  have hlarge : 1 / 2 ^ 100 ≤ scaled / rounded := by
    have hsmall : (span : ℚ) ≤ 2 ^ 64 := by exact_mod_cast hspan
    by_contra hlt
    have hbound := mul_le_mul (not_le.mp hlt).le hsmall hspan_nonneg (by norm_num)
    linarith
  obtain ⟨hrate_low, hrate_high⟩ := hrate.single_bounds hlarge
  have hrate_low' := mul_le_mul_of_nonneg_right hrate_low hspan_nonneg
  have hrate_high' := mul_le_mul_of_nonneg_right hrate_high hspan_nonneg
  exact ⟨hrate_within, by linarith, by linarith⟩

theorem rate_pos (hk : 1 ≤ k) (hfew : k ≤ 2 ^ 64) (hpos : 1 ≤ span) (hspan : span ≤ 2 ^ 64) :
    (0 : Single) < .ofNat k * 1000 / .ofInt span := by
  obtain ⟨hwithin, hlow, -⟩ := rate_bounds hk hfew hpos hspan
  have hk' : (1 : ℚ) ≤ k := by exact_mod_cast hk
  rw [pos_iff_value hwithin.isFinite]
  apply pos_of_mul_pos_left (b := (span : ℚ)) ?_ span.cast_nonneg
  linarith

private theorem steadyRate_bounds (hk : 1 ≤ k) (hpos : 1 ≤ interval)
    (hspan : k * interval ≤ 2 ^ 64) :
    (steadyRate k interval).Within (2 ^ 74) ∧
      1000 * (1 - 1 / 2 ^ 20) ≤ (steadyRate k interval).value * interval ∧
      (steadyRate k interval).value * interval ≤ 1000 * (1 + 1 / 2 ^ 20) := by
  have hk' : (0 : ℚ) < k := by exact_mod_cast hk
  have hfew : k ≤ 2 ^ 64 := (Nat.le_mul_of_pos_right k hpos).trans hspan
  obtain ⟨hwithin, hlow, hhigh⟩ := rate_bounds hk hfew (Nat.mul_pos hk hpos) hspan
  rw [Nat.cast_mul] at hwithin hlow hhigh
  change (steadyRate k interval).Within _ at hwithin
  change _ ≤ (steadyRate k interval).value * _ at hlow
  change (steadyRate k interval).value * _ ≤ _ at hhigh
  push_cast at hlow hhigh
  refine ⟨hwithin, le_of_mul_le_mul_left ?_ hk', le_of_mul_le_mul_left ?_ hk'⟩ <;> linarith

private theorem steadyRate_two_seconds (hk : 1 ≤ k) (hshort : k ≤ 2 ^ 24) :
    (steadyRate k 2000).value = 1 / 2 := by
  have hfit : (Format.single).Holds (2 ^ 64) := .single_two_pow (by decide)
  have hscaled : (.ofNat k * 1000 : Single) = .ofNat (k * 1000) :=
    ofNat_mul (.single_of_le hshort) (.single_of_lt (by decide))
  have hspan : (.ofInt (k * (2000 : ℕ)) : Single) = .ofNat (2 * (k * 1000)) := by
    rw [← ofInt_natCast]
    congr 1
    push_cast
    ring
  have hdouble := value_ofNat_two_mul (n := k * 1000) (by omega) hfit (by omega)
  have hpos : 1 ≤ (ofNat (k * 1000) : Single).value :=
    one_le_value_ofNat (by omega) hfit (by omega) (.single_of_lt (by decide))
  have hquotient : (ofNat (k * 1000) : Single).value / (ofNat (2 * (k * 1000)) : Single).value =
      (1 / 2 : Single).value := by
    rw [hdouble, value_half]
    field_simp
  have hne : (ofNat (2 * (k * 1000)) : Single).value ≠ 0 := by
    rw [hdouble]
    linarith
  rw [steadyRate, hscaled, hspan]
  have h := isRounded_div (within_ofNat hfit (by omega : k * 1000 ≤ 2 ^ 64)).isFinite
    (within_ofNat hfit (by omega : 2 * (k * 1000) ≤ 2 ^ 64)).isFinite hne
    (.single_of_lt (n := 1) (by decide)) (by rw [hquotient, value_half]; norm_num)
  rw [hquotient] at h
  rw [← value_half]
  exact le_antisymm (h.le_value isFinite_half le_rfl) (h.value_le isFinite_half le_rfl)

theorem steadyRate_eq (hk : 1 ≤ k) (hpos : 1 ≤ interval)
    (hscaled : (Format.single).Holds (k * 1000)) (hspan : (Format.single).Holds (k * interval)) :
    steadyRate k interval = 1000 / .ofNat interval := by
  have hthousand : (Format.single).Holds 1000 := .single_of_lt (by decide)
  have hcount := hscaled.of_dvd (Nat.mul_ne_zero (by omega) (by decide)) (Nat.dvd_mul_right k 1000)
  have hproduct : (.ofNat k * 1000 : Single) = .ofNat (k * 1000) := ofNat_mul hcount hthousand
  have hsum : (.ofInt (k * interval) : Single) = .ofNat (k * interval) := by
    rw [← ofInt_natCast, Nat.cast_mul]
  rw [steadyRate, hproduct, hsum]
  exact ofNat_mul_div_mul hscaled hspan hk (by decide) hpos

/-- Over steady arrivals no more than two seconds apart, the rate in whole frames is at least one
frame, and above the rate of the arrivals by at most half a frame. -/
theorem roundRate_steady (hk : 1 ≤ k) (hpos : 1 ≤ interval) (hspan : k * interval ≤ 2 ^ 64)
    (hslow : interval < 2000 ∨ interval = 2000 ∧ k ≤ 2 ^ 24) :
    1 ≤ (roundRate (steadyRate k interval)).toNat ∧
      2 * ((roundRate (steadyRate k interval)).toNat * interval) ≤ 2000 + interval := by
  obtain ⟨hwithin, hlow, hhigh⟩ := steadyRate_bounds hk hpos hspan
  obtain ⟨hone, hmost⟩ := roundRate_bounds hwithin
  have hinterval : (interval : ℚ) ≤ 2000 := by
    have hle : interval ≤ 2000 := by omega
    exact_mod_cast hle
  have hpos' : (1 : ℚ) ≤ interval := by exact_mod_cast hpos
  constructor
  · refine hone ?_
    rcases hslow with hlt | ⟨rfl, hshort⟩
    · have hlt' : (interval : ℚ) ≤ 1999 := by exact_mod_cast Nat.le_of_lt_succ hlt
      have hnonneg := hwithin.nonneg
      nlinarith
    · exact (steadyRate_two_seconds hk hshort).ge
  · generalize roundRate (steadyRate k interval) = rate at hmost ⊢
    have hfit : ((2 * (rate.toNat * interval) : ℕ) : ℚ) < (2000 + interval + 1 : ℕ) := by
      push_cast
      have hscaled := mul_le_mul_of_nonneg_right hmost (by linarith : (0 : ℚ) ≤ interval)
      linarith
    exact Nat.le_of_lt_succ (by exact_mod_cast hfit)

section SteadyInput

theorem loggedRate_steady {capacity n : ℕ} {maxAge now : Int} {times : List Int}
    (hc : 3 ≤ capacity) (hfew : 1000 * (capacity - 2) ≤ 2 ^ 24) (hwindow : maxAge ≤ 2 ^ 24)
    (hpos : 1 ≤ interval) (hn : 1 ≤ n) (hlength : times.length = n + 1)
    (h : Steady interval (n + 1) now times) :
    loggedRate capacity maxAge now times =
      if interval ≤ maxAge then 1000 / .ofNat interval else 0 := by
  split
  · rename_i hage
    obtain ⟨k, hk, hkc, hspan, hrate⟩ := h.loggedRate_eq hc hpos hage (.inr ⟨hn, hlength.le⟩)
    have hspan' : k * interval ≤ 2 ^ 24 := by
      zify
      exact hspan.trans hwindow
    rw [hrate]
    apply steadyRate_eq hk hpos
    · exact .single_of_le (by omega)
    · exact .single_of_le hspan'
  · rename_i hage
    exact h.loggedRate_eq_zero hn (not_le.mp hage)

/-- Updates at a steady interval, the first one at the given time. -/
def steadyUpdates (interval : ℕ) (start : Int) (count : ℕ) : List Measurement :=
  (List.range count).map fun i => .update (start + i * interval)

private theorem reverse_steadyUpdates_succ (interval : ℕ) (start : Int) (count : ℕ) :
    (steadyUpdates interval start (count + 1)).reverse =
      .update (start + count * interval) :: (steadyUpdates interval start count).reverse := by
  simp [steadyUpdates, List.range_succ]

private theorem length_loggedTimes_steadyUpdates (interval : ℕ) (start : Int) (count : ℕ) :
    (loggedTimes (steadyUpdates interval start count).reverse).length = count := by
  induction count with
  | zero => rfl
  | succ count ih =>
    rw [reverse_steadyUpdates_succ, loggedTimes, List.length_cons, ih]

private theorem steady_loggedTimes (interval : ℕ) (start : Int) (count : ℕ) :
    Steady interval count (start + (count - 1) * interval)
      (loggedTimes (steadyUpdates interval start count).reverse) := by
  induction count with
  | zero =>
    intro time hmem
    cases hmem
  | succ count ih =>
    have hnext := ih.cons
    have hnow : start + (count - 1) * interval + interval = start + count * interval := by ring
    rw [hnow] at hnext
    rw [reverse_steadyUpdates_succ, loggedTimes]
    push_cast
    rwa [add_sub_cancel_right]

variable {config : EstimatorConfig}

private theorem reset_run_ofConfig (hc : 3 ≤ config.historySize.toNat) (past : List Measurement) :
    ((ofConfig config).run past).reset = ofConfig config := by
  rw [run_ofConfig hc, reset_ofLog, ofConfig_eq_ofLog]

private theorem rate_run_steadyUpdates (hc : 3 ≤ config.historySize.toNat) (interval : ℕ)
    (start : Int) (n : ℕ) :
    ((ofConfig config).run (steadyUpdates interval start (n + 1))).rate =
      loggedRate config.historySize.toNat config.maxAge.toInt (start + n * interval)
        (loggedTimes (steadyUpdates interval start (n + 1)).reverse) := by
  rw [run_ofConfig hc, reverse_steadyUpdates_succ]
  rfl

/-- Let single precision hold the scaled number of intervals that the slots have room for, and the
greatest age. From the second of any number of steady updates on, an estimator that is fresh or was
just reset shows the single-precision quotient of one interval, bit for bit, or zero if the interval
exceeds the greatest age; neither the start nor the number of updates nor the settings matter. -/
theorem steady_input_measured_exactly (hsize : 3 ≤ config.historySize.toNat)
    (hfew : 1000 * (config.historySize.toNat - 2) ≤ 2 ^ 24) (hage : 0 < config.maxAge.toInt)
    (hwindow : config.maxAge.toInt ≤ 2 ^ 24) :
    ∃ fresh, create config = .ok fresh ∧
      ∀ e, (e = fresh ∨ ∃ past, e = (fresh.run past).reset) →
        ∀ (interval count : ℕ) (start : Int), 1 ≤ interval → 2 ≤ count →
          (e.run (steadyUpdates interval start count)).rate =
            if interval ≤ config.maxAge.toInt then 1000 / .ofNat interval else 0 := by
  have hvalid := EstimatorConfig.validate_eq_ok_iff.mpr ⟨hsize, hage⟩
  refine ⟨ofConfig config, create_eq_ok hvalid, ?_⟩
  intro e he interval count start hpos hcount
  have hblank : e = ofConfig config := by
    obtain rfl | ⟨past, rfl⟩ := he
    · rfl
    · exact reset_run_ofConfig hsize past
  obtain ⟨n, rfl⟩ : ∃ n, count = n + 1 := ⟨count - 1, by omega⟩
  have hsteady := steady_loggedTimes interval start (n + 1)
  have hlength := length_loggedTimes_steadyUpdates interval start (n + 1)
  rw [Nat.cast_add_one, add_sub_cancel_right] at hsteady
  rw [hblank, rate_run_steadyUpdates hsize]
  exact loggedRate_steady hsize hfew hwindow hpos (by omega) hlength hsteady

/-- Forty milliseconds apart, in a history of three slots that was used before, are twenty-five
frames a second; three seconds apart are none. -/
theorem steady_input_measured_exactly_reused :
    3 ≤ (3 : UInt64).toNat ∧ 1000 * ((3 : UInt64).toNat - 2) ≤ 2 ^ 24 ∧ 0 < (2000 : Int64).toInt ∧
      (2000 : Int64).toInt ≤ 2 ^ 24 ∧ ∃ fresh, create ⟨3, 2000⟩ = .ok fresh ∧
        ((fresh.run [.update 7, .record 9]).reset.run (steadyUpdates 40 1000 5)).rate = 25 ∧
        (fresh.run (steadyUpdates 3000 (-500) 2)).rate = 0 := by
  have hage : 0 < (2000 : Int64).toInt := by decide
  have hwindow : (2000 : Int64).toInt ≤ 2 ^ 24 := by decide
  obtain ⟨fresh, hfresh, hexact⟩ :=
    @steady_input_measured_exactly ⟨3, 2000⟩ (by decide) (by decide) hage hwindow
  have hshort := hexact _ (.inr ⟨[.update 7, .record 9], rfl⟩) 40 5 1000 (by decide) (by decide)
  have hlong := hexact fresh (.inl rfl) 3000 2 (-500) (by decide) (by decide)
  refine ⟨by decide, by decide, hage, hwindow, fresh, hfresh, ?_, ?_⟩
  · rw [hshort]
    decide +kernel
  · rw [hlong]
    decide +kernel

end SteadyInput

end FrameRateEstimator

end RateGovernor
