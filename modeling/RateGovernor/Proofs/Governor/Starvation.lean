import Mathlib
import RateGovernor.Proofs.Dropper.DropDuration
import RateGovernor.Proofs.Governor.SteadyQueries

/-!
# No starvation

A governor over a leaky bucket keeps the bucket's target at its own, and the numbers in the bucket
finite. So when frames arrive at a steady interval within the window of the estimate, at most two
seconds apart, and the debt is not so large that rounding swallows what a frame interval drains,
frames are dropped for no longer than about twice the time that the debt takes to drain.
-/

namespace RateGovernor

open Binary FrameRateEstimator

namespace Governor

/-- A governor and its bucket agree on the target, and the bucket is sound. -/
structure Agrees (bucket : BucketConfig) (g : Governor LeakyBucket) : Prop where
  config : g.dropper.config = bucket
  bitrate : g.dropper.bitrate = (kilobitsPerSecond g.target).positivePart
  sound : g.dropper.Sound

section Agreement

variable {bucket : BucketConfig} {g : Governor LeakyBucket}

theorem Agrees.after (h : Agrees bucket g) (hwindow : 0 ≤ bucket.window) (r : Request) :
    Agrees bucket (g.after r) := by
  have hconfig := dropper_after (LeakyBucket.keeps_config bucket) h.config r
  have hdropper := dropper_after_eq_foldl g r
  have htarget := target_after g r
  have hwindow' : 0 ≤ g.dropper.config.window := by rwa [h.config]
  suffices hbucket : (g.after r).dropper.bitrate =
      (kilobitsPerSecond (g.after r).target).positivePart ∧ (g.after r).dropper.Sound from
    ⟨hconfig, hbucket.1, hbucket.2⟩
  rw [hdropper, htarget]
  obtain ⟨now, operation⟩ := r
  cases operation with
  | configure p =>
    exact ⟨rfl, (g.dropper.sound_reset).setRates hwindow' (isRounded_kilobitsPerSecond _).2 _⟩
  | reset =>
    exact ⟨rfl, (g.dropper.sound_reset).setRates hwindow' (isRounded_kilobitsPerSecond _).2 _⟩
  | updateTarget n =>
    exact ⟨rfl, h.sound.setRates hwindow' (isRounded_kilobitsPerSecond _).2 _⟩
  | measureFrameRate => exact ⟨h.bitrate, h.sound⟩
  | shouldDrop =>
    rw [LeakyBucket.foldl_receive_query]
    exact ⟨(LeakyBucket.bitrate_leak _ _).trans h.bitrate, h.sound.leak _⟩
  | recordFrame kind size =>
    simp only [Control.calls]
    split
    · exact ⟨h.bitrate, h.sound⟩
    · exact ⟨(LeakyBucket.bitrate_fill _ _ _).trans h.bitrate, h.sound.fill _ _⟩
  | setDropping enabled =>
    exact ⟨h.bitrate, ⟨h.sound.debt, h.sound.pending, h.sound.bitrate, h.sound.threshold,
      h.sound.pendingLeaks⟩⟩
  | readTarget => exact ⟨h.bitrate, h.sound⟩
  | readParameters => exact ⟨h.bitrate, h.sound⟩
  | readReport => exact ⟨h.bitrate, h.sound⟩

theorem Agrees.afterAll (h : Agrees bucket g) (hwindow : 0 ≤ bucket.window)
    (requests : List Request) : Agrees bucket (g.afterAll requests) := by
  induction requests generalizing g with
  | nil => exact h
  | cons r rest ih => exact ih (h.after hwindow r)

theorem agrees_of_create {config : EstimatorConfig} {b : LeakyBucket} {fresh : Governor LeakyBucket}
    (hwindow : 0 ≤ b.config.window) (hcreate : create config b = .ok fresh) :
    Agrees b.config fresh := by
  have hfresh := create_eq_configuredAnew (create_eq_ok_iff.mp hcreate).1 b
  rw [hcreate, Except.ok.injEq] at hfresh
  rw [hfresh]
  have hblank : ({ LeakyBucket.create b.config with enabled := b.enabled } : LeakyBucket).Sound :=
    b.sound_reset
  exact ⟨rfl, LeakyBucket.bitrate_setRates _ _ _,
    hblank.setRates hwindow (isRounded_kilobitsPerSecond _).2 _⟩

end Agreement

section Cadence

variable {config : EstimatorConfig} {past : List Request} {g final : Governor LeakyBucket}

/-- The time in milliseconds that the outstanding debt takes to drain at the target. -/
def drainTime (g : Governor LeakyBucket) : ℚ :=
  1000 * g.dropper.outstanding / (g.target.toNat / 1000)

/-- In every state that a governor over a leaky bucket can reach, if frames arrive at a steady
interval and every one of them is dropped, then that does not go on for longer than twice the time
that the outstanding debt takes to drain at the target, twice the greatest age, and an interval for
each slice of a key frame and two more. The interval must not exceed the greatest age nor two
seconds, and the debt not the limit beyond which rounding takes back too much of the leaks. Only
the slices that are charged while older arrivals may still count lower that limit. -/
theorem dropping_ends {b : LeakyBucket} {fresh : Governor LeakyBucket} {clock : Int}
    {interval count : ℕ} (hcreate : create config b = .ok fresh) (hwindow : 0 ≤ b.config.window)
    (hpast : ∀ r ∈ past, r.now ≤ clock) (hpos : 1 ≤ interval)
    (hage : interval ≤ config.maxAge.toInt)
    (hslow : interval < 2000 ∨ interval = 2000 ∧
      (config.historySize.toNat ≤ 2 ^ 24 ∨ config.maxAge.toInt ≤ 2000 * 2 ^ 24))
    (hdebt : (fresh.afterAll past).dropper.worth (fresh.afterAll past).target interval ≤
      LeakyBucket.debtLimit interval (min (fresh.afterAll past).dropper.pendingLeaks.toNat
        (config.maxAge.toInt.toNat / interval)))
    (hrun : run (cadence interval count clock) (fresh.afterAll past) =
      .ok (List.replicate count (.verdict true)) final) :
    (count * interval : ℚ) ≤ 2 * (fresh.afterAll past).drainTime + 2 * config.maxAge.toInt +
      (b.config.keyFrameSpread.toNat + 2) * interval := by
  have hc := (control_of_create hcreate).1
  have hagrees := (agrees_of_create hwindow hcreate).afterAll hwindow past
  have hsteady : Steady interval 0 clock (captureTimes past.reverse) := by
    intro time hmem
    obtain ⟨r, hr, rfl⟩ := mem_captureTimes hmem
    exact hpast r (List.mem_reverse.mp hr)
  obtain ⟨early, late, hrates, hearly, hlate⟩ :=
    exists_queryRates_eq_append hc hpos hage hslow hsteady count
  have hdrops := dropsAll_of_run hc (control_afterAll_create hcreate past) hrun
  have hlength := length_queryRates config interval count past.reverse clock
  rw [hrates] at hdrops hlength
  have hage' : (interval : ℚ) ≤ config.maxAge.toInt := by exact_mod_cast hage
  have hearly' : (early.length * interval : ℚ) ≤ config.maxAge.toInt := by exact_mod_cast hearly
  have hfits : early.length ≤ config.maxAge.toInt.toNat / interval := by
    rw [Nat.le_div_iff_mul_le hpos]
    omega
  have hduration := hagrees.sound.duration_le hagrees.bitrate hpos (by omega) hage' hearly' hdrops
    hlate (min_le_min_left _ hfits) hdebt
  rw [← List.length_append, hlength, hagrees.config] at hduration
  exact hduration

/-- The answers of a run that is not interrupted. -/
def answers? (requests : List Request) (g : Governor LeakyBucket) : Option (List Answer) :=
  match run requests g with
  | .ok answers _ => some answers
  | .error _ _ => none

private theorem exists_final {requests : List Request} {answers : List Answer}
    (h : answers? requests g = some answers) : ∃ final, run requests g = .ok answers final := by
  rw [answers?] at h
  split at h
  · rename_i final hrun
    rw [Option.some.injEq] at h
    exact ⟨final, by rw [hrun, h]⟩
  · cases h

/-- A key frame that is spread and a delta frame, worth millions of budgets together, keep a bucket
dropping. -/
theorem dropping_ends_key_frame :
    let config : EstimatorConfig := ⟨3, 2000⟩
    let past : List Request := [⟨0, .configure ⟨0, 1000, 16⟩⟩, ⟨0, .recordFrame .key 100000000⟩,
      ⟨0, .recordFrame .delta 50000000⟩]
    ∃ fresh final, create config (LeakyBucket.create ⟨1, 10⟩) = .ok fresh ∧
      (∀ r ∈ past, r.now ≤ 0) ∧
      (fresh.afterAll past).dropper.worth (fresh.afterAll past).target 500 = 2400000 ∧
      (fresh.afterAll past).dropper.pendingLeaks = 10 ∧ 2400000 ≤ LeakyBucket.debtLimit 500 4 ∧
      run (cadence 500 12 0) (fresh.afterAll past) =
        .ok (List.replicate 12 (.verdict true)) final ∧
      ((12 : ℕ) * (500 : ℕ) : ℚ) ≤ 2 * (fresh.afterAll past).drainTime + 2 * config.maxAge.toInt +
        ((10 : UInt32).toNat + 2) * (500 : ℕ) := by
  intro config past
  obtain ⟨fresh, hcreate⟩ : ∃ fresh, create config (LeakyBucket.create ⟨1, 10⟩) = .ok fresh :=
    ⟨_, rfl⟩
  have hpast : ∀ r ∈ past, r.now ≤ 0 := by decide
  obtain ⟨hworth, hleaks, hanswers⟩ :
      (fresh.afterAll past).dropper.worth (fresh.afterAll past).target 500 = 2400000 ∧
      (fresh.afterAll past).dropper.pendingLeaks = 10 ∧
      answers? (cadence 500 12 0) (fresh.afterAll past) =
        some (List.replicate 12 (.verdict true)) := by
    cases hcreate
    decide +kernel
  obtain ⟨final, hrun⟩ := exists_final hanswers
  have hwindow : 0 ≤ (LeakyBucket.create ⟨1, 10⟩).config.window := by decide +kernel
  have hage : (500 : ℕ) ≤ config.maxAge.toInt := by decide
  have hslow : 500 < 2000 ∨ 500 = 2000 ∧
      (config.historySize.toNat ≤ 2 ^ 24 ∨ config.maxAge.toInt ≤ 2000 * 2 ^ 24) := by decide
  have hlimit : 2400000 ≤ LeakyBucket.debtLimit 500 4 := by
    have hgrowth : LeakyBucket.growth 4 ≤ 2 := (min_le_right _ _).trans (by norm_num)
    refine le_max_of_le_right ?_
    rw [le_div_iff₀ (by linarith [LeakyBucket.one_le_growth 4])]
    norm_num [LeakyBucket.pace, LeakyBucket.steadyFrames]
    linarith
  have hdebt : (fresh.afterAll past).dropper.worth (fresh.afterAll past).target 500 ≤
      LeakyBucket.debtLimit 500 (min (fresh.afterAll past).dropper.pendingLeaks.toNat
        (config.maxAge.toInt.toNat / 500)) := by
    have hslices : min (10 : UInt32).toNat (config.maxAge.toInt.toNat / 500) = 4 := by decide
    rw [hworth, hleaks, hslices]
    exact hlimit
  have hbound := dropping_ends hcreate hwindow hpast (by decide) hage hslow hdebt hrun
  exact ⟨fresh, final, hcreate, hpast, hworth, hleaks, hlimit, hrun, hbound⟩

/-- Every one of a number of frames that arrive at a steady interval is dropped, for longer than
twice the time that the outstanding debt takes to drain, twice the greatest age, and an interval for
each slice of a key frame and two more, although the debt is worth no more than some budgets. -/
def Outlasts (config : EstimatorConfig) (bucket : BucketConfig) (past : List Request)
    (interval count budgets : ℕ) : Prop :=
  ∃ fresh final, create config (LeakyBucket.create bucket) = .ok fresh ∧
    (fresh.afterAll past).droppingEnabled = true ∧ 0 < (fresh.afterAll past).target ∧
    (fresh.afterAll past).dropper.worth (fresh.afterAll past).target interval ≤ budgets ∧
    run (cadence interval count 0) (fresh.afterAll past) =
      .ok (List.replicate count (.verdict true)) final ∧
    2 * (fresh.afterAll past).drainTime + 2 * config.maxAge.toInt +
      (bucket.keyFrameSpread.toNat + 2) * interval < count * interval

private theorem outlasts_of_answers {bucket : BucketConfig} {interval count budgets : ℕ}
    (hcreate : create config (LeakyBucket.create bucket) = .ok g)
    (h : (g.afterAll past).droppingEnabled = true ∧ 0 < (g.afterAll past).target ∧
      (g.afterAll past).dropper.worth (g.afterAll past).target interval ≤ budgets ∧
      answers? (cadence interval count 0) (g.afterAll past) =
        some (List.replicate count (.verdict true)) ∧
      2 * (g.afterAll past).drainTime + 2 * config.maxAge.toInt +
        (bucket.keyFrameSpread.toNat + 2) * interval < count * interval) :
    Outlasts config bucket past interval count budgets := by
  obtain ⟨hdropping, htarget, hworth, hanswers, hlong⟩ := h
  obtain ⟨final, hrun⟩ := exists_final hanswers
  exact ⟨g, final, hcreate, hdropping, htarget, hworth, hrun, hlong⟩

private theorem outlasts_of_dropsAll {bucket : BucketConfig} {interval count budgets : ℕ}
    (hcreate : create config (LeakyBucket.create bucket) = .ok g)
    (hdrops : LeakyBucket.DropsAll (queryRates config interval count past.reverse 0)
      (g.afterAll past).dropper)
    (h : (g.afterAll past).droppingEnabled = true ∧ 0 < (g.afterAll past).target ∧
      (g.afterAll past).dropper.worth (g.afterAll past).target interval ≤ budgets ∧
      2 * (g.afterAll past).drainTime + 2 * config.maxAge.toInt +
        (bucket.keyFrameSpread.toNat + 2) * interval < count * interval) :
    Outlasts config bucket past interval count budgets := by
  obtain ⟨hdropping, htarget, hworth, hlong⟩ := h
  obtain ⟨final, hrun⟩ := exists_run_of_dropsAll (control_of_create hcreate).1
    (control_afterAll_create hcreate past) hdropping hdrops
  exact ⟨g, final, hcreate, hdropping, htarget, hworth, hrun, hlong⟩

/-- Rounding keeps a debt of little more than `2 ^ 24` budgets from draining at all. -/
private theorem outlasts_of_absorbed :
    Outlasts ⟨3, 2000⟩ ⟨1, 0⟩
      [⟨0, .configure ⟨0, 999, 30⟩⟩, ⟨0, .recordFrame .delta 2097152512⟩] 1000 34000000
      16800000 := by
  obtain ⟨fresh, hcreate⟩ : ∃ fresh,
    create ⟨3, 2000⟩ (LeakyBucket.create ⟨1, 0⟩) = .ok fresh := ⟨_, rfl⟩
  have hwindow : 0 ≤ (LeakyBucket.create ⟨1, 0⟩).config.window := by decide +kernel
  have hagrees := (agrees_of_create hwindow hcreate).afterAll hwindow
    [⟨0, .configure ⟨0, 999, 30⟩⟩, ⟨0, .recordFrame .delta 2097152512⟩]
  obtain ⟨hverdict, hdebt, hnone, hlt, habsorbed, hlong⟩ :
      let g := fresh.afterAll
        [⟨0, .configure ⟨0, 999, 30⟩⟩, ⟨0, .recordFrame .delta 2097152512⟩]
      g.dropper.shouldDrop = true ∧ 0 < g.dropper.debt.value ∧ g.dropper.pendingLeaks = 0 ∧
        g.dropper.bitrate.value < (kilobitsPerSecond 1000).value ∧
        g.dropper.debt - kilobitsPerSecond 1000 = g.dropper.debt ∧
        g.droppingEnabled = true ∧ 0 < g.target ∧
        g.dropper.worth g.target 1000 ≤ (16800000 : ℕ) ∧
        2 * g.drainTime + 2 * (2000 : Int64).toInt + ((0 : UInt32).toNat + 2) * (1000 : ℕ) <
          (34000000 : ℕ) * (1000 : ℕ) := by
    cases hcreate
    decide +kernel
  have hsmall := (isRounded_kilobitsPerSecond 1000).2.mono (by decide : 2 ^ 32 ≤ 2 ^ 64)
  have hkept := hagrees.sound.leak_eq_self_of_absorbed hdebt hnone hsmall hlt habsorbed
  exact outlasts_of_dropsAll hcreate (LeakyBucket.dropsAll_of_kept hverdict hkept _) hlong

/-- A debt that drains by 2001 kilobits an interval: half way between two numbers, rounding takes
one of them back each time until the debt is below `2 ^ 24`. -/
def tiedDebt (i : ℕ) : ℕ :=
  if i ≤ 8388 then 33554428 - 2000 * i else 16778428 - 2001 * (i - 8388)

private theorem tiedDebt_of_le {i : ℕ} (h : i ≤ 8388) : tiedDebt i = 33554428 - 2000 * i := if_pos h

private theorem holds_tiedDebt (i : ℕ) : (Format.single).Holds (tiedDebt i) := by
  rcases Nat.lt_or_ge 8388 i with hexact | htied
  · rw [tiedDebt, if_neg hexact.not_ge]
    exact .single_of_lt (by omega)
  · have h := Format.Holds.shiftLeft (F := .single) (n := 16777214 - 1000 * i) (k := 1)
      (show 16777214 - 1000 * i < 2 ^ 24 by omega) (by decide)
    rwa [show (16777214 - 1000 * i) * 2 ^ 1 = 33554428 - 2000 * i by omega,
      ← tiedDebt_of_le htied] at h

private theorem leak_tiedDebt (i : ℕ) :
    (LeakyBucket.holding 2001 (tiedDebt i)).leak 1 =
      LeakyBucket.holding 2001 (tiedDebt (i + 1)) := by
  have hbitrate : (Format.single).Holds 2001 := .single_of_lt (by decide)
  have hdebt := holds_tiedDebt i
  have hnext := holds_tiedDebt (i + 1)
  apply LeakyBucket.leak_holding hbitrate
  rcases Nat.lt_or_ge i 8388 with htied | hexact
  · rw [tiedDebt_of_le htied.le] at hdebt ⊢
    rw [tiedDebt_of_le (Nat.succ_le_of_lt htied),
      show 33554428 - 2000 * (i + 1) = 4 * (8388107 - 500 * i) by omega] at hnext ⊢
    rw [ofNat_sub hdebt hbitrate (by omega),
      show 33554428 - 2000 * i - 2001 = 4 * (8388107 - 500 * i) - 1 by omega,
      ofNat_four_mul_sub_one (by omega) (by omega), positivePart_ofNat hnext]
  · have hless : tiedDebt (i + 1) = tiedDebt i - 2001 := by
      rw [tiedDebt, if_neg (by omega), tiedDebt]
      split <;> omega
    rw [hless] at hnext ⊢
    exact positivePart_sub hdebt hbitrate hnext

private theorem shouldDrop_tiedDebt {i : ℕ} (hi : i ≤ 16773) :
    (LeakyBucket.holding 2001 (tiedDebt i)).shouldDrop = true := by
  have hpos : 0 < tiedDebt i := by
    rw [tiedDebt]
    split <;> omega
  have hzero : (Format.single).Holds 0 := .zero _
  have htarget : (Format.single).Holds 2001 := .single_of_lt (by decide)
  have hdebt : (0 : Single) < .ofNat (tiedDebt i) :=
    (ofNat_lt_ofNat hzero (holds_tiedDebt i)).mpr hpos
  have hbitrate : (0 : Single) < .ofNat 2001 := (ofNat_lt_ofNat hzero htarget).mpr (by decide)
  exact (LeakyBucket.shouldDrop_iff (isNat_ofNat htarget).1).mpr
    ⟨⟨rfl, hbitrate⟩, hdebt⟩

/-- At two seconds, where a leak takes no more than what the target allows, rounding adds more than
two intervals to the drain time of some thousand budgets. -/
private theorem outlasts_of_ties :
    Outlasts ⟨3, 2000⟩ ⟨0, 0⟩
      [⟨0, .configure ⟨0, 2001000, 30⟩⟩, ⟨0, .recordFrame .delta 4194303488⟩] 2000 16774
      17000 := by
  obtain ⟨fresh, hcreate⟩ : ∃ fresh,
    create ⟨3, 2000⟩ (LeakyBucket.create ⟨0, 0⟩) = .ok fresh := ⟨_, rfl⟩
  obtain ⟨hbucket, hlong⟩ :
      let g := fresh.afterAll
        [⟨0, .configure ⟨0, 2001000, 30⟩⟩, ⟨0, .recordFrame .delta 4194303488⟩]
      g.dropper = LeakyBucket.holding 2001 (tiedDebt 0) ∧
        g.droppingEnabled = true ∧ 0 < g.target ∧
        g.dropper.worth g.target 2000 ≤ (17000 : ℕ) ∧
        2 * g.drainTime + 2 * (2000 : Int64).toInt + ((0 : UInt32).toNat + 2) * (2000 : ℕ) <
          (16774 : ℕ) * (2000 : ℕ) := by
    cases hcreate
    decide +kernel
  have hsteady : Steady 2000 0 0 (captureTimes
      [⟨0, .configure ⟨0, 2001000, 30⟩⟩, ⟨0, .recordFrame .delta 4194303488⟩].reverse) :=
    List.forall_mem_nil _
  have hrates := queryRates_of_steady (control_of_create hcreate).1 (by decide) (by decide)
    (by decide) hsteady rfl 16773
  have hone : paceRate 2000 = 1 := by decide +kernel
  have hfirst : (LeakyBucket.holding 2001 (tiedDebt 0)).leak 0 =
      LeakyBucket.holding 2001 (tiedDebt 0) := LeakyBucket.leak_of_idle (by decide)
  refine outlasts_of_dropsAll hcreate ?_ hlong
  rw [hrates, hbucket, hone, if_pos rfl, LeakyBucket.DropsAll, hfirst]
  exact ⟨shouldDrop_tiedDebt (by decide), LeakyBucket.dropsAll_holding
    (fun i _ => leak_tiedDebt i) (fun _ hi => shouldDrop_tiedDebt hi)⟩

/-- Dropping outlasts its bound when frames arrive more slowly than they age, so that no rate is
measured; when they arrive so slowly that the rate rounds to no frame; when rounding swallows what a
frame interval drains; and, at two seconds, when it swallows a little of it. -/
theorem dropping_outlasts_drain :
    let past : List Request := [⟨0, .configure ⟨0, 300000, 30⟩⟩, ⟨0, .recordFrame .delta 50000⟩]
    Outlasts ⟨3, 1000⟩ ⟨1, 0⟩ past 1500 6 2 ∧ Outlasts ⟨3, 10000⟩ ⟨1, 0⟩ past 3000 10 2 ∧
      Outlasts ⟨3, 2000⟩ ⟨1, 0⟩
        [⟨0, .configure ⟨0, 999, 30⟩⟩, ⟨0, .recordFrame .delta 2097152512⟩] 1000 34000000
        16800000 ∧
      Outlasts ⟨3, 2000⟩ ⟨0, 0⟩
        [⟨0, .configure ⟨0, 2001000, 30⟩⟩, ⟨0, .recordFrame .delta 4194303488⟩] 2000 16774
        17000 := by
  intro past
  exact ⟨outlasts_of_answers rfl (by decide +kernel), outlasts_of_answers rfl (by decide +kernel),
    outlasts_of_absorbed, outlasts_of_ties⟩

end Cadence

end Governor

end RateGovernor
