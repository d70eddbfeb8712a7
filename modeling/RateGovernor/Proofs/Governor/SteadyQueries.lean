import Mathlib
import RateGovernor.Proofs.Dropper.Draining
import RateGovernor.Proofs.FrameRate.Cadence
import RateGovernor.Proofs.Governor.Coupling

/-!
# Queries at a steady interval

A governor over a leaky bucket that is only queried lets the bucket leak at the rates that follow
from the captures, so every frame is dropped just if the bucket goes on to drop at those rates. At a
steady interval the rates suit the interval once the arrivals have lasted for longer than the
greatest age, or from the second one on if there was nothing before.
-/

namespace RateGovernor

open Binary FrameRateEstimator

/-- The whole frames per second of a steady interval in milliseconds. -/
def paceRate (interval : ℕ) : UInt32 := roundRate (1000 / .ofNat interval)

namespace Governor

/-- Queries at a steady interval, the first one an interval after the given time. -/
def cadence (interval : ℕ) : ℕ → Int → List Request
  | 0, _ => []
  | count + 1, clock => ⟨clock + interval, .shouldDrop⟩ :: cadence interval count (clock + interval)

/-- The rate at which a query lets the bucket leak. -/
def queryRate (config : EstimatorConfig) (past : List Request) (now : Int) : UInt32 :=
  roundRate (loggedRate config.historySize.toNat config.maxAge.toInt now (now :: captureTimes past))

/-- The rates at which queries at a steady interval let the bucket leak. -/
def queryRates (config : EstimatorConfig) (interval : ℕ) :
    ℕ → List Request → Int → List UInt32
  | 0, _, _ => []
  | count + 1, past, clock =>
    queryRate config past (clock + interval) :: queryRates config interval count
      (⟨clock + interval, .shouldDrop⟩ :: past) (clock + interval)

theorem mem_captureTimes {past : List Request} {time : Int} (h : time ∈ captureTimes past) :
    ∃ r ∈ past, r.now = time := by
  induction past with
  | nil => cases h
  | cons r rest ih =>
    obtain ⟨now, operation⟩ := r
    have hlater : time ∈ captureTimes rest → ∃ r ∈ ⟨now, operation⟩ :: rest, r.now = time := by
      intro hmem
      obtain ⟨r, hr, htime⟩ := ih hmem
      exact ⟨r, List.mem_cons_of_mem _ hr, htime⟩
    cases operation with
    | configure p => cases h
    | reset => cases h
    | shouldDrop =>
      rcases List.mem_cons.mp h with rfl | hmem
      · exact ⟨_, List.mem_cons_self, rfl⟩
      · exact hlater hmem
    | updateTarget n => exact hlater h
    | measureFrameRate => exact hlater h
    | recordFrame kind size => exact hlater h
    | setDropping enabled => exact hlater h
    | readTarget => exact hlater h
    | readParameters => exact hlater h
    | readReport => exact hlater h

variable {config : EstimatorConfig} {past : List Request} {g g' final : Governor LeakyBucket}
  {interval count n : ℕ} {clock : Int}

theorem captureTimes_shouldDrop (past : List Request) (now : Int) :
    captureTimes (⟨now, .shouldDrop⟩ :: past) = now :: captureTimes past := rfl

@[simp] theorem length_queryRates (config : EstimatorConfig) (interval count : ℕ)
    (past : List Request) (clock : Int) :
    (queryRates config interval count past clock).length = count := by
  induction count generalizing past clock with
  | zero => rfl
  | succ count ih => rw [queryRates, List.length_cons, ih]

theorem roundedRate_update (hc : 3 ≤ config.historySize.toNat)
    (hg : g.control = Control.ofHistory config past) (now : Int) :
    (g.estimator.update now).roundedRate = queryRate config past now := by
  have hstep : g.control.step ⟨now, .shouldDrop⟩ =
      Control.ofHistory config (⟨now, .shouldDrop⟩ :: past) := by
    rw [hg, Control.step_ofHistory hc]
  exact congrArg (fun c : Control => c.estimator.roundedRate) hstep

private theorem shouldDrop_of_verdict {now : Int} (hc : 3 ≤ config.historySize.toNat)
    (hg : g.control = Control.ofHistory config past)
    (h : perform now .shouldDrop g = .ok (.verdict true) g') :
    (g.dropper.leak (queryRate config past now)).shouldDrop = true ∧
      g'.dropper = g.dropper.leak (queryRate config past now) := by
  rw [perform_shouldDrop, roundedRate_update hc hg] at h
  obtain ⟨hanswer, hnext⟩ := EStateM.Result.ok.inj h
  have hverdict := Answer.verdict.inj hanswer
  rw [Bool.and_eq_true] at hverdict
  rw [← hnext]
  exact ⟨hverdict.2, rfl⟩

section Run

theorem dropsAll_of_run (hc : 3 ≤ config.historySize.toNat)
    (hg : g.control = Control.ofHistory config past)
    (hrun : run (cadence interval count clock) g =
      .ok (List.replicate count (.verdict true)) final) :
    LeakyBucket.DropsAll (queryRates config interval count past clock) g.dropper := by
  induction count generalizing clock past g with
  | zero => trivial
  | succ count ih =>
    obtain ⟨a, as, next, hanswers, hfirst, hrest⟩ := run_cons_eq_ok hrun
    rw [List.replicate_succ, List.cons.injEq] at hanswers
    obtain ⟨rfl, rfl⟩ := hanswers
    have hcontrol := (control_of_perform (r := ⟨clock + interval, .shouldDrop⟩) hfirst).trans
      (by rw [hg, Control.step_ofHistory hc])
    obtain ⟨hdrop, hbucket⟩ := shouldDrop_of_verdict hc hg hfirst
    have hlater := ih hcontrol hrest
    rw [hbucket] at hlater
    exact ⟨hdrop, hlater⟩

theorem exists_run_of_dropsAll (hc : 3 ≤ config.historySize.toNat)
    (hg : g.control = Control.ofHistory config past) (hdropping : g.droppingEnabled = true)
    (hdrops : LeakyBucket.DropsAll (queryRates config interval count past clock) g.dropper) :
    ∃ final, run (cadence interval count clock) g =
      .ok (List.replicate count (.verdict true)) final := by
  induction count generalizing clock past g with
  | zero => exact ⟨g, rfl⟩
  | succ count ih =>
    obtain ⟨hdrop, hlater⟩ := hdrops
    let r : Request := ⟨clock + interval, .shouldDrop⟩
    have hquery : perform r.now r.operation g = .ok (.verdict true)
        (g.completed r true (g.dropper.leak (queryRate config past (clock + interval)))) := by
      have h := perform_shouldDrop (clock + interval) g
      simp only [roundedRate_update hc hg, hdropping, hdrop, Bool.and_self] at h
      exact h
    have hcontrol := (control_of_perform (r := r) hquery).trans
      (by rw [hg, Control.step_ofHistory hc])
    obtain ⟨final, hrest⟩ := ih hcontrol hdropping hlater
    exact ⟨final, run_cons_of_ok hquery hrest⟩

end Run

section Rates

private theorem getElem_queryRates (hc : 3 ≤ config.historySize.toNat) (hpos : 1 ≤ interval)
    (hage : interval ≤ config.maxAge.toInt)
    (hslow : interval < 2000 ∨ interval = 2000 ∧
      (config.historySize.toNat ≤ 2 ^ 24 ∨ config.maxAge.toInt ≤ 2000 * 2 ^ 24))
    (hsteady : Steady interval n clock (captureTimes past)) {i : ℕ}
    (hi : i < (queryRates config interval count past clock).length)
    (hold : config.maxAge.toInt < (n + i + 1) * interval) :
    1 ≤ (queryRates config interval count past clock)[i].toNat ∧
      2 * ((queryRates config interval count past clock)[i].toNat * interval) ≤
        2000 + interval := by
  induction count generalizing n clock past i with
  | zero => cases hi
  | succ count ih =>
    cases i with
    | zero =>
      have hold' : config.maxAge.toInt < (n + 1) * interval := by
        push_cast at hold
        linarith
      obtain ⟨k, hk, hkc, hspan, hrate⟩ := hsteady.cons.loggedRate_eq hc hpos hage (.inl hold')
      have hrate' : queryRate config past (clock + interval) = roundRate (steadyRate k interval) :=
        congrArg roundRate hrate
      have hfit : k * interval ≤ 2 ^ 64 := by
        have hmax := config.maxAge.toInt_lt
        zify
        linarith
      simp only [queryRates, List.getElem_cons_zero, hrate']
      refine roundRate_steady hk hpos hfit (hslow.imp_right ?_)
      rintro ⟨rfl, hfew⟩
      refine ⟨rfl, ?_⟩
      push_cast at hspan
      omega
    | succ i =>
      have hnext : Steady interval (n + 1) (clock + interval)
          (captureTimes (⟨clock + interval, .shouldDrop⟩ :: past)) := hsteady.cons
      simp only [queryRates, List.getElem_cons_succ]
      exact ih hnext _ (by push_cast at hold ⊢; linarith)

/-- As many queries as fit into the greatest age may still see what came before; the rates of the
others suit the interval. -/
theorem exists_queryRates_eq_append (hc : 3 ≤ config.historySize.toNat) (hpos : 1 ≤ interval)
    (hage : interval ≤ config.maxAge.toInt)
    (hslow : interval < 2000 ∨ interval = 2000 ∧
      (config.historySize.toNat ≤ 2 ^ 24 ∨ config.maxAge.toInt ≤ 2000 * 2 ^ 24))
    (hsteady : Steady interval 0 clock (captureTimes past)) (count : ℕ) :
    ∃ early late, queryRates config interval count past clock = early ++ late ∧
      (early.length * interval : ℤ) ≤ config.maxAge.toInt ∧
      ∀ rate ∈ late, 1 ≤ rate.toNat ∧ 2 * (rate.toNat * interval) ≤ 2000 + interval := by
  have hpos' : (0 : ℤ) < interval := by exact_mod_cast hpos
  obtain ⟨fits, hfits⟩ : ∃ fits : ℕ, (fits : ℤ) = config.maxAge.toInt / interval :=
    ⟨_, Int.toNat_of_nonneg (Int.ediv_nonneg (by omega) hpos'.le)⟩
  have hwithin : (fits * interval : ℤ) ≤ config.maxAge.toInt := by
    rw [hfits]
    exact Int.ediv_mul_le _ hpos'.ne'
  have hbeyond : config.maxAge.toInt < (fits + 1) * interval := by
    rw [hfits]
    exact Int.lt_ediv_add_one_mul_self _ hpos'
  refine ⟨_, _, (List.take_append_drop fits _).symm, ?_, ?_⟩
  · have hshort : ((queryRates config interval count past clock).take fits).length ≤ fits :=
      List.length_take_le _ _
    exact (mul_le_mul_of_nonneg_right (by exact_mod_cast hshort) hpos'.le).trans hwithin
  · intro rate hmem
    obtain ⟨i, hi, rfl⟩ := List.mem_iff_getElem.mp hmem
    rw [List.length_drop] at hi
    rw [List.getElem_drop]
    refine getElem_queryRates hc hpos hage hslow hsteady (by omega) (hbeyond.trans_le ?_)
    push_cast
    nlinarith

theorem one_le_paceRate (hpos : 1 ≤ interval) (hshort : interval ≤ 2000) :
    1 ≤ (paceRate interval).toNat := by
  have hsingle : steadyRate 1 interval = 1000 / .ofNat interval := by
    apply steadyRate_eq (le_refl 1) hpos
    · exact .single_of_lt (by decide)
    · exact .single_of_lt (by omega)
  rw [paceRate, ← hsingle]
  exact (roundRate_steady (le_refl 1) hpos (by omega) (by omega)).1

theorem queryRate_of_steady (hc : 3 ≤ config.historySize.toNat) (hpos : 1 ≤ interval)
    (hage : interval ≤ config.maxAge.toInt) (hshort : config.maxAge.toInt ≤ 2000)
    (hsteady : Steady interval n clock (captureTimes past))
    (hlength : (captureTimes past).length = n) :
    queryRate config past (clock + interval) = if n = 0 then 0 else paceRate interval := by
  by_cases hn : n = 0
  · rw [hn, List.length_eq_zero_iff] at hlength
    rw [queryRate, hlength, if_pos hn]
    have hnone : loggedRate config.historySize.toNat config.maxAge.toInt (clock + interval)
        [clock + interval] = 0 := by
      simp [loggedRate]
    rw [hnone]
    decide +kernel
  · have hold : config.maxAge.toInt < (n + 1) * interval ∨
        1 ≤ n ∧ ((clock + interval) :: captureTimes past).length ≤ n + 1 := by
      right
      constructor
      · omega
      · rw [List.length_cons, hlength]
    obtain ⟨k, hk, -, hspan, hrate⟩ := hsteady.cons.loggedRate_eq hc hpos hage hold
    have hspan' : k * interval ≤ 2000 := by
      zify
      linarith
    have hfew : k ≤ 2000 := (Nat.le_mul_of_pos_right k hpos).trans hspan'
    have hsame : steadyRate k interval = 1000 / .ofNat interval := by
      apply steadyRate_eq hk hpos
      · exact .single_of_lt (by omega)
      · exact .single_of_lt (by omega)
    rw [if_neg hn, queryRate, hrate, hsame, paceRate]

theorem queryRates_of_steady (hc : 3 ≤ config.historySize.toNat) (hpos : 1 ≤ interval)
    (hage : interval ≤ config.maxAge.toInt) (hshort : config.maxAge.toInt ≤ 2000)
    (hsteady : Steady interval n clock (captureTimes past))
    (hlength : (captureTimes past).length = n) (count : ℕ) :
    queryRates config interval (count + 1) past clock =
      (if n = 0 then 0 else paceRate interval) :: List.replicate count (paceRate interval) := by
  induction count generalizing n clock past with
  | zero =>
    rw [queryRates, queryRate_of_steady hc hpos hage hshort hsteady hlength]
    rfl
  | succ count ih =>
    have hnext : Steady interval (n + 1) (clock + interval)
        (captureTimes (⟨clock + interval, .shouldDrop⟩ :: past)) := hsteady.cons
    have hlater := ih hnext (by rw [captureTimes_shouldDrop, List.length_cons, hlength])
    rw [queryRates, queryRate_of_steady hc hpos hage hshort hsteady hlength, hlater,
      if_neg n.succ_ne_zero, List.replicate_succ]

end Rates

end Governor

end RateGovernor
