import Mathlib
import RateGovernor.Dropper.LeakyBucket
import RateGovernor.Proofs.Binary.Exact
import RateGovernor.Proofs.Dropper.Bucket

/-!
# Conformance of the leaky bucket

Over whole targets, whole windows and frames of whole kilobits the bucket computes exactly, so its
debt is the level of a queue: each cycle drains one interval's budget, down to zero at most, and
admits a frame unless the level exceeds the window. Hence a frame is dropped exactly when over some
stretch of cycles the admitted traffic has overrun the window and what was drained meanwhile, and
the traffic admitted in a run stays within the window, what was drained, and one frame.
-/

namespace RateGovernor

open Finset

section Queue

/-- The level of a queue before each cycle: the cycle drains it, down to zero at most, and then
takes its input. -/
def queueLevel (drain input : ℕ → ℕ) : ℕ → ℕ
  | 0 => 0
  | i + 1 => queueLevel drain input i - drain i + input i

variable {drain input : ℕ → ℕ}

/-- A drained queue is above a bound exactly if some stretch of cycles put that much more into it
than they took out. -/
private theorem lt_queueLevel_sub_drain_iff (i bound : ℕ) :
    bound < queueLevel drain input i - drain i ↔
      ∃ j < i, bound + ∑ k ∈ Ico (j + 1) (i + 1), drain k < ∑ k ∈ Ico j i, input k := by
  induction i generalizing bound with
  | zero => simp [queueLevel]
  | succ i ih =>
    have hsplit : ∀ j < i,
        (bound + ∑ k ∈ Ico (j + 1) (i + 1 + 1), drain k < ∑ k ∈ Ico j (i + 1), input k ↔
          bound + drain (i + 1) + ∑ k ∈ Ico (j + 1) (i + 1), drain k <
            ∑ k ∈ Ico j i, input k + input i) := fun j hj => by
      rw [sum_Ico_succ_top (by omega : j + 1 ≤ i + 1), sum_Ico_succ_top (by omega : j ≤ i)]
      omega
    rw [queueLevel]
    -- Either the last input alone overruns what is left of the bound, or an earlier stretch has to
    -- overrun the rest.
    rcases Nat.lt_or_ge (bound + drain (i + 1)) (input i) with hlast | hlast
    · refine ⟨fun _ => ⟨i, Nat.lt_succ_self i, ?_⟩, fun _ => by omega⟩
      simpa using hlast
    · have hrest := ih (bound + drain (i + 1) - input i)
      constructor
      · intro h
        obtain ⟨j, hj, hover⟩ := hrest.mp (by omega)
        exact ⟨j, by omega, (hsplit j hj).mpr (by omega)⟩
      · rintro ⟨j, hj, hover⟩
        rcases Nat.lt_succ_iff_lt_or_eq.mp hj with hlt | rfl
        · have := hrest.mpr ⟨j, hlt, by have := (hsplit j hlt).mp hover; omega⟩
          omega
        · simp at hover
          omega

private theorem sum_input_le (n : ℕ) :
    ∑ k ∈ range n, input k ≤ queueLevel drain input n + ∑ k ∈ range n, drain k := by
  induction n with
  | zero => simp
  | succ n ih =>
    rw [sum_range_succ, sum_range_succ, queueLevel]
    omega

end Queue

/-- One frame interval under a whole target: the rate at which the bucket drains, and the kilobits
of the delta frame that is encoded unless it is dropped. -/
structure CaptureCycle (target : ℕ) where
  rate : UInt32
  rate_pos : 1 ≤ rate.toNat
  rate_dvd : rate.toNat ∣ target
  size : ℕ
  size_le : size ≤ 100000

namespace CaptureCycle

variable {target : ℕ}

def drain (c : CaptureCycle target) : ℕ := target / c.rate.toNat

def bytes (c : CaptureCycle target) : UInt64 := .ofNat (125 * c.size)

private theorem kilobits_bytes (c : CaptureCycle target) :
    LeakyBucket.kilobits c.bytes = .ofNat c.size := by
  have hsize := c.size_le
  have hbytes : c.bytes.toNat = 125 * c.size := by
    rw [bytes, UInt64.toNat_ofNat']
    omega
  have hexact : (Format.single).Holds (125 * c.size) := .single_of_lt (by omega)
  have height : (Format.single).Holds 8 := .single_of_lt (by decide)
  have hthousand : (Format.single).Holds 1000 := .single_of_lt (by decide)
  have hscaled : (Format.single).Holds (125 * c.size * 8) :=
    Format.Holds.shiftLeft (k := 3) (show 125 * c.size < 2 ^ 24 by omega) (by decide)
  change (Binary.ofNat c.bytes.toNat * Binary.ofNat 8 / Binary.ofNat 1000 : Single) = _
  rw [hbytes, Binary.ofNat_mul hexact height,
    Binary.ofNat_div hscaled hthousand (by decide) ⟨c.size, by ring⟩]
  congr 1
  omega

end CaptureCycle

namespace LeakyBucket

/-- A bucket that is switched on, has no key frame to charge, and holds a whole level of debt under
a whole target and threshold. -/
structure Holding (b : LeakyBucket) (target threshold level : ℕ) : Prop where
  enabled : b.enabled = true
  bitrate : b.bitrate = .ofNat target
  threshold : b.threshold.IsNat threshold
  pendingLeaks : b.pendingLeaks = 0
  debt : b.debt = .ofNat level

namespace Holding

variable {b : LeakyBucket} {target threshold level : ℕ}

theorem setRates {window bitrate : Single} {w : ℕ} (hw : window.IsNat w)
    (ht : bitrate.IsNat target) (hpos : 0 < target) (hfit : w * target ≤ 2 ^ 23)
    (spread : UInt32) (frameRate : Single) :
    Holding ((create ⟨window, spread⟩).setRates bitrate frameRate) target (w * target) 0 where
  enabled := rfl
  bitrate := by
    change bitrate.positivePart = _
    rw [ht.eq_ofNat hpos, Binary.positivePart_ofNat ht.holds]
  threshold := by
    have hholds : (Format.single).Holds (target * w) :=
      .single_of_lt (by rw [Nat.mul_comm]; omega)
    change (bitrate.positivePart * window).IsNat _
    rw [ht.eq_ofNat hpos, Binary.positivePart_ofNat ht.holds, Nat.mul_comm]
    exact (Binary.isNat_ofNat ht.holds).mul hw hholds
  pendingLeaks := rfl
  debt := by
    refine debt_setRates_of_no_target fun habove => ?_
    rw [create, Binary.lt_iff_rank Binary.rank_zero Binary.rank_zero] at habove
    exact lt_irrefl _ habove

theorem leak (h : Holding b target threshold level) (ht : (Format.single).Holds target)
    (hpos : 0 < target) (hlevel : level < 2 ^ 24) {rate : UInt32} (hrate : 1 ≤ rate.toNat)
    (hdvd : rate.toNat ∣ target) :
    Holding (b.leak rate) target threshold (level - target / rate.toNat) := by
  have hr : (Format.single).Holds rate.toNat := ht.of_dvd hpos.ne' hdvd
  have hd : (Format.single).Holds (target / rate.toNat) :=
    ht.of_dvd hpos.ne' (Nat.div_dvd_of_dvd hdvd)
  have hbudget : b.budget (.ofNat rate.toNat) = .ofNat (target / rate.toNat) := by
    have hlt : (0 : Single) < .ofNat rate.toNat := (Binary.ofNat_lt_ofNat (.zero _) hr).mpr hrate
    rw [budget, if_pos hlt, h.bitrate, Binary.ofNat_div ht hr hrate hdvd]
  have hon : b.enabled = true ∧ rate ≠ 0 := ⟨h.enabled, by rintro rfl; simp at hrate⟩
  have hleak : b.leak rate =
      { b with debt := (b.debt - b.budget (.ofNat rate.toNat)).positivePart } := by
    have hslice : ∀ debt, { b with debt }.chargeSlice = { b with debt } := fun _ =>
      chargeSlice_eq_self h.pendingLeaks
    simp only [LeakyBucket.leak, if_pos hon, hslice]
  rw [hleak]
  exact {
    enabled := h.enabled
    bitrate := h.bitrate
    threshold := h.threshold
    pendingLeaks := h.pendingLeaks
    debt := by
      rw [h.debt, hbudget]
      exact Binary.positivePart_sub (.single_of_lt hlevel) hd
        (.single_of_lt ((Nat.sub_le _ _).trans_lt hlevel)) }

theorem shouldDrop_iff (h : Holding b target threshold level) (ht : (Format.single).Holds target)
    (hpos : 0 < target) (hlevel : level < 2 ^ 24) : b.shouldDrop = true ↔ threshold < level := by
  have hrate : (0 : Single) < b.bitrate := by
    rw [h.bitrate]
    exact (Binary.ofNat_lt_ofNat (.zero _) ht).mpr hpos
  have hfinite : b.bitrate.isFinite := by
    rw [h.bitrate]
    exact (Binary.isNat_ofNat ht).1
  rw [LeakyBucket.shouldDrop_iff hfinite, and_iff_right ⟨h.enabled, hrate⟩, h.debt]
  exact h.threshold.lt_ofNat_iff (.single_of_lt hlevel)

theorem fill (h : Holding b target threshold level) (hlevel : level < 2 ^ 24) {size : UInt64}
    {cost : ℕ} (hsize : kilobits size = .ofNat cost) (hcost : cost < 2 ^ 24) :
    Holding (b.fill size true) target threshold (level + cost) := by
  have hfill : b.fill size true = { b with debt := b.debt + kilobits size } := by
    simp [LeakyBucket.fill, h.enabled]
  rw [hfill]
  exact {
    enabled := h.enabled
    bitrate := h.bitrate
    threshold := h.threshold
    pendingLeaks := h.pendingLeaks
    debt := by
      rw [h.debt, hsize]
      exact Binary.ofNat_add (.single_of_lt hlevel) (.single_of_lt hcost) }

end Holding

section Run

variable {target : ℕ}

/-- A frame interval: drain, decide, and charge the frame if it is encoded. -/
def capture (b : LeakyBucket) (c : CaptureCycle target) : LeakyBucket :=
  let drained := b.leak c.rate
  if drained.shouldDrop then drained else drained.fill c.bytes true

def before (b : LeakyBucket) (cycles : ℕ → CaptureCycle target) : ℕ → LeakyBucket
  | 0 => b
  | i + 1 => (b.before cycles i).capture (cycles i)

/-- Whether the frame of a cycle is dropped. -/
def drops (b : LeakyBucket) (cycles : ℕ → CaptureCycle target) (i : ℕ) : Bool :=
  ((b.before cycles i).leak (cycles i).rate).shouldDrop

/-- The kilobits that a cycle admits. -/
def admitted (b : LeakyBucket) (cycles : ℕ → CaptureCycle target) (i : ℕ) : ℕ :=
  if b.drops cycles i then 0 else (cycles i).size

variable {b : LeakyBucket} {threshold level : ℕ}

theorem Holding.capture (h : Holding b target threshold level)
    (ht : (Format.single).Holds target) (hpos : 0 < target) (hlevel : level < 2 ^ 24)
    (c : CaptureCycle target) :
    Holding (b.capture c) target threshold
      (level - c.drain + if (b.leak c.rate).shouldDrop then 0 else c.size) := by
  have hleak := h.leak ht hpos hlevel c.rate_pos c.rate_dvd
  have hsize := c.size_le
  rw [LeakyBucket.capture]
  split
  · exact hleak
  · exact hleak.fill ((Nat.sub_le _ _).trans_lt hlevel) c.kilobits_bytes (by omega)

/-- Along a run the debt is the level of the queue that the admitted frames feed, and it exceeds the
threshold by one frame at most. -/
theorem Holding.before (h : Holding b target threshold 0) (ht : (Format.single).Holds target)
    (hpos : 0 < target) (hthreshold : threshold ≤ 2 ^ 23) (cycles : ℕ → CaptureCycle target)
    (n : ℕ) :
    Holding (b.before cycles n) target threshold
        (queueLevel (fun i => (cycles i).drain) (b.admitted cycles) n) ∧
      queueLevel (fun i => (cycles i).drain) (b.admitted cycles) n ≤
        threshold + (range n).sup fun i => (cycles i).size := by
  induction n with
  | zero => exact ⟨h, Nat.zero_le _⟩
  | succ n ih =>
    obtain ⟨hn, hbound⟩ := ih
    have hmost : ((range n).sup fun i => (cycles i).size) ≤ 100000 :=
      Finset.sup_le fun i _ => (cycles i).size_le
    have hlevel : queueLevel (fun i => (cycles i).drain) (b.admitted cycles) n < 2 ^ 24 := by omega
    have hleak := hn.leak ht hpos hlevel (cycles n).rate_pos (cycles n).rate_dvd
    have hdrained := Nat.sub_le (queueLevel (fun i => (cycles i).drain) (b.admitted cycles) n)
      (cycles n).drain
    refine ⟨hn.capture ht hpos hlevel (cycles n), ?_⟩
    have hsup : ((range (n + 1)).sup fun i => (cycles i).size) =
        max (cycles n).size ((range n).sup fun i => (cycles i).size) := by
      rw [range_add_one, sup_insert]
    rw [queueLevel, hsup, admitted]
    split
    · omega
    · rename_i hkeep
      have hle := mt (hleak.shouldDrop_iff ht hpos (hdrained.trans_lt hlevel)).mpr hkeep
      change ¬ threshold < _ - (cycles n).drain at hle
      omega

/-- A fresh bucket over a whole window and a whole target drops the frame of a cycle exactly when
over some stretch of cycles before it the admitted traffic overran the window and what was drained
since; and what it admits in a run stays within the window, what was drained, and the largest
frame. -/
theorem drops_iff_overrun {window bitrate : Single} {w : ℕ} (hw : window.IsNat w)
    (ht : bitrate.IsNat target) (hpos : 1 ≤ target) (hfit : w * target ≤ 2 ^ 23)
    (spread : UInt32) (frameRate : Single) (cycles : ℕ → CaptureCycle target) :
    let b := (create ⟨window, spread⟩).setRates bitrate frameRate
    (∀ i, b.drops cycles i = true ↔ ∃ j < i,
      w * target + ∑ k ∈ Ico (j + 1) (i + 1), (cycles k).drain <
        ∑ k ∈ Ico j i, b.admitted cycles k) ∧
    ∀ n, ∑ k ∈ range n, b.admitted cycles k ≤
      w * target + ∑ k ∈ range n, (cycles k).drain + (range n).sup fun k => (cycles k).size := by
  intro b
  have h₀ : Holding b target (w * target) 0 := .setRates hw ht hpos hfit spread frameRate
  have hrun := fun n => h₀.before ht.holds hpos hfit cycles n
  constructor
  · intro i
    obtain ⟨hi, hbound⟩ := hrun i
    have hmost : ((range i).sup fun k => (cycles k).size) ≤ 100000 :=
      Finset.sup_le fun k _ => (cycles k).size_le
    have hlevel : queueLevel (fun k => (cycles k).drain) (b.admitted cycles) i < 2 ^ 24 := by omega
    have hleak := hi.leak ht.holds hpos hlevel (cycles i).rate_pos (cycles i).rate_dvd
    rw [drops, hleak.shouldDrop_iff ht.holds hpos ((Nat.sub_le _ _).trans_lt hlevel)]
    exact lt_queueLevel_sub_drain_iff i (w * target)
  · intro n
    have hsum : ∑ k ∈ range n, b.admitted cycles k ≤
        queueLevel (fun k => (cycles k).drain) (b.admitted cycles) n +
          ∑ k ∈ range n, (cycles k).drain := sum_input_le n
    have hbound := (hrun n).2
    omega

/-- Over one second of 300 kilobits per second a frame of 400 is admitted and overruns the window,
so the next one is dropped. -/
theorem drops_iff_overrun_second :
    (1 : Single).IsNat 1 ∧ (300 : Single).IsNat 300 ∧ 1 ≤ 300 ∧ 1 * 300 ≤ 2 ^ 23 ∧
      let cycles : ℕ → CaptureCycle 300 := fun _ => ⟨30, by decide, by decide, 400, by decide⟩
      let b := (create ⟨1, 10⟩).setRates 300 30
      b.drops cycles 0 = false ∧ b.drops cycles 1 = true := by
  have hone : (1 : Single).IsNat 1 := Binary.isNat_ofNat (.single_of_lt (by decide))
  have hrate : (300 : Single).IsNat 300 := Binary.isNat_ofNat (.single_of_lt (by decide))
  refine ⟨hone, hrate, by decide, by decide, ?_⟩
  intro cycles b
  have hdrops := (drops_iff_overrun hone hrate (by decide) (by decide) 10 30 cycles).1
  have hfirst : b.drops cycles 0 = false := by
    rw [Bool.eq_false_iff]
    intro h
    obtain ⟨j, hj, -⟩ := (hdrops 0).mp h
    exact absurd hj (Nat.not_lt_zero j)
  refine ⟨hfirst, (hdrops 1).mpr ⟨0, Nat.one_pos, ?_⟩⟩
  have hadmitted : b.admitted cycles 0 = 400 := by
    rw [admitted, hfirst]
    rfl
  simp only [Nat.Ico_succ_singleton, sum_singleton]
  change 1 * 300 + 300 / 30 < b.admitted cycles 0
  rw [hadmitted]
  decide

end Run

end LeakyBucket

end RateGovernor
