import Mathlib
import RateGovernor.Clock

/-!
# Readings of a simulated clock

A simulated clock is compared with an ideal one, which is moved alike and has no greatest time. The
ideal clock never goes back. As long as its time fits 64 bits the simulated clock shows the same
times; a move past the greatest time takes the simulated clock back.
-/

namespace RateGovernor

/-- What can be done to a simulated clock. -/
inductive ClockMove where
  | advance (distance : Int64)
  | set (time : Int64)
  deriving DecidableEq, Repr

namespace ClockMove

/-- Where a move takes a clock that has no greatest time. -/
def ideal (now : Int) : ClockMove → Int
  | .advance distance => now + max distance.toInt 0
  | .set time => max now time.toInt

private theorem le_ideal (m : ClockMove) (now : Int) : now ≤ m.ideal now := by
  cases m with
  | advance distance => simp [ideal]
  | set time => simp [ideal]

end ClockMove

/-- The time of an ideal clock after a number of moves. -/
def idealTime (start : Int) (moves : List ClockMove) : Int := moves.foldl ClockMove.ideal start

section Ideal

variable {time : Int64} {moves : List ClockMove}

private theorem idealTime_cons (start : Int) (m : ClockMove) (rest : List ClockMove) :
    idealTime start (m :: rest) = idealTime (m.ideal start) rest := rfl

private theorem le_idealTime (start : Int) (moves : List ClockMove) :
    start ≤ idealTime start moves := by
  induction moves generalizing start with
  | nil => exact le_refl start
  | cons m rest ih => exact (m.le_ideal start).trans (ih (m.ideal start))

private theorem le_idealTime_of_set (h : .set time ∈ moves) (start : Int) :
    time.toInt ≤ idealTime start moves := by
  induction moves generalizing start with
  | nil => cases h
  | cons m rest ih =>
    rw [idealTime_cons]
    rcases List.mem_cons.mp h with rfl | hrest
    · exact (le_max_right start time.toInt).trans (le_idealTime _ rest)
    · exact ih hrest (m.ideal start)

private theorem le_of_mem_scanl_ideal {start t : Int} (h : t ∈ moves.scanl ClockMove.ideal start) :
    start ≤ t := by
  induction moves generalizing start with
  | nil => simp_all
  | cons m rest ih =>
    rw [List.scanl_cons] at h
    rcases List.mem_cons.mp h with rfl | hrest
    · exact le_refl t
    · exact (m.le_ideal start).trans (ih hrest)

private theorem sortedLE_scanl_ideal (start : Int) (moves : List ClockMove) :
    (moves.scanl ClockMove.ideal start).SortedLE := by
  rw [List.sortedLE_iff_pairwise]
  induction moves generalizing start with
  | nil => simp
  | cons m rest ih =>
    rw [List.scanl_cons, List.pairwise_cons]
    constructor
    · intro t ht
      exact (m.le_ideal start).trans (le_of_mem_scanl_ideal ht)
    · exact ih (m.ideal start)

end Ideal

namespace Clock

def move (c : Clock) : ClockMove → Clock
  | .advance distance => c.advance distance
  | .set time => c.set time

/-- The readings of a clock: the first one, and one after each move. -/
def readings (c : Clock) (moves : List ClockMove) : List Int :=
  (moves.scanl move c).map (·.now.toInt)

def lastReading (c : Clock) (moves : List ClockMove) : Int := (moves.foldl move c).now.toInt

/-- Along a number of moves no reading is below the one before it, and the last one is neither below
the first nor below a time that the clock was set to. -/
structure Monotonic (c : Clock) (moves : List ClockMove) : Prop where
  sorted : (c.readings moves).SortedLE
  start_le : c.now.toInt ≤ c.lastReading moves
  set_le : ∀ time, .set time ∈ moves → time.toInt ≤ c.lastReading moves

variable {c : Clock} {moves : List ClockMove}

private theorem readings_cons (c : Clock) (m : ClockMove) (rest : List ClockMove) :
    c.readings (m :: rest) = c.now.toInt :: (c.move m).readings rest := by
  simp [readings]

private theorem now_mem_readings (c : Clock) (moves : List ClockMove) :
    c.now.toInt ∈ c.readings moves := by
  cases moves with
  | nil => simp [readings]
  | cons m rest => simp [readings_cons]

private theorem toInt_add_eq (t distance : Int64) (hpos : 0 < distance.toInt) :
    (t + distance).toInt =
      if t.toInt + distance.toInt ≤ Int64.maxValue.toInt then t.toInt + distance.toInt
      else t.toInt + distance.toInt - 2 ^ 64 := by
  have hlow := t.le_toInt
  have hhigh := t.toInt_lt
  have hdistance := distance.toInt_lt
  rw [Int64.toInt_add, Int64.toInt_maxValue]
  split
  · exact Int.bmod_eq_of_le (by omega) (by omega)
  · rw [← Int.sub_bmod_right]
    exact Int.bmod_eq_of_le (by omega) (by omega)

private theorem toInt_set (c : Clock) (time : Int64) :
    (c.set time).now.toInt = max c.now.toInt time.toInt := by
  rw [set]
  split
  · rename_i hlater
    exact (max_eq_right (Int64.lt_iff_toInt_lt.mp hlater).le).symm
  · rename_i hearlier
    rw [Int64.lt_iff_toInt_lt, not_lt] at hearlier
    exact (max_eq_left hearlier).symm

private theorem toInt_move_of_le (c : Clock) {m : ClockMove}
    (h : m.ideal c.now.toInt ≤ Int64.maxValue.toInt) :
    (c.move m).now.toInt = m.ideal c.now.toInt := by
  cases m with
  | advance distance =>
    rw [ClockMove.ideal] at h ⊢
    rw [move, advance]
    split
    · rename_i hpos
      rw [Int64.lt_iff_toInt_lt, Int64.toInt_zero] at hpos
      rw [max_eq_left hpos.le] at h ⊢
      rw [toInt_add_eq _ _ hpos, if_pos h]
    · rename_i hneg
      rw [Int64.lt_iff_toInt_lt, Int64.toInt_zero, not_lt] at hneg
      rw [max_eq_right hneg, Int.add_zero]
  | set time => exact c.toInt_set time

private theorem toInt_move_lt (c : Clock) {m : ClockMove}
    (h : Int64.maxValue.toInt < m.ideal c.now.toInt) : (c.move m).now.toInt < c.now.toInt := by
  have hnow := c.now.toInt_lt
  rw [Int64.toInt_maxValue] at h
  cases m with
  | advance distance =>
    have hdistance := distance.toInt_lt
    rw [ClockMove.ideal] at h
    have hpos : 0 < distance.toInt := by omega
    have hpos' : 0 < distance := by
      rwa [Int64.lt_iff_toInt_lt, Int64.toInt_zero]
    rw [move, advance, if_pos hpos', toInt_add_eq _ _ hpos, Int64.toInt_maxValue, if_neg (by omega)]
    omega
  | set time =>
    have htime := time.toInt_lt
    rw [ClockMove.ideal] at h
    omega

/-- While the ideal time fits, a clock shows what the ideal one does. -/
private theorem readings_eq_scanl_ideal (h : idealTime c.now.toInt moves ≤ Int64.maxValue.toInt) :
    c.readings moves = moves.scanl ClockMove.ideal c.now.toInt ∧
      c.lastReading moves = idealTime c.now.toInt moves := by
  induction moves generalizing c with
  | nil => exact ⟨rfl, rfl⟩
  | cons m rest ih =>
    rw [idealTime_cons] at h ⊢
    have hmove := c.toInt_move_of_le ((le_idealTime _ rest).trans h)
    rw [← hmove] at h ⊢
    obtain ⟨hreadings, hlast⟩ := ih h
    constructor
    · rw [readings_cons, List.scanl_cons, hreadings, hmove]
    · exact hlast

private theorem not_sortedLE_readings (h : Int64.maxValue.toInt < idealTime c.now.toInt moves) :
    ¬ (c.readings moves).SortedLE := by
  rw [List.sortedLE_iff_pairwise]
  induction moves generalizing c with
  | nil =>
    have hnow := c.now.toInt_lt
    rw [idealTime, List.foldl_nil, Int64.toInt_maxValue] at h
    omega
  | cons m rest ih =>
    rw [readings_cons, List.pairwise_cons]
    rintro ⟨hfirst, hrest⟩
    rcases le_or_gt (m.ideal c.now.toInt) Int64.maxValue.toInt with hfits | hpast
    · rw [idealTime_cons, ← c.toInt_move_of_le hfits] at h
      exact ih h hrest
    · have hback := c.toInt_move_lt hpast
      exact absurd (hfirst _ ((c.move m).now_mem_readings rest)) hback.not_ge

/-- Along any moves by any 64-bit distances and times, a clock is monotonic exactly if the ideal
clock ends within 64 bits; it then shows the times of the ideal clock. -/
theorem monotonic_iff_ideal_fits (c : Clock) (moves : List ClockMove) :
    (c.Monotonic moves ↔ idealTime c.now.toInt moves ≤ Int64.maxValue.toInt) ∧
      (c.Monotonic moves → c.readings moves = moves.scanl ClockMove.ideal c.now.toInt) := by
  have hfits : c.Monotonic moves → idealTime c.now.toInt moves ≤ Int64.maxValue.toInt := by
    intro h
    by_contra hpast
    exact not_sortedLE_readings (not_le.mp hpast) h.sorted
  refine ⟨⟨hfits, ?monotonic⟩, fun h => (readings_eq_scanl_ideal (hfits h)).1⟩
  case monotonic =>
    intro h
    obtain ⟨hreadings, hlast⟩ := readings_eq_scanl_ideal h
    refine ⟨?_, ?_, ?_⟩
    · rw [hreadings]
      exact sortedLE_scanl_ideal _ moves
    · rw [hlast]
      exact le_idealTime _ moves
    · intro time htime
      rw [hlast]
      exact le_idealTime_of_set htime _

/-- Distances that are not positive and times that are past do not move a clock. -/
theorem monotonic_iff_ideal_fits_stays :
    (⟨1000⟩ : Clock).Monotonic [.advance 33, .advance (-500), .set 900, .set 5000] ∧
      (⟨1000⟩ : Clock).readings [.advance 33, .advance (-500), .set 900, .set 5000] =
        [1000, 1033, 1033, 1033, 5000] := by
  obtain ⟨hiff, hideal⟩ :=
    monotonic_iff_ideal_fits ⟨1000⟩ [.advance 33, .advance (-500), .set 900, .set 5000]
  have hmonotonic := hiff.mpr (by decide)
  exact ⟨hmonotonic, (hideal hmonotonic).trans (by decide)⟩

/-- One millisecond past the greatest time a clock shows the least one. -/
theorem greatest_time_advanced :
    ¬ (⟨Int64.maxValue⟩ : Clock).Monotonic [.advance 1] ∧
      (⟨Int64.maxValue⟩ : Clock).readings [.advance 1] =
        [Int64.maxValue.toInt, Int64.minValue.toInt] := by
  have hback : (⟨Int64.maxValue⟩ : Clock).lastReading [.advance 1] < Int64.maxValue.toInt := by
    decide
  exact ⟨fun h => h.start_le.not_gt hback, by decide⟩

end Clock

end RateGovernor
