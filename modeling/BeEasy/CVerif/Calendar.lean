import Mathlib.Data.Int.DivMod

/-!
# CVerif — Calendar

Days counted from 1 January 1970, the years they fall in, and the broken-down
time of `localtime_r`. The calendar is the Gregorian one in both directions.
How far the clocks of a place are ahead of UTC is an argument, a function of
the time, since it changes with the season and the law.
-/

namespace CVerif

/-- The leap days of the years 1 to `y`. -/
def leapDays (y : Int) : Int := y / 4 - y / 100 + y / 400

/-- The day that 1 January of `y` is. -/
def yearStart (y : Int) : Int := 365 * (y - 1970) + (leapDays (y - 1) - leapDays 1969)

/-- The year of a day: the mean length of a year gives it to within one. -/
def yearOf (day : Int) : Int :=
  let y := 1970 + day * 400 / 146097
  if day < yearStart y then y - 1 else if yearStart (y + 1) ≤ day then y + 1 else y

/-- The day of the year, the first one 0. -/
def dayOfYear (day : Int) : Int := day - yearStart (yearOf day)

/-- A year has 365 or 366 days. -/
theorem yearStart_succ (y : Int) :
    yearStart (y + 1) = yearStart y + 365 ∨ yearStart (y + 1) = yearStart y + 366 := by
  unfold yearStart leapDays
  omega

theorem yearStart_add (y : Int) (k : Nat) :
    yearStart y + 365 * k ≤ yearStart (y + k) := by
  induction k with
  | zero => simp
  | succ k ih =>
      have hstep := yearStart_succ (y + k)
      have hnext : y + ((k + 1 : Nat) : Int) = y + k + 1 := by omega
      rw [hnext]
      omega

/-- Between the first days of two years lie at least 365 days a year. -/
theorem yearStart_gap {y y' : Int} (h : y < y') : yearStart y + 365 ≤ yearStart y' := by
  obtain ⟨k, rfl⟩ : ∃ k : Nat, y' = y + (k + 1 : Nat) := ⟨(y' - y - 1).toNat, by omega⟩
  have hgap := yearStart_add y (k + 1)
  omega

/-- The mean length of a year misses the year of a day by one at most. -/
theorem yearStart_mean (day : Int) :
    yearStart (1970 + day * 400 / 146097 - 1) ≤ day ∧
      day < yearStart (1970 + day * 400 / 146097 + 2) := by
  have hmean : 146097 * (day * 400 / 146097) ≤ day * 400 ∧
      day * 400 < 146097 * (day * 400 / 146097) + 146097 := by omega
  generalize day * 400 / 146097 = k at hmean ⊢
  unfold yearStart leapDays
  omega

/-- **The year found is the year of the day.** -/
theorem yearOf_spec (day : Int) :
    yearStart (yearOf day) ≤ day ∧ day < yearStart (yearOf day + 1) := by
  obtain ⟨hlow, hhigh⟩ := yearStart_mean day
  unfold yearOf
  by_cases hbefore : day < yearStart (1970 + day * 400 / 146097)
  · simp only [hbefore, if_true, Int.sub_add_cancel]
    exact ⟨hlow, trivial⟩
  · simp only [hbefore, if_false]
    by_cases hafter : yearStart (1970 + day * 400 / 146097 + 1) ≤ day
    · simp only [hafter, if_true]
      exact ⟨trivial, by rwa [Int.add_assoc]⟩
    · simp only [hafter, if_false]
      omega

theorem dayOfYear_nonneg (day : Int) : 0 ≤ dayOfYear day := by
  have hspec := yearOf_spec day
  unfold dayOfYear
  omega

theorem dayOfYear_lt (day : Int) : dayOfYear day < 366 := by
  have hspec := yearOf_spec day
  have hlength := yearStart_succ (yearOf day)
  unfold dayOfYear
  omega

/-! ## Day-of-year differences -/

section Differences

variable {day day' : Int}

/-- Within a year the days of the year tell the distance. -/
theorem dayOfYear_sub_same (h : yearOf day' = yearOf day) :
    dayOfYear day - dayOfYear day' = day - day' := by
  unfold dayOfYear
  rw [h]
  omega

/-- Across years they fall short of it by the years in between. -/
theorem dayOfYear_sub_later (h : yearOf day' < yearOf day) :
    dayOfYear day - dayOfYear day' + 365 ≤ day - day' := by
  have hgap := yearStart_gap h
  unfold dayOfYear
  omega

end Differences

/-! ## Broken-down time -/

/-- The fields of `struct tm` that tell the day. -/
structure Tm where
  tm_year : Int
  tm_yday : Int
  deriving DecidableEq

/-- The local day of a time in seconds, `offset` ahead of UTC. -/
def localDay (offset : Int → Int) (t : Int) : Int := (t + offset t) / 86400

/-- `localtime_r`, the years counted from 1900. -/
def localtime (offset : Int → Int) (t : Int) : Tm where
  tm_year := yearOf (localDay offset t) - 1900
  tm_yday := dayOfYear (localDay offset t)

/-- 31 December 2024 was the last day of a leap year. -/
example : localtime (fun _ => 0) 1735603200 = ⟨124, 365⟩ := by decide +kernel

end CVerif
