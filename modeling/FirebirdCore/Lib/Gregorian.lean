import Mathlib.Algebra.BigOperators.Intervals
import Mathlib.Tactic

/-!
# The proleptic Gregorian calendar

Dates from the year 1 on, and the number of each one from the first on.
-/
namespace FirebirdCore.Gregorian
open scoped BigOperators
open Finset

def IsLeap (y : ℕ) : Prop := y % 4 = 0 ∧ y % 100 ≠ 0 ∨ y % 400 = 0

instance (y : ℕ) : Decidable (IsLeap y) := inferInstanceAs (Decidable (_ ∨ _))

def yearDays (y : ℕ) : ℕ := if IsLeap y then 366 else 365

def monthDays (y m : ℕ) : ℕ :=
  if m = 2 then if IsLeap y then 29 else 28
  else if m = 4 ∨ m = 6 ∨ m = 9 ∨ m = 11 then 30 else 31

/-- A date that there is. -/
@[ext] structure Date where
  year : ℕ
  month : ℕ
  day : ℕ
  year_pos : 1 ≤ year
  month_pos : 1 ≤ month
  month_le : month ≤ 12
  day_pos : 1 ≤ day
  day_le : day ≤ monthDays year month
  deriving DecidableEq

/-- The days of the year in front of a date. -/
def Date.dayOfYear (d : Date) : ℕ := ∑ m ∈ Ico 1 d.month, monthDays d.year m + (d.day - 1)

/-- The number of a date: 1 January of the year 1 has the number 0. -/
def Date.number (d : Date) : ℕ := ∑ y ∈ Ico 1 d.year, yearDays y + d.dayOfYear

/-- Sunday is 0. The first date is a Monday. -/
def Date.weekday (d : Date) : ℕ := (d.number + 1) % 7

/-- In the order of years, months and days. -/
def Date.Before (d e : Date) : Prop :=
  d.year < e.year ∨ d.year = e.year ∧ (d.month < e.month ∨ d.month = e.month ∧ d.day < e.day)

theorem monthDays_pos (y m : ℕ) : 28 ≤ monthDays y m := by
  rw [monthDays]
  split_ifs <;> omega

theorem monthDays_december (y : ℕ) : monthDays y 12 = 31 := rfl

/-- The date behind a date. -/
def Date.next (d : Date) : Date :=
  if hday : d.day < monthDays d.year d.month then
    { d with
      day := d.day + 1
      day_pos := by omega
      day_le := hday }
  else if hmonth : d.month < 12 then
    ⟨d.year, d.month + 1, 1, d.year_pos, by omega, hmonth, le_rfl, by
      have h := monthDays_pos d.year (d.month + 1)
      omega⟩
  else ⟨d.year + 1, 1, 1, by omega, le_rfl, by omega, le_rfl, by
    have h := monthDays_pos (d.year + 1) 1
    omega⟩

/-- The days of the years up to `y`. -/
theorem sum_yearDays (y : ℕ) :
    ∑ k ∈ Ico 1 (y + 1), yearDays k + y / 100 = 365 * y + y / 4 + y / 400 := by
  induction y with
  | zero => rfl
  | succ y ih =>
    rw [sum_Ico_succ_top (by omega), yearDays]
    split_ifs with hleap
    · rw [IsLeap] at hleap
      omega
    · rw [IsLeap] at hleap
      omega

/-- The days in front of a month. -/
def monthStart (y m : ℕ) : ℕ :=
  if m ≤ 2 then 31 * (m - 1) else (153 * (m - 3) + 2) / 5 + if IsLeap y then 60 else 59

theorem sum_monthDays (y : ℕ) {m : ℕ} (hpos : 1 ≤ m) (hle : m ≤ 13) :
    ∑ k ∈ Ico 1 m, monthDays y k = monthStart y m := by
  induction m, hpos using Nat.le_induction with
  | base => rfl
  | succ m hpos ih =>
    rw [sum_Ico_succ_top hpos, ih (by omega)]
    have hm : m ≤ 12 := by omega
    rw [monthStart, monthStart, monthDays]
    interval_cases m <;> split_ifs <;> omega

theorem sum_monthDays_year (y : ℕ) : ∑ k ∈ Ico 1 13, monthDays y k = yearDays y := by
  rw [sum_monthDays y (by omega) le_rfl, monthStart, yearDays]
  split_ifs <;> omega

theorem Date.number_eq (d : Date) :
    d.number = ∑ y ∈ Ico 1 d.year, yearDays y + (∑ m ∈ Ico 1 d.month, monthDays d.year m + (d.day - 1)) :=
  rfl

theorem Date.number_next (d : Date) : d.next.number = d.number + 1 := by
  have hday := d.day_pos
  have hday' := d.day_le
  rw [Date.next]
  split_ifs with hlt hmonth
  · rw [number_eq, number_eq]
    dsimp only
    omega
  · rw [number_eq, number_eq]
    dsimp only
    rw [sum_Ico_succ_top d.month_pos]
    omega
  · have hlast : d.month = 12 := le_antisymm d.month_le (not_lt.1 hmonth)
    have hyear := sum_monthDays_year d.year
    rw [sum_Ico_succ_top (by omega)] at hyear
    rw [number_eq, number_eq]
    dsimp only
    rw [sum_Ico_succ_top d.year_pos, Ico_self, sum_empty, hlast]
    rw [hlast] at hlt hday'
    omega

theorem Date.dayOfYear_lt (d : Date) : d.dayOfYear < yearDays d.year := by
  have hday := d.day_le
  have hpos := d.day_pos
  have hmonth : d.month < 13 := Nat.lt_succ_of_le d.month_le
  have hfront := sum_Ico_consecutive (monthDays d.year) d.month_pos hmonth.le
  rw [sum_monthDays_year, sum_eq_sum_Ico_succ_bot hmonth] at hfront
  rw [dayOfYear]
  omega

theorem sum_yearDays_mono {y z : ℕ} (h : y ≤ z) : ∑ k ∈ Ico 1 y, yearDays k ≤ ∑ k ∈ Ico 1 z, yearDays k :=
  sum_le_sum_of_subset (Ico_subset_Ico_right h)

/-- The dates up to the end of a year are those with the numbers below the first one of the next year. -/
theorem Date.year_le_iff (d : Date) (y : ℕ) : d.year ≤ y ↔ d.number < ∑ k ∈ Ico 1 (y + 1), yearDays k := by
  have hday := d.dayOfYear_lt
  rw [number]
  constructor
  · intro hyear
    have hmono := sum_yearDays_mono (Nat.add_le_add_right hyear 1)
    rw [sum_Ico_succ_top d.year_pos] at hmono
    omega
  · intro hlt
    by_contra hyear
    have hmono : _ ≤ ∑ k ∈ Ico 1 d.year, yearDays k := sum_yearDays_mono (y := y + 1) (not_le.1 hyear)
    omega

/-- The numbers are in the order of the dates. -/
theorem Date.number_lt {d e : Date} (h : d.Before e) : d.number < e.number := by
  have hd := d.dayOfYear_lt
  rw [number, number]
  rcases h with hyear | ⟨hyear, hmonth | ⟨hmonth, hday⟩⟩
  · rw [← sum_Ico_consecutive _ d.year_pos hyear.le, sum_eq_sum_Ico_succ_bot hyear]
    omega
  · rw [hyear, dayOfYear, dayOfYear, ← hyear, ← sum_Ico_consecutive _ d.month_pos hmonth.le,
      sum_eq_sum_Ico_succ_bot hmonth]
    have hday := d.day_le
    have hpos := d.day_pos
    omega
  · rw [dayOfYear, dayOfYear, hyear, hmonth]
    have hpos := d.day_pos
    omega

theorem Date.before_trichotomy (d e : Date) : d.Before e ∨ d = e ∨ e.Before d := by
  rw [Before, Before, Date.ext_iff]
  omega

theorem Date.before_iff {d e : Date} : d.Before e ↔ d.number < e.number := by
  refine ⟨number_lt, fun h => ?_⟩
  rcases d.before_trichotomy e with hbefore | rfl | hbefore
  · exact hbefore
  · exact absurd h (lt_irrefl _)
  · exact absurd (number_lt hbefore) h.asymm

theorem Date.number_inj {d e : Date} (h : d.number = e.number) : d = e := by
  rcases d.before_trichotomy e with hbefore | heq | hbefore
  · exact absurd h (number_lt hbefore).ne
  · exact heq
  · exact absurd h (number_lt hbefore).ne'

/-- Each number is that of a date. -/
theorem exists_number (n : ℕ) : ∃ d : Date, d.number = n := by
  induction n with
  | zero => exact ⟨⟨1, 1, 1, le_rfl, le_rfl, by omega, le_rfl, by decide⟩, rfl⟩
  | succ n ih =>
    obtain ⟨d, rfl⟩ := ih
    exact ⟨d.next, d.number_next⟩

end FirebirdCore.Gregorian
