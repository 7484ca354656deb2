import Mathlib

/-!
# The Gregorian calendar

Months, and the days of a month, are counted from 0.

* `IsLeap`, `yearLength`, `monthLength`: the lengths of the years and months;
* `Date`, `Date.Valid`, `Date.daysFrom`: the days since the start of a year, by adding up the
  lengths of the years and of the months before;
* **`sum_yearLength`**: the leap days of a range of years in closed form;
* `sum_monthLength`: the months make the year;
* **`Date.daysFrom_lt`**: the days go up with the dates.
-/

namespace Calendar

/-- The rule of the Gregorian calendar. -/
def IsLeap (year : ℕ) : Prop := 4 ∣ year ∧ (¬ 100 ∣ year ∨ 400 ∣ year)

instance (year : ℕ) : Decidable (IsLeap year) := inferInstanceAs (Decidable (_ ∧ _))

/-- The days by which a year is longer. -/
def leapDay (year : ℕ) : ℕ := if IsLeap year then 1 else 0

/-- The days of a year. -/
def yearLength (year : ℕ) : ℕ := 365 + leapDay year

/-- Thirty days has September, April, June and November. -/
def monthLength (year month : ℕ) : ℕ :=
  if month = 1 then 28 + leapDay year
  else if month ∈ [8, 3, 5, 10] then 30
  else 31

/-! ## Years -/

/-- The leap years up to a year, and with it. -/
def leaps (year : ℕ) : ℕ := year / 4 - year / 100 + year / 400

theorem leaps_succ (year : ℕ) : leaps (year + 1) = leaps year + leapDay (year + 1) := by
  have hle : year / 100 ≤ year / 4 := Nat.div_le_div_left (by decide) (by decide)
  unfold leaps leapDay IsLeap
  rw [Nat.succ_div, Nat.succ_div, Nat.succ_div]
  generalize year / 4 = fours at *
  generalize year / 100 = hundreds at *
  by_cases h₄ : 4 ∣ year + 1
  · by_cases h₁₀₀ : 100 ∣ year + 1
    · by_cases h₄₀₀ : 400 ∣ year + 1
      · simp only [h₄, h₁₀₀, h₄₀₀, if_true, not_true, false_or, and_self]
        omega
      · simp only [h₄, h₁₀₀, h₄₀₀, if_true, if_false, not_true, or_self, and_false]
        omega
    · have h₄₀₀ : ¬ 400 ∣ year + 1 := fun h => h₁₀₀ ((by decide : 100 ∣ 400).trans h)
      simp only [h₄, h₁₀₀, h₄₀₀, if_true, if_false, not_false_iff, true_or, and_self]
      omega
  · have h₁₀₀ : ¬ 100 ∣ year + 1 := fun h => h₄ ((by decide : 4 ∣ 100).trans h)
    have h₄₀₀ : ¬ 400 ∣ year + 1 := fun h => h₄ ((by decide : 4 ∣ 400).trans h)
    simp only [h₄, h₁₀₀, h₄₀₀, if_false, false_and, add_zero]

/-- **The days of the years** from `a` to `b`. -/
theorem sum_yearLength {a b : ℕ} (h : a ≤ b) :
    ∑ year ∈ Finset.Ico a b, yearLength year + leapDay b + leaps a =
      365 * (b - a) + leaps b + leapDay a := by
  induction b, h using Nat.le_induction with
  | base => simp [add_comm]
  | succ b h ih =>
    rw [Finset.sum_Ico_succ_top h, leaps_succ, yearLength, Nat.succ_sub h, Nat.mul_succ]
    omega

/-! ## Months -/

theorem sum_monthLength (year : ℕ) :
    ∑ month ∈ Finset.range 12, monthLength year month = yearLength year := by
  unfold yearLength
  simp [Finset.sum_range_succ, monthLength]
  omega

/-! ## Dates -/

/-- Months and days count from 0. -/
structure Date where
  year : ℕ
  month : ℕ
  day : ℕ
  deriving DecidableEq, Repr

namespace Date

/-- The month and the day exist. -/
structure Valid (d : Date) : Prop where
  month : d.month < 12
  day : d.day < monthLength d.year d.month

/-- The days of the year that are before the date. -/
def yearDay (d : Date) : ℕ :=
  ∑ month ∈ Finset.range d.month, monthLength d.year month + d.day

/-- The days from the start of `year` to the date. -/
def daysFrom (year : ℕ) (d : Date) : ℕ :=
  ∑ y ∈ Finset.Ico year d.year, yearLength y + d.yearDay

variable {d d' : Date} {year : ℕ}

/-- What is in one part is before what is in a later part. -/
theorem sum_add_lt {f : ℕ → ℕ} {a n m k : ℕ} (ha : a ≤ n) (hk : k < f n) (h : n < m) :
    ∑ i ∈ Finset.Ico a n, f i + k < ∑ i ∈ Finset.Ico a m, f i :=
  calc ∑ i ∈ Finset.Ico a n, f i + k
      < ∑ i ∈ Finset.Ico a n, f i + f n := Nat.add_lt_add_left hk _
    _ = ∑ i ∈ Finset.Ico a (n + 1), f i := (Finset.sum_Ico_succ_top ha f).symm
    _ ≤ ∑ i ∈ Finset.Ico a m, f i :=
      Finset.sum_le_sum_of_subset (Finset.Ico_subset_Ico_right h)

theorem yearDay_lt (h : d.Valid) : d.yearDay < yearLength d.year := by
  rw [yearDay, ← sum_monthLength, Finset.range_eq_Ico, Finset.range_eq_Ico]
  exact sum_add_lt (Nat.zero_le _) h.day h.month

/-- **A later date has more days before it.** -/
theorem daysFrom_lt (h : d.Valid) (hyear : year ≤ d.year)
    (hlt : d.year < d'.year ∨ d.year = d'.year ∧
      (d.month < d'.month ∨ d.month = d'.month ∧ d.day < d'.day)) :
    d.daysFrom year < d'.daysFrom year := by
  rcases hlt with hlt | ⟨heq, hlt⟩
  · exact (sum_add_lt hyear (yearDay_lt h) hlt).trans_le (Nat.le_add_right _ _)
  · rw [daysFrom, daysFrom, heq]
    refine Nat.add_lt_add_left ?_ _
    rcases hlt with hlt | ⟨hmonth, hlt⟩
    · rw [yearDay, yearDay, ← heq, Finset.range_eq_Ico, Finset.range_eq_Ico]
      exact (sum_add_lt (Nat.zero_le _) h.day hlt).trans_le (Nat.le_add_right _ _)
    · rw [yearDay, yearDay, heq, hmonth]
      exact Nat.add_lt_add_left hlt _

end Date

end Calendar
