import RtcBase.Lib.Calendar
import RtcBase.Lib.Word

/-!
# `TmToTime`

* `Tm`, `tmToTime`: the broken-down time, and its conversion;
* `Tm.InRange`, `Tm.date`, `Tm.exact`: the fields that are accepted, and the milliseconds they
  denote by the calendar;
* `monthDays_eq`, `cumulMdays_eq`, **`accumulateDay_eq`**: the tables and the leap days of the code
  against the calendar;
* `sums_fit`: no sum before the last product overflows;
* `tmToTime_of_not`, `tmToTime_of_inRange`: the two ways out;
* **`tmToTime_exact`**: the conversion is exact.
-/

namespace RtcBase

open Word Calendar

/-- `struct tm`, up to the year. -/
structure Tm where
  tm_sec : Int32
  tm_min : Int32
  tm_hour : Int32
  tm_mday : Int32
  tm_mon : Int32
  tm_year : Int32
  deriving DecidableEq

namespace TmToTime

/-! ## The function -/

/-- The days of the months. -/
def mdays : List ℤ := [31, 28, 31, 30, 31, 30, 31, 31, 30, 31, 30, 31]

/-- The days of the year before a month. -/
def cumulMdays : List ℤ := [0, 31, 59, 90, 120, 151, 181, 212, 243, 273, 304, 334]

/-- `kNumMillisecsPerSec`. -/
def kNumMillisecsPerSec : ℤ := 1000

/-- `int year`. -/
def year (tm : Tm) : ℤ := toInt32 (tm.tm_year.toInt + 1900)

/-- Whether the code takes the year for a leap year. -/
def expiryInLeapYear (year : ℤ) : Bool :=
  year.tmod 4 = 0 && (year.tmod 100 ≠ 0 || year.tmod 400 = 0)

/-- `mdays[month] + (expiry_in_leap_year && month == 2 - 1)`. -/
def monthDays (year month : ℤ) : ℤ :=
  mdays.getD month.toNat 0 + if expiryInLeapYear year ∧ month = 2 - 1 then 1 else 0

/-- What is added to `day`, in the order of the code. -/
def accumulateDay (year month day : ℤ) : ℤ :=
  let day := day + cumulMdays.getD month.toNat 0
  let day := day + ((year.tdiv 4 - 1970 / 4) - (year.tdiv 100 - 1970 / 100) +
    (year.tdiv 400 - 1970 / 400))
  if expiryInLeapYear year ∧ month ≤ 2 - 1 then day - 1 else day

/-- The result wraps where it does not fit; the sums before always fit. -/
def tmToTime (tm : Tm) : ℤ :=
  let year := year tm
  let month := tm.tm_mon.toInt
  let day := toInt32 (tm.tm_mday.toInt - 1)
  let hour := tm.tm_hour.toInt
  let min := tm.tm_min.toInt
  let sec := tm.tm_sec.toInt
  if year < 1970 then -1
  else if month < 0 ∨ month > 11 then -1
  else if day < 0 ∨ day ≥ monthDays year month then -1
  else if hour < 0 ∨ hour > 23 then -1
  else if min < 0 ∨ min > 59 then -1
  else if sec < 0 ∨ sec > 59 then -1
  else
    let day := accumulateDay year month day
    let second := ((((year - 1970) * 365 + day) * 24 + hour) * 60 + min) * 60 + sec
    toInt64 (second * kNumMillisecsPerSec)

/-! ## What it should do -/

/-- The fields other than the year are in range. -/
structure InRange (tm : Tm) : Prop where
  month : 0 ≤ tm.tm_mon.toInt ∧ tm.tm_mon.toInt ≤ 11
  day : 1 ≤ tm.tm_mday.toInt ∧
    tm.tm_mday.toInt ≤ monthLength (year tm).toNat tm.tm_mon.toInt.toNat
  hour : 0 ≤ tm.tm_hour.toInt ∧ tm.tm_hour.toInt ≤ 23
  min : 0 ≤ tm.tm_min.toInt ∧ tm.tm_min.toInt ≤ 59
  sec : 0 ≤ tm.tm_sec.toInt ∧ tm.tm_sec.toInt ≤ 59

/-- The date of a `struct tm`, counted from 0. -/
def date (tm : Tm) : Date where
  year := (year tm).toNat
  month := tm.tm_mon.toInt.toNat
  day := (tm.tm_mday.toInt - 1).toNat

@[simp] theorem date_year (tm : Tm) : (date tm).year = (year tm).toNat := rfl

@[simp] theorem date_month (tm : Tm) : (date tm).month = tm.tm_mon.toInt.toNat := rfl

@[simp] theorem date_day (tm : Tm) : (date tm).day = (tm.tm_mday.toInt - 1).toNat := rfl

/-- The milliseconds since the start of 1970. -/
def exact (tm : Tm) : ℤ :=
  1000 * (86400 * (date tm).daysFrom 1970 + 3600 * tm.tm_hour.toInt + 60 * tm.tm_min.toInt +
    tm.tm_sec.toInt)

/-- The fields, the most significant one first. -/
def fields (tm : Tm) : List ℤ :=
  [tm.tm_year.toInt, tm.tm_mon.toInt, tm.tm_mday.toInt, tm.tm_hour.toInt, tm.tm_min.toInt,
    tm.tm_sec.toInt]

/-! ## The tables and the leap days -/

section Tables

variable {n m d : ℕ}

theorem expiryInLeapYear_iff : expiryInLeapYear n = true ↔ IsLeap n := by
  rw [expiryInLeapYear, IsLeap, Bool.and_eq_true, Bool.or_eq_true, decide_eq_true_iff,
    decide_eq_true_iff, decide_eq_true_iff, Int.tmod_eq_emod_of_nonneg (Int.natCast_nonneg n),
    Int.tmod_eq_emod_of_nonneg (Int.natCast_nonneg n),
    Int.tmod_eq_emod_of_nonneg (Int.natCast_nonneg n)]
  omega

theorem monthDays_eq (hm : m < 12) : monthDays n m = monthLength n m := by
  rw [monthDays, Int.toNat_natCast]
  simp only [expiryInLeapYear_iff]
  interval_cases m <;> simp [mdays, monthLength, leapDay]

theorem cumulMdays_eq (hm : m < 12) :
    ((∑ month ∈ Finset.range m, monthLength n month : ℕ) : ℤ) =
      cumulMdays.getD m 0 + if m ≤ 1 then 0 else (leapDay n : ℤ) := by
  interval_cases m <;> simp [Finset.sum_range_succ, cumulMdays, monthLength] <;> ring

/-- **The leap days of the code are those of the calendar.** -/
theorem accumulateDay_eq (hn : 1970 ≤ n) (hm : m < 12) :
    ((n : ℤ) - 1970) * 365 + accumulateDay n m d = (⟨n, m, d⟩ : Date).daysFrom 1970 := by
  have hyears := sum_yearLength hn
  have hmonths := cumulMdays_eq (n := n) hm
  have hle : n / 100 ≤ n / 4 := Nat.div_le_div_left (by decide) (by decide)
  have hfirst : leapDay 1970 = 0 := by decide
  unfold accumulateDay Date.daysFrom Date.yearDay
  simp only [expiryInLeapYear_iff, Int.toNat_natCast,
    Int.tdiv_eq_ediv_of_nonneg (Int.natCast_nonneg n)]
  rw [Nat.cast_add, Nat.cast_add, hmonths]
  unfold leaps at hyears
  rw [hfirst] at hyears
  generalize ∑ y ∈ Finset.Ico 1970 n, yearLength y = years at *
  -- the leap day of the year itself is counted, and taken back in January and February
  by_cases hleap : IsLeap n
  · have hone : leapDay n = 1 := if_pos hleap
    rw [hone] at hyears ⊢
    simp only [hleap, true_and]
    split_ifs <;> omega
  · have hzero : leapDay n = 0 := if_neg hleap
    rw [hzero] at hyears ⊢
    simp only [hleap, false_and, if_false, Nat.cast_zero, ite_self]
    omega

/-- The sums of the code fit into their types. -/
theorem sums_fit {hour min sec : ℤ} (hn : 1970 ≤ n) (hn' : n ≤ intMax) (hm : m < 12) (hd : d < 31)
    (hhour : 0 ≤ hour ∧ hour ≤ 23) (hmin : 0 ≤ min ∧ min ≤ 59) (hsec : 0 ≤ sec ∧ sec ≤ 59) :
    (0 ≤ accumulateDay n m d ∧ accumulateDay n m d ≤ intMax) ∧
      IsInt64 (((((n - 1970) * 365 + accumulateDay n m d) * 24 + hour) * 60 + min) * 60 + sec) := by
  have hcumul : 0 ≤ cumulMdays.getD m 0 ∧ cumulMdays.getD m 0 ≤ 334 := by
    interval_cases m <;> decide
  have hday : 0 ≤ accumulateDay n m d ∧ accumulateDay n m d ≤ intMax := by
    unfold accumulateDay
    unfold intMax at hn' ⊢
    simp only [Int.toNat_natCast, Int.tdiv_eq_ediv_of_nonneg (Int.natCast_nonneg n),
      expiryInLeapYear_iff]
    split_ifs with hleap
    · have h₄ := hleap.1.1
      omega
    · omega
  refine ⟨hday, ?_⟩
  unfold IsInt64 int64Max
  unfold intMax at hn' hday
  omega

end Tables

/-! ## The ways out -/

section Ways

variable {tm : Tm}

/-- A day of the month, which is counted from 1, is rejected also where the subtraction wraps. -/
theorem day_rejected_iff (x : Int32) {k : ℕ} (hk : k ≤ 31) :
    (toInt32 (x.toInt - 1) < 0 ∨ toInt32 (x.toInt - 1) ≥ k) ↔ ¬ (1 ≤ x.toInt ∧ x.toInt ≤ k) := by
  have h₁ := x.le_toInt
  have h₂ := x.toInt_lt
  rcases lt_or_ge (x.toInt - 1) (-2 ^ 31) with hlt | hge
  · have hwrap : toInt32 (x.toInt - 1) = 2 ^ 31 - 1 := by
      rw [show x.toInt - 1 = -2 ^ 31 - 1 by omega]
      decide
    omega
  · rw [toInt32_of_mem hge (by unfold intMax; omega)]
    omega

theorem monthLength_le (n m : ℕ) : monthLength n m ≤ 31 := by
  unfold monthLength leapDay
  split_ifs <;> omega

theorem monthDays_toNat (hyear : 0 ≤ year tm) (hmonth : 0 ≤ tm.tm_mon.toInt)
    (hmonth' : tm.tm_mon.toInt ≤ 11) : monthDays (year tm) tm.tm_mon.toInt =
      monthLength (year tm).toNat tm.tm_mon.toInt.toNat := by
  have h := monthDays_eq (n := (year tm).toNat) (m := tm.tm_mon.toInt.toNat) (by omega)
  rwa [Int.toNat_of_nonneg hyear, Int.toNat_of_nonneg hmonth] at h

theorem tmToTime_of_not (h : ¬ (1970 ≤ year tm ∧ InRange tm)) : tmToTime tm = -1 := by
  unfold tmToTime
  dsimp only
  split_ifs with hyear hmonth hday hhour hmin hsec
  · rfl
  · rfl
  · rfl
  · rfl
  · rfl
  · rfl
  · rw [monthDays_toNat (by omega) (by omega) (by omega),
      day_rejected_iff _ (monthLength_le _ _), not_not] at hday
    exact absurd ⟨by omega, ⟨by omega, hday, by omega, by omega, by omega⟩⟩ h

theorem tmToTime_of_inRange (hyear : 1970 ≤ year tm) (h : InRange tm) :
    tmToTime tm = toInt64 (exact tm) := by
  have hmonth := h.month
  have hhour := h.hour
  have hmin := h.min
  have hsec := h.sec
  have hday : ¬ (toInt32 (tm.tm_mday.toInt - 1) < 0 ∨
      toInt32 (tm.tm_mday.toInt - 1) ≥ monthDays (year tm) tm.tm_mon.toInt) := by
    rw [monthDays_toNat (by omega) hmonth.1 hmonth.2, day_rejected_iff _ (monthLength_le _ _),
      not_not]
    exact h.day
  have hdays : (year tm - 1970) * 365 +
      accumulateDay (year tm) tm.tm_mon.toInt (toInt32 (tm.tm_mday.toInt - 1)) =
        (date tm).daysFrom 1970 := by
    have hmday := tm.tm_mday.toInt_lt
    have heq := accumulateDay_eq (n := (year tm).toNat) (m := tm.tm_mon.toInt.toNat)
      (d := (tm.tm_mday.toInt - 1).toNat) (by omega) (by omega)
    rw [Int.toNat_of_nonneg (by omega), Int.toNat_of_nonneg hmonth.1,
      Int.toNat_of_nonneg (by have := h.day.1; omega)] at heq
    rw [toInt32_of_mem (by have := h.day.1; omega) (by unfold intMax; omega)]
    exact heq
  unfold tmToTime
  dsimp only
  rw [if_neg (by omega), if_neg (by omega), if_neg hday, if_neg (by omega), if_neg (by omega),
    if_neg (by omega), hdays, exact, kNumMillisecsPerSec]
  congr 1
  ring

/-- The result is never -1 by accident: a number of milliseconds that wraps stays even. -/
theorem toInt64_exact_ne (tm : Tm) : toInt64 (exact tm) ≠ -1 := by
  unfold toInt64 exact
  rw [Int.bmod_def]
  split_ifs <;> omega

theorem year_eq (h : tm.tm_year.toInt + 1900 ≤ intMax) : year tm = tm.tm_year.toInt + 1900 := by
  have := tm.tm_year.le_toInt
  exact toInt32_of_mem (by omega) h

end Ways

/-! ## The conversion -/

/-- A time from 1970 on, with a year that fits and fields in range. -/
structure Valid (tm : Tm) : Prop where
  fits : tm.tm_year.toInt + 1900 ≤ intMax
  year : 1970 ≤ year tm
  inRange : InRange tm

section Valid

variable {tm tm' : Tm}

theorem Valid.date (h : Valid tm) : (date tm).Valid := by
  have hmonth := h.inRange.month
  have hday := h.inRange.day
  refine ⟨?_, ?_⟩
  · rw [date_month]
    omega
  · rw [date_day, date_month, date_year]
    omega

/-- **Later times have more milliseconds.** -/
theorem exact_lt (h : Valid tm) (h' : Valid tm') (hlt : fields tm < fields tm') :
    exact tm < exact tm' := by
  have hyear := h.year
  have hyear' := h'.year
  have hmonth := h.inRange.month
  have hmonth' := h'.inRange.month
  have hday := h.inRange.day
  have hday' := h'.inRange.day
  have hhour := h.inRange.hour
  have hhour' := h'.inRange.hour
  have hmin := h.inRange.min
  have hmin' := h'.inRange.min
  have hsec := h.inRange.sec
  have hsec' := h'.inRange.sec
  have heq := year_eq h.fits
  have heq' := year_eq h'.fits
  simp only [fields, List.cons_lt_cons_iff, List.lt_irrefl, and_false, or_false] at hlt
  by_cases hdate : (date tm).year < (date tm').year ∨ (date tm).year = (date tm').year ∧
      ((date tm).month < (date tm').month ∨ (date tm).month = (date tm').month ∧
        (date tm).day < (date tm').day)
  · have hfirst : 1970 ≤ (date tm).year := by
      rw [date_year]
      omega
    have hdays := Date.daysFrom_lt h.date hfirst hdate
    unfold exact
    omega
  · simp only [date_year, date_month, date_day] at hdate
    have hsame : date tm = date tm' := by
      simp only [date, Date.mk.injEq]
      omega
    unfold exact
    rw [hsame]
    omega

end Valid

/-- **The conversion is exact.** The result is -1 just when the year is before 1970 or a field is
out of range. Otherwise it is the number of milliseconds by the calendar, where that fits, and it
goes up with the fields. -/
theorem tmToTime_exact (tm : Tm) :
    (tmToTime tm = -1 ↔ year tm < 1970 ∨ ¬ InRange tm) ∧
    (tm.tm_year.toInt + 1900 ≤ intMax → year tm = tm.tm_year.toInt + 1900) ∧
    (Valid tm → exact tm ≤ int64Max → tmToTime tm = exact tm) ∧
    ∀ tm', Valid tm → Valid tm' → exact tm' ≤ int64Max → fields tm < fields tm' →
      tmToTime tm < tmToTime tm' := by
  have hexact : ∀ tm, Valid tm → exact tm ≤ int64Max → tmToTime tm = exact tm := by
    intro tm h hfits
    rw [tmToTime_of_inRange h.year h.inRange]
    refine toInt64_of_mem ?_ hfits
    have hhour := h.inRange.hour
    have hmin := h.inRange.min
    have hsec := h.inRange.sec
    unfold exact
    omega
  refine ⟨?_, year_eq, hexact tm, fun tm' h h' hfits' hlt => ?_⟩
  · rw [← not_le, ← not_and_or]
    constructor
    · rintro hresult ⟨hyear, h⟩
      rw [tmToTime_of_inRange hyear h] at hresult
      exact toInt64_exact_ne tm hresult
    · exact tmToTime_of_not
  · have hexact_lt := exact_lt h h' hlt
    rw [hexact tm h (hexact_lt.le.trans hfits'), hexact tm' h' hfits']
    exact hexact_lt

/-- The last day of February 2000. -/
theorem tmToTime_exact_sample : tmToTime ⟨0, 0, 0, 29, 1, 100⟩ = 951782400000 := by
  have hvalid : Valid ⟨0, 0, 0, 29, 1, 100⟩ :=
    ⟨by decide, by decide, by decide, by decide, by decide, by decide, by decide⟩
  exact ((tmToTime_exact _).2.2.1 hvalid (by decide)).trans (by decide)

end TmToTime

end RtcBase
