import LuajitTcpServer.DateTime.DayNumber
import LuajitTcpServer.Lib.Calendar

/-!
# Gregorian — day numbers count the days of the Gregorian calendar

`dateToNum` grows by one from each date to the next (`dayCount_dayNumber`), which makes it a day
count in the sense of the calendar.  `numToDate` splits a day number into century, year, month and
day (`Split`); its dates are valid and it is a right inverse of `dateToNum`.  As a day count is
injective, it is a left inverse as well.
-/

namespace LuajitTcpServer
namespace DateTime

open Calendar

/-- The day number of a date. -/
def dayNumber (date : Date) : Int := dateToNum date.year date.month date.day

/-! ## Years that begin in March -/

/-- The days before 1 March of year `y - 4800`. -/
def marchDays (y : Int) : Int := 365 * y + y / 4 - y / 100 + y / 400

/-- January and February belong to the year before. -/
theorem dateToNum_early {year month day : Int} (hpos : 1 ≤ month) (hle : month ≤ 2) :
    dateToNum year month day =
      day + (153 * (month + 9) + 2) / 5 + marchDays (year + 4799) - 32045 := by
  have ha : (14 - month) / 12 = 1 := by omega
  have hm : month + 12 * 1 - 3 = month + 9 := by omega
  have hy : year + 4800 - 1 = year + 4799 := by omega
  simp only [dateToNum, marchDays, ha, hm, hy]
  omega

theorem dateToNum_late {year month day : Int} (hpos : 3 ≤ month) (hle : month ≤ 12) :
    dateToNum year month day =
      day + (153 * (month - 3) + 2) / 5 + marchDays (year + 4800) - 32045 := by
  have ha : (14 - month) / 12 = 0 := by omega
  have hm : month + 12 * 0 - 3 = month - 3 := by omega
  have hy : year + 4800 - 0 = year + 4800 := by omega
  simp only [dateToNum, marchDays, ha, hm, hy]
  omega

/-- The last month of a shifted year is the only one whose length depends on the year. -/
theorem marchDays_succ (year : Int) :
    marchDays (year + 4800) = marchDays (year + 4799) + 337 + monthLength year 2 := by
  -- each of the three quotients grows in the years that its divisor divides
  have hfour : (year + 4800) / 4 = (year + 4799) / 4 + if 4 ∣ year then 1 else 0 := by
    split <;> omega
  have hcentury : (year + 4800) / 100 = (year + 4799) / 100 + if 100 ∣ year then 1 else 0 := by
    split <;> omega
  have hcycle : (year + 4800) / 400 = (year + 4799) / 400 + if 400 ∣ year then 1 else 0 := by
    split <;> omega
  have hlength : monthLength year 2 = 28 + (if 4 ∣ year then 1 else 0) -
      (if 100 ∣ year then 1 else 0) + (if 400 ∣ year then 1 else 0) := by
    simp only [monthLength, IsLeap, if_true]
    split_ifs <;> omega
  simp only [marchDays, hfour, hcentury, hcycle, hlength]
  omega

/-- The pattern of month lengths from March to December. -/
theorem monthDays_succ {year month : Int} (hpos : 3 ≤ month) (hlt : month < 12) :
    (153 * (month + 1 - 3) + 2) / 5 = (153 * (month - 3) + 2) / 5 + monthLength year month := by
  have hmonth : month = 3 ∨ month = 4 ∨ month = 5 ∨ month = 6 ∨ month = 7 ∨ month = 8 ∨
      month = 9 ∨ month = 10 ∨ month = 11 := by omega
  rcases hmonth with rfl | rfl | rfl | rfl | rfl | rfl | rfl | rfl | rfl <;> rfl

/-! ## Counting -/

theorem dateToNum_succ_day (year month day : Int) :
    dateToNum year month (day + 1) = dateToNum year month day + 1 := by
  simp only [dateToNum]
  omega

theorem dateToNum_next_month {year month : Int} (hpos : 1 ≤ month) (hlt : month < 12) :
    dateToNum year (month + 1) 1 = dateToNum year month (monthLength year month) + 1 := by
  by_cases hjan : month = 1
  · subst hjan
    have hlength : monthLength year 1 = 31 := rfl
    simp [dateToNum_early, hlength]
    omega
  · by_cases hfeb : month = 2
    · -- from February to March the shifted year changes
      subst hfeb
      simp [dateToNum_early, dateToNum_late, marchDays_succ]
      omega
    · have hthree : 3 ≤ month := by omega
      have hpattern := @monthDays_succ year month hthree hlt
      rw [dateToNum_late (by omega) (by omega), dateToNum_late hthree (by omega), hpattern]
      omega

theorem dateToNum_next_year (year : Int) :
    dateToNum (year + 1) 1 1 = dateToNum year 12 31 + 1 := by
  have hy : year + 1 + 4799 = year + 4800 := by omega
  simp [dateToNum_early, dateToNum_late, hy]
  omega

theorem dayCount_dayNumber : DayCount dayNumber := by
  intro date
  have hpos := date.month_pos
  have hle := date.month_le
  have hday := date.day_le
  -- the three ways in which a date has a next one
  by_cases hlast : date.day < monthLength date.year date.month
  · simpa [dayNumber, Date.next, hlast] using
      dateToNum_succ_day date.year date.month date.day
  · have hlength : monthLength date.year date.month = date.day := by omega
    by_cases hmonth : date.month < 12
    · have hnext := @dateToNum_next_month date.year date.month hpos hmonth
      simpa [dayNumber, Date.next, hlast, hmonth, hlength] using hnext
    · have hdec : date.month = 12 := by omega
      have hend : date.day = 31 := by
        rw [← hlength, hdec]
        rfl
      have hnext : date.next.year = date.year + 1 ∧ date.next.month = 1 ∧ date.next.day = 1 := by
        simp [Date.next, hlast, hmonth]
      simpa [dayNumber, hnext, hdec, hend] using dateToNum_next_year date.year

/-- `dateToNum` grows by one from each calendar day to the next; hence it is strictly increasing
in the order of dates, and `dayDifference` is the number of days between two dates. -/
theorem dateToNum_counts_days :
    (∀ date : Date, dayNumber date.next = dayNumber date + 1) ∧
      (∀ a b : Date, a.Before b ↔ dayNumber a < dayNumber b) ∧
      ∀ (a b : Date) (n : Int), dayDifference (dayNumber a) (dayNumber b) = n ↔ a.DaysTo b n := by
  refine ⟨dayCount_dayNumber, fun a b => dayCount_dayNumber.before_iff_lt, fun a b n => ?_⟩
  simpa [dayDifference] using dayCount_dayNumber.sub_eq_iff

/-! ## Dates from day numbers -/

theorem quarter_succ (k : Int) :
    (k + 1) / 4 = k / 4 ∨ k % 4 = 3 ∧ (k + 1) / 4 = k / 4 + 1 := by
  omega

/-- What `numToDate` splits day `a` into: the century `b` and its day `c`, the year `d` of the
century and its day `e`, and the month `m` of that year, counted from March. -/
structure Split (a b c d e m : Int) : Prop where
  century : a = 36524 * b + b / 4 + c
  year : c = 365 * d + d / 4 + e
  year_nonneg : 0 ≤ d
  year_le : d ≤ 99
  /-- The last day of a long year, which the last year of a century is once in 400 years. -/
  leap_day : e = 365 → d % 4 = 3 ∧ (d = 99 → b % 4 = 3)
  day_le : e ≤ 365
  month_nonneg : 0 ≤ m
  month_le : m ≤ 11
  month_start : (153 * m + 2) / 5 ≤ e
  month_end : e < (153 * (m + 1) + 2) / 5

theorem split_numToDate {a b c d e m : Int} (hb : b = (4 * a + 3) / 146097)
    (hc : c = a - 146097 * b / 4) (hd : d = (4 * c + 3) / 1461) (he : e = c - 1461 * d / 4)
    (hm : m = (5 * e + 2) / 153) : Split a b c d e m := by
  have hcentury := period_of_day (r := 0) (by decide) (by decide) hb
  have hyear := period_of_day (r := 0) (by decide) (by decide) hd
  have hmonth := period_of_day (r := 2) (by decide) (by decide) hm
  have hcenturyDays : ∀ k : Int, 146097 * k / 4 = 36524 * k + k / 4 := by omega
  have hyearDays : ∀ k : Int, 1461 * k / 4 = 365 * k + k / 4 := by omega
  simp only [Int.add_zero, hcenturyDays, hyearDays] at hc he hcentury hyear
  have hquarter := quarter_succ b
  have hquarter' := quarter_succ d
  clear hb hd hm
  -- a century has 36524 days, or one more; a year has 365 days, or one more
  have hc_le : c ≤ 36524 ∧ (c = 36524 → b % 4 = 3) := by omega
  have hd_le : 0 ≤ d ∧ d ≤ 99 := by omega
  have he_le : 0 ≤ e ∧ e ≤ 365 ∧ (e = 365 → d % 4 = 3 ∧ (d = 99 → c = 36524)) := by omega
  exact
    { century := by omega
      year := by omega
      year_nonneg := hd_le.1
      year_le := hd_le.2
      leap_day := fun hlast =>
        ⟨(he_le.2.2 hlast).1, fun hend => hc_le.2 ((he_le.2.2 hlast).2 hend)⟩
      day_le := he_le.2.1
      month_nonneg := by omega
      month_le := by omega
      month_start := hmonth.1
      month_end := hmonth.2 }

namespace Split

variable {a b c d e m : Int}

theorem day_le_length (h : Split a b c d e m) :
    e - (153 * m + 2) / 5 + 1 ≤ monthLength (100 * b + d - 4800 + m / 10) (m + 3 - 12 * (m / 10)) := by
  have hend := h.month_end
  have hday := h.day_le
  by_cases hfeb : m = 11
  · -- the last month of the shifted year
    subst hfeb
    have hmonth : (11 : Int) + 3 - 12 * (11 / 10) = 2 := rfl
    rw [hmonth, monthLength, if_pos rfl]
    split
    · omega
    · rename_i hleap
      have hlast : e ≠ 365 := by
        intro hlast
        have hyear := h.leap_day hlast
        have hpos := h.year_nonneg
        have hle := h.year_le
        refine hleap ?_
        unfold IsLeap
        omega
      omega
  · have hpos := h.month_nonneg
    have hle := h.month_le
    have hmonth : m = 0 ∨ m = 1 ∨ m = 2 ∨ m = 3 ∨ m = 4 ∨ m = 5 ∨ m = 6 ∨ m = 7 ∨ m = 8 ∨
        m = 9 ∨ m = 10 := by omega
    rcases hmonth with rfl | rfl | rfl | rfl | rfl | rfl | rfl | rfl | rfl | rfl | rfl <;>
      simp [monthLength] <;> omega

/-- The date of a split day. -/
def date (h : Split a b c d e m) : Date where
  year := 100 * b + d - 4800 + m / 10
  month := m + 3 - 12 * (m / 10)
  day := e - (153 * m + 2) / 5 + 1
  month_pos := by
    have hpos := h.month_nonneg
    have hle := h.month_le
    omega
  month_le := by
    have hpos := h.month_nonneg
    have hle := h.month_le
    omega
  day_pos := by
    have hstart := h.month_start
    omega
  day_le := h.day_le_length

theorem dayNumber_date (h : Split a b c d e m) : dayNumber h.date = a - 32044 := by
  have hcentury := h.century
  have hyear := h.year
  have hpos := h.year_nonneg
  have hle := h.year_le
  have hmarch : marchDays (100 * b + d) = 36524 * b + b / 4 + 365 * d + d / 4 := by
    simp only [marchDays]
    omega
  have hm := h.month_nonneg
  have hm' := h.month_le
  by_cases hnew : m < 10
  · have hquotient : m / 10 = 0 := by omega
    have hy : 100 * b + d - 4800 + 0 + 4800 = 100 * b + d := by omega
    have hmonth : m + 3 - 12 * 0 - 3 = m := by omega
    simp only [dayNumber, date, hquotient]
    rw [dateToNum_late (by omega) (by omega), hy, hmonth, hmarch]
    omega
  · have hquotient : m / 10 = 1 := by omega
    have hy : 100 * b + d - 4800 + 1 + 4799 = 100 * b + d := by omega
    have hmonth : m + 3 - 12 * 1 + 9 = m := by omega
    simp only [dayNumber, date, hquotient]
    rw [dateToNum_early (by omega) (by omega), hy, hmonth, hmarch]
    omega

end Split

theorem exists_numToDate (n : Int) :
    ∃ date : Date, numToDate n = (date.year, date.month, date.day) ∧ dayNumber date = n := by
  have hsplit := split_numToDate (a := n + 32044) rfl rfl rfl rfl rfl
  refine ⟨hsplit.date, by simp [numToDate, Split.date], ?_⟩
  rw [hsplit.dayNumber_date]
  omega

/-- `numToDate` and `dateToNum` are inverse to each other: every day number has a valid date whose
number it is, and every valid date is the date of its number. -/
theorem numToDate_dateToNum_inverse :
    (∀ n : Int, ∃ date : Date, numToDate n = (date.year, date.month, date.day) ∧
      dateToNum date.year date.month date.day = n) ∧
      ∀ date : Date, numToDate (dateToNum date.year date.month date.day) =
        (date.year, date.month, date.day) := by
  refine ⟨exists_numToDate, fun date => ?_⟩
  rcases exists_numToDate (dayNumber date) with ⟨date', hdate, hnumber⟩
  -- two dates with one day number are the same
  have hsame : date' = date := dayCount_dayNumber.injective hnumber
  rw [hsame] at hdate
  exact hdate

end DateTime
end LuajitTcpServer
