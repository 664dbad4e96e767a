import LuajitTcpServer.DateTime.Gregorian

/-!
# Addition — years, months and days added to a time

`ymdAdd` hands its sums to `dateToNum` as they are.  `dateToNum` depends on the year and the month
only through the number of the month since year 0, so it accepts a month of any number and carries
it into the year (`dateToNum_eq_firstOf`).
-/

namespace LuajitTcpServer
namespace DateTime

open Calendar Date

/-! ## The parts of a time -/

theorem modf_of_nonneg {num : ℚ} (h : 0 ≤ num) : modf num = ⌊num⌋ := if_pos h

theorem decim_of_nonneg {num : ℚ} (h : 0 ≤ num) : decim num = Int.fract num := by
  rw [decim, modf_of_nonneg h, Int.self_sub_floor]

theorem modf_add_decim (num : ℚ) : modf num + decim num = num := by
  rw [decim, add_sub_cancel]

/-- The time of day does not change the date. -/
@[simp] theorem numToDate_modf (num : ℚ) : numToDate (modf num) = numToDate num := by
  simp only [numToDate, modf_intCast]

theorem exists_date (num : ℚ) :
    ∃ date : Date, numToDate num = (date.year, date.month, date.day) ∧
      dayNumber date = modf num := by
  have hdate := exists_numToDate (modf num)
  rwa [numToDate_modf] at hdate

/-! ## Months of any number -/

theorem dateToNum_congr {year month year' month' : Int} (day : Int)
    (h : 12 * year + month = 12 * year' + month') :
    dateToNum year month day = dateToNum year' month' day := by
  -- the carry leaves a month from 0 to 11, counted from March
  have hmonth : month + 12 * ((14 - month) / 12) - 3 =
      month' + 12 * ((14 - month') / 12) - 3 := by omega
  have hyear : year + 4800 - (14 - month) / 12 = year' + 4800 - (14 - month') / 12 := by omega
  simp only [dateToNum, hmonth, hyear]

theorem dateToNum_eq_firstOf (year month day : Int) :
    dateToNum year month day = dayNumber (firstOf (12 * year + month - 1)) + (day - 1) := by
  have hindex : 12 * year + month =
      12 * (firstOf (12 * year + month - 1)).year + (firstOf (12 * year + month - 1)).month := by
    simp only [firstOf]
    omega
  calc dateToNum year month day
      = dateToNum (firstOf (12 * year + month - 1)).year
          (firstOf (12 * year + month - 1)).month day := dateToNum_congr day hindex
    _ = dayNumber (firstOf (12 * year + month - 1)) + (day - 1) := by
          simp only [dayNumber, dateToNum, firstOf]
          omega

/-! ## Sums -/

variable {num : ℚ} {date : Date}

theorem ymdAdd_eq (hdate : numToDate num = (date.year, date.month, date.day)) (y m d : Int) :
    ymdAdd num y m d =
      dayNumber (firstOf (date.monthIndex + 12 * y + m)) + (date.day - 1) + d + decim num := by
  have hindex : 12 * (date.year + y) + (date.month + m) - 1 = date.monthIndex + 12 * y + m := by
    unfold monthIndex
    omega
  have hnumber := dateToNum_eq_firstOf (date.year + y) (date.month + m) (date.day + d)
  rw [hindex] at hnumber
  simp only [ymdAdd, numToDate_modf, hdate, hnumber]
  push_cast
  ring

theorem daysAdd_eq (num : ℚ) (d : Int) : daysAdd num d = num + d := by
  rcases exists_date num with ⟨date, hdate, hnumber⟩
  have hday : dateToNum date.year date.month (date.day + d) = dayNumber date + d := by
    simp only [dayNumber, dateToNum]
    omega
  calc daysAdd num d
      = dateToNum date.year date.month (date.day + d) + decim num := by
          simp only [daysAdd, numToDate_modf, hdate]
    _ = modf num + decim num + d := by
          rw [hday, hnumber]
          push_cast
          ring
    _ = num + d := by rw [modf_add_decim]

/-- `ymdAdd` goes to the first of a month, years and months away, and from there on by days; the
time of day stays. -/
theorem ymdAdd_normalises (num : ℚ) (h : 0 ≤ num) :
    ∃ date : Date, numToDate num = (date.year, date.month, date.day) ∧
      (∀ y m d : Int, ymdAdd num y m d =
        dayNumber (firstOf (date.monthIndex + 12 * y + m)) + (date.day - 1) + d + Int.fract num) ∧
      (∀ k : Int, ymdAdd num 0 (12 * k) 0 = ymdAdd num k 0 0) ∧
      ∀ d : Int, daysAdd num d = num + d := by
  rcases exists_date num with ⟨date, hdate, -⟩
  refine ⟨date, hdate, fun y m d => ?_, fun k => ?_, daysAdd_eq num⟩
  · rw [ymdAdd_eq hdate, decim_of_nonneg h]
  · have hindex : date.monthIndex + 12 * 0 + 12 * k = date.monthIndex + 12 * k + 0 := by omega
    rw [ymdAdd_eq hdate, ymdAdd_eq hdate, hindex]

/-- Noon of 31 January 2000. -/
theorem ymdAdd_normalises_noon :
    ∃ date : Date, numToDate (2451575 + 1 / 2) = (date.year, date.month, date.day) ∧
      (∀ y m d : Int, ymdAdd (2451575 + 1 / 2) y m d =
        dayNumber (firstOf (date.monthIndex + 12 * y + m)) + (date.day - 1) + d +
          Int.fract (2451575 + 1 / 2 : ℚ)) ∧
      (∀ k : Int, ymdAdd (2451575 + 1 / 2) 0 (12 * k) 0 = ymdAdd (2451575 + 1 / 2) k 0 0) ∧
      ∀ d : Int, daysAdd (2451575 + 1 / 2) d = 2451575 + 1 / 2 + d :=
  ymdAdd_normalises (2451575 + 1 / 2) (by norm_num)

end DateTime
end LuajitTcpServer
