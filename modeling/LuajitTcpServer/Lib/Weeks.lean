import LuajitTcpServer.Lib.Calendar

/-!
# Weeks — days of the year, days of the week, and ISO 8601 weeks

`ordinal` counts the days from 1 January of year 1, which was a Monday.  `IsoWeek` is the rule of
ISO 8601 in terms of dates alone: weeks start on Monday, and week 1 of a year contains the year's
first Thursday.  A week belongs to the year of its Thursday, and its number is that of the Thursday
among the Thursdays of its year (`isoWeek_iff`).
-/

namespace Calendar

/-! ## Days of the year -/

/-- The days of a year before the first of a month. -/
def monthStart (year month : Int) : Int :=
  ((List.range (month - 1).toNat).map fun k : Nat => monthLength year (k + 1)).sum

theorem monthStart_succ (year : Int) {month : Int} (hpos : 1 ≤ month) :
    monthStart year (month + 1) = monthStart year month + monthLength year month := by
  have hnat : (month + 1 - 1).toNat = (month - 1).toNat + 1 := by omega
  have hmonth : ((month - 1).toNat : Int) + 1 = month := by omega
  simp only [monthStart, hnat, List.range_succ, List.map_append, List.map_cons, List.map_nil,
    List.sum_append, List.sum_cons, List.sum_nil, hmonth]
  omega

def yearLength (year : Int) : Int := if IsLeap year then 366 else 365

theorem monthStart_end (year : Int) : monthStart year 12 + 31 = yearLength year := by
  by_cases hleap : IsLeap year <;>
    simp [monthStart, yearLength, monthLength, List.range_succ, hleap]

theorem monthStart_mono (year : Int) {month month' : Int} (hpos : 1 ≤ month) (hle : month ≤ month') :
    monthStart year month ≤ monthStart year month' := by
  induction month', hle using Int.leInduction with
  | base =>
      exact Int.le_refl _
  | succ month' hle ih =>
      have hlength := monthLength_pos year month'
      rw [monthStart_succ year (Int.le_trans hpos hle)]
      omega

/-- The days before 1 January of year `years + 1`, counted from that of year 1. -/
def yearStart (years : Int) : Int := 365 * years + years / 4 - years / 100 + years / 400

theorem yearStart_succ (years : Int) :
    yearStart (years + 1) = yearStart years + yearLength (years + 1) := by
  -- each of the three quotients grows in the years that its divisor divides
  have hfour : (years + 1) / 4 = years / 4 + if 4 ∣ years + 1 then 1 else 0 := by
    split <;> omega
  have hcentury : (years + 1) / 100 = years / 100 + if 100 ∣ years + 1 then 1 else 0 := by
    split <;> omega
  have hcycle : (years + 1) / 400 = years / 400 + if 400 ∣ years + 1 then 1 else 0 := by
    split <;> omega
  have hlength : yearLength (years + 1) = 365 + (if 4 ∣ years + 1 then 1 else 0) -
      (if 100 ∣ years + 1 then 1 else 0) + (if 400 ∣ years + 1 then 1 else 0) := by
    simp only [yearLength, IsLeap]
    split_ifs <;> omega
  simp only [yearStart, hfour, hcentury, hcycle, hlength]
  omega

namespace Date

/-- The number of a day in its year. -/
def dayOfYear (date : Date) : Int := monthStart date.year date.month + date.day

theorem dayOfYear_pos (date : Date) : 1 ≤ date.dayOfYear := by
  have hday := date.day_pos
  have hstart : monthStart date.year 1 = 0 := rfl
  have hmono := @monthStart_mono date.year 1 date.month (Int.le_refl 1) date.month_pos
  unfold dayOfYear
  omega

theorem dayOfYear_le (date : Date) : date.dayOfYear ≤ yearLength date.year := by
  have hday := date.day_le
  have hend := monthStart_end date.year
  by_cases hdec : date.month = 12
  · have hlength : monthLength date.year 12 = 31 := rfl
    rw [hdec, hlength] at hday
    unfold dayOfYear
    rw [hdec]
    omega
  · have hle := date.month_le
    have hsucc := monthStart_succ date.year date.month_pos
    have hmono := @monthStart_mono date.year (date.month + 1) 12 (Int.le_add_one date.month_pos)
      (by omega)
    unfold dayOfYear
    omega

/-- The days from 1 January of year 1, which is day 1. -/
def ordinal (date : Date) : Int := yearStart (date.year - 1) + date.dayOfYear

end Date

open Date

theorem dayCount_ordinal : DayCount ordinal := by
  intro date
  have hpos := date.month_pos
  have hle := date.month_le
  have hday := date.day_le
  -- the three ways in which a date has a next one
  by_cases hlast : date.day < monthLength date.year date.month
  · simp only [ordinal, dayOfYear, next, dif_pos hlast]
    omega
  · have hlength : date.day = monthLength date.year date.month := by omega
    by_cases hmonth : date.month < 12
    · have hsucc := monthStart_succ date.year hpos
      simp only [ordinal, dayOfYear, next, dif_neg hlast, dif_pos hmonth]
      omega
    · have hdec : date.month = 12 := by omega
      have hend : date.day = 31 := by
        rw [hlength, hdec]
        rfl
      have hnext : date.next.year = date.year + 1 ∧ date.next.month = 1 ∧ date.next.day = 1 := by
        simp [Date.next, hlast, hmonth]
      have hstart : monthStart (date.year + 1) 1 = 0 := rfl
      have hyear := yearStart_succ (date.year - 1)
      have hcancel : date.year - 1 + 1 = date.year := by omega
      rw [hcancel] at hyear
      have hdays := monthStart_end date.year
      simp only [ordinal, dayOfYear, hnext, hdec, hend, hstart, Int.add_sub_cancel, hyear]
      omega

theorem yearStart_add_cycles (years cycles : Int) :
    yearStart (years + 400 * cycles) = yearStart years + 146097 * cycles := by
  unfold yearStart
  omega

theorem yearLength_add_cycles (year cycles : Int) :
    yearLength (year + 400 * cycles) = yearLength year := by
  have hleap : IsLeap (year + 400 * cycles) ↔ IsLeap year := by
    unfold IsLeap
    omega
  simp only [yearLength, hleap]

theorem yearStart_mono {a b : Int} (h : a ≤ b) : yearStart a ≤ yearStart b := by
  unfold yearStart
  omega

theorem ordinal_bounds (date : Date) :
    yearStart (date.year - 1) < date.ordinal ∧ date.ordinal ≤ yearStart date.year := by
  have hpos := date.dayOfYear_pos
  have hle := date.dayOfYear_le
  have hyear := yearStart_succ (date.year - 1)
  rw [Int.sub_add_cancel] at hyear
  unfold ordinal
  omega

theorem year_eq_of_ordinal {date : Date} {year : Int} (hstart : yearStart (year - 1) < date.ordinal)
    (hend : date.ordinal ≤ yearStart year) : date.year = year := by
  rcases ordinal_bounds date with ⟨hlt, hle⟩
  rcases lt_trichotomy date.year year with hbefore | heq | hafter
  · have hmono := @yearStart_mono date.year (year - 1) (by omega)
    omega
  · exact heq
  · have hmono := @yearStart_mono year (date.year - 1) (by omega)
    omega

/-! ## Weeks -/

namespace Date

/-- Monday is 1 and Sunday is 7; 1 January of year 1 was a Monday. -/
def weekday (date : Date) : Int := (date.ordinal - 1) % 7 + 1

end Date

structure FirstThursday (year : Int) (date : Date) : Prop where
  in_year : date.year = year
  thursday : date.weekday = 4
  first : ∀ other : Date, other.year = year → other.weekday = 4 → ¬ other.Before date

/-- The Monday that begins the week with the year's first Thursday. -/
structure WeekOneStart (year : Int) (date : Date) : Prop where
  monday : date.weekday = 1
  contains : ∃ (thursday : Date) (days : Int), FirstThursday year thursday ∧
    0 ≤ days ∧ days < 7 ∧ date.DaysTo thursday days

/-- The weeks of a year are counted from its week 1 until week 1 of the next year. -/
def IsoWeek (date : Date) (week : Int) : Prop :=
  ∃ (year : Int) (start next : Date) (days : Int), WeekOneStart year start ∧
    WeekOneStart (year + 1) next ∧ 0 ≤ days ∧ start.DaysTo date days ∧ date.Before next ∧
    week = days / 7 + 1

theorem firstThursday_iff {year : Int} {date : Date} :
    FirstThursday year date ↔
      date.ordinal = yearStart (year - 1) + 1 + (3 - yearStart (year - 1)) % 7 := by
  have hyear := yearStart_succ (year - 1)
  have hlength : 365 ≤ yearLength (year - 1 + 1) := by
    unfold yearLength
    split <;> decide
  rw [Int.sub_add_cancel] at hyear hlength
  constructor
  · intro h
    have hthursday := h.thursday
    rcases ordinal_bounds date with ⟨hlt, hle⟩
    rw [h.in_year] at hlt hle
    -- a Thursday in the second week of the year has one before it
    rcases dayCount_ordinal.surjective (date.ordinal - 7) with ⟨other, hother⟩
    by_cases hweek : yearStart (year - 1) < other.ordinal
    · have hbefore : other.Before date := dayCount_ordinal.before_iff_lt.2 (by omega)
      have hsame : other.weekday = 4 := by
        unfold weekday at hthursday ⊢
        omega
      exact absurd hbefore (h.first other (year_eq_of_ordinal hweek (by omega)) hsame)
    · unfold weekday at hthursday
      omega
  · intro h
    refine ⟨year_eq_of_ordinal (by omega) (by omega), by unfold weekday; omega, ?_⟩
    intro other hother hthursday hbefore
    have hlt := dayCount_ordinal.before_iff_lt.1 hbefore
    rcases ordinal_bounds other with ⟨hstart, -⟩
    rw [hother] at hstart
    unfold weekday at hthursday
    omega

theorem weekOneStart_iff {year : Int} {date : Date} :
    WeekOneStart year date ↔
      date.ordinal = yearStart (year - 1) - 2 + (3 - yearStart (year - 1)) % 7 := by
  constructor
  · rintro ⟨hmonday, thursday, days, hfirst, hnonneg, hlt, hdays⟩
    have hcount := dayCount_ordinal.sub_eq_iff.2 hdays
    rw [firstThursday_iff] at hfirst
    unfold weekday at hmonday
    omega
  · intro h
    refine ⟨by unfold weekday; omega, ?_⟩
    rcases dayCount_ordinal.surjective (date.ordinal + 3) with ⟨thursday, hthursday⟩
    exact ⟨thursday, 3, firstThursday_iff.2 (by omega), by decide, by decide,
      dayCount_ordinal.sub_eq_iff.1 (by omega)⟩

/-- A week has the number of its Thursday among the Thursdays of their year. -/
theorem isoWeek_iff {date : Date} {week : Int} :
    IsoWeek date week ↔ ∃ thursday : Date,
      thursday.ordinal = date.ordinal - date.weekday + 4 ∧
        week = (thursday.dayOfYear - 1) / 7 + 1 := by
  constructor
  · rintro ⟨year, start, next, days, hstart, hnext, hnonneg, hdays, hbefore, hweek⟩
    have hcount := dayCount_ordinal.sub_eq_iff.2 hdays
    have hlt := dayCount_ordinal.before_iff_lt.1 hbefore
    rw [weekOneStart_iff] at hstart hnext
    rw [Int.add_sub_cancel] at hnext
    rcases dayCount_ordinal.surjective (date.ordinal - date.weekday + 4) with ⟨thursday, hthursday⟩
    refine ⟨thursday, hthursday, ?_⟩
    -- the Thursday lies in the year whose weeks are counted
    unfold weekday at hthursday
    have hyear : thursday.year = year := year_eq_of_ordinal (by omega) (by omega)
    have hordinal : thursday.ordinal = yearStart (year - 1) + thursday.dayOfYear := by
      rw [← hyear]
      rfl
    omega
  · rintro ⟨thursday, hthursday, hweek⟩
    rcases ordinal_bounds thursday with ⟨hlt, hle⟩
    have hordinal : thursday.ordinal = yearStart (thursday.year - 1) + thursday.dayOfYear := rfl
    rcases dayCount_ordinal.surjective (yearStart (thursday.year - 1) - 2 +
      (3 - yearStart (thursday.year - 1)) % 7) with ⟨start, hstart⟩
    rcases dayCount_ordinal.surjective (yearStart thursday.year - 2 +
      (3 - yearStart thursday.year) % 7) with ⟨next, hnext⟩
    unfold weekday at hthursday
    refine ⟨thursday.year, start, next, date.ordinal - start.ordinal, weekOneStart_iff.2 hstart,
      weekOneStart_iff.2 ?_, by omega, dayCount_ordinal.sub_eq_iff.1 rfl,
      dayCount_ordinal.before_iff_lt.2 (by omega), by omega⟩
    rw [Int.add_sub_cancel]
    exact hnext

end Calendar
