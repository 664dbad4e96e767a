import LuajitTcpServer.DateTime.Gregorian
import LuajitTcpServer.Lib.Weeks

/-!
# Week — `numToWeek` is the ISO 8601 week

Day numbers are ordinals up to a constant (`dayNumber_eq_ordinal`).  `numToWeek` first goes to a day
of the week that stands for its Thursday, counted from 1 January of a year that begins a cycle of
400 years.  Three remainders then lead to the day of the cycle, of the century and of the four
years; they are wrong for the last day of a cycle only, which is never a Thursday.
-/

namespace LuajitTcpServer
namespace DateTime

open Calendar

/-! ## Whole numbers -/

theorem floor_intCast_add_div (n : Int) {f : ℚ} (hpos : 0 ≤ f) (hlt : f < 1) :
    ⌊(n + f) / 7⌋ = n / 7 := by
  have hfloor : ⌊(n : ℚ) + f⌋ = n := by
    rw [Int.floor_eq_iff]
    constructor <;> linarith
  have hdiv := Int.floor_div_natCast ((n : ℚ) + f) 7
  rw [hfloor] at hdiv
  exact hdiv

/-- On whole numbers, with the time of day left out, `numToWeek` is integer arithmetic. -/
theorem numToWeek_add (n : Int) {f : ℚ} (hpos : 0 ≤ f) (hlt : f < 1) :
    numToWeek (n + f) =
      let d4 := (n - n % 7 + 31741) % 146097 % 36524 % 1461
      ((d4 - d4 / 1460) % 365 + d4 / 1460) / 7 + 1 := by
  have hweek : (n : ℚ) + f + 31741 - luaMod (n + f) 7 = (n - n % 7 + 31741 : Int) := by
    rw [luaMod, floor_intCast_add_div n hpos hlt]
    have hmod : (n % 7 : Int) = n - n / 7 * 7 := by omega
    rw [hmod]
    push_cast
    ring
  simp only [numToWeek, hweek, luaMod_intCast, floor_intCast_div_ofNat, ← Int.cast_sub,
    ← Int.cast_add]

/-! ## The day of the year -/

/-- 1 January of year 1 has the ordinal 1. -/
theorem dayNumber_eq_ordinal (date : Date) : dayNumber date = date.ordinal + 1721425 := by
  let epoch : Date :=
    { year := 1
      month := 1
      day := 1
      month_pos := by decide
      month_le := by decide
      day_pos := by decide
      day_le := by decide }
  have hdiff := dayCount_dayNumber.sub_eq_sub dayCount_ordinal epoch date
  have hnumber : dayNumber epoch = 1721426 := rfl
  have hordinal : epoch.ordinal = 1 := rfl
  omega

/-- The remainders lead from a Thursday to its day of the year. -/
theorem dayOfYear_of_cycle {years day : Int} (hpos : 0 ≤ day) (hlt : day < yearLength (years + 1))
    (hthursday : (yearStart years + day) % 7 = 3) :
    let d4 := (yearStart years + day) % 146097 % 36524 % 1461
    (d4 - d4 / 1460) % 365 + d4 / 1460 = day := by
  -- the cycle, the century of it, the four years of that, and the year of those
  have hcycle : ∃ q c k j : Int, years = 400 * q + 100 * c + 4 * k + j ∧ 0 ≤ c ∧ c ≤ 3 ∧ 0 ≤ k ∧
      k ≤ 24 ∧ 0 ≤ j ∧ j ≤ 3 :=
    ⟨years / 400, years % 400 / 100, years % 100 / 4, years % 4, by omega, by omega, by omega,
      by omega, by omega, by omega, by omega⟩
  rcases hcycle with ⟨q, c, k, j, hyears, hc, hc', hk, hk', hj, hj'⟩
  have hstart : yearStart years = 146097 * q + 36524 * c + 1461 * k + 365 * j := by
    simp only [yearStart]
    omega
  have hleap : IsLeap (years + 1) → j = 3 ∧ (k = 24 → c = 3) := by
    rintro ⟨hfour, hcentury⟩
    have hj3 : j = 3 := by omega
    refine ⟨hj3, fun hk24 => ?_⟩
    have hend : years + 1 = 400 * q + 100 * (c + 1) := by omega
    have hdvd : 100 ∣ years + 1 := by omega
    have hdvd' : 400 ∣ years + 1 := hcentury.resolve_left (not_not.2 hdvd)
    omega
  have hday : day ≤ 365 ∧ (day = 365 → j = 3 ∧ (k = 24 → c = 3)) := by
    unfold yearLength at hlt
    split at hlt
    · rename_i hlong
      exact ⟨by omega, fun _ => hleap hlong⟩
    · exact ⟨by omega, fun heq => by omega⟩
  rw [hstart] at hthursday ⊢
  clear hlt hleap hyears hstart
  -- 31 December of the last year of a cycle is no Thursday
  have hlast : ¬ (c = 3 ∧ k = 24 ∧ j = 3 ∧ day = 365) := by omega
  have hrest : (146097 * q + 36524 * c + 1461 * k + 365 * j + day) % 146097 =
      36524 * c + 1461 * k + 365 * j + day := by omega
  have hcentury : (36524 * c + 1461 * k + 365 * j + day) % 36524 = 1461 * k + 365 * j + day := by
    omega
  have hfour : (1461 * k + 365 * j + day) % 1461 = 365 * j + day := by omega
  rw [hrest, hcentury, hfour]
  show (365 * j + day - (365 * j + day) / 1460) % 365 + (365 * j + day) / 1460 = day
  omega

/-- The week of a day number is that of the Thursday of its week. -/
theorem numToWeek_eq_dayOfYear {date thursday : Date} {f : ℚ} (hpos : 0 ≤ f) (hlt : f < 1)
    (hthursday : thursday.ordinal = date.ordinal - date.weekday + 4) :
    numToWeek (dayNumber date + f) = (thursday.dayOfYear - 1) / 7 + 1 := by
  have hday := thursday.dayOfYear_pos
  have hday' := thursday.dayOfYear_le
  -- twelve cycles lead to a positive year
  have hstart := yearStart_add_cycles (thursday.year - 1) 12
  have hlength := yearLength_add_cycles thursday.year 12
  have hordinal : thursday.ordinal = yearStart (thursday.year - 1) + thursday.dayOfYear := rfl
  have hyear : thursday.year - 1 + 400 * 12 + 1 = thursday.year + 400 * 12 := by omega
  have hz : dayNumber date - dayNumber date % 7 + 31741 =
      yearStart (thursday.year - 1 + 400 * 12) + (thursday.dayOfYear - 1) := by
    rw [dayNumber_eq_ordinal]
    unfold Date.weekday at hthursday
    omega
  have hcycle := @dayOfYear_of_cycle (thursday.year - 1 + 400 * 12) (thursday.dayOfYear - 1)
    (by omega) (by rw [hyear]; omega) (by omega)
  rw [numToWeek_add _ hpos hlt, hz]
  simp only [hcycle]

/-- `numToWeek` is the number of the ISO 8601 week of a day, at any time of the day. -/
theorem numToWeek_isoWeek (n : Int) (f : ℚ) (hpos : 0 ≤ f) (hlt : f < 1) :
    ∃ date : Date, numToDate n = (date.year, date.month, date.day) ∧
      ∀ week, IsoWeek date week ↔ week = numToWeek (n + f) := by
  rcases exists_numToDate n with ⟨date, hdate, hnumber⟩
  refine ⟨date, hdate, fun week => ?_⟩
  rcases dayCount_ordinal.surjective (date.ordinal - date.weekday + 4) with ⟨thursday, hthursday⟩
  have hweek := numToWeek_eq_dayOfYear hpos hlt hthursday
  rw [hnumber] at hweek
  rw [isoWeek_iff, hweek]
  constructor
  · rintro ⟨thursday', hthursday', hweek'⟩
    have hsame : thursday' = thursday :=
      dayCount_ordinal.injective (hthursday'.trans hthursday.symm)
    rw [hweek', hsame]
  · intro hweek'
    exact ⟨thursday, hthursday, hweek'⟩

/-- Noon of 1 January 2000. -/
theorem numToWeek_isoWeek_noon :
    ∃ date : Date, numToDate (2451545 : Int) = (date.year, date.month, date.day) ∧
      ∀ week, IsoWeek date week ↔ week = numToWeek ((2451545 : Int) + 1 / 2) :=
  numToWeek_isoWeek 2451545 (1 / 2) (by norm_num) (by norm_num)

end DateTime
end LuajitTcpServer
