import LuajitTcpServer.DateTime.Addition

/-!
# TimeOfDay — hours, minutes and seconds

`toTime` takes three floors of one fraction.  The floor for hours and the one for minutes are
quotients of the floor for seconds, so the subtractions leave the remainders of a division by
3600 and by 60.

`secondsBetween` hands day numbers to `C.difftime`, which takes seconds and subtracts its second
argument: it is `dayDifference` with the sign changed (`secondsBetween_eq`).
-/

namespace LuajitTcpServer
namespace DateTime

/-! ## Whole seconds -/

/-- The whole seconds of a time since midnight. -/
def wholeSeconds (num : ℚ) : Int := ⌊decim num * 86400⌋

theorem floor_hours (num : ℚ) : ⌊decim num * 24⌋ = wholeSeconds num / 3600 := by
  have hdiv := Int.floor_div_natCast (decim num * 86400) 3600
  have hunit : decim num * 86400 / (3600 : ℕ) = decim num * 24 := by
    push_cast
    ring
  rwa [hunit] at hdiv

theorem floor_minutes (num : ℚ) : ⌊decim num * 1440⌋ = wholeSeconds num / 60 := by
  have hdiv := Int.floor_div_natCast (decim num * 86400) 60
  have hunit : decim num * 86400 / (60 : ℕ) = decim num * 1440 := by
    push_cast
    ring
  rwa [hunit] at hdiv

theorem toTime_eq (num : ℚ) :
    toTime num = (wholeSeconds num / 3600, wholeSeconds num / 60 % 60, wholeSeconds num % 60) := by
  have hminutes : wholeSeconds num / 60 - wholeSeconds num / 3600 * 60 =
      wholeSeconds num / 60 % 60 := by omega
  have hseconds : wholeSeconds num - wholeSeconds num / 3600 * 3600 -
      wholeSeconds num / 60 % 60 * 60 = wholeSeconds num % 60 := by omega
  simp only [toTime, floor_hours, floor_minutes, hminutes]
  rw [← hseconds]
  rfl

theorem wholeSeconds_range {num : ℚ} (h : 0 ≤ num) :
    0 ≤ wholeSeconds num ∧ wholeSeconds num < 86400 := by
  have hpos := Int.fract_nonneg num
  have hlt := Int.fract_lt_one num
  rw [wholeSeconds, decim_of_nonneg h]
  constructor
  · exact Int.floor_nonneg.2 (by linarith)
  · exact Int.floor_lt.2 (by push_cast; linarith)

/-! ## Valid times -/

structure ValidTime (hours minutes seconds : Int) : Prop where
  hours_nonneg : 0 ≤ hours
  hours_lt : hours < 24
  minutes_nonneg : 0 ≤ minutes
  minutes_lt : minutes < 60
  seconds_nonneg : 0 ≤ seconds
  seconds_lt : seconds < 60

theorem toTime_spec {num : ℚ} (h : 0 ≤ num) :
    ∃ hours minutes seconds : Int, toTime num = (hours, minutes, seconds) ∧
      ValidTime hours minutes seconds ∧
      hours * 3600 + minutes * 60 + seconds = wholeSeconds num := by
  rcases wholeSeconds_range h with ⟨hpos, hlt⟩
  refine ⟨_, _, _, toTime_eq num, ?_, by omega⟩
  constructor <;> omega

theorem timeToNum_eq (hours minutes seconds : Int) :
    timeToNum hours minutes seconds =
      (hours * 3600 + minutes * 60 + seconds : Int) / 86400 := by
  unfold timeToNum
  push_cast
  ring

section Valid

variable {hours minutes seconds : Int}

theorem timeToNum_range (h : ValidTime hours minutes seconds) :
    0 ≤ timeToNum hours minutes seconds ∧ timeToNum hours minutes seconds < 1 := by
  rcases h with ⟨hhours, hhours', hminutes, hminutes', hseconds, hseconds'⟩
  rw [timeToNum_eq, div_lt_one (by norm_num)]
  constructor
  · exact div_nonneg (Int.cast_nonneg (by omega)) (by norm_num)
  · exact_mod_cast (by omega : hours * 3600 + minutes * 60 + seconds < 86400)

/-- A valid time leaves the day as it is. -/
theorem modf_add_timeToNum {n : Int} (hn : 0 ≤ n) (h : ValidTime hours minutes seconds) :
    modf (n + timeToNum hours minutes seconds) = n := by
  rcases timeToNum_range h with ⟨hpos, hlt⟩
  have hday : (0 : ℚ) ≤ n := by exact_mod_cast hn
  rw [modf_of_nonneg (by linarith), Int.floor_eq_iff]
  constructor <;> linarith

theorem wholeSeconds_add_timeToNum {n : Int} (hn : 0 ≤ n) (h : ValidTime hours minutes seconds) :
    wholeSeconds (n + timeToNum hours minutes seconds) =
      hours * 3600 + minutes * 60 + seconds := by
  rw [wholeSeconds, decim, modf_add_timeToNum hn h, add_sub_cancel_left, timeToNum_eq,
    div_mul_cancel₀ _ (by norm_num), Int.floor_intCast]

end Valid

/-- `toTime` gives the time of day in whole seconds, and undoes `timeToNum` on every day. -/
theorem toTime_timeToNum :
    (∀ num : ℚ, 0 ≤ num → ∃ hours minutes seconds : Int, toTime num = (hours, minutes, seconds) ∧
      (0 ≤ hours ∧ hours < 24) ∧ (0 ≤ minutes ∧ minutes < 60) ∧ (0 ≤ seconds ∧ seconds < 60) ∧
      hours * 3600 + minutes * 60 + seconds = ⌊86400 * Int.fract num⌋) ∧
    ∀ n hours minutes seconds : Int, 0 ≤ n → ValidTime hours minutes seconds →
      toTime (n + timeToNum hours minutes seconds) = (hours, minutes, seconds) ∧
        numToDate (n + timeToNum hours minutes seconds) = numToDate n := by
  constructor
  · intro num h
    rcases toTime_spec h with ⟨hours, minutes, seconds, htime, hvalid, hsum⟩
    refine ⟨hours, minutes, seconds, htime, ⟨hvalid.hours_nonneg, hvalid.hours_lt⟩,
      ⟨hvalid.minutes_nonneg, hvalid.minutes_lt⟩, ⟨hvalid.seconds_nonneg, hvalid.seconds_lt⟩, ?_⟩
    rw [hsum, wholeSeconds, decim_of_nonneg h, mul_comm]
  · intro n hours minutes seconds hn hvalid
    have hseconds := wholeSeconds_add_timeToNum hn hvalid
    rcases hvalid with ⟨hhours, hhours', hminutes, hminutes', hpos, hlt⟩
    constructor
    · rw [toTime_eq, hseconds]
      simp only [Prod.mk.injEq]
      omega
    · rw [← numToDate_modf, modf_add_timeToNum hn ⟨hhours, hhours', hminutes, hminutes', hpos, hlt⟩]

/-- One second before midnight, at the end of 1 January 2000. -/
theorem toTime_timeToNum_last :
    (∃ hours minutes seconds : Int, toTime (2451545 + 86399 / 86400) = (hours, minutes, seconds) ∧
      (0 ≤ hours ∧ hours < 24) ∧ (0 ≤ minutes ∧ minutes < 60) ∧ (0 ≤ seconds ∧ seconds < 60) ∧
      hours * 3600 + minutes * 60 + seconds =
        ⌊86400 * Int.fract (2451545 + 86399 / 86400 : ℚ)⌋) ∧
    toTime ((2451545 : Int) + timeToNum (23 : Int) (59 : Int) (59 : Int)) = (23, 59, 59) ∧
      numToDate ((2451545 : Int) + timeToNum (23 : Int) (59 : Int) (59 : Int)) =
        numToDate (2451545 : Int) :=
  ⟨toTime_timeToNum.1 _ (by norm_num),
    toTime_timeToNum.2 2451545 23 59 59 (by decide) (by constructor <;> decide)⟩

/-! ## Seconds between two times -/

theorem secondsBetween_eq (timeStart timeEnd : ℚ) :
    secondsBetween timeStart timeEnd = -dayDifference timeStart timeEnd := by
  rw [secondsBetween, difftime, dayDifference, neg_sub]

theorem modf_mono {a b : ℚ} (h : a ≤ b) : modf a ≤ modf b := by
  unfold modf
  by_cases ha : 0 ≤ a
  · rw [if_pos ha, if_pos (ha.trans h)]
    exact Int.floor_mono h
  · rw [if_neg ha]
    by_cases hb : 0 ≤ b
    · rw [if_pos hb]
      have hceil : ⌈a⌉ ≤ 0 := Int.ceil_le.2 (by push_cast; linarith)
      exact hceil.trans (Int.floor_nonneg.2 hb)
    · rw [if_neg hb]
      exact Int.ceil_mono h

/-- `secondsBetween` gives back the seconds that `secondsAdd` has added, with the sign that
`dayDifference` has. -/
structure SecondsInverted (time : ℚ) (seconds : Int) : Prop where
  inverse : secondsBetween time (secondsAdd time seconds) = seconds
  later : 0 < dayDifference time (secondsAdd time seconds) →
    0 < secondsBetween time (secondsAdd time seconds)
  earlier : dayDifference time (secondsAdd time seconds) < 0 →
    secondsBetween time (secondsAdd time seconds) < 0

/-- It does so for no seconds but 0. -/
theorem secondsBetween_secondsAdd_iff (time : ℚ) (seconds : Int) :
    SecondsInverted time seconds ↔ seconds = 0 := by
  constructor
  · intro h
    have hinverse := h.inverse
    rw [secondsBetween, difftime, secondsAdd] at hinverse
    -- whatever is added, the result has the other sign
    rcases lt_trichotomy seconds 0 with hneg | hzero | hpos
    · have hle : time + (seconds : ℚ) / 86400 ≤ time := by
        have hcast : (seconds : ℚ) < 0 := by exact_mod_cast hneg
        linarith
      have hmono := modf_mono hle
      omega
    · exact hzero
    · have hle : time ≤ time + (seconds : ℚ) / 86400 := by
        have hcast : (0 : ℚ) < seconds := by exact_mod_cast hpos
        linarith
      have hmono := modf_mono hle
      omega
  · rintro rfl
    have hsame : secondsAdd time (0 : Int) = time := by simp [secondsAdd]
    have hzero : dayDifference time time = 0 := sub_self _
    refine ⟨?_, ?_, ?_⟩
    · rw [hsame, secondsBetween_eq, hzero]
      rfl
    · rw [hsame, hzero]
      exact fun hlt => absurd hlt (lt_irrefl 0)
    · rw [hsame, hzero]
      exact fun hlt => absurd hlt (lt_irrefl 0)

/-- A day after the start of the year 2000: the difference is -1. -/
theorem seconds_of_day_lost :
    ¬ ∀ (time : ℚ) (seconds : Int), 0 ≤ time → SecondsInverted time seconds := by
  intro h
  have hinverse := (h 2451545 86400 (by norm_num)).inverse
  have hdiff : secondsBetween 2451545 (secondsAdd 2451545 (86400 : Int)) = -1 := by
    decide +kernel
  rw [hdiff] at hinverse
  exact absurd hinverse (by decide)

end DateTime
end LuajitTcpServer
