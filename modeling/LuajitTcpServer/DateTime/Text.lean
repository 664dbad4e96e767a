import LuajitTcpServer.DateTime.TimeOfDay
import LuajitTcpServer.Lib.Numerals

/-!
# Text — dates and times as text

`toDateString` writes the month and the day with two digits, and the year with as many as it has.
`dateParse` cuts the fields out of fixed columns, so it needs a year of four digits
(`dateParse_toDateString`).  An end date at midnight shall name the day before; the subtraction is
made on the day of the month, which is right unless that is the first (`toDateString_endDate`).
-/

namespace LuajitTcpServer
namespace DateTime

open Calendar Lua

/-! ## Writing -/

/-- A month, a day or a unit of time: `if month < 10 then month = "0"..month end`. -/
def twoDigits (value : Int) : List Char :=
  if value < 10 then '0' :: tostring value else tostring value

/-- `year.."-"..month.."-"..day` -/
def dateText (year month day : Int) : List Char :=
  tostring year ++ '-' :: (twoDigits month ++ '-' :: twoDigits day)

def toDateString (num : ℚ) (isEndDate : Bool) : List Char :=
  let (year, month, day) := numToDate num
  let day := if isEndDate ∧ decim num = 0 then day - 1 else day
  dateText year month day

def toTimeString (num : ℚ) (isEndDate : Bool) : List Char :=
  if isEndDate ∧ decim num = 0 then "24:00:00".toList
  else
    let (hours, minutes, seconds) := toTime num
    twoDigits hours ++ ':' :: (twoDigits minutes ++ ':' :: twoDigits seconds)

def toString (num : ℚ) (isEndDate : Bool) : List Char :=
  toDateString num isEndDate ++ ' ' :: toTimeString num isEndDate

/-! ## Reading -/

/-- An error of the interpreter. -/
inductive LuaError
  /-- `attempt to perform arithmetic on local 'name' (a nil value)` -/
  | arithmeticOnNil (name : String)
  deriving DecidableEq, Repr

/-- `txt:sub(i, j)` for positive positions. -/
def sub (txt : List Char) (i j : Nat) : List Char := (txt.take j).drop (i - 1)

/-- `dateToNum` on the numbers that `tonumber` gives, which need not be whole. -/
def dateToNumRat (year month day : ℚ) : ℚ :=
  let a := ⌊(14 - month) / 12⌋
  let y := year + 4800 - a
  let m := month + 12 * a - 3
  day + ⌊(153 * m + 2) / 5⌋ + 365 * y + ⌊y / 4⌋ - ⌊y / 100⌋ + ⌊y / 400⌋ - 32045

/-- The fields are used in the order in which `dateToNum` calculates with them. -/
def dateParse (txtDate : List Char) : Except LuaError ℚ :=
  let year := tonumber (sub txtDate 1 4)
  let month := tonumber (sub txtDate 6 7)
  let day := tonumber (sub txtDate 9 10)
  if year = some 0 ∧ month = some 0 ∧ day = some 0 then .ok 0
  else
    match month, year, day with
    | none, _, _ => .error (.arithmeticOnNil "month")
    | _, none, _ => .error (.arithmeticOnNil "year")
    | _, _, none => .error (.arithmeticOnNil "day")
    | some month, some year, some day => .ok (dateToNumRat year month day)

example : toString (2451545 + 1 / 2) false = "2000-01-01 12:00:00".toList := by decide +kernel

/-! ## Two digits -/

section TwoDigits

variable {value : Int}

theorem twoDigits_eq (hpos : 0 ≤ value) (hlt : value < 100) :
    twoDigits value =
      [Nat.digitChar (value.toNat / 10), Nat.digitChar (value.toNat % 10)] := by
  lift value to ℕ using hpos
  have hdigits := @tostring_natCast value (by omega)
  rw [digits, Nat.toDigits_eq_if (by decide)] at hdigits
  rw [twoDigits, hdigits, Int.toNat_natCast]
  by_cases hten : value < 10
  · have hquotient : value / 10 = 0 := by omega
    have hrest : value % 10 = value := by omega
    rw [if_pos (by omega), if_pos hten, hquotient, hrest]
    rfl
  · rw [if_neg (by omega), if_neg hten, Nat.toDigits_of_lt_base (by omega)]
    rfl

theorem twoDigits_length (hpos : 0 ≤ value) (hlt : value < 100) : (twoDigits value).length = 2 := by
  rw [twoDigits_eq hpos hlt]
  rfl

theorem ofDigits_twoDigits (hpos : 0 ≤ value) (hlt : value < 100) :
    (ofDigits 10 (twoDigits value) : Int) = value := by
  have htens := @digitValue_digitChar (value.toNat / 10) (by omega)
  have hunits := @digitValue_digitChar (value.toNat % 10) (by omega)
  rw [twoDigits_eq hpos hlt, ofDigits, List.foldl_cons, List.foldl_cons, List.foldl_nil, htens,
    hunits]
  omega

theorem tonumber_twoDigits (hpos : 0 ≤ value) (hlt : value < 100) :
    tonumber (twoDigits value) = some (value : ℚ) := by
  have hvalue := ofDigits_twoDigits hpos hlt
  have hdigit : ∀ c ∈ twoDigits value, c.isDigit := by
    rw [twoDigits_eq hpos hlt]
    simp only [List.mem_cons, List.not_mem_nil, or_false]
    rintro c (rfl | rfl)
    · rw [Nat.isDigit_digitChar, decide_eq_true_eq]
      omega
    · rw [Nat.isDigit_digitChar, decide_eq_true_eq]
      omega
  have hne : twoDigits value ≠ [] := by
    rw [twoDigits_eq hpos hlt]
    exact List.cons_ne_nil _ _
  rw [tonumber_digits hdigit hne]
  exact congrArg some (by exact_mod_cast hvalue)

end TwoDigits

/-! ## End dates -/

section EndDate

variable {n : Int} {date before : Date}

theorem toDateString_intCast (hdate : numToDate n = (date.year, date.month, date.day))
    (isEndDate : Bool) :
    toDateString n isEndDate =
      dateText date.year date.month (if isEndDate then date.day - 1 else date.day) := by
  simp [toDateString, hdate]

theorem dateText_eq (year month day : Int) :
    dateText year month day =
      (tostring year ++ '-' :: (twoDigits month ++ ['-'])) ++ twoDigits day := by
  simp [dateText]

/-- Later in the month than on the first, the day before has the day number before. -/
theorem toDateString_of_day_ne (hdate : numToDate n = (date.year, date.month, date.day))
    (hbefore : numToDate (n - 1 : Int) = (before.year, before.month, before.day))
    (hnext : before.next = date) (hday : date.day ≠ 1) :
    toDateString n true = toDateString (n - 1 : Int) false := by
  rw [toDateString_intCast hdate, toDateString_intCast hbefore]
  by_cases hlt : before.day < monthLength before.year before.month
  · rcases Date.next_of_lt hlt with ⟨hyear, hmonth, hsucc⟩
    rw [hnext] at hyear hmonth hsucc
    have hpred : date.day - 1 = before.day := by omega
    simp [hyear, hmonth, hpred]
  · have hfirst := Date.next_of_last hlt
    rw [hnext] at hfirst
    exact absurd (congrArg Date.day hfirst) hday

/-- The first of a month becomes day 00 of the same month. -/
theorem toDateString_ne_of_first (hdate : numToDate n = (date.year, date.month, date.day))
    (hbefore : numToDate (n - 1 : Int) = (before.year, before.month, before.day))
    (hday : date.day = 1) : toDateString n true ≠ toDateString (n - 1 : Int) false := by
  have hpos := before.day_pos
  have hle := before.day_le
  have hmax := monthLength_le before.year before.month
  rw [toDateString_intCast hdate, toDateString_intCast hbefore, hday, dateText_eq, dateText_eq]
  intro heq
  -- both texts end with a day of two digits
  have hlength : (twoDigits (1 - 1)).length = (twoDigits before.day).length := by
    rw [twoDigits_length (by decide) (by decide), twoDigits_length (by omega) (by omega)]
  have hdays : twoDigits (1 - 1) = twoDigits before.day :=
    (List.append_inj' heq hlength).2
  have hvalue := @ofDigits_twoDigits before.day (by omega) (by omega)
  rw [← hdays, ofDigits_twoDigits (by decide) (by decide)] at hvalue
  omega

end EndDate

/-- The end date of a midnight names the day before, unless the midnight begins a month. -/
theorem toDateString_endDate (n : Int) :
    (toDateString n true = toDateString (n - 1 : Int) false ∧
      toString n true = toDateString (n - 1 : Int) false ++ " 24:00:00".toList) ↔
    (numToDate n).2.2 ≠ 1 := by
  rcases exists_numToDate n with ⟨date, hdate, hnumber⟩
  rcases exists_numToDate (n - 1) with ⟨before, hbefore, hnumber'⟩
  have hnext : before.next = date := by
    apply dayCount_dayNumber.injective
    rw [dayCount_dayNumber, hnumber, hnumber']
    omega
  have htime : toString n true = toDateString n true ++ " 24:00:00".toList := by
    simp [toString, toTimeString]
  rw [htime, hdate]
  constructor
  · rintro ⟨hsame, -⟩ hday
    exact toDateString_ne_of_first hdate hbefore hday hsame
  · intro hday
    have hsame := toDateString_of_day_ne hdate hbefore hnext hday
    exact ⟨hsame, by rw [hsame]⟩

/-- The end of 1999 is written as day 00 of January. -/
theorem toDateString_endDate_first :
    toDateString (2451545 : Int) true = "2000-01-00".toList ∧
      toDateString (2451545 : Int) true ≠ toDateString (2451545 - 1 : Int) false := by
  constructor <;> decide +kernel

/-! ## Parsing -/

theorem dateToNumRat_intCast (year month day : Int) :
    dateToNumRat year month day = dateToNum year month day := by
  have hcarry : (14 - (month : ℚ)) / 12 = ((14 - month : Int) : ℚ) / 12 := by push_cast; rfl
  have hyear : (year : ℚ) + 4800 - ((14 - month) / 12 : Int) =
      (year + 4800 - (14 - month) / 12 : Int) := by push_cast; rfl
  have hmonth : (153 * ((month : ℚ) + 12 * ((14 - month) / 12 : Int) - 3) + 2) / 5 =
      ((153 * (month + 12 * ((14 - month) / 12) - 3) + 2 : Int) : ℚ) / 5 := by push_cast; rfl
  simp only [dateToNumRat, dateToNum, hcarry, floor_intCast_div_ofNat, hyear, hmonth]
  push_cast
  rfl

section Columns

variable {year month day : Int}

/-- A year of four digits puts the fields into the columns that `dateParse` reads. -/
theorem sub_dateText (hyear : 1000 ≤ year) (hyear' : year ≤ 9999) (hmonth : 0 ≤ month)
    (hmonth' : month < 100) (hday : 0 ≤ day) (hday' : day < 100) :
    sub (dateText year month day) 1 4 = digits year.toNat ∧
      sub (dateText year month day) 6 7 = twoDigits month ∧
      sub (dateText year month day) 9 10 = twoDigits day := by
  have htext : tostring year = digits year.toNat := by
    have hnat : (year.toNat : Int) = year := by omega
    rw [← hnat, tostring_natCast (by omega), Int.toNat_natCast]
  have hlength : (digits year.toNat).length = 4 := by
    have hle := @digits_length_le_iff year.toNat 4 (by decide)
    have hgt := @digits_length_le_iff year.toNat 3 (by decide)
    omega
  rcases List.length_eq_four.1 hlength with ⟨a, b, c, d, hdigits⟩
  rw [dateText, htext, twoDigits_eq hmonth hmonth', twoDigits_eq hday hday', hdigits]
  exact ⟨rfl, rfl, rfl⟩

theorem dateParse_dateText (hyear : 1000 ≤ year) (hyear' : year ≤ 9999) (hmonth : 0 ≤ month)
    (hmonth' : month < 100) (hday : 0 ≤ day) (hday' : day < 100) :
    dateParse (dateText year month day) = .ok (dateToNum year month day : ℚ) := by
  rcases sub_dateText hyear hyear' hmonth hmonth' hday hday' with ⟨hsub, hsub', hsub''⟩
  have hvalue : tonumber (digits year.toNat) = some (year : ℚ) := by
    rw [tonumber_digits (fun c hc => isDigit_of_mem_digits hc) (digits_ne_nil _), ofDigits_digits]
    exact congrArg some (by exact_mod_cast Int.toNat_of_nonneg (by omega))
  have hne : (year : ℚ) ≠ 0 := by
    have hpos : year ≠ 0 := by omega
    exact_mod_cast hpos
  simp [dateParse, hsub, hsub', hsub'', hvalue, tonumber_twoDigits hmonth hmonth',
    tonumber_twoDigits hday hday', hne, dateToNumRat_intCast]

/-- With a shorter year the first four columns hold a dash. -/
theorem tonumber_year_short (hyear : 0 ≤ year) (hyear' : year < 1000) :
    tonumber (sub (dateText year month day) 1 4) = none := by
  lift year to ℕ using hyear
  have hlength : (digits year).length ≤ 3 := (digits_length_le_iff (by decide)).2 (by omega)
  have hcolumns : ∃ rest, sub (dateText year month day) 1 4 = digits year ++ '-' :: rest := by
    rw [dateText, tostring_natCast (by omega), sub, List.take_append,
      List.take_of_length_le (by omega), List.take_cons (by omega)]
    exact ⟨_, rfl⟩
  rcases hcolumns with ⟨rest, hcolumns⟩
  have hend : EndsNumeral ('-' :: rest) := by
    rintro c hc
    cases hc
    decide
  have hblank : isBlank '-' = false := by decide
  rw [hcolumns, tonumber_append (fun c hc => isDigit_of_mem_digits hc) (digits_ne_nil _) hend]
  simp [hblank]

theorem dateParse_ne_ok (txt : List Char) (num : ℚ) (h : tonumber (sub txt 1 4) = none) :
    dateParse txt ≠ .ok num := by
  simp only [dateParse, h]
  cases tonumber (sub txt 6 7) <;> simp

end Columns

/-- `dateParse` undoes `toDateString` on the years of four digits; on shorter ones it fails. -/
theorem dateParse_toDateString (n : Int) (hpos : 0 ≤ (numToDate n).1)
    (hle : (numToDate n).1 ≤ 9999) :
    dateParse (toDateString n false) = .ok (n : ℚ) ↔ 1000 ≤ (numToDate n).1 := by
  rcases exists_numToDate n with ⟨date, hdate, hnumber⟩
  have hmonth := date.month_pos
  have hmonth' := date.month_le
  have hday := date.day_pos
  have hday' := date.day_le
  have hmax := monthLength_le date.year date.month
  rw [hdate] at hpos hle ⊢
  rw [toDateString_intCast hdate]
  constructor
  · intro hparse
    by_contra hshort
    exact dateParse_ne_ok _ _ (tonumber_year_short hpos (by omega)) hparse
  · intro hlong
    have hparse := @dateParse_dateText date.year date.month date.day hlong hle (by omega)
      (by omega) (by omega) (by omega)
    rw [← hnumber]
    exact hparse

/-- 1 January 2000. -/
theorem dateParse_toDateString_2000 :
    dateParse (toDateString (2451545 : Int) false) = .ok ((2451545 : Int) : ℚ) ↔
      1000 ≤ (numToDate (2451545 : Int)).1 :=
  dateParse_toDateString 2451545 (by decide +kernel) (by decide +kernel)

/-- 1 January 999. -/
theorem dateParse_toDateString_999 :
    0 ≤ (numToDate (2085938 : Int)).1 ∧ (numToDate (2085938 : Int)).1 ≤ 9999 ∧
      dateParse (toDateString (2085938 : Int) false) ≠ .ok ((2085938 : Int) : ℚ) := by
  refine ⟨?_, ?_, ?_⟩ <;> decide +kernel

end DateTime
end LuajitTcpServer
