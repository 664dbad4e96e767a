import Mathlib.Algebra.Order.Floor.Ring
import Mathlib.Data.Rat.Floor

/-!
# DayNumber — the day numbers of `lib_date_time.lua`

A time is a rational number: its integer part counts days, the rest is the time of day.
`math.floor` of a quotient of integers is `/`, which rounds down for the positive divisors used
here.
-/

namespace LuajitTcpServer
namespace DateTime

/-- `math.modf`, without the fraction: it rounds towards zero. -/
def modf (num : ℚ) : Int := if 0 ≤ num then ⌊num⌋ else ⌈num⌉

@[simp] theorem modf_intCast (n : Int) : modf n = n := by
  unfold modf
  split <;> simp

@[simp] theorem floor_intCast_div_ofNat (a : Int) (b : Nat) [b.AtLeastTwo] :
    ⌊(a / ofNat(b) : ℚ)⌋ = a / (OfNat.ofNat b : Int) :=
  Rat.floor_intCast_div_natCast a b

def dateToNum (year month day : Int) : Int :=
  let a := (14 - month) / 12
  let y := year + 4800 - a
  let m := month + 12 * a - 3
  day + (153 * m + 2) / 5 + 365 * y + y / 4 - y / 100 + y / 400 - 32045

/-- The year, month and day of a day number. -/
def numToDate (num : ℚ) : Int × Int × Int :=
  let int := modf num
  let a := int + 32044
  let b := (4 * a + 3) / 146097
  let c := a - 146097 * b / 4
  let d := (4 * c + 3) / 1461
  let e := c - 1461 * d / 4
  let m := (5 * e + 2) / 153
  let day := e - (153 * m + 2) / 5 + 1
  let month := m + 3 - 12 * (m / 10)
  let year := 100 * b + d - 4800 + m / 10
  (year, month, day)

/-- Lua's `%`, which rounds the quotient down. -/
def luaMod (a b : ℚ) : ℚ := a - ⌊a / b⌋ * b

@[simp] theorem luaMod_intCast (a : Int) (b : Nat) [b.AtLeastTwo] :
    luaMod a ofNat(b) = (a % (OfNat.ofNat b : Int) : Int) := by
  have hmod : a % (OfNat.ofNat b : Int) = a - a / OfNat.ofNat b * OfNat.ofNat b := by
    rw [Int.emod_def, Int.mul_comm]
  simp [luaMod, hmod]

def numToWeek (num : ℚ) : Int :=
  let d4 := luaMod (luaMod (luaMod (num + 31741 - luaMod num 7) 146097) 36524) 1461
  let L : Int := ⌊d4 / 1460⌋
  let d1 := luaMod (d4 - L) 365 + L
  let numberOfWeek := ⌊d1 / 7⌋ + 1
  numberOfWeek

def dayDifference (timeStart timeEnd : ℚ) : Int := modf timeEnd - modf timeStart

/-- `C.difftime`: its arguments become a `time_t`, without their fractions. -/
def difftime (a b : ℚ) : Int := modf a - modf b

def secondsBetween (timeStart timeEnd : ℚ) : Int := difftime timeStart timeEnd

def secondsAdd (time seconds : ℚ) : ℚ := time + seconds / 86400

/-- The fraction that `math.modf` returns next to the integer part. -/
def decim (num : ℚ) : ℚ := num - modf num

@[simp] theorem decim_intCast (n : Int) : decim n = 0 := by
  simp [decim]

/-- The years, months and days are added as they are; `dateToNum` takes a month of any number. -/
def ymdAdd (num : ℚ) (y m d : Int) : ℚ :=
  let int := modf num
  let (year, month, day) := numToDate int
  dateToNum (year + y) (month + m) (day + d) + decim num

def daysAdd (num : ℚ) (d : Int) : ℚ :=
  let int := modf num
  let (year, month, day) := numToDate int
  dateToNum year month (day + d) + decim num

def timeToNum (hours minutes seconds : ℚ) : ℚ := hours / 24 + minutes / 1440 + seconds / 86400

/-- The hours, minutes and seconds of a time. -/
def toTime (num : ℚ) : Int × Int × Int :=
  let hours := ⌊decim num * 24⌋
  let minutes := ⌊decim num * 1440⌋ - hours * 60
  let seconds := ⌊decim num * 86400⌋ - hours * 3600 - minutes * 60
  (hours, minutes, seconds)

end DateTime
end LuajitTcpServer
