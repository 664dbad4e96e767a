import Mathlib.Data.Int.SuccPred
import Mathlib.Tactic.Common

/-!
# Calendar — Gregorian dates, and functions that count days

A `Date` is a valid date of the proleptic Gregorian calendar, with any integer as its year.
`next` is the day after.  `DaysTo a b n` says that date `b` is `n` days after date `a`, in terms of
`next` alone.

A day count is a function on dates that grows by one from each date to the next.  Any such function
is strictly increasing, and differences of it are numbers of days (`before_iff_lt`, `sub_eq_iff`).
-/

namespace Calendar

/-! ## Months -/

def IsLeap (year : Int) : Prop := 4 ∣ year ∧ (¬ 100 ∣ year ∨ 400 ∣ year)

instance (year : Int) : Decidable (IsLeap year) := inferInstanceAs (Decidable (_ ∧ _))

def monthLength (year month : Int) : Int :=
  if month = 2 then if IsLeap year then 29 else 28
  else if month = 4 ∨ month = 6 ∨ month = 9 ∨ month = 11 then 30
  else 31

theorem monthLength_pos (year month : Int) : 0 < monthLength year month := by
  unfold monthLength
  split
  · split <;> decide
  · split <;> decide

theorem monthLength_le (year month : Int) : monthLength year month ≤ 31 := by
  unfold monthLength
  split
  · split <;> decide
  · split <;> decide

/-! ## Periods

Of periods with `p / q` days on average, with a remainder `r` when counting starts, period `k`
starts on day `(p * k + r) / q`. -/

theorem le_div_iff_start_le {p q r n k : Int} (hp : 0 < p) (hq : 0 < q) :
    k ≤ (q * n + (q - 1 - r)) / p ↔ (p * k + r) / q ≤ n := by
  calc k ≤ (q * n + (q - 1 - r)) / p
      ↔ k * p ≤ q * n + (q - 1 - r) := Int.le_ediv_iff_mul_le hp
    _ ↔ p * k + r < (n + 1) * q := by
          rw [Int.mul_comm k p, Int.add_mul, Int.mul_comm n q]
          omega
    _ ↔ (p * k + r) / q < n + 1 := (Int.ediv_lt_iff_lt_mul hq).symm
    _ ↔ (p * k + r) / q ≤ n := Int.lt_add_one_iff

/-- The period that day `n` is in. -/
theorem period_of_day {p q r n k : Int} (hp : 0 < p) (hq : 0 < q)
    (hk : k = (q * n + (q - 1 - r)) / p) :
    (p * k + r) / q ≤ n ∧ n < (p * (k + 1) + r) / q := by
  constructor
  · exact (le_div_iff_start_le hp hq).1 (Int.le_of_eq hk)
  · refine Int.not_le.1 fun hle => ?_
    have hsucc : k + 1 ≤ (q * n + (q - 1 - r)) / p := (le_div_iff_start_le hp hq).2 hle
    rw [← hk] at hsucc
    exact absurd hsucc (Int.not_le.2 (Int.lt_succ k))

/-! ## Dates -/

@[ext] structure Date where
  year : Int
  month : Int
  day : Int
  month_pos : 1 ≤ month
  month_le : month ≤ 12
  day_pos : 1 ≤ day
  day_le : day ≤ monthLength year month

namespace Date

def next (date : Date) : Date :=
  if h : date.day < monthLength date.year date.month then
    { date with
      day := date.day + 1
      day_pos := Int.le_add_one date.day_pos
      day_le := h }
  else if h' : date.month < 12 then
    { year := date.year
      month := date.month + 1
      day := 1
      month_pos := Int.le_add_one date.month_pos
      month_le := h'
      day_pos := Int.le_refl 1
      day_le := monthLength_pos _ _ }
  else
    { year := date.year + 1
      month := 1
      day := 1
      month_pos := Int.le_refl 1
      month_le := by decide
      day_pos := Int.le_refl 1
      day_le := monthLength_pos _ _ }

/-- The order of year, month and day. -/
def Before (a b : Date) : Prop :=
  a.year < b.year ∨ a.year = b.year ∧ (a.month < b.month ∨ a.month = b.month ∧ a.day < b.day)

/-- `b` is `n` days after `a`, or `-n` days before it. -/
def DaysTo (a b : Date) (n : Int) : Prop :=
  if 0 ≤ n then next^[n.toNat] a = b else next^[(-n).toNat] b = a

theorem before_trichotomy (a b : Date) : a.Before b ∨ a = b ∨ b.Before a := by
  by_cases heq : a.year = b.year ∧ a.month = b.month ∧ a.day = b.day
  · exact .inr (.inl (Date.ext heq.1 heq.2.1 heq.2.2))
  · have hne : a.Before b ∨ b.Before a := by
      unfold Before
      omega
    rcases hne with hab | hba
    · exact .inl hab
    · exact .inr (.inr hba)

/-! ## Reaching a later date -/

/-- Going from one day to the next leads from `a` to `b`. -/
def Reaches (a b : Date) : Prop := ∃ n : Nat, next^[n] a = b

theorem Reaches.refl (a : Date) : Reaches a a := ⟨0, rfl⟩

theorem Reaches.trans {a b c : Date} (h : Reaches a b) (h' : Reaches b c) : Reaches a c := by
  rcases h with ⟨n, rfl⟩
  rcases h' with ⟨n', rfl⟩
  exact ⟨n' + n, Function.iterate_add_apply next n' n a⟩

theorem reaches_next (a : Date) : Reaches a a.next := ⟨1, rfl⟩

/-- The months of all years, numbered through. -/
def monthIndex (date : Date) : Int := 12 * date.year + (date.month - 1)

def firstOf (index : Int) : Date where
  year := index / 12
  month := index % 12 + 1
  day := 1
  month_pos := by omega
  month_le := by omega
  day_pos := Int.le_refl 1
  day_le := monthLength_pos _ _

theorem monthIndex_firstOf (index : Int) : (firstOf index).monthIndex = index := by
  simp only [monthIndex, firstOf]
  omega

theorem next_of_lt {a : Date} (h : a.day < monthLength a.year a.month) :
    a.next.year = a.year ∧ a.next.month = a.month ∧ a.next.day = a.day + 1 := by
  simp [next, h]

/-- The day after the last of a month. -/
theorem next_of_last {a : Date} (h : ¬ a.day < monthLength a.year a.month) :
    a.next = firstOf (a.monthIndex + 1) := by
  have hpos := a.month_pos
  have hle := a.month_le
  by_cases hmonth : a.month < 12
  · apply Date.ext <;> simp [next, h, hmonth, firstOf, monthIndex] <;> omega
  · apply Date.ext <;> simp [next, h, hmonth, firstOf, monthIndex] <;> omega

theorem reaches_in_month {a b : Date} (hyear : a.year = b.year) (hmonth : a.month = b.month)
    (hday : a.day ≤ b.day) : Reaches a b := by
  -- the induction is on the days left to `b`
  generalize hn : (b.day - a.day).toNat = n
  induction n generalizing a with
  | zero =>
      have heq : a = b := Date.ext hyear hmonth (by omega)
      exact heq ▸ Reaches.refl a
  | succ n ih =>
      have hlt : a.day < monthLength a.year a.month := by
        have hle := b.day_le
        rw [← hyear, ← hmonth] at hle
        omega
      rcases next_of_lt hlt with ⟨hyear', hmonth', hday'⟩
      have hrest : Reaches a.next b := by
        apply ih (hyear'.trans hyear) (hmonth'.trans hmonth) <;> omega
      exact (reaches_next a).trans hrest

theorem reaches_next_month (a : Date) : Reaches a (firstOf (a.monthIndex + 1)) := by
  -- through the last day of the month
  let last : Date :=
    { a with
      day := monthLength a.year a.month
      day_pos := monthLength_pos _ _
      day_le := Int.le_refl _ }
  have hlast : Reaches a last := reaches_in_month rfl rfl a.day_le
  have hnext : last.next = firstOf (a.monthIndex + 1) := next_of_last (Int.lt_irrefl _)
  exact hlast.trans (hnext ▸ reaches_next last)

theorem reaches_firstOf {index index' : Int} (h : index ≤ index') :
    Reaches (firstOf index) (firstOf index') := by
  induction index', h using Int.leInduction with
  | base =>
      exact Reaches.refl _
  | succ index' _ ih =>
      have hnext := reaches_next_month (firstOf index')
      rw [monthIndex_firstOf] at hnext
      exact ih.trans hnext

theorem Before.reaches {a b : Date} (h : a.Before b) : Reaches a b := by
  have ha := a.month_pos
  have ha' := a.month_le
  have hb := b.month_pos
  have hb' := b.month_le
  by_cases hindex : a.monthIndex = b.monthIndex
  · -- the two days are in one month
    simp only [monthIndex, Before] at hindex h
    exact reaches_in_month (by omega) (by omega) (by omega)
  · have hlt : a.monthIndex + 1 ≤ b.monthIndex := by
      simp only [monthIndex, Before] at hindex h ⊢
      omega
    have hstart : Reaches (firstOf b.monthIndex) b := by
      apply reaches_in_month
      · simp only [firstOf, monthIndex]
        omega
      · simp only [firstOf, monthIndex]
        omega
      · exact b.day_pos
    exact ((reaches_next_month a).trans (reaches_firstOf hlt)).trans hstart

end Date

/-! ## Day counts -/

section DayCount

open Date

/-- A function that grows by one from each day to the next. -/
def DayCount (count : Date → Int) : Prop := ∀ date, count date.next = count date + 1

variable {count : Date → Int} {a b : Date}

theorem DayCount.iterate (h : DayCount count) (n : Nat) (a : Date) :
    count (next^[n] a) = count a + n := by
  induction n with
  | zero =>
      simp
  | succ n ih =>
      calc count (next^[n + 1] a)
          = count (next (next^[n] a)) := by rw [Function.iterate_succ_apply']
        _ = count a + (n + 1 : Nat) := by
            rw [h, ih]
            omega

theorem Date.Before.ne (h : a.Before b) : a ≠ b := by
  intro heq
  rw [heq, Before] at h
  omega

theorem DayCount.lt_of_before (h : DayCount count) (hab : a.Before b) : count a < count b := by
  rcases hab.reaches with ⟨n, hn⟩
  have hcount : count b = count a + n := by rw [← hn, h.iterate]
  -- a later date is not the same date, so at least one day lies between them
  have hpos : n ≠ 0 := by
    intro hzero
    rw [hzero] at hn
    exact hab.ne hn
  omega

theorem DayCount.before_iff_lt (h : DayCount count) : a.Before b ↔ count a < count b := by
  constructor
  · exact h.lt_of_before
  · intro hlt
    rcases before_trichotomy a b with hab | heq | hba
    · exact hab
    · rw [heq] at hlt
      exact absurd hlt (Int.lt_irrefl _)
    · exact absurd (h.lt_of_before hba) (Int.not_lt.2 (Int.le_of_lt hlt))

theorem DayCount.injective (h : DayCount count) : Function.Injective count := by
  intro a b heq
  rcases before_trichotomy a b with hab | hsame | hba
  · exact absurd heq (Int.ne_of_lt (h.lt_of_before hab))
  · exact hsame
  · exact absurd heq.symm (Int.ne_of_lt (h.lt_of_before hba))

/-- Every number is the count of some date. -/
theorem DayCount.surjective (h : DayCount count) : Function.Surjective count := by
  -- the first of a month long ago has a count below `n`
  have hmonth : ∀ k : Nat, count (firstOf (-k)) ≤ count (firstOf 0) - k := by
    intro k
    induction k with
    | zero =>
        simp
    | succ k ih =>
        have hlt : count (firstOf (-(k + 1 : Nat))) < count (firstOf (-k)) := by
          apply h.lt_of_before
          simp only [Before, firstOf]
          omega
        omega
  intro n
  let start := firstOf (-(count (firstOf 0) - n).toNat)
  have hle : count start ≤ count (firstOf 0) - (count (firstOf 0) - n).toNat := hmonth _
  refine ⟨next^[(n - count start).toNat] start, ?_⟩
  rw [h.iterate]
  omega

/-- The difference of two counts is the number of days from the first date to the second. -/
theorem DayCount.sub_eq_iff (h : DayCount count) {n : Int} :
    count b - count a = n ↔ DaysTo a b n := by
  unfold DaysTo
  split
  · rename_i hn
    have hcount := h.iterate n.toNat a
    constructor
    · intro heq
      exact h.injective (by omega)
    · intro heq
      rw [heq] at hcount
      omega
  · rename_i hn
    have hcount := h.iterate (-n).toNat b
    constructor
    · intro heq
      exact h.injective (by omega)
    · intro heq
      rw [heq] at hcount
      omega

/-- Two counts differ by a constant. -/
theorem DayCount.sub_eq_sub (h : DayCount count) {count' : Date → Int} (h' : DayCount count')
    (a b : Date) : count b - count a = count' b - count' a :=
  h.sub_eq_iff.2 (h'.sub_eq_iff.1 rfl)

end DayCount

end Calendar
