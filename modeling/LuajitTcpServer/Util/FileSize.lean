import LuajitTcpServer.Lib.Numerals
import Mathlib.Algebra.Order.Floor.Semiring
import Mathlib.Data.Rat.Floor
import Mathlib.Tactic.IntervalCases

/-!
# FileSize — a number of bytes in a unit

`fileSize` of `lib_util.lua` takes a third of the length of the numeral as the power of 1024 to
divide by.  Dividing a double by a power of two is exact, so the scaled value is a rational number.
What `format_num` makes of it is a parameter.
-/

namespace LuajitTcpServer
namespace Util

open Lua

def filesizename : List (List Char) :=
  [" Bytes".toList, " KB".toList, " MB".toList, " GB".toList, " TB".toList, " PB".toList,
    " EB".toList, " ZB".toList, " YB".toList]

def factor (bytes : Nat) : Nat := ((tostring bytes).length - 1) / 3

def scaled (bytes : Nat) : ℚ := (bytes : ℚ) / 1024 ^ factor bytes

/-- There is no result when the unit has no name: `nil` cannot be concatenated. -/
def fileSize (format_num : ℚ → Nat → List Char → List Char) (bytes : Nat)
    (decimals : Option Nat) : Option (List Char) :=
  if bytes = 0 then some "0 Bytes".toList
  else
    (filesizename[factor bytes]?).map fun name =>
      format_num (scaled bytes) (decimals.getD 2) [] ++ name

/-! ## What the comment promises -/

/-- A whole number that a double holds exactly. -/
def IsDouble (n : Nat) : Prop := ∃ m e, m < 2 ^ 53 ∧ e ≤ 971 ∧ n = m * 2 ^ e

/-- There is a name for the unit, and the whole part of the value has at most four digits. -/
structure KeepsBound (bytes : Nat) : Prop where
  unit : ∃ name, filesizename[factor bytes]? = some name
  whole : ⌊scaled bytes⌋₊ < 10 ^ 4

/-- The numbers whose numeral is long enough for their size. -/
def NumeralFits (bytes : Nat) : Prop :=
  bytes < 10 ^ 14 ∨
  8 ≤ significantDigits bytes ∧ significantDigits bytes ≤ 10 ∧ bytes < 10 ^ 4 * 1024 ^ 4 ∨
  11 ≤ significantDigits bytes ∧ significantDigits bytes ≤ 13 ∧ bytes < 10 ^ 4 * 1024 ^ 5 ∨
  significantDigits bytes = 14 ∧ bytes < 10 ^ 4 * 1024 ^ 6

theorem IsDouble.lt {n : Nat} (h : IsDouble n) : n < 10 ^ 312 := by
  rcases h with ⟨m, e, hm, he, rfl⟩
  calc
    m * 2 ^ e < 2 ^ 53 * 2 ^ e := Nat.mul_lt_mul_of_pos_right hm (Nat.pow_pos (by decide))
    _ = 2 ^ (53 + e) := (Nat.pow_add 2 53 e).symm
    _ ≤ 2 ^ (128 * 8) := Nat.pow_le_pow_right Nat.two_pos (by omega)
    _ = (2 ^ 128) ^ 8 := Nat.pow_mul 2 128 8
    _ < (10 ^ 39) ^ 8 := Nat.pow_lt_pow_left (by norm_num) (by decide)
    _ = 10 ^ 312 := by rw [← Nat.pow_mul]

theorem whole_lt_iff {bytes : Nat} :
    ⌊scaled bytes⌋₊ < 10 ^ 4 ↔ bytes < 10 ^ 4 * 1024 ^ factor bytes := by
  have hpos : (0 : ℚ) < 1024 ^ factor bytes := by positivity
  rw [Nat.floor_lt (by unfold scaled; positivity), scaled, div_lt_iff₀ hpos]
  exact_mod_cast Iff.rfl

/-! ## The factor -/

/-- Below `10 ^ 14` the numeral has all digits of the number. -/
theorem factor_small {bytes : Nat} (h : bytes < 10 ^ 14) :
    factor bytes = ((digits bytes).length - 1) / 3 ∧ factor bytes ≤ 4 := by
  have hlength : (digits bytes).length ≤ 14 := (digits_length_le_iff (by decide)).2 h
  have hfactor : factor bytes = ((digits bytes).length - 1) / 3 := by
    rw [factor, tostring_natCast h]
  omega

theorem tostring_large {bytes : Nat} (h : 10 ^ 14 ≤ bytes) :
    (tostring bytes).length =
      significantDigits bytes + (if significantDigits bytes = 1 then 0 else 1) + 2 +
        max 2 (digits (significand bytes).2).length := by
  have hnonneg : ¬ (bytes : Int) < 0 := by omega
  have hmagnitude : ¬ bytes < 10 ^ 14 := Nat.not_lt.2 h
  rw [tostring, if_neg hnonneg, Int.natAbs_natCast, magnitude, if_neg hmagnitude]
  exact scientific_length (Nat.le_trans (by norm_num) h)

/-- The exponent of a double has two or three digits. -/
theorem exponent_length {bytes : Nat} (h : bytes < 10 ^ 312) :
    (digits (significand bytes).2).length ≤ 3 := by
  have hcount : (digits bytes).length ≤ 312 := (digits_length_le_iff (by decide)).2 h
  refine (digits_length_le_iff (by decide)).2 ?_
  rcases significand_exponent (n := bytes) with hexponent | hexponent <;> omega

theorem exponent_length_two {bytes : Nat} (h : bytes < 10 ^ 99) :
    (digits (significand bytes).2).length ≤ 2 := by
  have hcount : (digits bytes).length ≤ 99 := (digits_length_le_iff (by decide)).2 h
  refine (digits_length_le_iff (by decide)).2 ?_
  rcases significand_exponent (n := bytes) with hexponent | hexponent <;> omega

theorem factor_le {bytes : Nat} (h : bytes < 10 ^ 312) : factor bytes ≤ 6 := by
  by_cases hsmall : bytes < 10 ^ 14
  · exact Nat.le_trans (factor_small hsmall).2 (by decide)
  · have hlarge : 10 ^ 14 ≤ bytes := Nat.not_lt.1 hsmall
    have hexponent := exponent_length h
    have hsignificant := (significantDigits_bounds (Nat.le_trans (by norm_num) hlarge)).2
    rw [factor, tostring_large hlarge]
    split <;> omega

/-- Every number of bytes has a unit. -/
theorem unit_exists {bytes : Nat} (h : IsDouble bytes) :
    ∃ name, filesizename[factor bytes]? = some name := by
  have hfactor := factor_le h.lt
  have hlength : factor bytes < filesizename.length := Nat.lt_of_le_of_lt hfactor (by decide)
  exact ⟨_, List.getElem?_eq_getElem hlength⟩

theorem fileSize_isSome (format_num : ℚ → Nat → List Char → List Char) {bytes : Nat}
    (h : IsDouble bytes) (decimals : Option Nat) :
    (fileSize format_num bytes decimals).isSome := by
  rcases unit_exists h with ⟨name, hname⟩
  unfold fileSize
  split
  · rfl
  · rw [hname]
    rfl

/-! ## When the bound is kept -/

theorem bound_small {bytes : Nat} (h : bytes < 10 ^ 14) :
    bytes < 10 ^ 4 * 1024 ^ factor bytes := by
  rcases factor_small h with ⟨hfactor, -⟩
  have hpos : 0 < (digits bytes).length := Nat.length_toDigits_pos
  have hlt : bytes < 10 ^ (digits bytes).length := (digits_length_le_iff hpos).1 (Nat.le_refl _)
  calc
    bytes < 10 ^ (digits bytes).length := hlt
    _ ≤ 10 ^ (4 + 3 * factor bytes) := Nat.pow_le_pow_right (by decide) (by omega)
    _ = 10 ^ 4 * 1000 ^ factor bytes := by rw [Nat.pow_add, Nat.pow_mul]
    _ ≤ 10 ^ 4 * 1024 ^ factor bytes :=
        Nat.mul_le_mul_left _ (Nat.pow_le_pow_left (by decide) _)

/-- With an exponent of two digits the factor follows from the significant digits alone. -/
theorem bound_large {bytes : Nat} (hlow : 10 ^ 14 ≤ bytes) (hhigh : bytes < 10 ^ 99) :
    bytes < 10 ^ 4 * 1024 ^ factor bytes ↔ NumeralFits bytes := by
  have hexponent := exponent_length_two hhigh
  have hfactor : factor bytes =
      (significantDigits bytes + (if significantDigits bytes = 1 then 0 else 1) + 3) / 3 := by
    rw [factor, tostring_large hlow]
    congr 1
    omega
  rcases significantDigits_bounds (Nat.le_trans (by norm_num) hlow) with ⟨hmin, hmax⟩
  rw [hfactor, NumeralFits]
  generalize significantDigits bytes = count at hmin hmax
  interval_cases count <;> norm_num <;> omega

/-- Above, the exponent gives at most one more character. -/
theorem bound_huge {bytes : Nat} (hlow : 10 ^ 99 ≤ bytes) (hhigh : bytes < 10 ^ 312) :
    ¬ bytes < 10 ^ 4 * 1024 ^ factor bytes ∧ ¬ NumeralFits bytes := by
  have hfactor : 10 ^ 4 * 1024 ^ factor bytes ≤ 10 ^ 4 * 1024 ^ 6 :=
    Nat.mul_le_mul_left _ (Nat.pow_le_pow_right (by decide) (factor_le hhigh))
  have hbig : 10 ^ 4 * 1024 ^ 6 < bytes := Nat.lt_of_lt_of_le (by norm_num) hlow
  refine ⟨by omega, ?_⟩
  unfold NumeralFits
  omega

/-- The numbers of bytes that are shown with at most four digits before the point. -/
theorem keepsBound_iff {bytes : Nat} (h : IsDouble bytes) :
    KeepsBound bytes ↔ NumeralFits bytes := by
  have hbound : bytes < 10 ^ 4 * 1024 ^ factor bytes ↔ NumeralFits bytes := by
    by_cases hsmall : bytes < 10 ^ 14
    · exact iff_of_true (bound_small hsmall) (Or.inl hsmall)
    · by_cases hlarge : bytes < 10 ^ 99
      · exact bound_large (Nat.not_lt.1 hsmall) hlarge
      · rcases bound_huge (Nat.not_lt.1 hlarge) h.lt with ⟨hwhole, hfits⟩
        exact iff_of_false hwhole hfits
  constructor
  · intro hkeeps
    exact hbound.1 (whole_lt_iff.1 hkeeps.whole)
  · intro hfits
    exact ⟨unit_exists h, whole_lt_iff.2 (hbound.2 hfits)⟩

theorem keepsBound_terabyte : KeepsBound (10 ^ 12) :=
  (keepsBound_iff ⟨5 ^ 12, 12, by norm_num, by norm_num, by norm_num⟩).2 (Or.inl (by norm_num))

/-- `1e+14` has five characters, so a hundred terabytes are shown in kilobytes. -/
theorem hundred_terabytes_in_kilobytes :
    IsDouble (10 ^ 14) ∧ factor (10 ^ 14) = 1 ∧ ¬ KeepsBound (10 ^ 14) := by
  have hfactor : factor (10 ^ 14) = 1 := by decide +kernel
  refine ⟨⟨5 ^ 14, 14, by norm_num, by norm_num, by norm_num⟩, hfactor, ?_⟩
  intro h
  have hwhole := whole_lt_iff.1 h.whole
  rw [hfactor] at hwhole
  norm_num at hwhole

end Util
end LuajitTcpServer
