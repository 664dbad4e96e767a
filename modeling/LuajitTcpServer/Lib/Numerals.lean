import Mathlib.Data.List.DropRight
import Mathlib.Data.Rat.Cast.Order

/-!
# Numerals — numbers as text in Lua

A text is a list of characters.  `tostring` writes a whole number as the format `%.14g` does: in
decimal digits below `10 ^ 14`, and with 14 significant digits and an exponent from there on.
`tonumber` reads decimal and hexadecimal numerals with a sign, a point, an exponent and blanks
around them; `inf` and `nan` are no numbers here.
-/

namespace Lua

/-! ## Writing -/

def digits (n : Nat) : List Char := Nat.toDigits 10 n

/-- 14 significant digits, rounded to nearest and at a tie to even, and the exponent of the
first one. -/
def significand (n : Nat) : Nat × Nat :=
  let count := (digits n).length
  let unit := 10 ^ (count - 14)
  let quotient := n / unit
  let rest := n % unit
  let rounded :=
    if 2 * rest < unit ∨ 2 * rest = unit ∧ quotient % 2 = 0 then quotient else quotient + 1
  if rounded = 10 ^ 14 then (10 ^ 13, count) else (rounded, count - 1)

/-- Zeros at the end of the significant digits are left out, and a point at the end. -/
def scientific (n : Nat) : List Char :=
  let (rounded, exponent) := significand n
  let significant := (digits rounded).rdropWhile (· = '0')
  let fraction := significant.tail
  significant.take 1 ++ (if fraction = [] then [] else '.' :: fraction) ++
    'e' :: '+' :: (digits exponent).leftpad 2 '0'

def magnitude (n : Nat) : List Char := if n < 10 ^ 14 then digits n else scientific n

def tostring (n : Int) : List Char :=
  if n < 0 then '-' :: magnitude n.natAbs else magnitude n.natAbs

example : tostring (-120) = ['-', '1', '2', '0'] := by decide +kernel

example : tostring (25 * 10 ^ 14) = ['2', '.', '5', 'e', '+', '1', '5'] := by decide +kernel

/-! ## Reading -/

/-- The characters of `isspace`. -/
def isBlank (c : Char) : Bool := c = ' ' || ('\t' ≤ c && c ≤ '\r')

def isDigitOf (base : Nat) (c : Char) : Bool :=
  c.isDigit || (base = 16 && 'a' ≤ c.toLower && c.toLower ≤ 'f')

def digitValue (c : Char) : Nat :=
  if c.isDigit then c.toNat - '0'.toNat else c.toLower.toNat - 'a'.toNat + 10

def ofDigits (base : Nat) (txt : List Char) : Nat :=
  txt.foldl (fun value c => base * value + digitValue c) 0

/-- A sign in front, and what follows it. -/
def scanSign (txt : List Char) : Bool × List Char :=
  match txt with
  | '-' :: rest => (true, rest)
  | '+' :: rest => (false, rest)
  | rest => (false, rest)

def scanExponent (txt : List Char) : Option (Int × List Char) :=
  let (negative, rest) := scanSign txt
  let exponent := rest.takeWhile Char.isDigit
  if exponent = [] then none
  else
    some (if negative then -(ofDigits 10 exponent : Int) else ofDigits 10 exponent,
      rest.dropWhile Char.isDigit)

/-- A numeral without sign; its exponent is one of base `scale`, after the letter `mark`. -/
def scanNumeral (base scale : Nat) (mark : Char) (txt : List Char) : Option (ℚ × List Char) :=
  let whole := txt.takeWhile (isDigitOf base)
  let (fraction, rest) :=
    match txt.dropWhile (isDigitOf base) with
    | '.' :: rest => (rest.takeWhile (isDigitOf base), rest.dropWhile (isDigitOf base))
    | rest => ([], rest)
  if whole ++ fraction = [] then none
  else
    let mantissa : ℚ := ofDigits base (whole ++ fraction) / base ^ fraction.length
    match rest with
    | [] => some (mantissa, [])
    | c :: exponent =>
        if c.toLower = mark then
          (scanExponent exponent).map fun (e, rest) => (mantissa * (scale : ℚ) ^ e, rest)
        else some (mantissa, c :: exponent)

/-- A hexadecimal numeral starts with `0x`. -/
def scanUnsigned (txt : List Char) : Option (ℚ × List Char) :=
  match txt with
  | '0' :: x :: rest =>
      if x.toLower = 'x' then scanNumeral 16 2 'p' rest else scanNumeral 10 10 'e' txt
  | _ => scanNumeral 10 10 'e' txt

def tonumber (txt : List Char) : Option ℚ :=
  let (negative, numeral) := scanSign (txt.dropWhile isBlank)
  match scanUnsigned numeral with
  | some (value, rest) =>
      if rest.all isBlank then some (if negative then -value else value) else none
  | none => none

example : tonumber [' ', '-', '0', 'x', '1', 'F', '.', '8'] = some (-63 / 2) := by decide +kernel

/-! ## Reading digits -/

theorem exists_digitChar {c : Char} (h : c.isDigit) : ∃ d < 10, c = Nat.digitChar d := by
  have hrange : 48 ≤ c.toNat ∧ c.toNat ≤ 57 := by
    simpa [Char.isDigit, UInt32.le_iff_toNat_le] using h
  refine ⟨c.toNat - 48, by omega, ?_⟩
  apply Char.ext
  apply UInt32.toNat.inj
  have hvalue := @Nat.toNat_digitChar_of_lt_ten (c.toNat - 48) (by omega)
  change c.toNat = (Nat.digitChar (c.toNat - 48)).toNat
  omega

/-- No digit is a blank, a sign or a letter that stands in a numeral. -/
theorem digit_ne {c : Char} (h : c.isDigit) :
    isBlank c = false ∧ c ≠ '-' ∧ c ≠ '+' ∧ c.toLower ≠ 'x' := by
  rcases exists_digitChar h with ⟨d, hd, rfl⟩
  revert d
  decide

theorem digitValue_digitChar {d : Nat} (h : d < 10) : digitValue (Nat.digitChar d) = d := by
  revert d
  decide

theorem isDigit_of_mem_digits {n : Nat} {c : Char} (h : c ∈ digits n) : c.isDigit :=
  Nat.isDigit_of_mem_toDigits (by decide) (by decide) h

theorem digits_length_le_iff {n k : Nat} (h : 0 < k) : (digits n).length ≤ k ↔ n < 10 ^ k :=
  Nat.length_toDigits_le_iff (by decide) h

theorem digits_length_mono {m n : Nat} (h : m ≤ n) : (digits m).length ≤ (digits n).length := by
  have hpos : 0 < (digits n).length := Nat.length_toDigits_pos
  have hlt : n < 10 ^ (digits n).length := (digits_length_le_iff hpos).1 (Nat.le_refl _)
  exact (digits_length_le_iff hpos).2 (Nat.lt_of_le_of_lt h hlt)

theorem digits_length_eq {n k : Nat} (hle : 10 ^ k ≤ n) (hlt : n < 10 ^ (k + 1)) :
    (digits n).length = k + 1 := by
  have hmax : (digits n).length ≤ k + 1 := (digits_length_le_iff (Nat.succ_pos k)).2 hlt
  have hmin : ¬ (digits n).length ≤ k := by
    intro hshort
    have hpos : 0 < k := Nat.lt_of_lt_of_le Nat.length_toDigits_pos hshort
    exact Nat.not_lt.2 hle ((digits_length_le_iff hpos).1 hshort)
  omega

/-- No number but zero starts with a zero. -/
theorem digits_head_ne_zero {n : Nat} (h : 0 < n) : (digits n).head? ≠ some '0' := by
  induction n using Nat.strongRecOn with
  | ind n ih =>
      rw [digits, Nat.toDigits_eq_if (by decide)]
      by_cases hlt : n < 10
      · rw [if_pos hlt, List.head?_cons]
        intro heq
        exact absurd (Nat.digitChar_eq_zero.1 (Option.some.inj heq)) (Nat.ne_of_gt h)
      · -- the first digit is that of a tenth of the number
        have hrest := ih (n / 10) (by omega) (by omega)
        have hne : Nat.toDigits 10 (n / 10) ≠ [] := Nat.toDigits_ne_nil
        rwa [if_neg hlt, List.head?_append_of_ne_nil _ hne]

theorem digits_ne_nil (n : Nat) : digits n ≠ [] := Nat.toDigits_ne_nil

/-! ## The length of a numeral -/

/-- The significant digits that are written of a large number. -/
def significantDigits (n : Nat) : Nat :=
  ((digits (significand n).1).rdropWhile (· = '0')).length

theorem significand_bounds {n : Nat} (h : 10 ^ 13 ≤ n) :
    10 ^ 13 ≤ (significand n).1 ∧ (significand n).1 < 10 ^ 14 := by
  have hpos : 0 < (digits n).length := Nat.length_toDigits_pos
  have hlt : n < 10 ^ (digits n).length := (digits_length_le_iff hpos).1 (Nat.le_refl _)
  have hcount : 14 ≤ (digits n).length := by
    have hmono := digits_length_mono h
    have hlength : (digits (10 ^ 13)).length = 14 :=
      digits_length_eq (Nat.le_refl _) (Nat.pow_lt_pow_right (by decide) (by decide))
    omega
  have hle : 10 ^ ((digits n).length - 1) ≤ n := by
    by_contra hsmall
    have hshort := (digits_length_le_iff (by omega)).2 (Nat.lt_of_not_le hsmall)
    omega
  -- the digits behind the first 14 are cut off
  have hunit : 0 < 10 ^ ((digits n).length - 14) := Nat.pow_pos (by norm_num)
  have hquotientLow : 10 ^ 13 ≤ n / 10 ^ ((digits n).length - 14) := by
    rw [Nat.le_div_iff_mul_le hunit, ← Nat.pow_add]
    rwa [show 13 + ((digits n).length - 14) = (digits n).length - 1 by omega]
  have hquotientHigh : n / 10 ^ ((digits n).length - 14) < 10 ^ 14 := by
    rw [Nat.div_lt_iff_lt_mul hunit, ← Nat.pow_add]
    rwa [show 14 + ((digits n).length - 14) = (digits n).length by omega]
  simp only [significand]
  split <;> split <;> norm_num <;> omega

theorem significand_exponent {n : Nat} :
    (significand n).2 = (digits n).length - 1 ∨ (significand n).2 = (digits n).length := by
  simp only [significand]
  -- the exponent grows where rounding gives a power of ten
  split <;> split
  · exact Or.inr rfl
  · exact Or.inl rfl
  · exact Or.inr rfl
  · exact Or.inl rfl

theorem significantDigits_bounds {n : Nat} (h : 10 ^ 13 ≤ n) :
    1 ≤ significantDigits n ∧ significantDigits n ≤ 14 := by
  rcases significand_bounds h with ⟨hlow, hhigh⟩
  have hfirst : (digits (significand n).1).head? ≠ some '0' :=
    digits_head_ne_zero (Nat.lt_of_lt_of_le (by norm_num) hlow)
  constructor
  · -- the first digit is no zero, so it stays
    refine List.length_pos_iff.2 ?_
    intro hnil
    rw [List.rdropWhile_eq_nil_iff] at hnil
    cases hdigits : digits (significand n).1 with
    | nil =>
        exact digits_ne_nil _ hdigits
    | cons c rest =>
        have hzero := hnil c (by simp [hdigits])
        rw [decide_eq_true_eq] at hzero
        rw [hdigits, hzero] at hfirst
        exact hfirst rfl
  · have hlength : (digits (significand n).1).length = 14 := digits_length_eq hlow hhigh
    rw [← hlength]
    exact (List.rdropWhile_prefix _ _).length_le

theorem scientific_length {n : Nat} (h : 10 ^ 13 ≤ n) :
    (scientific n).length =
      significantDigits n + (if significantDigits n = 1 then 0 else 1) + 2 +
        max 2 (digits (significand n).2).length := by
  have hpos := (significantDigits_bounds h).1
  have hhead : ∀ txt : List Char, 1 ≤ txt.length →
      (txt.take 1 ++ (if txt.tail = [] then [] else '.' :: txt.tail)).length =
        txt.length + if txt.length = 1 then 0 else 1 := by
    intro txt htxt
    cases txt with
    | nil =>
        exact absurd htxt (by decide)
    | cons c txt =>
        cases txt <;> simp
  have hpad : ((digits (significand n).2).leftpad 2 '0').length =
      max 2 (digits (significand n).2).length := List.length_leftpad
  rw [scientific, List.length_append]
  change List.length (_ ++ _) + _ = _
  rw [hhead _ hpos, List.length_cons, List.length_cons, hpad]
  unfold significantDigits
  omega

theorem tostring_natCast {n : Nat} (h : n < 10 ^ 14) : tostring n = digits n := by
  have hnonneg : ¬ (n : Int) < 0 := by omega
  simp only [tostring, if_neg hnonneg, Int.natAbs_natCast, magnitude, if_pos h]

theorem tostring_length_pos (n : Int) : 0 < (tostring n).length := by
  have hmagnitude : ∀ k : Nat, 0 < (magnitude k).length := by
    intro k
    unfold magnitude
    split
    · exact List.length_pos_iff.2 (digits_ne_nil k)
    · simp [scientific]
  unfold tostring
  split
  · exact Nat.succ_pos _
  · exact hmagnitude _

theorem ofDigits_digits (n : Nat) : ofDigits 10 (digits n) = n := by
  have hvalue : ∀ txt : List Char, (∀ c ∈ txt, c.isDigit) → ∀ value,
      txt.foldl (fun value c => 10 * value + digitValue c) value =
        Nat.ofDigitChars 10 txt value := by
    intro txt
    induction txt with
    | nil =>
        intro _ value
        simp
    | cons c txt ih =>
        intro h value
        rw [List.foldl_cons, Nat.ofDigitChars_cons, ih fun c hc => h c (List.mem_cons_of_mem _ hc)]
        simp [digitValue, h c List.mem_cons_self]
  rw [ofDigits, hvalue _ fun c hc => isDigit_of_mem_digits hc, digits,
    Nat.ofDigitChars_ten_toDigits]

/-- What may follow the last digit of a numeral. -/
def EndsNumeral (rest : List Char) : Prop :=
  ∀ c ∈ rest.head?, c.isDigit = false ∧ c ≠ '.' ∧ c.toLower ≠ 'e' ∧ c.toLower ≠ 'x'

section Digits

variable {txt rest : List Char}

theorem span_digits (hdigit : ∀ c ∈ txt, c.isDigit) (hend : EndsNumeral rest) :
    (txt ++ rest).takeWhile Char.isDigit = txt ∧ (txt ++ rest).dropWhile Char.isDigit = rest := by
  rw [List.takeWhile_append_of_pos hdigit, List.dropWhile_append_of_pos hdigit]
  cases rest with
  | nil =>
      simp
  | cons c rest =>
      simp [(hend c rfl).1]

theorem scanNumeral_append (hdigit : ∀ c ∈ txt, c.isDigit) (hne : txt ≠ [])
    (hend : EndsNumeral rest) :
    scanNumeral 10 10 'e' (txt ++ rest) = some ((ofDigits 10 txt : ℚ), rest) := by
  have hbase : isDigitOf 10 = Char.isDigit := by
    funext c
    simp [isDigitOf]
  rcases span_digits hdigit hend with ⟨htake, hdrop⟩
  cases rest with
  | nil =>
      simp only [scanNumeral, hbase, htake, hdrop]
      simp [hne]
  | cons c rest =>
      rcases hend c rfl with ⟨-, hpoint, hmark, -⟩
      simp only [scanNumeral, hbase, htake, hdrop]
      simp [hne, hpoint, hmark]

theorem scanUnsigned_append (hdigit : ∀ c ∈ txt, c.isDigit) (hne : txt ≠ [])
    (hend : EndsNumeral rest) :
    scanUnsigned (txt ++ rest) = some ((ofDigits 10 txt : ℚ), rest) := by
  have hscan := scanNumeral_append hdigit hne hend
  -- a digit behind a zero, or what ends the numeral, is no sign of a hexadecimal one
  have hhex : ∀ zero x tail, txt ++ rest = zero :: x :: tail → x.toLower ≠ 'x' := by
    intro zero x tail heq
    rcases List.cons_eq_append_iff.1 heq.symm with ⟨htxt, -⟩ | ⟨txt', htxt, hrest⟩
    · exact absurd htxt hne
    · cases txt' with
      | nil =>
          have hhead : rest.head? = some x := by
            rw [List.nil_append] at hrest
            rw [← hrest, List.head?_cons]
          exact (hend x hhead).2.2.2
      | cons y txt' =>
          have hxy : x = y := (List.cons.inj hrest).1
          refine (digit_ne (hdigit x ?_)).2.2.2
          simp [htxt, hxy]
  unfold scanUnsigned
  split
  · rename_i x tail heq
    rw [if_neg (hhex _ _ _ heq), hscan]
  · exact hscan

/-- Digits are read as their value, unless more than blanks follow them. -/
theorem tonumber_append (hdigit : ∀ c ∈ txt, c.isDigit) (hne : txt ≠ []) (hend : EndsNumeral rest) :
    tonumber (txt ++ rest) =
      if rest.all isBlank then some (ofDigits 10 txt : ℚ) else none := by
  have hsign : scanSign ((txt ++ rest).dropWhile isBlank) = (false, txt ++ rest) := by
    cases txt with
    | nil =>
        exact absurd rfl hne
    | cons c txt =>
        rcases digit_ne (hdigit c List.mem_cons_self) with ⟨hblank, hminus, hplus, -⟩
        simp [hblank, scanSign, hminus, hplus]
  simp only [tonumber, hsign, scanUnsigned_append hdigit hne hend]
  rfl

theorem tonumber_digits (hdigit : ∀ c ∈ txt, c.isDigit) (hne : txt ≠ []) :
    tonumber txt = some (ofDigits 10 txt : ℚ) := by
  have hend : EndsNumeral [] := by simp [EndsNumeral]
  simpa using tonumber_append hdigit hne hend

end Digits

end Lua
