import LuajitTcpServer.FfiDef.Script

/-!
# Defines — static constants for the macros of a header

`defineLine` of `ffi_def_create_headers.lua` turns `#define NAME VALUE` into a static constant.  The
type is chosen by what the text of the value ends with.

The constants are those of C: decimal, octal and hexadecimal integers with the suffixes `U`, `L`,
`UL`, `LL` and `ULL`, and decimal floating constants with the suffixes `F` and `L`.  An `int` has 32
bits and a `long long` 64; the width of `long` is a parameter.
-/

namespace LuajitTcpServer
namespace FfiDef

open Lua

/-! ## The line -/

/-- The types of the static constants. -/
inductive CType where
  | char
  | int
  | long
  | longLong
  | double
  | longDouble
  deriving DecidableEq, Repr

namespace CType

def text : CType → List Char
  | char => "char".toList
  | int => "int".toList
  | long => "long".toList
  | longLong => "long long".toList
  | double => "double".toList
  | longDouble => "long double".toList

def isFloating : CType → Bool
  | double | longDouble => true
  | _ => false

/-- The number of bits of an integer type. -/
def bits (longBits : Nat) : CType → Option Nat
  | int => some 32
  | long => some longBits
  | longLong => some 64
  | _ => none

def all : List CType := [char, int, long, longLong, double, longDouble]

theorem mem_all (type : CType) : type ∈ all := by
  cases type <;> decide

end CType

def define_pos : Nat := "#define ".length + 1

/-- The patterns of the values, in the order in which they are tried. -/
def definePatterns : List (List Char × CType) :=
  [("\".*%\"$".toList, .char), (".*%dL$".toList, .long), (".*%dLL$".toList, .longLong),
    (".*%dF$".toList, .double), (".*%dDF$".toList, .double), (".*%dDD$".toList, .double),
    (".*%dDL$".toList, .longDouble), ("%d%.%d".toList, .double)]

def firstType (value : List Char) : List (List Char × CType) → Except Error CType
  | [] => .ok .int
  | (pattern, type) :: more =>
      match firstMatch value pattern with
      | .error e => .error e
      | .ok (some _) => .ok type
      | .ok none => firstType value more

def constantLine (type : CType) (name value : List Char) : List Char :=
  "static const ".toList ++ type.text ++ ' ' :: name ++ " = ".toList ++ value ++ [';']

def defineLine (line : List Char) : Except Error (List Char) := do
  let slashes ← find line "%/%/".toList 1 false
  let marker ← if slashes = none then find line "%/%*".toList 1 false else pure slashes
  let (line, comment) ←
    match marker with
    | some (s, _) => do
        let comment ← trimmed (sub line s (-1))
        pure (sub line 1 (s - 1), "  ".toList ++ comment)
    | none => pure (line, [])
  let value := sub line define_pos (-1)
  match ← find value " ".toList 1 false with
  | none => pure []
  | some (s, e) =>
      let value := sub value (e + 1) (-1)
      if value = [] then pure []
      else do
        let name ← trimmed (sub line define_pos (define_pos + s - 2))
        let value ← trimmed value
        pure (constantLine (← firstType value definePatterns) name value ++ comment)

example : defineLine "#define POLLIN 0x0001 /* input */".toList =
    .ok "static const int POLLIN = 0x0001;  /* input */".toList := by
  decide +kernel

/-! ## Constants of C -/

inductive IntegerSuffix where
  | none
  | u
  | l
  | ul
  | ll
  | ull
  deriving DecidableEq, Repr

def IntegerSuffix.text : IntegerSuffix → List Char
  | none => []
  | u => ['U']
  | l => ['L']
  | ul => ['U', 'L']
  | ll => ['L', 'L']
  | ull => ['U', 'L', 'L']

inductive Radix where
  | decimal
  | octal
  | hexadecimal (large : Bool)
  deriving DecidableEq, Repr

namespace Radix

def base : Radix → Nat
  | decimal => 10
  | octal => 8
  | hexadecimal _ => 16

def marker : Radix → List Char
  | hexadecimal true => ['0', 'X']
  | hexadecimal false => ['0', 'x']
  | _ => []

def isDigit : Radix → Char → Bool
  | decimal, c => c.isDigit
  | octal, c => '0' ≤ c && c ≤ '7'
  | hexadecimal _, c => isHexDigit c

end Radix

/-- A decimal constant does not start with a zero, an octal one does. -/
structure IntegerConstant where
  radix : Radix
  digits : List Char
  suffix : IntegerSuffix
  digits_ne : digits ≠ []
  digits_radix : ∀ c ∈ digits, radix.isDigit c
  decimal_first : radix = .decimal → digits.head? ≠ some '0'
  octal_first : radix = .octal → digits.head? = some '0'

def IntegerConstant.text (c : IntegerConstant) : List Char :=
  c.radix.marker ++ c.digits ++ c.suffix.text

def IntegerConstant.value (c : IntegerConstant) : Nat := ofDigits c.radix.base c.digits

inductive FloatingSuffix where
  | none
  | f
  | l
  deriving DecidableEq, Repr

def FloatingSuffix.text : FloatingSuffix → List Char
  | none => []
  | f => ['F']
  | l => ['L']

/-- The letter, the sign and the digits of an exponent. -/
structure Exponent where
  mark : Char
  sign : List Char
  digits : List Char
  mark_e : mark = 'e' ∨ mark = 'E'
  sign_ok : sign = [] ∨ sign = ['+'] ∨ sign = ['-']
  digits_ne : digits ≠ []
  digits_decimal : ∀ c ∈ digits, c.isDigit

def Exponent.text (e : Exponent) : List Char := e.mark :: e.sign ++ e.digits

/-- There are digits, and a point with what follows it or an exponent. -/
structure FloatingConstant where
  whole : List Char
  fraction : Option (List Char)
  exponent : Option Exponent
  suffix : FloatingSuffix
  digits_ne : whole ++ fraction.getD [] ≠ []
  whole_decimal : ∀ c ∈ whole, c.isDigit
  fraction_decimal : ∀ c ∈ fraction.getD [], c.isDigit
  marked : fraction.isSome ∨ exponent.isSome

namespace FloatingConstant

def fractionText (c : FloatingConstant) : List Char :=
  match c.fraction with
  | some fraction => '.' :: fraction
  | none => []

def exponentText (c : FloatingConstant) : List Char :=
  match c.exponent with
  | some exponent => exponent.text
  | none => []

def number (c : FloatingConstant) : List Char := c.whole ++ c.fractionText ++ c.exponentText

def text (c : FloatingConstant) : List Char := c.number ++ c.suffix.text

end FloatingConstant

inductive Constant where
  | integer (c : IntegerConstant)
  | floating (c : FloatingConstant)

def Constant.text : Constant → List Char
  | integer c => c.text
  | floating c => c.text

/-- An integer type that has the value, or a floating type for a floating constant. -/
def Constant.FitsIn (longBits : Nat) : Constant → CType → Prop
  | integer c, type => ∃ bits, type.bits longBits = some bits ∧ c.value < 2 ^ (bits - 1)
  | floating _, type => type.isFloating

/-- The line of a macro is turned into a constant of a type that fits. -/
def KeepsKindAndValue (longBits : Nat) (name : Identifier) (constant : Constant) : Prop :=
  ∃ type, defineLine ("#define ".toList ++ name.text ++ ' ' :: constant.text) =
    .ok (constantLine type name.text constant.text) ∧ constant.FitsIn longBits type

/-! ## The characters of a constant -/

theorem hexDigit_cases {c : Char} (h : isHexDigit c) :
    c ∈ "0123456789abcdefABCDEF".toList := by
  have hle : c.toNat ≤ 102 := by
    rcases Bool.or_eq_true_iff.1 h with hdigit | hletter
    · rcases exists_digitChar hdigit with ⟨d, hd, rfl⟩
      revert d
      decide
    · rw [Bool.and_eq_true, Bool.and_eq_true, decide_eq_true_eq, decide_eq_true_eq] at hletter
      have hlower : c.toLower.toNat ≤ 102 := by
        simpa [Char.le_def, UInt32.le_iff_toNat_le] using hletter.2
      unfold Char.toLower at hlower
      split at hlower
      · rename_i hupper
        have hval : c.toNat = c.val.toNat := rfl
        have hz : c.val ≤ 90 := hupper.2
        rw [UInt32.le_iff_toNat_le] at hz
        have h90 : (90 : UInt32).toNat = 90 := rfl
        omega
      · exact hlower
  have hall : ∀ n < 103, isHexDigit (Char.ofNat n) →
      Char.ofNat n ∈ "0123456789abcdefABCDEF".toList := by
    decide +kernel
  have hc := hall c.toNat (by omega)
  rw [Char.ofNat_toNat] at hc
  exact hc h

theorem Radix.hex_of_isDigit {radix : Radix} {c : Char} (h : radix.isDigit c) :
    isHexDigit c := by
  cases radix with
  | decimal =>
      have hdigit : c.isDigit := h
      simp [isHexDigit, isDigitOf, hdigit]
  | octal =>
      have hoctal : '0' ≤ c ∧ c ≤ '7' := by simpa [Radix.isDigit] using h
      have hdigit : c.isDigit := by
        simp only [Char.isDigit, Bool.and_eq_true, decide_eq_true_eq]
        exact ⟨hoctal.1, Char.le_trans hoctal.2 (by decide)⟩
      simp [isHexDigit, isDigitOf, hdigit]
  | hexadecimal large =>
      exact h

/-! ## What the line becomes -/

/-- Values that no search takes for something else than a number. -/
structure PlainValue (value : List Char) : Prop where
  ne_nil : value ≠ []
  plain : ∀ c ∈ value, isBlank c = false ∧ c ≠ '/' ∧ c ≠ '"'

theorem escaped_holds {c : Char} (hc : classOf c.toLower = none) (d : Char) :
    (Single.cls c).holds d = decide (d = c) := by
  rw [Single.holds, matchClass, hc]

/-- A search for two characters, the first of which is a slash. -/
theorem find_slash_none (second : Char) {pattern txt : List Char}
    (hspecial : pattern.any isSpecial = true) (hpattern : anchor pattern = (false, pattern))
    (hparse : parse pattern = [Single.cls '/', .cls second].map .one) (h : ∀ c ∈ txt, c ≠ '/') :
    find txt pattern 1 false = .ok none := by
  refine find_ones_none hspecial hpattern hparse (not_contains List.mem_cons_self ?_)
  intro c hc
  rw [escaped_holds (by decide), decide_eq_false_iff_not]
  exact h c hc

theorem trim_plain {txt : List Char} (h : ∀ c ∈ txt, isBlank c = false) : trim txt = txt :=
  trim_eq_self (fun c hc => h c (List.mem_of_mem_head? hc))
    fun c hc => h c (List.mem_of_mem_getLast? hc)

/-- The line of a macro whose value is a number is taken apart at the blank behind the name. -/
theorem defineLine_plain (name : Identifier) {value : List Char} (hvalue : PlainValue value) :
    defineLine ("#define ".toList ++ name.text ++ ' ' :: value) =
      (firstType value definePatterns).map fun type => constantLine type name.text value := by
  have hname : ∀ c ∈ name.text, isBlank c = false ∧ c ≠ '/' := fun c hc =>
    ⟨(wordChar_ne (name.text_word c hc)).1, (wordChar_ne (name.text_word c hc)).2.1⟩
  have hslash : ∀ c ∈ "#define ".toList ++ name.text ++ ' ' :: value, c ≠ '/' := by
    intro c hc
    rcases List.mem_append.1 hc with hc | hc
    · rcases List.mem_append.1 hc with hc | hc
      · have hdefine : ∀ c ∈ "#define ".toList, c ≠ '/' := by decide
        exact hdefine c hc
      · exact (hname c hc).2
    · rcases List.mem_cons.1 hc with rfl | hc
      · decide
      · exact (hvalue.plain c hc).2.1
  have hline : find ("#define ".toList ++ name.text ++ ' ' :: value) "%/%/".toList 1 false =
      .ok none :=
    find_slash_none '/' (by decide) rfl (by decide +kernel) hslash
  have hblock : find ("#define ".toList ++ name.text ++ ' ' :: value) "%/%*".toList 1 false =
      .ok none :=
    find_slash_none '*' (by decide) rfl (by decide +kernel) hslash
  have hrest : sub ("#define ".toList ++ name.text ++ ' ' :: value) define_pos (-1) =
      name.text ++ ' ' :: value := by
    have hdrop := sub_from ("#define ".toList ++ name.text ++ ' ' :: value) 8
    rwa [List.append_assoc] at hdrop ⊢
  have hspace : find (name.text ++ ' ' :: value) " ".toList 1 false =
      .ok (some (name.text.length + 1, name.text.length + 1)) := by
    have hfrom : plainFrom " ".toList (name.text ++ ' ' :: value) = some name.text.length :=
      plainFrom_char fun hc => absurd (hname _ hc).1 (by decide)
    rw [find_plain (by decide), Nat.sub_self, Nat.zero_min, List.drop_zero, hfrom]
    simp
  have hsub : sub (name.text ++ ' ' :: value) ((name.text.length + 1 : Nat) + 1) (-1) = value := by
    rw [sub_from]
    simp
  have hnameSub : sub ("#define ".toList ++ name.text ++ ' ' :: value) define_pos
      (define_pos + (name.text.length + 1 : Nat) - 2) = name.text := by
    have hpos : (define_pos : Int) + (name.text.length + 1 : Nat) - 2 =
        (8 + name.text.length : Nat) := by
      have hdefine : define_pos = 9 := by decide
      omega
    have hwithin := sub_within ("#define ".toList ++ name.text ++ ' ' :: value) 8
      (8 + name.text.length)
    rw [hpos]
    refine hwithin.trans ?_
    have hlength : 8 + name.text.length = ("#define ".toList ++ name.text).length := by
      rw [List.length_append]
      rfl
    rw [hlength, List.take_left]
    rfl
  have htrimName : trim name.text = name.text := trim_plain fun c hc => (hname c hc).1
  have htrimValue : trim value = value := trim_plain fun c hc => (hvalue.plain c hc).1
  simp only [defineLine, hline, hblock, hrest, hspace, hsub, hnameSub, trimmed_eq, htrimName,
    htrimValue, if_neg hvalue.ne_nil, bind, Except.bind, pure, Except.pure, if_true]
  cases firstType value definePatterns with
  | error e =>
      rfl
  | ok type =>
      simp [Except.map]

/-! ## The type of a value -/

def digit : Single := .cls 'd'

def letter (c : Char) : Single := .char c

/-- The types that the patterns stand for, for a value without quotes. -/
def typeByEnding (value : List Char) : CType :=
  if EndsWith [digit, letter 'L'] value then .long
  else if EndsWith [digit, letter 'L', letter 'L'] value then .longLong
  else if EndsWith [digit, letter 'F'] value ∨ EndsWith [digit, letter 'D', letter 'F'] value ∨
      EndsWith [digit, letter 'D', letter 'D'] value then .double
  else if EndsWith [digit, letter 'D', letter 'L'] value then .longDouble
  else if Contains [digit, .cls '.', digit] value then .double
  else .int

section FirstType

variable {value pattern : List Char} {type : CType} {more : List (List Char × CType)}
  {singles : List Single}

theorem firstType_miss (h : firstMatch value pattern = .ok none) :
    firstType value ((pattern, type) :: more) = firstType value more := by
  rw [firstType, h]

theorem firstType_ending (hpattern : anchor pattern = (false, pattern))
    (hparse : parse pattern = .star .any :: (singles.map .one ++ [.endAnchor])) :
    firstType value ((pattern, type) :: more) =
      if EndsWith singles value then .ok type else firstType value more := by
  rcases @firstMatch_endsWith _ value _ hpattern hparse with ⟨hends, hnot⟩
  split
  · rename_i h
    rw [firstType, hends h]
  · rename_i h
    exact firstType_miss (hnot h)

theorem firstType_containing (hpattern : anchor pattern = (false, pattern))
    (hparse : parse pattern = singles.map .one) :
    firstType value ((pattern, type) :: more) =
      if Contains singles value then .ok type else firstType value more := by
  rcases @firstMatch_contains _ value _ hpattern hparse with ⟨hcontains, hnot⟩
  split
  · rename_i h
    rcases hcontains h with ⟨found, hfound⟩
    rw [firstType, hfound]
  · rename_i h
    exact firstType_miss (hnot h)

/-- Where no quote stands, a quoted text is not found. -/
theorem firstMatch_quoted (h : '"' ∉ value) :
    firstMatch value "\".*%\"$".toList = .ok none := by
  have hparse : parse "\".*%\"$".toList =
      .one (.char '"') :: [.star .any, .one (.cls '"'), .endAnchor] := by
    decide +kernel
  have hanchor : anchor "\".*%\"$".toList = (false, "\".*%\"$".toList) := rfl
  have hsearch : search (parse "\".*%\"$".toList) false '\x00' value = .ok none := by
    rw [hparse]
    refine search_none ?_
    rintro before rest rfl previous
    cases rest with
    | nil =>
        rfl
    | cons c rest =>
        have hc : c ≠ '"' := by
          rintro rfl
          exact h (List.mem_append_right _ List.mem_cons_self)
        rw [matchItems, Single.holds, decide_eq_false hc.symm]
        rfl
  rw [firstMatch, hanchor]
  simp only [hsearch]

theorem firstType_eq (h : '"' ∉ value) :
    firstType value definePatterns = .ok (typeByEnding value) := by
  rw [definePatterns, firstType_miss (firstMatch_quoted h),
    @firstType_ending _ _ _ _ [digit, letter 'L'] rfl (by decide +kernel),
    @firstType_ending _ _ _ _ [digit, letter 'L', letter 'L'] rfl (by decide +kernel),
    @firstType_ending _ _ _ _ [digit, letter 'F'] rfl (by decide +kernel),
    @firstType_ending _ _ _ _ [digit, letter 'D', letter 'F'] rfl (by decide +kernel),
    @firstType_ending _ _ _ _ [digit, letter 'D', letter 'D'] rfl (by decide +kernel),
    @firstType_ending _ _ _ _ [digit, letter 'D', letter 'L'] rfl (by decide +kernel),
    @firstType_containing _ _ _ _ [digit, .cls '.', digit] rfl (by decide +kernel),
    firstType, typeByEnding]
  split_ifs <;> simp_all

end FirstType

/-! ## Integer constants -/

namespace IntegerConstant

variable (c : IntegerConstant)

theorem text_alphanum : ∀ d ∈ c.text, d.isAlphanum := by
  have hhex : ∀ d ∈ "0123456789abcdefABCDEF".toList, d.isAlphanum := by decide
  have hmarker : ∀ d ∈ c.radix.marker, d.isAlphanum := by
    cases c.radix with
    | hexadecimal large =>
        cases large <;> decide
    | decimal =>
        decide
    | octal =>
        decide
  have hsuffix : ∀ d ∈ c.suffix.text, d.isAlphanum := by
    cases c.suffix <;> decide
  intro d hd
  rcases List.mem_append.1 hd with hd | hd
  · rcases List.mem_append.1 hd with hd | hd
    · exact hmarker d hd
    · exact hhex d (hexDigit_cases (Radix.hex_of_isDigit (c.digits_radix d hd)))
  · exact hsuffix d hd

theorem plainValue : PlainValue c.text where
  ne_nil := by
    simp [text, c.digits_ne]
  plain := by
    intro d hd
    have hword : isWordChar d := by simp [isWordChar, c.text_alphanum d hd]
    rcases wordChar_ne hword with ⟨hblank, hslash, hquote, -⟩
    exact ⟨hblank, hslash, hquote⟩

/-- What ends a constant is not read across the marker in front of its digits. -/
theorem endsWith_marker {singles : List Single}
    (h : ∀ s ∈ singles, s.holds 'x' = false ∧ s.holds 'X' = false) :
    EndsWith singles (c.radix.marker ++ c.digits) ↔ EndsWith singles c.digits := by
  have hreverse : ∀ s ∈ singles.reverse, s.holds 'x' = false ∧ s.holds 'X' = false :=
    fun s hs => h s (List.mem_reverse.1 hs)
  rw [endsWith_iff_reverse, endsWith_iff_reverse, List.reverse_append]
  cases c.radix with
  | hexadecimal large =>
      cases large with
      | true =>
          exact readSingles_stop fun s hs => (hreverse s hs).2
      | false =>
          exact readSingles_stop fun s hs => (hreverse s hs).1
  | decimal =>
      have hmarker : Radix.decimal.marker.reverse = [] := rfl
      rw [hmarker, List.append_nil]
  | octal =>
      have hmarker : Radix.octal.marker.reverse = [] := rfl
      rw [hmarker, List.append_nil]

/-- Hexadecimal digits that look like the suffix of a floating constant. -/
def FloatingTail (digits : List Char) : Prop :=
  EndsWith [digit, letter 'F'] digits ∨ EndsWith [digit, letter 'D', letter 'F'] digits ∨
    EndsWith [digit, letter 'D', letter 'D'] digits

instance (digits : List Char) : Decidable (FloatingTail digits) :=
  inferInstanceAs (Decidable (_ ∨ _ ∨ _))

/-- The type chosen for the constant. -/
def type : CType :=
  match c.suffix with
  | .none => if FloatingTail c.digits then .double else .int
  | .l =>
      if EndsWith [digit] c.digits then .long
      else if EndsWith [digit, letter 'D'] c.digits then .longDouble
      else .int
  | .ll => if EndsWith [digit] c.digits then .longLong else .int
  | _ => .int

theorem typeByEnding_text : typeByEnding c.text = c.type := by
  have hpoint : ¬ Contains [digit, .cls '.', digit] c.text := by
    refine not_contains (List.mem_cons_of_mem _ List.mem_cons_self) ?_
    intro d hd
    rw [escaped_holds (by decide), decide_eq_false_iff_not]
    rintro rfl
    exact absurd (c.text_alphanum _ hd) (by decide)
  -- the last digit is no letter of a suffix
  have hlast : ∀ s : Single, (∀ d ∈ "0123456789abcdefABCDEF".toList, s.holds d = false) →
      ∀ singles : List Single, ¬ EndsWith (singles ++ [s]) (c.radix.marker ++ c.digits) := by
    intro s hs singles
    rcases List.eq_nil_or_concat c.digits with hnil | ⟨digits, d, hdigits⟩
    · exact absurd hnil c.digits_ne
    · have hd : d ∈ c.digits := by simp [hdigits]
      have hholds := hs d (hexDigit_cases (Radix.hex_of_isDigit (c.digits_radix d hd)))
      rw [hdigits, List.concat_eq_append, ← List.append_assoc, endsWith_concat, hholds]
      simp
  have hL := hlast (letter 'L') (by decide)
  have hLone : ¬ EndsWith [letter 'L'] (c.radix.marker ++ c.digits) := hL []
  have hLtwo : ¬ EndsWith [digit, letter 'L'] (c.radix.marker ++ c.digits) := hL [digit]
  have hLthree : ∀ s, ¬ EndsWith [digit, s, letter 'L'] (c.radix.marker ++ c.digits) :=
    fun s => hL [digit, s]
  have hone : EndsWith [digit] (c.radix.marker ++ c.digits) ↔ EndsWith [digit] c.digits :=
    c.endsWith_marker (by decide)
  have htwo : EndsWith [digit, letter 'D'] (c.radix.marker ++ c.digits) ↔
      EndsWith [digit, letter 'D'] c.digits := c.endsWith_marker (by decide)
  have hF : EndsWith [digit, letter 'F'] (c.radix.marker ++ c.digits) ↔
      EndsWith [digit, letter 'F'] c.digits := c.endsWith_marker (by decide)
  have hDF : EndsWith [digit, letter 'D', letter 'F'] (c.radix.marker ++ c.digits) ↔
      EndsWith [digit, letter 'D', letter 'F'] c.digits := c.endsWith_marker (by decide)
  have hDD : EndsWith [digit, letter 'D', letter 'D'] (c.radix.marker ++ c.digits) ↔
      EndsWith [digit, letter 'D', letter 'D'] c.digits := c.endsWith_marker (by decide)
  have hU : digit.holds 'U' = false ∧ digit.holds 'L' = false ∧ (letter 'L').holds 'L' = true ∧
      (letter 'L').holds 'U' = false ∧ (letter 'F').holds 'L' = false ∧
      (letter 'F').holds 'U' = false ∧ (letter 'D').holds 'L' = false ∧
      (letter 'D').holds 'U' = false := by decide
  rcases hU with ⟨hdU, hdL, hLL, hLU, hFL, hFU, hDL, hDU⟩
  rw [typeByEnding, if_neg hpoint]
  unfold type text
  cases c.suffix with
  | none =>
      simp only [IntegerSuffix.text, List.append_nil, hLtwo, hLthree, hF, hDF, hDD, if_false]
      rfl
  | u =>
      simp only [IntegerSuffix.text, endsWith_two, endsWith_three, hLU, hFU, hDU,
        Bool.false_eq_true, false_and, or_self, if_false]
  | l =>
      simp only [IntegerSuffix.text, endsWith_two, endsWith_three, hLL, hFL, hDL,
        Bool.false_eq_true, false_and, true_and, or_self, if_false, hLtwo, hone, htwo]
  | ul =>
      have hsplit : ['U', 'L'] = ['U'] ++ ['L'] := rfl
      simp only [IntegerSuffix.text, hsplit, ← List.append_assoc, endsWith_one, endsWith_two,
        endsWith_three, hLL, hFL, hDL, hdU, hLU, hDU, Bool.false_eq_true, false_and, and_false,
        or_self, if_false]
  | ll =>
      have hsplit : ['L', 'L'] = ['L'] ++ ['L'] := rfl
      simp only [IntegerSuffix.text, hsplit, ← List.append_assoc, endsWith_one, endsWith_two,
        endsWith_three, hLL, hFL, hDL, hdL, Bool.false_eq_true, false_and, and_false, true_and,
        or_self, if_false, hone]
  | ull =>
      have hsplit : ['U', 'L', 'L'] = ['U'] ++ ['L'] ++ ['L'] := rfl
      simp only [IntegerSuffix.text, hsplit, ← List.append_assoc, endsWith_one, endsWith_two,
        endsWith_three, hLL, hFL, hDL, hdL, hdU, Bool.false_eq_true, and_false, or_self,
        if_false]

end IntegerConstant

/-! ## Floating constants -/

/-- A point has to stand between two digits, where it stands only once. -/
theorem contains_point {before after : List Char} (hbefore : '.' ∉ before) (hafter : '.' ∉ after) :
    Contains [digit, .cls '.', digit] (before ++ '.' :: after) ↔
      (∃ d ∈ before.getLast?, d.isDigit) ∧ ∃ d ∈ after.head?, d.isDigit := by
  have hpoint : ∀ d, (Single.cls '.').holds d = decide (d = '.') := escaped_holds (by decide)
  have hdigit : ∀ d, digit.holds d = d.isDigit := fun _ => rfl
  have hrest : ¬ Contains [digit, .cls '.', digit] ('.' :: after) := by
    rw [contains_cons]
    rintro (hread | hcontains)
    · cases hread
    · refine not_contains (List.mem_cons_of_mem _ List.mem_cons_self) ?_ hcontains
      intro d hd
      rw [hpoint, decide_eq_false_iff_not]
      rintro rfl
      exact hafter hd
  induction before with
  | nil =>
      simp [hrest]
  | cons c before ih =>
      rw [List.cons_append, contains_cons]
      cases before with
      | nil =>
          -- here the point stands behind `c`
          rw [List.nil_append, iff_false_intro hrest, or_false]
          cases after with
          | nil =>
              simp [readSingles, hdigit]
          | cons d after =>
              simp only [readSingles, hdigit, hpoint, decide_true, if_true]
              cases hc : c.isDigit <;> cases hd : d.isDigit <;> simp [hc, hd]
      | cons d before =>
          have hd : d ≠ '.' := fun heq => hbefore (by simp [heq])
          have hread : ¬ (readSingles [digit, .cls '.', digit]
              (c :: (d :: before ++ '.' :: after))).isSome := by
            simp only [List.cons_append, readSingles, hdigit, hpoint, decide_eq_false hd]
            cases c.isDigit <;> simp
          have hrec := ih fun hmem => hbefore (List.mem_cons_of_mem _ hmem)
          rw [iff_false_intro hread, false_or, List.getLast?_cons_cons]
          exact hrec

theorem Exponent.text_chars (e : Exponent) :
    ∀ d ∈ e.text, d.isDigit ∨ d ∈ ['e', 'E', '+', '-'] := by
  intro d hd
  rcases List.mem_append.1 hd with hd | hd
  · rcases List.mem_cons.1 hd with rfl | hd
    · rcases e.mark_e with hmark | hmark <;> rw [hmark] <;> decide
    · rcases e.sign_ok with hsign | hsign | hsign <;> rw [hsign] at hd
      · cases hd
      · rw [List.mem_singleton.1 hd]
        decide
      · rw [List.mem_singleton.1 hd]
        decide
  · exact Or.inl (e.digits_decimal d hd)

namespace FloatingConstant

variable (c : FloatingConstant)

theorem exponentText_chars : ∀ d ∈ c.exponentText, d.isDigit ∨ d ∈ ['e', 'E', '+', '-'] := by
  intro d hd
  rw [exponentText] at hd
  cases he : c.exponent with
  | none =>
      rw [he] at hd
      cases hd
  | some e =>
      rw [he] at hd
      exact e.text_chars d hd

/-- There are digits on both sides of a point. -/
def Pointed : Prop := c.whole ≠ [] ∧ c.fraction.getD [] ≠ []

/-- The point is the last character of the number. -/
def EndsInPoint : Prop := c.fraction = some [] ∧ c.exponent.isNone

instance : Decidable c.Pointed := inferInstanceAs (Decidable (_ ∧ _))

instance : Decidable c.EndsInPoint := inferInstanceAs (Decidable (_ ∧ _))

theorem exponentText_cases : c.exponentText = [] ∧ c.exponent = none ∨
    ∃ mark before last, c.exponentText = mark :: before ++ [last] ∧ mark.isDigit = false ∧
      last.isDigit ∧ c.exponent.isNone = false := by
  rw [exponentText]
  cases hexponent : c.exponent with
  | none =>
      exact Or.inl ⟨rfl, rfl⟩
  | some e =>
      refine Or.inr ?_
      rcases List.eq_nil_or_concat e.digits with hnil | ⟨digits, last, hdigits⟩
      · exact absurd hnil e.digits_ne
      · refine ⟨e.mark, e.sign ++ digits, last, ?_, ?_, ?_, rfl⟩
        · simp [Exponent.text, hdigits]
        · rcases e.mark_e with hmark | hmark <;> rw [hmark] <;> decide
        · exact e.digits_decimal last (by simp [hdigits])

theorem text_chars : ∀ d ∈ c.text,
    d.isDigit ∨ d ∈ ['.', 'e', 'E', '+', '-', 'F', 'L'] := by
  intro d hd
  rcases List.mem_append.1 hd with hd | hd
  · rcases List.mem_append.1 hd with hd | hd
    · rcases List.mem_append.1 hd with hd | hd
      · exact Or.inl (c.whole_decimal d hd)
      · have hfraction := c.fraction_decimal
        rw [fractionText] at hd
        cases hf : c.fraction with
        | none =>
            rw [hf] at hd
            cases hd
        | some fraction =>
            rw [hf] at hd hfraction
            rcases List.mem_cons.1 hd with rfl | hd
            · exact Or.inr (by decide)
            · exact Or.inl (hfraction d hd)
    · have hletters : ∀ d ∈ ['e', 'E', '+', '-'], d ∈ ['.', 'e', 'E', '+', '-', 'F', 'L'] := by
        decide
      exact (c.exponentText_chars d hd).imp_right (hletters d)
  · have hsuffix : ∀ d ∈ c.suffix.text, d ∈ ['.', 'e', 'E', '+', '-', 'F', 'L'] := by
      cases c.suffix <;> decide
    exact Or.inr (hsuffix d hd)

theorem plainValue : PlainValue c.text where
  ne_nil := by
    have hdigits := c.digits_ne
    intro hnil
    rw [text, List.append_eq_nil_iff, number, List.append_eq_nil_iff, List.append_eq_nil_iff]
      at hnil
    rcases hnil with ⟨⟨⟨hwhole, hfraction⟩, -⟩, -⟩
    rw [hwhole, List.nil_append] at hdigits
    rw [fractionText] at hfraction
    cases hf : c.fraction with
    | none =>
        rw [hf] at hdigits
        exact hdigits rfl
    | some fraction =>
        rw [hf] at hfraction
        cases hfraction
  plain := by
    have hother : ∀ d ∈ ['.', 'e', 'E', '+', '-', 'F', 'L'],
        isBlank d = false ∧ d ≠ '/' ∧ d ≠ '"' := by decide
    intro d hd
    rcases c.text_chars d hd with hdigit | hd
    · have hword : isWordChar d := by simp [isWordChar, Char.isAlphanum, hdigit]
      rcases wordChar_ne hword with ⟨hblank, hslash, hquote, -⟩
      exact ⟨hblank, hslash, hquote⟩
    · exact hother d hd

/-- The number ends with a digit or with its point. -/
theorem number_last : c.EndsInPoint ∧ c.number = c.whole ++ ['.'] ∨
    ¬ c.EndsInPoint ∧ ∃ before last, c.number = before ++ [last] ∧ last.isDigit := by
  rcases c.exponentText_cases with ⟨htext, hnone⟩ |
    ⟨mark, before, last, htext, -, hlast, hsome⟩
  · have hfraction := c.fraction_decimal
    have hmarked := c.marked
    rw [hnone] at hmarked
    rw [number, htext, List.append_nil, fractionText, EndsInPoint, hnone]
    cases hf : c.fraction with
    | none =>
        rw [hf] at hmarked
        cases hmarked <;> contradiction
    | some fraction =>
        rw [hf] at hfraction
        rcases List.eq_nil_or_concat fraction with rfl | ⟨digits, last, rfl⟩
        · exact Or.inl ⟨⟨rfl, rfl⟩, rfl⟩
        · refine Or.inr ⟨by simp, c.whole ++ '.' :: digits, last, by simp, ?_⟩
          exact hfraction last (by simp)
  · have hnot : ¬ c.EndsInPoint := by
      rintro ⟨-, hnone⟩
      rw [hsome] at hnone
      cases hnone
    refine Or.inr ⟨hnot, c.whole ++ c.fractionText ++ mark :: before, last, ?_, hlast⟩
    rw [number, htext, List.append_assoc, List.append_assoc, List.append_assoc]

theorem contains_text : Contains [digit, .cls '.', digit] c.text ↔ c.Pointed := by
  have hother : ∀ d ∈ c.exponentText ++ c.suffix.text, d ≠ '.' := by
    have hsuffix : ∀ d ∈ c.suffix.text, d ≠ '.' := by
      cases c.suffix <;> decide
    intro d hd
    rcases List.mem_append.1 hd with hd | hd
    · rintro rfl
      exact absurd (c.exponentText_chars _ hd) (by decide)
    · exact hsuffix d hd
  have hwhole : '.' ∉ c.whole := fun hmem => absurd (c.whole_decimal _ hmem) (by decide)
  have hfractionPoint := c.fraction_decimal
  cases hf : c.fraction with
  | none =>
      have hnot : ¬ Contains [digit, .cls '.', digit] c.text := by
        refine not_contains (List.mem_cons_of_mem _ List.mem_cons_self) ?_
        intro d hd
        rw [escaped_holds (by decide), decide_eq_false_iff_not]
        rintro rfl
        rw [text, number, fractionText, hf, List.append_nil, List.append_assoc] at hd
        rcases List.mem_append.1 hd with hd | hd
        · exact hwhole hd
        · exact hother _ hd rfl
      simp [hnot, Pointed, hf]
  | some fraction =>
      rw [hf, Option.getD_some] at hfractionPoint
      have htext : c.text = c.whole ++ '.' :: (fraction ++ (c.exponentText ++ c.suffix.text)) := by
        simp [text, number, fractionText, hf]
      have hafter : '.' ∉ fraction ++ (c.exponentText ++ c.suffix.text) := by
        intro hmem
        rcases List.mem_append.1 hmem with hmem | hmem
        · exact absurd (hfractionPoint _ hmem) (by decide)
        · exact hother _ hmem rfl
      have hlast : (∃ d ∈ c.whole.getLast?, d.isDigit) ↔ c.whole ≠ [] := by
        constructor
        · rintro ⟨d, hd, -⟩ hnil
          rw [hnil] at hd
          cases hd
        · intro hne
          exact ⟨_, List.getLast?_eq_some_getLast hne, c.whole_decimal _ (List.getLast_mem hne)⟩
      have hhead : (∃ d ∈ (fraction ++ (c.exponentText ++ c.suffix.text)).head?, d.isDigit) ↔
          fraction ≠ [] := by
        cases fraction with
        | cons d fraction =>
            simp [hfractionPoint d List.mem_cons_self]
        | nil =>
            -- an exponent or a suffix starts with a letter
            have hsuffix : ∀ d ∈ c.suffix.text.head?, d.isDigit = false := by
              cases c.suffix <;> decide
            rcases c.exponentText_cases with ⟨hexponent, -⟩ |
              ⟨mark, before, last, hexponent, hmark, -, -⟩
            · rw [hexponent, List.nil_append, List.nil_append]
              refine iff_of_false ?_ (fun h => h rfl)
              rintro ⟨d, hd, hdigit⟩
              rw [hsuffix d hd] at hdigit
              cases hdigit
            · rw [hexponent]
              simp [hmark]
      rw [htext, contains_point hwhole hafter, hlast, hhead, Pointed, hf, Option.getD_some]

/-- The type chosen for the constant. -/
def type : CType :=
  match c.suffix with
  | .none => if c.Pointed then .double else .int
  | .f => if c.EndsInPoint then .int else .double
  | .l => if c.EndsInPoint then .int else .long

theorem typeByEnding_text : typeByEnding c.text = c.type := by
  have hdigit : ∀ last : Char, last.isDigit → digit.holds last = true ∧
      (letter 'L').holds last = false ∧ (letter 'D').holds last = false ∧
      (letter 'F').holds last = false := by
    intro last hlast
    rcases exists_digitChar hlast with ⟨d, hd, rfl⟩
    revert d
    decide
  have hpoint : digit.holds '.' = false ∧ (letter 'L').holds '.' = false ∧
      (letter 'D').holds '.' = false ∧ (letter 'F').holds '.' = false := by decide
  have hsuffix : (letter 'L').holds 'F' = false ∧ (letter 'D').holds 'F' = false ∧
      (letter 'F').holds 'F' = true ∧ (letter 'L').holds 'L' = true ∧
      (letter 'D').holds 'L' = false ∧ (letter 'F').holds 'L' = false := by decide
  rcases hpoint with ⟨hpd, hpL, hpD, hpF⟩
  rcases hsuffix with ⟨hFL, hFD, hFF, hLL, hLD, hLF⟩
  rw [typeByEnding]
  simp only [contains_text]
  unfold type text
  rcases c.number_last with ⟨hends, hnumber⟩ | ⟨hends, before, last, hnumber, hlast⟩
  · -- without digits behind the point nothing is found
    have hpointed : ¬ c.Pointed := by
      rintro ⟨-, hfraction⟩
      rw [hends.1] at hfraction
      exact hfraction rfl
    rw [hnumber]
    cases c.suffix <;> simp only [FloatingSuffix.text, List.append_nil, endsWith_one, endsWith_two,
      endsWith_three, hpd, hpL, hpD, hpF, hFL, hFD, hFF, hLL, hLD, hLF, Bool.false_eq_true,
      false_and, true_and, or_self, if_false, if_neg hpointed, if_pos hends]
  · rcases hdigit last hlast with ⟨hld, hlL, hlD, hlF⟩
    rw [hnumber]
    cases c.suffix <;> simp only [FloatingSuffix.text, List.append_nil, endsWith_one, endsWith_two,
      endsWith_three, hld, hlL, hlD, hlF, hFL, hFD, hFF, hLL, hLD, hLF, Bool.false_eq_true,
      false_and, true_and, or_self, true_or, if_false, if_true, if_neg hends]

end FloatingConstant

/-! ## When kind and value are kept -/

/-- The integer constants that are kept: hexadecimal digits must not look like the suffix of a
floating constant, and only the suffixes `L` and `LL` behind a decimal digit make the type wider
than `int`. -/
def IntegerConstant.Kept (longBits : Nat) (c : IntegerConstant) : Prop :=
  match c.suffix with
  | .none => ¬ FloatingTail c.digits ∧ c.value < 2 ^ 31
  | .l =>
      EndsWith [digit] c.digits ∧ c.value < 2 ^ (longBits - 1) ∨
        ¬ EndsWith [digit] c.digits ∧ ¬ EndsWith [digit, letter 'D'] c.digits ∧
          c.value < 2 ^ 31
  | .ll =>
      EndsWith [digit] c.digits ∧ c.value < 2 ^ 63 ∨
        ¬ EndsWith [digit] c.digits ∧ c.value < 2 ^ 31
  | _ => c.value < 2 ^ 31

/-- The floating constants that are kept: those without suffix that have digits on both sides of a
point, and those with the suffix `F` behind a digit. -/
def FloatingConstant.Kept (c : FloatingConstant) : Prop :=
  match c.suffix with
  | .none => c.Pointed
  | .f => ¬ c.EndsInPoint
  | .l => False

theorem IntegerConstant.fits_iff (longBits : Nat) (c : IntegerConstant) :
    (∃ bits, c.type.bits longBits = some bits ∧ c.value < 2 ^ (bits - 1)) ↔ c.Kept longBits := by
  have hint : (∃ bits, CType.int.bits longBits = some bits ∧ c.value < 2 ^ (bits - 1)) ↔
      c.value < 2 ^ 31 := by
    simp [CType.bits]
  have hlong : (∃ bits, CType.long.bits longBits = some bits ∧ c.value < 2 ^ (bits - 1)) ↔
      c.value < 2 ^ (longBits - 1) := by
    simp [CType.bits]
  have hlongLong : (∃ bits, CType.longLong.bits longBits = some bits ∧
      c.value < 2 ^ (bits - 1)) ↔ c.value < 2 ^ 63 := by
    simp [CType.bits]
  have hfloating : ∀ type : CType, type.isFloating →
      ¬ ∃ bits, type.bits longBits = some bits ∧ c.value < 2 ^ (bits - 1) := by
    rintro type htype ⟨bits, hbits, -⟩
    cases type <;> cases hbits <;> cases htype
  have hdouble := hfloating .double rfl
  have hlongDouble := hfloating .longDouble rfl
  unfold type Kept
  cases c.suffix with
  | none =>
      by_cases htail : FloatingTail c.digits
      · simp only [htail, if_true, hdouble, not_true, false_and]
      · simp only [htail, if_false, hint, not_false_iff, true_and]
  | u =>
      exact hint
  | l =>
      by_cases hone : EndsWith [digit] c.digits
      · simp only [hone, if_true, hlong, true_and, not_true, false_and, or_false]
      · by_cases htwo : EndsWith [digit, letter 'D'] c.digits
        · simp only [hone, htwo, if_true, if_false, hlongDouble, not_true, false_and, and_false,
            or_self]
        · simp only [hone, htwo, if_false, hint, not_false_iff, true_and, false_and, false_or]
  | ul =>
      exact hint
  | ll =>
      by_cases hone : EndsWith [digit] c.digits
      · simp only [hone, if_true, hlongLong, true_and, not_true, false_and, or_false]
      · simp only [hone, if_false, hint, not_false_iff, true_and, false_and, false_or]
  | ull =>
      exact hint

theorem FloatingConstant.fits_iff (c : FloatingConstant) : c.type.isFloating ↔ c.Kept := by
  unfold type Kept
  cases c.suffix with
  | none =>
      by_cases hpointed : c.Pointed <;> simp [hpointed, CType.isFloating]
  | f =>
      by_cases hends : c.EndsInPoint <;> simp [hends, CType.isFloating]
  | l =>
      by_cases hends : c.EndsInPoint <;> simp [hends, CType.isFloating]

namespace Constant

def Kept (longBits : Nat) : Constant → Prop
  | integer c => c.Kept longBits
  | floating c => c.Kept

def type : Constant → CType
  | integer c => c.type
  | floating c => c.type

theorem firstType_text (constant : Constant) :
    PlainValue constant.text ∧
      firstType constant.text definePatterns = .ok constant.type := by
  have hplain : PlainValue constant.text := by
    cases constant with
    | integer c =>
        exact c.plainValue
    | floating c =>
        exact c.plainValue
  refine ⟨hplain, ?_⟩
  rw [firstType_eq fun hmem => (hplain.plain _ hmem).2.2 rfl]
  cases constant with
  | integer c =>
      exact congrArg _ c.typeByEnding_text
  | floating c =>
      exact congrArg _ c.typeByEnding_text

theorem fitsIn_type_iff (longBits : Nat) (constant : Constant) :
    constant.FitsIn longBits constant.type ↔ constant.Kept longBits := by
  cases constant with
  | integer c =>
      exact c.fits_iff longBits
  | floating c =>
      exact c.fits_iff

end Constant

theorem constantLine_inj {type type' : CType} {name value : List Char}
    (h : constantLine type name value = constantLine type' name value) : type = type' := by
  have htext : type.text = type'.text := by
    unfold constantLine at h
    exact List.append_cancel_left (List.append_cancel_right (List.append_cancel_right
      (List.append_cancel_right (List.append_cancel_right h))))
  have hall : ∀ type ∈ CType.all, ∀ type' ∈ CType.all, type.text = type'.text → type = type' := by
    decide
  exact hall type type.mem_all type' type'.mem_all htext

/-- Kind and value of a constant are kept if and only if the type for its ending fits it. -/
theorem keepsKindAndValue_iff (longBits : Nat) (name : Identifier) (constant : Constant) :
    KeepsKindAndValue longBits name constant ↔ constant.Kept longBits := by
  rcases constant.firstType_text with ⟨hplain, htype⟩
  have hline := defineLine_plain name hplain
  rw [htype] at hline
  rw [← Constant.fitsIn_type_iff]
  constructor
  · rintro ⟨type, hdefine, hfits⟩
    rw [hline] at hdefine
    rwa [constantLine_inj (Except.ok.inj hdefine)]
  · intro hfits
    exact ⟨constant.type, hline, hfits⟩

def oAppend : Identifier where
  text := "O_APPEND".toList
  text_ne := by decide
  text_word := by decide
  text_first := by decide

def hexadecimalFlag : IntegerConstant where
  radix := .hexadecimal false
  digits := "1F".toList
  suffix := .none
  digits_ne := by decide
  digits_radix := by decide
  decimal_first := by decide
  octal_first := by decide

/-- The last digit of a flag is taken for the suffix of a floating constant. -/
theorem hexadecimal_flag_becomes_double :
    defineLine "#define O_APPEND 0x1F".toList =
        .ok "static const double O_APPEND = 0x1F;".toList ∧
      ¬ KeepsKindAndValue 64 oAppend (.integer hexadecimalFlag) := by
  constructor
  · decide +kernel
  · rintro ⟨type, hdefine, bits, hbits, -⟩
    have hdouble : defineLine ("#define ".toList ++ oAppend.text ++
        ' ' :: (Constant.integer hexadecimalFlag).text) =
        .ok (constantLine .double oAppend.text (Constant.integer hexadecimalFlag).text) := by
      decide +kernel
    rw [hdouble] at hdefine
    have htype : CType.double = type := constantLine_inj (Except.ok.inj hdefine)
    rw [← htype] at hbits
    cases hbits

end FfiDef
end LuajitTcpServer
