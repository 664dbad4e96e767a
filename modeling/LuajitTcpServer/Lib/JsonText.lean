import LuajitTcpServer.Lib.Numerals

/-!
# JsonText — what a text of JSON stands for

The grammar of JSON as relations between texts and what they stand for.  A character is a byte, so
the string that a text stands for is one of bytes in UTF-8.

* `Numeral` — a numeral with its value;
* `Reads`, `StringText` — the strings, with their escapes;
* `Text` — the texts of a tree of values.
-/

namespace JsonText

open Lua

/-! ## Numerals -/

inductive Sign where
  | none
  | plus
  | minus
  deriving DecidableEq, Repr

def Sign.text : Sign → List Char
  | .none => []
  | .plus => ['+']
  | .minus => ['-']

structure Exponent where
  mark : Char
  sign : Sign
  digits : List Char
  mark_eq : mark = 'e' ∨ mark = 'E'
  digit : ∀ c ∈ digits, c.isDigit
  ne_nil : digits ≠ []

def Exponent.text (e : Exponent) : List Char := e.mark :: (e.sign.text ++ e.digits)

def Exponent.value (e : Exponent) : Int :=
  if e.sign = .minus then -(ofDigits 10 e.digits : Int) else ofDigits 10 e.digits

/-- A numeral in its parts; one without a point has no fraction. -/
structure Numeral where
  negative : Bool
  whole : List Char
  fraction : List Char
  exponent : Option Exponent
  whole_digit : ∀ c ∈ whole, c.isDigit
  whole_ne_nil : whole ≠ []
  no_zero : whole.head? = some '0' → whole = ['0']
  fraction_digit : ∀ c ∈ fraction, c.isDigit

namespace Numeral

def fractionText (n : Numeral) : List Char :=
  if n.fraction = [] then [] else '.' :: n.fraction

def exponentText (n : Numeral) : List Char := (n.exponent.map Exponent.text).getD []

def text (n : Numeral) : List Char :=
  (if n.negative then ['-'] else []) ++ (n.whole ++ (n.fractionText ++ n.exponentText))

def magnitude (n : Numeral) : ℚ :=
  ofDigits 10 (n.whole ++ n.fraction) / 10 ^ n.fraction.length *
    10 ^ ((n.exponent.map Exponent.value).getD 0)

def value (n : Numeral) : ℚ := if n.negative then -n.magnitude else n.magnitude

end Numeral

/-! ## Strings -/

/-- The bytes of a character in UTF-8. -/
def bytesOf (c : Char) : List Char := (String.utf8EncodeChar c).map fun b => Char.ofNat b.toNat

/-- The letters of the short escapes, and what these stand for. -/
def shorts : List (Char × Char) :=
  [('"', '"'), ('\\', '\\'), ('/', '/'), ('b', '\x08'), ('f', '\x0c'), ('n', '\n'), ('r', '\r'),
    ('t', '\t')]

/-- Four hexadecimal digits and their value. -/
structure CodeUnit (digits : List Char) (value : Nat) : Prop where
  length_eq : digits.length = 4
  hex : ∀ d ∈ digits, isDigitOf 16 d
  value_eq : ofDigits 16 digits = value

def unitText (digits : List Char) : List Char := '\\' :: 'u' :: digits

/-- An escape, and the bytes it stands for. -/
inductive Escape : List Char → List Char → Prop
  | short (x c : Char) (h : (x, c) ∈ shorts) : Escape ['\\', x] [c]
  | unit (digits : List Char) (c : Char) (h : CodeUnit digits c.toNat) :
      Escape (unitText digits) (bytesOf c)
  /-- The two surrogates of a character behind the first plane. -/
  | pair (digits digits' : List Char) (high low : Nat) (c : Char)
      (h : CodeUnit digits high) (h' : CodeUnit digits' low)
      (hhigh : 0xD800 ≤ high ∧ high ≤ 0xDBff) (hlow : 0xDC00 ≤ low ∧ low ≤ 0xDFFF)
      (hc : c.toNat = (high - 0xD800) * 0x400 + (low - 0xDC00) + 0x10000) :
      Escape (unitText digits ++ unitText digits') (bytesOf c)

/-- The text between the quotes, and the string it stands for. -/
inductive Reads : List Char → List Char → Prop
  | nil : Reads [] []
  | plain {body v : List Char} (c : Char) (hquote : c ≠ '"') (hbackslash : c ≠ '\\')
      (hcontrol : 0x20 ≤ c.toNat) : Reads body v → Reads (c :: body) (c :: v)
  | escape {e w body v : List Char} : Escape e w → Reads body v → Reads (e ++ body) (w ++ v)

def StringText (q v : List Char) : Prop := ∃ body, Reads body v ∧ q = '"' :: (body ++ ['"'])

/-! ## Values -/

inductive Tree where
  | null
  | bool (b : Bool)
  | num (q : ℚ)
  | str (v : List Char)
  | arr (items : List Tree)
  | obj (pairs : List (List Char × Tree))

def isWhite (c : Char) : Bool := c = ' ' || c = '\t' || c = '\n' || c = '\r'

def White (w : List Char) : Prop := ∀ c ∈ w, isWhite c

theorem white_nil : White [] := List.forall_mem_nil _

def nullText : List Char := ['n', 'u', 'l', 'l']

def boolText : Bool → List Char
  | true => ['t', 'r', 'u', 'e']
  | false => ['f', 'a', 'l', 's', 'e']

mutual

/-- A text of a tree, without blanks around it. -/
inductive Text : Tree → List Char → Prop
  | null : Text .null nullText
  | bool (b : Bool) : Text (.bool b) (boolText b)
  | num (n : Numeral) : Text (.num n.value) n.text
  | str {q v : List Char} (h : StringText q v) : Text (.str v) q
  | arr {items : List Tree} {txt : List Char} (h : Items items txt) :
      Text (.arr items) ('[' :: txt)
  | obj {pairs : List (List Char × Tree)} {txt : List Char} (h : Pairs pairs txt) :
      Text (.obj pairs) ('{' :: txt)

/-- What stands behind the bracket that opens an array, up to the one that closes it. -/
inductive Items : List Tree → List Char → Prop
  | nil {w : List Char} (hw : White w) : Items [] (w ++ [']'])
  | last {t : Tree} {w txt w' : List Char} (hw : White w) (h : Text t txt) (hw' : White w') :
      Items [t] (w ++ (txt ++ (w' ++ [']'])))
  | more {t t' : Tree} {items : List Tree} {w txt w' rest : List Char} (hw : White w)
      (h : Text t txt) (hw' : White w') (hrest : Items (t' :: items) rest) :
      Items (t :: t' :: items) (w ++ (txt ++ (w' ++ ',' :: rest)))

/-- What stands behind the brace that opens an object, up to the one that closes it. -/
inductive Pairs : List (List Char × Tree) → List Char → Prop
  | nil {w : List Char} (hw : White w) : Pairs [] (w ++ ['}'])
  | last {key : List Char} {t : Tree} {w q w₁ w₂ txt w' : List Char} (hw : White w)
      (hkey : StringText q key) (hw₁ : White w₁) (hw₂ : White w₂) (h : Text t txt)
      (hw' : White w') :
      Pairs [(key, t)] (w ++ (q ++ (w₁ ++ ':' :: (w₂ ++ (txt ++ (w' ++ ['}']))))))
  | more {key : List Char} {t : Tree} {pair : List Char × Tree} {pairs : List (List Char × Tree)}
      {w q w₁ w₂ txt w' rest : List Char} (hw : White w) (hkey : StringText q key)
      (hw₁ : White w₁) (hw₂ : White w₂) (h : Text t txt) (hw' : White w')
      (hrest : Pairs (pair :: pairs) rest) :
      Pairs ((key, t) :: pair :: pairs)
        (w ++ (q ++ (w₁ ++ ':' :: (w₂ ++ (txt ++ (w' ++ ',' :: rest))))))

end

/-! ## What a numeral is read as -/

section Numerals

theorem takeWhile_append_stop {p : Char → Bool} {txt rest : List Char} (htxt : ∀ c ∈ txt, p c)
    (hrest : ∀ c ∈ rest.head?, p c = false) :
    (txt ++ rest).takeWhile p = txt ∧ (txt ++ rest).dropWhile p = rest := by
  rw [List.takeWhile_append_of_pos htxt, List.dropWhile_append_of_pos htxt]
  cases rest with
  | nil =>
      simp
  | cons c rest =>
      simp [hrest c rfl]

theorem scanExponent_text (e : Exponent) :
    scanExponent (e.sign.text ++ e.digits) = some (e.value, []) := by
  rcases e with ⟨mark, sign, digits, hmark, hdigit, hne⟩
  have hspan := @takeWhile_append_stop _ _ [] hdigit (by simp)
  rw [List.append_nil] at hspan
  have hsign : scanSign (sign.text ++ digits) = (decide (sign = .minus), digits) := by
    cases sign with
    | plus =>
        rfl
    | minus =>
        rfl
    | none =>
        cases digits with
        | nil =>
            exact absurd rfl hne
        | cons c digits =>
            rcases digit_ne (hdigit c List.mem_cons_self) with ⟨-, hminus, hplus, -⟩
            simp [Sign.text, scanSign, hminus, hplus]
  simp [scanExponent, hsign, hspan.1, hspan.2, hne, Exponent.value]

theorem isDigitOf_ten : isDigitOf 10 = Char.isDigit := by
  funext c
  simp [isDigitOf]

/-- Neither a digit nor a point stands in front of an exponent. -/
theorem exponentText_head (n : Numeral) :
    ∀ c ∈ n.exponentText.head?, c.toLower = 'e' ∧ c.isDigit = false ∧ c ≠ '.' := by
  intro c hc
  rw [Numeral.exponentText] at hc
  cases hexponent : n.exponent with
  | none =>
      simp [hexponent] at hc
  | some e =>
      have hmark : c = e.mark := by simpa [hexponent, Exponent.text, eq_comm] using hc
      rw [hmark]
      rcases e.mark_eq with h | h <;> rw [h] <;> decide

theorem scanNumeral_text (n : Numeral) :
    scanNumeral 10 10 'e' (n.whole ++ (n.fractionText ++ n.exponentText)) =
      some (n.magnitude, []) := by
  have hexponent := exponentText_head n
  have hfraction : ∀ c ∈ (n.fractionText ++ n.exponentText).head?, c.isDigit = false := by
    intro c hc
    rw [Numeral.fractionText] at hc
    split at hc
    · exact (hexponent c hc).2.1
    · cases hc
      decide
  have hwhole := takeWhile_append_stop n.whole_digit hfraction
  have hne : n.whole ++ n.fraction ≠ [] := by simp [n.whole_ne_nil]
  have hempty : n.fraction = [] → n.fractionText ++ n.exponentText = n.exponentText := by
    intro h
    rw [Numeral.fractionText, if_pos h, List.nil_append]
  have hpoint : n.fraction ≠ [] →
      n.fractionText ++ n.exponentText = '.' :: (n.fraction ++ n.exponentText) := by
    intro h
    rw [Numeral.fractionText, if_neg h, List.cons_append]
  have hdigits := takeWhile_append_stop n.fraction_digit fun c hc => (hexponent c hc).2.1
  have hmark : ∀ e : Exponent, e.mark.toLower = 'e' ∧ e.mark ≠ '.' := by
    intro e
    rcases e.mark_eq with h | h <;> rw [h] <;> decide
  simp only [scanNumeral, isDigitOf_ten, hwhole.1, hwhole.2]
  rw [Numeral.magnitude]
  -- the fraction is read when there is a point, and the exponent when there is one
  by_cases hfraction : n.fraction = []
  · rw [hempty hfraction, hfraction, Numeral.exponentText]
    cases n.exponent with
    | none =>
        simp [n.whole_ne_nil]
    | some e =>
        simp [Exponent.text, hmark e, n.whole_ne_nil, scanExponent_text]
  · simp only [hpoint hfraction, hdigits.1, hdigits.2, if_neg hne]
    rw [Numeral.exponentText]
    cases n.exponent with
    | none =>
        simp
    | some e =>
        simp [Exponent.text, hmark e, scanExponent_text]

theorem whole_head (n : Numeral) : ∃ c rest, n.whole = c :: rest ∧ c.isDigit := by
  rcases List.exists_cons_of_ne_nil n.whole_ne_nil with ⟨c, rest, h⟩
  exact ⟨c, rest, h, n.whole_digit c (by rw [h]; exact List.mem_cons_self)⟩

theorem scanUnsigned_text (n : Numeral) :
    scanUnsigned (n.whole ++ (n.fractionText ++ n.exponentText)) = some (n.magnitude, []) := by
  have hscan := scanNumeral_text n
  unfold scanUnsigned
  split
  · rename_i x rest heq
    -- a whole number that starts with a zero is zero, and no mark follows it
    have hmark : x.toLower ≠ 'x' := by
      rcases whole_head n with ⟨c, rest', hwhole, hdigit⟩
      have hzero : c = '0' := by
        rw [hwhole] at heq
        exact (List.cons.inj heq).1
      have hone := n.no_zero (by rw [hwhole, hzero]; rfl)
      rw [hone] at heq
      have htail : n.fractionText ++ n.exponentText = x :: rest := (List.cons.inj heq).2
      rw [Numeral.fractionText] at htail
      split_ifs at htail with hempty
      · have hlower := (exponentText_head n x (by
          rw [List.nil_append] at htail
          rw [htail]
          rfl)).1
        rw [hlower]
        decide
      · rw [← (List.cons.inj htail).1]
        decide
    rw [if_neg hmark, hscan]
  · exact hscan

/-- A numeral is read as its value. -/
theorem Numeral.tonumber_text (n : Numeral) : tonumber n.text = some n.value := by
  have hunsigned := scanUnsigned_text n
  rcases whole_head n with ⟨c, rest, hwhole, hdigit⟩
  rcases digit_ne hdigit with ⟨hblank, hminus, hplus, -⟩
  have hsign : scanSign (n.text.dropWhile isBlank) =
      (n.negative, n.whole ++ (n.fractionText ++ n.exponentText)) := by
    rw [Numeral.text]
    cases n.negative with
    | true =>
        rfl
    | false =>
        simp [hwhole, hblank, scanSign, hminus, hplus]
  simp [tonumber, hsign, hunsigned, Numeral.value]

end Numerals

/-! ## What strings are made of -/

/-- A hexadecimal digit in ASCII. -/
theorem hexDigit_small {c : Char} (h : isDigitOf 16 c = true) : c.toNat < 128 := by
  have hletters : c.isDigit = true ∨ 'a' ≤ c.toLower ∧ c.toLower ≤ 'f' := by
    simpa [isDigitOf] using h
  rcases hletters with hdigit | hletter
  · rcases exists_digitChar hdigit with ⟨d, hd, rfl⟩
    revert d
    decide
  · have hlower : c.toLower.toNat ≤ 102 := by
      simpa [Char.le_def, UInt32.le_iff_toNat_le] using hletter.2
    delta Char.toLower at hlower
    split at hlower
    · rename_i hlarge
      have hbound : c.toNat ≤ 90 := by
        simpa [UInt32.le_iff_toNat_le] using hlarge.2
      omega
    · omega

theorem hexDigit_plain {c : Char} (h : isDigitOf 16 c = true) :
    isBlank c = false ∧ c ≠ '\x00' ∧ c ≠ '-' ∧ c ≠ '+' ∧ c.toLower ≠ 'x' ∧
      0x20 ≤ c.toNat ∧ c.toNat < 0x7f := by
  have hall : ∀ n < 128, isDigitOf 16 (Char.ofNat n) = true →
      isBlank (Char.ofNat n) = false ∧ Char.ofNat n ≠ '\x00' ∧ Char.ofNat n ≠ '-' ∧
        Char.ofNat n ≠ '+' ∧ (Char.ofNat n).toLower ≠ 'x' ∧ 0x20 ≤ (Char.ofNat n).toNat ∧
        (Char.ofNat n).toNat < 0x7f := by
    decide
  have hc := hall c.toNat (hexDigit_small h)
  rw [Char.ofNat_toNat] at hc
  exact hc h

/-- An escape is made of characters of ASCII that are seen. -/
theorem Escape.visible {e w : List Char} (h : Escape e w) :
    ∀ c ∈ e, 0x20 ≤ c.toNat ∧ c.toNat < 0x7f := by
  have hunit : ∀ {digits : List Char} {value : Nat}, CodeUnit digits value →
      ∀ c ∈ unitText digits, 0x20 ≤ c.toNat ∧ c.toNat < 0x7f := by
    intro digits value hunit c hc
    rcases List.mem_cons.1 hc with rfl | hc
    · decide
    · rcases List.mem_cons.1 hc with rfl | hc
      · decide
      · exact (hexDigit_plain (hunit.hex c hc)).2.2.2.2.2
  cases h with
  | short x c h =>
      have hvisible : ∀ s ∈ shorts, 0x20 ≤ s.1.toNat ∧ s.1.toNat < 0x7f := by decide
      intro d hd
      rcases List.mem_pair.1 hd with rfl | rfl
      · decide
      · exact hvisible _ h
  | unit digits c h =>
      exact hunit h
  | pair digits digits' high low c h h' hhigh hlow hc =>
      intro d hd
      exact (List.mem_append.1 hd).elim (hunit h d) (hunit h' d)

theorem Escape.ne_nil {e w : List Char} (h : Escape e w) : ∃ rest, e = '\\' :: rest := by
  cases h with
  | short x c h =>
      exact ⟨_, rfl⟩
  | unit digits c h =>
      exact ⟨_, rfl⟩
  | pair digits digits' high low c h h' hhigh hlow hc =>
      exact ⟨_, rfl⟩

/-- The characters that no escape contains stand for themselves. -/
theorem Reads.split {piece rest v : List Char} (h : Reads (piece ++ rest) v)
    (hpiece : ∀ c ∈ piece, 0x80 ≤ c.toNat) : ∃ v', v = piece ++ v' ∧ Reads rest v' := by
  induction piece generalizing v with
  | nil =>
      exact ⟨v, rfl, h⟩
  | cons c piece ih =>
      generalize htxt : (c :: piece) ++ rest = txt at h
      cases h with
      | nil =>
          cases htxt
      | plain d hquote hbackslash hcontrol hreads =>
          cases htxt
          rcases ih hreads fun d hd => hpiece d (List.mem_cons_of_mem _ hd) with ⟨v', rfl, hrest⟩
          exact ⟨v', rfl, hrest⟩
      | escape hescape hreads =>
          rcases hescape.ne_nil with ⟨tail, rfl⟩
          have hhead : c = '\\' := (List.cons_eq_cons.1 htxt).1
          have hlarge := hpiece c List.mem_cons_self
          rw [hhead] at hlarge
          exact absurd hlarge (by decide)

/-- The characters in front of the first escape. -/
theorem Reads.runs {body v : List Char} (h : Reads body v) :
    ∃ run, (∀ c ∈ run, c ≠ '"' ∧ c ≠ '\\') ∧ ((body = run ∧ v = run) ∨
      ∃ e w body' v', body = run ++ (e ++ body') ∧ v = run ++ (w ++ v') ∧ Escape e w ∧
        Reads body' v') := by
  induction h with
  | nil =>
      exact ⟨[], by simp, Or.inl ⟨rfl, rfl⟩⟩
  | plain c hquote hbackslash hcontrol hreads ih =>
      rcases ih with ⟨run, hrun, hend⟩
      refine ⟨c :: run, List.forall_mem_cons.2 ⟨⟨hquote, hbackslash⟩, hrun⟩, ?_⟩
      rcases hend with ⟨rfl, rfl⟩ | ⟨e, w, body', v', rfl, rfl, hescape, hrest⟩
      · exact Or.inl ⟨rfl, rfl⟩
      · exact Or.inr ⟨e, w, body', v', rfl, rfl, hescape, hrest⟩
  | @escape e w body v hescape hreads ih =>
      exact ⟨[], by simp, Or.inr ⟨e, w, body, v, rfl, rfl, hescape, hreads⟩⟩

end JsonText
