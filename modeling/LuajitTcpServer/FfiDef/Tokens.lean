import LuajitTcpServer.FfiDef.Script
import LuajitTcpServer.Lib.Replacing

/-!
# Tokens — the tokens of C

A text of C without comments and literals is read from left to right, and every token is the
longest one that starts there.
-/

namespace LuajitTcpServer
namespace FfiDef

open Lua

/-! ## The lexer -/

/-- The tokens that are no words and no numbers, the longer ones first. -/
def punctuators : List (List Char) :=
  ["%:%:", "...", "<<=", ">>=", "->", "++", "--", "<<", ">>", "<=", ">=", "==", "!=", "&&", "||",
    "*=", "/=", "%=", "+=", "-=", "&=", "^=", "|=", "##", "<:", ":>", "<%", "%>", "%:"].map (·.toList)

/-- The characters that a number goes on with; a sign belongs to it behind the letter of an
exponent. -/
def numberLength : Char → List Char → Nat
  | _, [] => 0
  | previous, c :: rest =>
      if isWordChar c || c = '.' || ((c = '+' || c = '-') && previous ∈ ['e', 'E', 'p', 'P']) then
        numberLength c rest + 1
      else 0

/-- The length of the token that starts with `c`, less one. -/
def tokenRest (c : Char) (rest : List Char) : Nat :=
  if c.isDigit || (c = '.' && rest.head?.any (·.isDigit)) then numberLength c rest
  else if isWordChar c then (rest.takeWhile isWordChar).length
  else ((punctuators.find? (·.isPrefixOf (c :: rest))).elim 1 List.length) - 1

/-- `skip` characters belong to the last token. -/
def tokensFrom : Nat → List Char → List (List Char)
  | _, [] => []
  | skip + 1, _ :: rest => tokensFrom skip rest
  | 0, c :: rest =>
      if isBlank c then tokensFrom 0 rest
      else (c :: rest.take (tokenRest c rest)) :: tokensFrom (tokenRest c rest) rest

def tokens (txt : List Char) : List (List Char) := tokensFrom 0 txt

example : tokens "int a[0x1e+3]; b>>=1.5e-3 ...".toList =
    ["int", "a", "[", "0x1e+3", "]", ";", "b", ">>=", "1.5e-3", "..."].map (·.toList) := by
  decide +kernel

/-! ## Texts put together -/

section Append

variable {x y : List Char} {b : Char}

theorem numberLength_blank (hb : isBlank b) (previous : Char) :
    numberLength previous (x ++ b :: y) = numberLength previous x := by
  induction x generalizing previous with
  | nil =>
      have hstop : (isWordChar b || b = '.' || ((b = '+' || b = '-') &&
          previous ∈ ['e', 'E', 'p', 'P'])) = false := by
        have hne : ∀ c : Char, isBlank c = false → b ≠ c := by
          rintro c hc rfl
          rw [hb] at hc
          cases hc
        simp [blank_not_word hb, hne '.' (by decide), hne '+' (by decide), hne '-' (by decide)]
      simp only [List.nil_append, numberLength, hstop]
      rfl
  | cons c x ih =>
      rw [List.cons_append, numberLength, numberLength, ih]

theorem blank_not_mem_punctuators (hb : isBlank b) : ∀ p ∈ punctuators, b ∉ p := by
  have hall : ∀ p ∈ punctuators, ∀ c ∈ p, isBlank c = false := by decide +kernel
  intro p hp hmem
  rw [hall p hp b hmem] at hb
  cases hb

/-- No token stands across a blank. -/
theorem tokenRest_blank (hb : isBlank b) (c : Char) : tokenRest c (x ++ b :: y) = tokenRest c x := by
  have hdigit : b.isDigit = false := by
    have hword := blank_not_word hb
    by_contra hdigit
    rw [Bool.not_eq_false] at hdigit
    simp [isWordChar, Char.isAlphanum, hdigit] at hword
  have hhead : (x ++ b :: y).head?.any (·.isDigit) = x.head?.any (·.isDigit) := by
    cases x with
    | nil =>
        exact hdigit
    | cons d x =>
        rfl
  have hword : (x ++ b :: y).takeWhile isWordChar = x.takeWhile isWordChar := by
    rw [List.takeWhile_append, List.takeWhile_cons_of_neg (by simp [blank_not_word hb])]
    split
    · rename_i hall
      rw [List.append_nil, (List.takeWhile_prefix isWordChar).eq_of_length hall]
    · rfl
  have hfind : punctuators.find? (·.isPrefixOf (c :: (x ++ b :: y))) =
      punctuators.find? (·.isPrefixOf (c :: x)) := by
    have hsame : ∀ p ∈ punctuators,
        p.isPrefixOf (c :: (x ++ b :: y)) = p.isPrefixOf (c :: x) := by
      intro p hp
      have hstop := @prefix_append_cons p (c :: x) b y (blank_not_mem_punctuators hb p hp)
      rw [Bool.eq_iff_iff, List.isPrefixOf_iff_prefix, List.isPrefixOf_iff_prefix]
      exact hstop
    generalize punctuators = ps at hsame ⊢
    induction ps with
    | nil =>
        rfl
    | cons p ps ih =>
        rw [List.find?_cons, List.find?_cons, hsame p List.mem_cons_self,
          ih fun q hq => hsame q (List.mem_cons_of_mem _ hq)]
  rw [tokenRest, tokenRest, hhead, numberLength_blank hb, hword, hfind]

theorem numberLength_le (previous : Char) (txt : List Char) :
    numberLength previous txt ≤ txt.length := by
  induction txt generalizing previous with
  | nil =>
      rfl
  | cons c txt ih =>
      rw [numberLength, List.length_cons]
      split
      · exact Nat.succ_le_succ (ih c)
      · exact Nat.zero_le _

theorem tokenRest_le (c : Char) (rest : List Char) : tokenRest c rest ≤ rest.length := by
  rw [tokenRest]
  split
  · exact numberLength_le c rest
  · split
    · exact (List.takeWhile_prefix isWordChar).length_le
    · cases hfind : punctuators.find? (·.isPrefixOf (c :: rest)) with
      | none =>
          exact Nat.zero_le _
      | some p =>
          have hstarts : p.isPrefixOf (c :: rest) := by
            have hsome := List.find?_some hfind
            exact hsome
          have hlength := (List.isPrefixOf_iff_prefix.1 hstarts).length_le
          rw [List.length_cons] at hlength
          rw [Option.elim_some]
          omega

theorem tokensFrom_blank (hb : isBlank b) {skip : Nat} (hskip : skip ≤ x.length) :
    tokensFrom skip (x ++ b :: y) = tokensFrom skip x ++ tokens y := by
  induction x generalizing skip with
  | nil =>
      rw [List.length_nil, Nat.le_zero] at hskip
      rw [hskip, List.nil_append]
      exact if_pos hb
  | cons c x ih =>
      rw [List.cons_append]
      cases skip with
      | succ skip =>
          rw [tokensFrom, tokensFrom, ih (Nat.le_of_succ_le_succ hskip)]
      | zero =>
          rw [tokensFrom, tokensFrom, tokenRest_blank hb]
          split
          · exact ih (Nat.zero_le _)
          · rw [ih (tokenRest_le c x), List.take_append_of_le_length (tokenRest_le c x),
              List.cons_append]

theorem tokens_blank (hb : isBlank b) : tokens (x ++ b :: y) = tokens x ++ tokens y :=
  tokensFrom_blank hb (Nat.zero_le _)

/-- When the tokens of the first text are there, the others are those of the second. -/
theorem tokensFrom_of_prefix {skip : Nat} (hskip : skip ≤ x.length)
    (h : tokensFrom skip x <+: tokensFrom skip (x ++ y)) :
    tokensFrom skip (x ++ y) = tokensFrom skip x ++ tokens y := by
  induction x generalizing skip with
  | nil =>
      rw [List.length_nil, Nat.le_zero] at hskip
      rw [hskip]
      rfl
  | cons c x ih =>
      rw [List.cons_append] at h ⊢
      cases skip with
      | succ skip =>
          rw [tokensFrom, tokensFrom] at h ⊢
          exact ih (Nat.le_of_succ_le_succ hskip) h
      | zero =>
          rw [tokensFrom, tokensFrom] at h ⊢
          by_cases hblank : isBlank c
          · rw [if_pos hblank, if_pos hblank] at h ⊢
            exact ih (Nat.zero_le _) h
          · rw [if_neg hblank, if_neg hblank] at h ⊢
            rw [List.cons_prefix_cons] at h
            have hlength : tokenRest c x = tokenRest c (x ++ y) := by
              have hcount := congrArg List.length (List.cons.inj h.1).2
              have hle := tokenRest_le c x
              have hle' := tokenRest_le c (x ++ y)
              rw [List.length_take, List.length_take] at hcount
              omega
            rw [← hlength] at h ⊢
            rw [ih (tokenRest_le c x) h.2, List.take_append_of_le_length (tokenRest_le c x),
              List.cons_append]

theorem tokens_of_prefix (h : tokens x <+: tokens (x ++ y)) :
    tokens (x ++ y) = tokens x ++ tokens y :=
  tokensFrom_of_prefix (Nat.zero_le _) h

end Append

/-- No token of the text that the parts make together stands across the end of a part. -/
def Seams : List (List Char) → Prop
  | [] => True
  | part :: parts => tokens (part ++ parts.flatten) = tokens part ++ tokens parts.flatten ∧ Seams parts

theorem tokens_flatten_iff {parts : List (List Char)} :
    tokens parts.flatten = parts.flatMap tokens ↔ Seams parts := by
  induction parts with
  | nil =>
      exact iff_of_true rfl trivial
  | cons part parts ih =>
      rw [List.flatten_cons, List.flatMap_cons, Seams, ← ih]
      constructor
      · intro h
        have hsplit := tokens_of_prefix (h ▸ List.prefix_append _ _)
        exact ⟨hsplit, List.append_cancel_left (hsplit.symm.trans h)⟩
      · rintro ⟨hsplit, hparts⟩
        rw [hsplit, hparts]

end FfiDef
end LuajitTcpServer
