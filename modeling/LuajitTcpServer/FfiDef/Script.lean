import LuajitTcpServer.Lib.Searches

/-!
# Script — what the scripts for the C definitions have in common

Identifiers of C, and the functions on texts that both `ffi_def_create.lua` and
`ffi_def_create_headers.lua` use.
-/

namespace LuajitTcpServer
namespace FfiDef

open Lua

/-! ## Words -/

def isWordChar (c : Char) : Bool := c.isAlphanum || c = '_'

/-- Letters, digits and underscores, with no digit in front. -/
structure Identifier where
  text : List Char
  text_ne : text ≠ []
  text_word : ∀ c ∈ text, isWordChar c
  text_first : ∀ c ∈ text.head?, c.isDigit = false

theorem wordChar_ne {c : Char} (h : isWordChar c) :
    isBlank c = false ∧ c ≠ '/' ∧ c ≠ '"' ∧ c ≠ '*' ∧ c ≠ '[' ∧ c ≠ ']' := by
  have hrange : 48 ≤ c.toNat := by
    rcases Bool.or_eq_true_iff.1 h with halnum | hunder
    · delta Char.isAlphanum Char.isAlpha Char.isUpper Char.isLower Char.isDigit at halnum
      simp only [Bool.or_eq_true, Bool.and_eq_true, decide_eq_true_eq,
        UInt32.le_iff_toNat_le] at halnum
      have hval : c.toNat = c.val.toNat := rfl
      have h48 : ('0' : Char).val.toNat = 48 := rfl
      have h65 : ('A' : Char).val.toNat = 65 := rfl
      have h97 : ('a' : Char).val.toNat = 97 := rfl
      omega
    · rw [decide_eq_true_eq] at hunder
      rw [hunder]
      decide
  have hnot : ∀ d : Char, isWordChar d = false → c ≠ d := by
    rintro d hd rfl
    rw [h] at hd
    cases hd
  refine ⟨?_, hnot _ (by decide), hnot _ (by decide), hnot _ (by decide), hnot _ (by decide),
    hnot _ (by decide)⟩
  by_contra hblank
  rw [Bool.not_eq_false, isBlank, Bool.or_eq_true, decide_eq_true_eq, Bool.and_eq_true,
    decide_eq_true_eq, decide_eq_true_eq] at hblank
  rcases hblank with hspace | ⟨-, hreturn⟩
  · exact hnot ' ' (by decide) hspace
  · have hle : c.toNat ≤ 13 := by
      simpa [Char.le_def, UInt32.le_iff_toNat_le] using hreturn
    omega

theorem blank_not_word {c : Char} (h : isBlank c) : isWordChar c = false := by
  by_contra hword
  rw [Bool.not_eq_false] at hword
  rw [(wordChar_ne hword).1] at h
  cases h

/-! ## Functions on texts -/

/-- A value that the script goes on with. -/
def valueOf {α : Type} : Option α → Except Error α
  | some value => .ok value
  | none => .error .nilValue

theorem bind_eq_ok {α β : Type} {x : Except Error α} {f : α → Except Error β} {b : β} :
    x >>= f = .ok b ↔ ∃ a, x = .ok a ∧ f a = .ok b := by
  cases x with
  | error e =>
      refine iff_of_false (fun h => ?_) ?_
      · cases h
      · rintro ⟨a, h, -⟩
        cases h
  | ok a =>
      refine ⟨fun h => ⟨a, rfl, h⟩, ?_⟩
      rintro ⟨a', h, hf⟩
      cases h
      exact hf

/-- `txt:match("^%s*(.-)%s*$")`, leading and trailing blanks removed. -/
def trimmed (txt : List Char) : Except Error (List Char) := do
  valueOf (← firstMatch txt trimPattern)

theorem trimmed_eq (txt : List Char) : trimmed txt = .ok (trim txt) := by
  rw [trimmed, firstMatch_trim]
  rfl

end FfiDef
end LuajitTcpServer
