import LuajitTcpServer.Json.Values

/-!
# Decoding — how `dkjson.lua` reads a value

`scanvalue` reads the value at a position and `scantable` what stands between the brackets of a
table, where commas may be missing and a key may stand in an array.  A table gets its address when
it is complete: nothing refers to it before.

* `scanwhite` — blanks and byte order marks;
* `scantable`, `scanvalue`, `decode` — reading.
-/

namespace LuajitTcpServer
namespace Json

open Lua Loops

/-! ## Blanks -/

def nonBlank : List Char := ['%', 'S']

/-- The byte order mark in UTF-8. -/
def bom : List Char := ['\xef', '\xbb', '\xbf']

def scanwhiteRound (str : List Char) : Option Nat → Except Failure (Round (Option Nat))
  | none => pure (.done none)
  | some pos => do
      match ← lifted (find str nonBlank pos false) with
      | none => pure (.done none)
      | some (pos, _) =>
          if sub str pos (pos + 2 : Nat) = bom then pure (.again (some (pos + 3)))
          else pure (.done (some pos))

/-- How much of the text is left. -/
def whiteLeft (str : List Char) : Option Nat → Nat
  | none => 0
  | some pos => str.length + 1 - pos

/-- What is found stands in the text, and not in front of the position. -/
theorem scanwhiteRound_ok {str : List Char} {pos : Nat} {round : Round (Option Nat)}
    (h : scanwhiteRound str (some pos) = .ok round) :
    round = .done none ∨ ∃ p, 1 ≤ p ∧ pos ≤ p ∧ p ≤ str.length ∧
      (round = .again (some (p + 3)) ∨ round = .done (some p)) := by
  rcases bind_ok_iff.1 h with ⟨found, hfound, h⟩
  cases found with
  | none =>
      cases h
      exact Or.inl rfl
  | some found =>
      rcases found with ⟨start, last⟩
      have hfind := lifted_ok hfound
      have hbounds := find_bounds (by decide) (by decide) hfind
      have hextent := find_ones_extent (by decide) (by decide)
        (show parse nonBlank = [Single.cls 'S'].map .one by decide) hfind
      rw [List.length_singleton] at hextent
      refine Or.inr ⟨start, by omega, by omega, by omega, ?_⟩
      dsimp only at h
      split_ifs at h
      · cases h
        exact Or.inl rfl
      · cases h
        exact Or.inr rfl

def scanwhiteLoop (str : List Char) : Loop Failure (Option Nat) where
  round := scanwhiteRound str
  size := whiteLeft str
  decreases s s' h := by
    cases s with
    | none =>
        cases h
    | some pos =>
        rcases scanwhiteRound_ok h with hdone | ⟨p, -, hle, hlength, hagain | hdone⟩
        · cases hdone
        · cases hagain
          rw [whiteLeft, whiteLeft]
          omega
        · cases hdone

/-- The position of the next character that is no blank. -/
def scanwhite (str : List Char) (pos : Nat) : Except Failure (Option Nat) :=
  (scanwhiteLoop str).run (some pos)

/-! ## Values -/

inductive Kind
  | object
  | array
  deriving DecidableEq, Repr

def Kind.what : Kind → String
  | .object => "object"
  | .array => "array"

def Kind.closechar : Kind → Char
  | .object => '}'
  | .array => ']'

section Reading

variable (doubles : Doubles) (nullval : Val) (metaOf : Kind → Option Meta) (str : List Char)

/-- The tables of the heap, the value and the position behind it. -/
abbrev Scanned := Heap × Val × Nat

structure TableScan where
  heap : Heap
  tbl : LuaTable
  n : Nat
  pos : Nat

section Table

variable (scan : Heap → Nat → Except Failure Scanned) (kind : Kind) (startpos : Nat)

def nextInTable (pos : Nat) : Except Failure Nat := do
  match ← scanwhite str pos with
  | none => throw (unterminated str kind.what startpos)
  | some pos => pure pos

def behindComma (pos : Nat) : Nat := if sub str pos pos = [','] then pos + 1 else pos

/-- What stands behind the value `val1`: a colon and another value, or not. -/
def scanRest (s : TableScan) (val1 : Val) (pos : Nat) : Except Failure TableScan := do
  let pos ← nextInTable str kind startpos pos
  if sub str pos pos = [':'] then
    -- the key is any value but `nil`, in an array as well
    if hkey : val1 = .nil then
      throw (.scan pos ("cannot use nil as table index (at " ++ loc str pos ++ ")"))
    else
      let pos ← nextInTable str kind startpos (pos + 1)
      let (heap, val2, pos) ← scan s.heap pos
      let pos ← nextInTable str kind startpos pos
      pure ⟨heap, s.tbl.set val1 val2 hkey, s.n, behindComma str pos⟩
  else
    pure ⟨s.heap, s.tbl.set (.num (s.n + 1 : Nat)) val1 (Val.num_ne_nil _), s.n + 1,
      behindComma str pos⟩

/-- Each round reads at least a character, so there are no more rounds than characters. -/
def scanRounds : Nat → TableScan → Except Failure TableScan
  | 0, _ => .error .fuel
  | rounds + 1, s => do
      let pos ← nextInTable str kind startpos s.pos
      if sub str pos pos = [kind.closechar] then pure { s with pos := pos + 1 }
      else
        let (heap, val1, pos) ← scan s.heap pos
        let s ← scanRest str scan kind startpos { s with heap := heap } val1 pos
        scanRounds rounds s

def scantable (heap : Heap) : Except Failure Scanned := do
  let s ← scanRounds str scan kind startpos (str.length + 1)
    ⟨heap, LuaTable.empty (metaOf kind), 0, startpos + 1⟩
  pure (s.heap ++ [s.tbl], .table s.heap.length, s.pos)

end Table

def numberPattern : List Char := "^%-?[%d%.]+[eE]?[%+%-]?%d*".toList

def namePattern : List Char := "^%a%w*".toList

/-- A numeral at the position; one that is no number is passed over. -/
def scanNumber (pos : Nat) : Except Failure (Option (Val × Nat)) := do
  match ← lifted (find str numberPattern pos false) with
  | none => pure none
  | some (pstart, pend) =>
      pure ((tonumber (sub str pstart pend)).map fun q => (.num (doubles.nearest q), pend + 1))

/-- The names of JSON. -/
def nameValue (name : List Char) : Option Val :=
  if name = JsonText.boolText true then some (.bool true)
  else if name = JsonText.boolText false then some (.bool false)
  else if name = JsonText.nullText then some nullval
  else none

def scanName (pos : Nat) : Except Failure (Option (Val × Nat)) := do
  match ← lifted (find str namePattern pos false) with
  | none => pure none
  | some (pstart, pend) =>
      pure ((nameValue nullval (sub str pstart pend)).map fun v => (v, pend + 1))

/-- A value that starts neither with a bracket nor with a quote. -/
def scanWord (heap : Heap) (pos : Nat) : Except Failure Scanned := do
  match ← scanNumber doubles str pos with
  | some (v, pos) => pure (heap, v, pos)
  | none =>
      -- a numeral that is no number may still be a name
      match ← scanName nullval str pos with
      | some (v, pos) => pure (heap, v, pos)
      | none => throw (.scan pos ("no valid JSON value at " ++ loc str pos))

def scanvalue : Nat → Heap → Nat → Except Failure Scanned
  | 0, _, _ => .error .fuel
  | depth + 1, heap, pos => do
      match ← scanwhite str pos with
      | none => throw (.scan (str.length + 1) "no valid JSON value (reached the end)")
      | some pos =>
          let char := sub str pos pos
          if char = ['{'] then scantable metaOf str (scanvalue depth) .object pos heap
          else if char = ['['] then scantable metaOf str (scanvalue depth) .array pos heap
          else if char = ['"'] then do
            let (txt, pos) ← scanstring str pos
            pure (heap, .str txt, pos)
          else scanWord doubles nullval str heap pos

/-- The metatables of `decode` when the caller gives none. -/
def optionalmetatables : Kind → Option Meta
  | .object => some ⟨some .object, none⟩
  | .array => some ⟨some .array, none⟩

/-- Values are not nested deeper than the text is long. -/
def decode (heap : Heap) (pos : Nat) : Except Failure Scanned :=
  scanvalue doubles nullval metaOf str (str.length + 1) heap pos

end Reading

end Json
end LuajitTcpServer
