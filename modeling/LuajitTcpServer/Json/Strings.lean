import LuajitTcpServer.Lib.Cursor
import LuajitTcpServer.Lib.Loops
import LuajitTcpServer.Lib.Places
import LuajitTcpServer.Lib.Substitutions

/-!
# Strings — how `dkjson.lua` writes and reads the strings of JSON

`quotestring` escapes control characters and the characters that other readers may not take
unescaped, one class after the other; `scanstring` reads up to the closing quote.  A character here
stands for a byte.

* `escapeutf8`, `quotestring` — writing;
* `unichar`, `scanstring` — reading.
-/

namespace LuajitTcpServer
namespace Json

open Lua Loops

/-! ## Errors -/

/-- What stops reading or writing. -/
inductive Failure
  /-- An error that Lua raises. -/
  | lua (e : Lua.Error)
  /-- The position and the message that a scan returns with `nil`. -/
  | scan (pos : Nat) (msg : String)
  /-- The message that a function that writes returns with `nil`. -/
  | message (msg : String)
  /-- The model has run out of nested calls. -/
  | fuel
  deriving DecidableEq, Repr

/-- A function of Lua whose error is passed on. -/
def lifted {α : Type} : Except Lua.Error α → Except Failure α
  | .ok a => .ok a
  | .error e => .error (.lua e)

theorem lifted_ok {α : Type} {x : Except Lua.Error α} {a : α} (h : lifted x = .ok a) :
    x = .ok a := by
  cases x with
  | error e =>
      cases h
  | ok b =>
      cases h
      rfl

theorem lifted_ne_fuel {α : Type} (x : Except Lua.Error α) : lifted x ≠ .error .fuel := by
  intro h
  cases x with
  | error e =>
      cases h
  | ok a =>
      cases h

/-! ## Writing -/

/-- The byte of a character, 0 when there is none: `strbyte(...) or 0`. -/
def byteAt (txt : List Char) (idx : Nat) : Nat := (txt[idx]?.map Char.toNat).getD 0

def escapecodes (uchar : List Char) : Option (List Char) :=
  match uchar with
  | ['"'] => some ['\\', '"']
  | ['\\'] => some ['\\', '\\']
  | ['\x08'] => some ['\\', 'b']
  | ['\x0c'] => some ['\\', 'f']
  | ['\n'] => some ['\\', 'n']
  | ['\r'] => some ['\\', 'r']
  | ['\t'] => some ['\\', 't']
  | _ => none

/-- `%.4x`. -/
def hex4 (value : Nat) : List Char := (Nat.toDigits 16 value).leftpad 4 '0'

def unicodeEscape (value : Nat) : List Char := '\\' :: 'u' :: hex4 value

/-- The branch of `escapeutf8` on the value of a character. -/
def escapeValue (value : Nat) : List Char :=
  if value ≤ 0xffff then unicodeEscape value
  else if value ≤ 0x10ffff then
    -- a UTF-16 surrogate pair
    unicodeEscape (0xD800 + (value - 0x10000) / 0x400) ++
      unicodeEscape (0xDC00 + (value - 0x10000) % 0x400)
  else []

def escapeutf8 (uchar : List Char) : List Char :=
  match escapecodes uchar with
  | some value => value
  | none =>
      let a := byteAt uchar 0
      let b := byteAt uchar 1
      let c := byteAt uchar 2
      let d := byteAt uchar 3
      if a ≤ 0x7f then escapeValue a
      else if 0xc0 ≤ a ∧ a ≤ 0xdf ∧ b ≥ 0x80 then
        escapeValue ((a - 0xc0) * 0x40 + b - 0x80)
      else if 0xe0 ≤ a ∧ a ≤ 0xef ∧ b ≥ 0x80 ∧ c ≥ 0x80 then
        escapeValue (((a - 0xe0) * 0x40 + b - 0x80) * 0x40 + c - 0x80)
      else if 0xf0 ≤ a ∧ a ≤ 0xf7 ∧ b ≥ 0x80 ∧ c ≥ 0x80 ∧ d ≥ 0x80 then
        escapeValue ((((a - 0xf0) * 0x40 + b - 0x80) * 0x40 + c - 0x80) * 0x40 + d - 0x80)
      else []

/-- `gsub` only when the pattern is found. -/
def fsub (str pattern : List Char) (repl : List Char → List Char) :
    Except Lua.Error (List Char) := do
  match ← find str pattern 1 false with
  | some _ => gsubBy str pattern repl
  | none => pure str

def escapable : List Char := "[%z\x01-\x1f\"\\\x7f]".toList

/-- The first bytes of the other patterns. -/
def unusual : List Char := "[\xc2\xd8\xdc\xe1\xe2\xef]".toList

/-- The patterns for characters of more than one byte, in their order. -/
def unusualPatterns : List (List Char) :=
  ["\xc2[\x80-\x9f\xad]".toList,
    "\xd8[\x80-\x84]".toList,
    "\xdc\x8f".toList,
    "\xe1\x9e[\xb4\xb5]".toList,
    "\xe2\x80[\x8c-\x8f\xa8-\xaf]".toList,
    "\xe2\x81[\xa0-\xaf]".toList,
    "\xef\xbb\xbf".toList,
    "\xef\xbf[\xb0-\xbf]".toList]

def fsubAll (value : List Char) (patterns : List (List Char)) : Except Lua.Error (List Char) :=
  patterns.foldlM (fun value pattern => fsub value pattern escapeutf8) value

/-- The text between the quotes. -/
def quoteBody (value : List Char) : Except Lua.Error (List Char) := do
  let value ← fsub value escapable escapeutf8
  match ← find value unusual 1 false with
  | some _ => fsubAll value unusualPatterns
  | none => pure value

def quotestring (value : List Char) : Except Lua.Error (List Char) := do
  let value ← quoteBody value
  pure ('"' :: (value ++ ['"']))

/-! ## Reading -/

/-- The line and the column of a position. -/
def locFrom (target : Nat) : List Char → Nat → Nat → Nat → Nat × Nat
  | [], _, line, linepos => (line, target - linepos)
  | c :: rest, pos, line, linepos =>
      if pos < target then
        if c = '\n' then locFrom target rest (pos + 1) (line + 1) pos
        else locFrom target rest (pos + 1) line linepos
      else (line, target - linepos)

def loc (str : List Char) (target : Nat) : String :=
  let (line, column) := locFrom target str 1 1 0
  "line " ++ toString line ++ ", column " ++ toString column

def unterminated (str : List Char) (what : String) (target : Nat) : Failure :=
  .scan (str.length + 1) ("unterminated " ++ what ++ " at " ++ loc str target)

def escapechars (escchar : List Char) : Option (List Char) :=
  match escchar with
  | ['"'] => some ['"']
  | ['\\'] => some ['\\']
  | ['/'] => some ['/']
  | ['b'] => some ['\x08']
  | ['f'] => some ['\x0c']
  | ['n'] => some ['\n']
  | ['r'] => some ['\r']
  | ['t'] => some ['\t']
  | _ => none

/-- A text without the `0x` that `strtoul` allows in front of the digits. -/
def withoutMark (txt : List Char) : List Char :=
  match txt with
  | '0' :: x :: d :: rest => if x.toLower = 'x' ∧ isDigitOf 16 d then d :: rest else txt
  | txt => txt

/-- The value of the digits for base 16 in front, and what follows them. -/
def hexNumeral (txt : List Char) : Option (Nat × List Char) :=
  let numeral := (withoutMark txt).takeWhile (isDigitOf 16)
  if numeral = [] then none
  else some (ofDigits 16 numeral, (withoutMark txt).dropWhile (isDigitOf 16))

/-- `tonumber(txt, 16)`: blanks around a numeral, and a sign in front of it.  A zero byte ends the
text. -/
def tonumber16 (txt : List Char) : Option Int :=
  let (negative, numeral) := scanSign ((txt.takeWhile (· ≠ '\x00')).dropWhile isBlank)
  match hexNumeral numeral with
  | some (value, rest) =>
      if rest.all isBlank then some (if negative then -(value : Int) else value) else none
  | none => none

def strchar (bytes : List Nat) : List Char := bytes.map Char.ofNat

def unichar (value : Int) : Option (List Char) :=
  if value < 0 then none
  else
    let value := value.toNat
    if value ≤ 0x007f then some (strchar [value])
    else if value ≤ 0x07ff then
      some (strchar [0xc0 + value / 0x40, 0x80 + value % 0x40])
    else if value ≤ 0xffff then
      some (strchar [0xe0 + value / 0x1000, 0x80 + value / 0x40 % 0x40, 0x80 + value % 0x40])
    else if value ≤ 0x10ffff then
      some (strchar [0xf0 + value / 0x40000, 0x80 + value / 0x1000 % 0x40,
        0x80 + value / 0x40 % 0x40, 0x80 + value % 0x40])
    else none

def isHighSurrogate (value : Int) : Bool := 0xD800 ≤ value && value ≤ 0xDBff

def isLowSurrogate (value : Int) : Bool := 0xDC00 ≤ value && value ≤ 0xDFFF

/-- The low surrogate escaped behind the escape at `nextpos`. -/
def lowSurrogate (str : List Char) (nextpos : Nat) : Option Int :=
  if sub str (nextpos + 6 : Nat) (nextpos + 7 : Nat) = ['\\', 'u'] then
    match tonumber16 (sub str (nextpos + 8 : Nat) (nextpos + 11 : Nat)) with
    | some value2 => if isLowSurrogate value2 then some value2 else none
    | none => none
  else none

/-- The escape `\uXXXX` at `nextpos`: what it stands for, and the position behind it. -/
def scanUnicode (str : List Char) (nextpos : Nat) : Option (List Char × Nat) :=
  match tonumber16 (sub str (nextpos + 2 : Nat) (nextpos + 5 : Nat)) with
  | none => none
  | some value =>
      let value2 := if isHighSurrogate value then lowSurrogate str nextpos else none
      match value2 with
      | some value2 =>
          (unichar ((value - 0xD800) * 0x400 + (value2 - 0xDC00) + 0x10000)).map
            fun value => (value, nextpos + 12)
      | none => (unichar value).map fun value => (value, nextpos + 6)

/-- The escape at `nextpos`. -/
def scanEscape (str : List Char) (nextpos : Nat) : List Char × Nat :=
  let escchar := sub str (nextpos + 1 : Nat) (nextpos + 1 : Nat)
  match (if escchar = ['u'] then scanUnicode str nextpos else none) with
  | some scanned => scanned
  | none => ((escapechars escchar).getD escchar, nextpos + 2)

def quoteOrBackslash : List Char := "[\"\\]".toList

def quoteOrBackslashSet : Single := .set false [.char '"', .char '\\']

structure StringScan where
  lastpos : Nat
  buffer : List (List Char)
  deriving DecidableEq, Repr

/-- The text in front of `nextpos` is put into the buffer. -/
def StringScan.keep (str : List Char) (s : StringScan) (nextpos : Nat) : List (List Char) :=
  if nextpos > s.lastpos then s.buffer ++ [sub str s.lastpos ((nextpos : Int) - 1)] else s.buffer

def scanStringRound (str : List Char) (pos : Nat) (s : StringScan) :
    Except Failure (Round StringScan) := do
  match ← lifted (find str quoteOrBackslash s.lastpos false) with
  | none => throw (unterminated str "string" pos)
  | some (nextpos, _) =>
      let buffer := s.keep str nextpos
      if sub str nextpos nextpos = ['"'] then
        pure (.done ⟨nextpos + 1, buffer⟩)
      else
        let (value, lastpos) := scanEscape str nextpos
        pure (.again ⟨lastpos, buffer ++ [value]⟩)

theorem scanEscape_lt (str : List Char) (nextpos : Nat) :
    nextpos < (scanEscape str nextpos).2 := by
  have hunicode : ∀ scanned, scanUnicode str nextpos = some scanned → nextpos < scanned.2 := by
    intro scanned h
    simp only [scanUnicode] at h
    split at h
    · cases h
    · split at h
      all_goals
        rcases Option.map_eq_some_iff.1 h with ⟨value, -, rfl⟩
        exact Nat.lt_add_of_pos_right (by decide)
  rw [scanEscape]
  split
  · rename_i scanned h
    split at h
    · exact hunicode _ h
    · cases h
  · exact Nat.lt_add_of_pos_right (by decide)

/-- A round reads at least the quote or the backslash. -/
theorem scanStringRound_lt {str : List Char} {pos : Nat} {s : StringScan} {round : Round StringScan}
    (h : scanStringRound str pos s = .ok round) :
    ∃ s' : StringScan, s.lastpos < s'.lastpos ∧ s.lastpos ≤ str.length ∧
      (round = .again s' ∨ round = .done s') := by
  rcases bind_ok_iff.1 h with ⟨found, hfound, h⟩
  cases found with
  | none =>
      cases h
  | some found =>
      rcases found with ⟨nextpos, last⟩
      have hfind := lifted_ok hfound
      have hbounds := find_bounds (by decide) (by decide) hfind
      have hextent := find_ones_extent (by decide) (by decide)
        (show parse quoteOrBackslash = [quoteOrBackslashSet].map .one by decide) hfind
      rw [List.length_singleton] at hextent
      have hlt := scanEscape_lt str nextpos
      dsimp only at h
      split_ifs at h
      · cases h
        exact ⟨_, Nat.lt_succ_of_le (by omega), by omega, Or.inr rfl⟩
      · cases h
        exact ⟨_, Nat.lt_of_le_of_lt (by omega) hlt, by omega, Or.inl rfl⟩

def scanStringLoop (str : List Char) (pos : Nat) : Loop Failure StringScan where
  round := scanStringRound str pos
  size s := str.length + 1 - s.lastpos
  decreases s s' h := by
    rcases scanStringRound_lt h with ⟨s'', hlt, hle, hround | hround⟩
    · cases hround
      omega
    · cases hround

/-- The string that starts with the quote at `pos`, and the position behind it. -/
def scanstring (str : List Char) (pos : Nat) : Except Failure (List Char × Nat) :=
  match (scanStringLoop str pos).run ⟨pos + 1, []⟩ with
  | .error e => .error e
  | .ok s => .ok (s.buffer.flatten, s.lastpos)

end Json
end LuajitTcpServer
