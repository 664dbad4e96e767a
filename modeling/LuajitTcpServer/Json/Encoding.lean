import Mathlib.Data.Rat.Floor
import LuajitTcpServer.Json.Values
import LuajitTcpServer.Json.Quoting

/-!
# Encoding — how `dkjson.lua` writes a value

`encode2` goes down through the tables; `tables` are those it is in.  What it appends to the buffer
is its result here, and a table that it meets again on its way down is a reference cycle.

* `isarray` — which tables are arrays;
* `addpair`, `encode2`, `encode` — writing.
-/

namespace LuajitTcpServer
namespace Json

open Lua JsonText

/-! ## Arrays -/

structure ArrayScan where
  max : ℚ
  n : Nat
  arraylen : ℚ
  deriving DecidableEq, Repr

/-- An entry of an array; `none` when it is no array. -/
def scanEntry (s : ArrayScan) (e : Entry) : Option ArrayScan :=
  match e with
  | (.str ['n'], .num v) => some ⟨if v > s.max then v else s.max, s.n, v⟩
  | (.num k, _) =>
      if k < 1 ∨ (⌊k⌋ : ℚ) ≠ k then none
      else some ⟨if k > s.max then k else s.max, s.n + 1, s.arraylen⟩
  | _ => none

/-- The length of an array. -/
def isarray (tbl : LuaTable) : Option ℚ :=
  match tbl.entries.foldlM scanEntry ⟨0, 0, 0⟩ with
  | none => none
  | some s =>
      -- no array with too many holes
      if s.max > 10 ∧ s.max > s.arraylen ∧ s.max > s.n * 2 then none else some s.max

/-- The length of a table that is written as an array. -/
def arrayLength (tbl : LuaTable) : Option ℚ :=
  match isarray tbl with
  | none => none
  | some n => if n = 0 ∧ tbl.metatable.bind (·.jsontype) = some .object then none else some n

/-! ## Writing -/

section Writing

variable (doubles : Doubles) (heap : Heap) (indent : Bool) (keyorder : Option (List Val))

def addnewline2 (level : Nat) : List Char := '\n' :: (List.replicate level [' ', ' ']).flatten

/-- The newline in front of a key or of a closing brace. -/
def newline (level : Nat) : List Char := if indent then addnewline2 level else []

/-- The text of a key; a number is made a string. -/
def keyText : Val → Option (List Char)
  | .str txt => some txt
  | .num q => some (doubles.format q)
  | _ => none

section Table

variable (encode : Val → Except Failure (List Char)) (level : Nat)

def pairText (name : List Char) (value : Val) : Except Failure (List Char) := do
  let quoted ← lifted (quotestring name)
  let written ← encode value
  pure (newline indent level ++ (quoted ++ ':' :: written))

/-- `none` is a buffer whose length has become `nil`. -/
def addpair (key value : Val) (prev : Bool) (buffer : Option (List Char)) :
    Except Failure (List Char) :=
  match keyText doubles key with
  | none => .error (.message ("type '" ++ key.type ++ "' is not supported as a key by JSON."))
  | some name =>
      match buffer with
      | none => .error (.lua .nilValue)
      | some buffer => do
          let piece ← pairText indent encode level name value
          pure (buffer ++ ((if prev then [','] else []) ++ piece))

structure PairState where
  buffer : Option (List Char)
  used : List Val
  prev : Bool

/-- A key of the order.  What `addpair` returns is not checked here. -/
def addOrdered (tbl : LuaTable) (s : PairState) (key : Val) : Except Failure PairState :=
  if (tbl.get key).isTrue then
    match addpair doubles indent encode level key (tbl.get key) s.prev s.buffer with
    | .ok buffer => .ok ⟨some buffer, key :: s.used, true⟩
    | .error (.message _) => .ok ⟨none, key :: s.used, true⟩
    | .error e => .error e
  else .ok s

/-- An entry in the order of `pairs`. -/
def addEntry (s : PairState) (e : Entry) : Except Failure PairState :=
  if e.1 ∈ s.used then .ok s
  else do
    let buffer ← addpair doubles indent encode level e.1 e.2 s.prev s.buffer
    pure ⟨some buffer, s.used, true⟩

/-- `valmeta.__jsonorder or globalorder`. -/
def orderOf (tbl : LuaTable) : List Val :=
  ((tbl.metatable.bind (·.jsonorder)).or keyorder).getD []

def encodeObject (tbl : LuaTable) : Except Failure (List Char) := do
  let s ← (orderOf keyorder tbl).foldlM (addOrdered doubles indent encode level tbl)
    ⟨some ['{'], [], false⟩
  let s ← tbl.entries.foldlM (addEntry doubles indent encode level) s
  match s.buffer with
  | none => throw (.lua .nilValue)
  | some buffer => pure (buffer ++ (newline indent (level - 1) ++ ['}']))

/-- The elements from `i` on, up to `n`. -/
def encodeItems (tbl : LuaTable) (n : ℚ) : Nat → Nat → Except Failure (List Char)
  | 0, _ => pure []
  | count + 1, i => do
      let item ← encode (tbl.get (.num i))
      let items ← encodeItems tbl n count (i + 1)
      pure (item ++ ((if (i : ℚ) < n then [','] else []) ++ items))

def encodeArray (tbl : LuaTable) (n : ℚ) : Except Failure (List Char) := do
  let items ← encodeItems encode tbl n ⌊n⌋₊ 1
  pure ('[' :: (items ++ [']']))

def encodeTable (tbl : LuaTable) : Except Failure (List Char) :=
  match arrayLength tbl with
  | some n => encodeArray encode tbl n
  | none => encodeObject doubles indent keyorder encode level tbl

end Table

/-- `tables` are the tables that are being written; `fuel` bounds how many there may be. -/
def encode2 : Nat → Nat → List Nat → Val → Except Failure (List Char)
  | 0, _, _, _ => .error .fuel
  | fuel + 1, level, tables, value =>
      match value with
      | .nil => .ok nullText
      | .null => .ok nullText
      | .bool b => .ok (boolText b)
      | .num q => .ok (doubles.format q)
      | .str txt => lifted (quotestring txt)
      | .other type => .error (.message ("type '" ++ type ++ "' is not supported by JSON."))
      | .table address =>
          if address ∈ tables then .error (.message "reference cycle")
          else
            encodeTable doubles indent keyorder (encode2 fuel (level + 1) (address :: tables))
              (level + 1) (heap.tableAt address)

/-- There are no more tables on the way down than the heap has. -/
def encode (value : Val) : Except Failure (List Char) :=
  encode2 doubles heap indent keyorder (heap.length + 1) 0 [] value

end Writing

end Json
end LuajitTcpServer
