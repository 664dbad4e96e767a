import LuajitTcpServer.Json.Strings
import LuajitTcpServer.Lib.JsonText
import LuajitTcpServer.Lib.Numerals

/-!
# Values — what `dkjson.lua` writes and reads

A table of Lua is known by its address in a heap, so that one table may stand in two places and a
table may contain itself.  `pairs` goes through the entries in an order of its own: here it is the
order of the list, whichever that is.

* `Val`, `LuaTable`, `Heap` — the values;
* `LuaTable.get`, `LuaTable.set` — the accesses to a table.
-/

namespace LuajitTcpServer
namespace Json

/-! ## Values -/

/-- A value of Lua.  A number is finite; `null` is `json.null`, and `other` a value of a type that
has no text. -/
inductive Val
  | nil
  | null
  | bool (b : Bool)
  | num (q : ℚ)
  | str (txt : List Char)
  | table (address : Nat)
  | other (type : String)
  deriving DecidableEq, Repr

theorem Val.num_ne_nil (q : ℚ) : Val.num q ≠ .nil := by
  intro h
  cases h

theorem Val.str_ne_nil (txt : List Char) : Val.str txt ≠ .nil := by
  intro h
  cases h

def Val.type : Val → String
  | .nil => "nil"
  | .null => "table"
  | .bool _ => "boolean"
  | .num _ => "number"
  | .str _ => "string"
  | .table _ => "table"
  | .other type => type

/-- What a condition takes a value for. -/
def Val.isTrue : Val → Bool
  | .nil => false
  | .bool b => b
  | _ => true

inductive JsonType
  | object
  | array
  deriving DecidableEq, Repr

/-- What is read of a metatable. -/
structure Meta where
  jsontype : Option JsonType
  jsonorder : Option (List Val)
  deriving DecidableEq, Repr

/-- The arithmetic of the machine: the number next to a rational one, and the numeral that
`%.14g` writes for a number. -/
structure Doubles where
  nearest : ℚ → ℚ
  numeral : ℚ → JsonText.Numeral

def Doubles.format (doubles : Doubles) (q : ℚ) : List Char := (doubles.numeral q).text

/-- The numeral of a whole number that is not too large. -/
def wholeNumeral (z : Int) : JsonText.Numeral where
  negative := z < 0
  whole := Lua.digits z.natAbs
  fraction := []
  exponent := none
  whole_digit := fun _ hc => Lua.isDigit_of_mem_digits hc
  whole_ne_nil := Lua.digits_ne_nil _
  no_zero := by
    intro hzero
    rcases Nat.eq_zero_or_pos z.natAbs with hnone | hpos
    · rw [hnone]
      rfl
    · exact absurd hzero (Lua.digits_head_ne_zero hpos)
  fraction_digit := List.forall_mem_nil _

/-- The arithmetic of whole numbers, for samples. -/
def wholeDoubles : Doubles := ⟨id, fun q => wholeNumeral q.floor⟩

/-! ## Entries -/

abbrev Entry := Val × Val

/-- The value of a key, `nil` when there is none. -/
def entryAt : List Entry → Val → Val
  | [], _ => .nil
  | (k, v) :: entries, key => if k = key then v else entryAt entries key

/-- An entry with the value `nil` is no longer there. -/
def setEntry (key value : Val) : List Entry → List Entry
  | [] => if value = .nil then [] else [(key, value)]
  | (k, v) :: entries =>
      if k = key then (if value = .nil then entries else (key, value) :: entries)
      else (k, v) :: setEntry key value entries

section Entries

variable {entries : List Entry} {key value : Val}

theorem entryAt_eq_nil (h : key ∉ entries.map Prod.fst) : entryAt entries key = .nil := by
  induction entries with
  | nil =>
      rfl
  | cons e entries ih =>
      rw [List.map_cons, List.mem_cons, not_or] at h
      rw [entryAt, if_neg (Ne.symm h.1), ih h.2]

theorem entryAt_eq (hdistinct : (entries.map Prod.fst).Nodup) (h : (key, value) ∈ entries) :
    entryAt entries key = value := by
  induction entries with
  | nil =>
      cases h
  | cons e entries ih =>
      rw [List.map_cons, List.nodup_cons] at hdistinct
      rw [entryAt]
      rcases List.mem_cons.1 h with rfl | h
      · rw [if_pos rfl]
      · rw [if_neg, ih hdistinct.2 h]
        rintro rfl
        exact hdistinct.1 (List.mem_map.2 ⟨_, h, rfl⟩)

theorem mem_entryAt (h : entryAt entries key ≠ .nil) : (key, entryAt entries key) ∈ entries := by
  induction entries with
  | nil =>
      exact absurd rfl h
  | cons e entries ih =>
      rw [entryAt] at h ⊢
      split_ifs at h ⊢ with hkey
      · exact hkey ▸ List.mem_cons_self
      · exact List.mem_cons_of_mem _ (ih h)

theorem entryAt_setEntry (hdistinct : (entries.map Prod.fst).Nodup) (k : Val) :
    entryAt (setEntry key value entries) k = if k = key then value else entryAt entries k := by
  induction entries with
  | nil =>
      rw [setEntry]
      by_cases hkey : k = key
      · rw [if_pos hkey]
        split_ifs with hnil
        · exact hnil.symm
        · rw [entryAt, if_pos hkey.symm]
      · rw [if_neg hkey]
        split_ifs
        · rfl
        · exact if_neg (Ne.symm hkey)
  | cons e entries ih =>
      rcases e with ⟨k', v'⟩
      rw [List.map_cons, List.nodup_cons] at hdistinct
      rw [setEntry]
      by_cases hkey : k' = key
      · subst hkey
        rw [if_pos rfl]
        by_cases hk : k = k'
        · subst hk
          rw [if_pos rfl]
          split_ifs with hnil
          · rw [entryAt_eq_nil hdistinct.1, hnil]
          · rw [entryAt, if_pos rfl]
        · rw [if_neg hk]
          split_ifs with hnil
          · rw [entryAt, if_neg (Ne.symm hk)]
          · rw [entryAt, if_neg (Ne.symm hk), entryAt, if_neg (Ne.symm hk)]
      · rw [if_neg hkey, entryAt, entryAt, ih hdistinct.2]
        by_cases hk : k' = k
        · rw [if_pos hk, if_pos hk, if_neg fun h => hkey (hk.trans h)]
        · rw [if_neg hk, if_neg hk]

theorem mem_setEntry {e : Entry} (h : e ∈ setEntry key value entries) :
    e ∈ entries ∨ e = (key, value) ∧ value ≠ .nil := by
  induction entries with
  | nil =>
      rw [setEntry] at h
      split_ifs at h with hnil
      · cases h
      · exact Or.inr ⟨List.mem_singleton.1 h, hnil⟩
  | cons e' entries ih =>
      rw [setEntry] at h
      split_ifs at h with hkey hnil
      · exact Or.inl (List.mem_cons_of_mem _ h)
      · rcases List.mem_cons.1 h with h | h
        · exact Or.inr ⟨h, hnil⟩
        · exact Or.inl (List.mem_cons_of_mem _ h)
      · rcases List.mem_cons.1 h with h | h
        · exact Or.inl (h ▸ List.mem_cons_self)
        · exact (ih h).imp_left (List.mem_cons_of_mem _)

theorem setEntry_distinct (h : (entries.map Prod.fst).Nodup) :
    ((setEntry key value entries).map Prod.fst).Nodup := by
  induction entries with
  | nil =>
      rw [setEntry]
      split_ifs <;> simp
  | cons e entries ih =>
      rw [List.map_cons, List.nodup_cons] at h
      rw [setEntry]
      split_ifs with hkey hnil
      · exact h.2
      · rw [List.map_cons, List.nodup_cons]
        exact ⟨hkey ▸ h.1, h.2⟩
      · rw [List.map_cons, List.nodup_cons]
        refine ⟨fun hmem => ?_, ih h.2⟩
        rcases List.mem_map.1 hmem with ⟨e', he', heq⟩
        rcases mem_setEntry he' with he' | ⟨rfl, -⟩
        · exact h.1 (List.mem_map.2 ⟨e', he', heq⟩)
        · exact hkey heq.symm

end Entries

/-! ## Tables -/

/-- The entries of a table have different keys, and neither a key nor a value is `nil`. -/
structure LuaTable where
  metatable : Option Meta
  entries : List Entry
  distinct : (entries.map Prod.fst).Nodup
  present : ∀ e ∈ entries, e.1 ≠ .nil ∧ e.2 ≠ .nil
  deriving DecidableEq

namespace LuaTable

def empty (metatable : Option Meta) : LuaTable where
  metatable := metatable
  entries := []
  distinct := List.nodup_nil
  present := fun _ h => nomatch h

def get (tbl : LuaTable) (key : Val) : Val := entryAt tbl.entries key

def set (tbl : LuaTable) (key value : Val) (hkey : key ≠ .nil) : LuaTable where
  metatable := tbl.metatable
  entries := setEntry key value tbl.entries
  distinct := setEntry_distinct tbl.distinct
  present := by
    intro e he
    rcases mem_setEntry he with he | ⟨rfl, hvalue⟩
    · exact tbl.present e he
    · exact ⟨hkey, hvalue⟩

@[simp] theorem metatable_set (tbl : LuaTable) (key value : Val) (hkey : key ≠ .nil) :
    (tbl.set key value hkey).metatable = tbl.metatable := rfl

@[simp] theorem get_empty (metatable : Option Meta) (key : Val) : (empty metatable).get key = .nil := rfl

theorem get_eq (tbl : LuaTable) {key value : Val} (h : (key, value) ∈ tbl.entries) :
    tbl.get key = value := entryAt_eq tbl.distinct h

theorem mem_entries (tbl : LuaTable) {key : Val} (h : tbl.get key ≠ .nil) :
    (key, tbl.get key) ∈ tbl.entries := mem_entryAt h

theorem get_set (tbl : LuaTable) (key value : Val) (hkey : key ≠ .nil) (k : Val) :
    (tbl.set key value hkey).get k = if k = key then value else tbl.get k :=
  entryAt_setEntry tbl.distinct k

end LuaTable

/-- The tables by their addresses. -/
abbrev Heap := List LuaTable

/-- There is no table but those of the heap; behind it the model has empty ones. -/
def Heap.tableAt (heap : Heap) (address : Nat) : LuaTable := heap.getD address (LuaTable.empty none)

end Json
end LuajitTcpServer
