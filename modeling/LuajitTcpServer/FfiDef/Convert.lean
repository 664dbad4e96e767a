import Mathlib.Data.Finset.Basic
import Mathlib.Data.Finset.Dedup
import Mathlib.Data.Finset.Filter
import LuajitTcpServer.Lib.CallSeq

/-!
# Convert — the type definitions that `ffi_def_create.lua` collects

For one source file, `convertTypesToBasicTypes` looks up the types in `type_defines` in the header
and collects the lines that define them, until no type is left.

* The header is a sequence of declarations `typedef <source> <name>;`, each on a line of its own
  after a line break.  Names are words, so a search finds the places where the word stands.
* The tables are the sets of their keys.
* `pairs` may come to any key of `type_defines` next, and the passes of the outer loop are one
  sequence of visits.
* What is printed is left out, as are the branches for structures, functions and static constants,
  of which such a header has none.
-/

namespace LuajitTcpServer
namespace FfiDef

open CallSeq

/-! ## Header -/

/-- The line `typedef <source> <name>;`. -/
structure Decl where
  source : String
  name : String
  deriving DecidableEq, Repr

namespace Decl

def words (d : Decl) : List String := ["typedef", d.source, d.name]

/-- `def`: the last word before the first place where the type stands inside the line.  There is
nothing before the word that begins the line. -/
def typeBefore (d : Decl) (typeStr : String) : Option String :=
  if typeStr = d.source then some "typedef"
  else if typeStr = d.name then some d.source
  else none

end Decl

def keywords : List String := ["typedef", "struct"]

/-- Names are distinct and no keywords, and no name depends on itself. -/
structure Header where
  decls : List Decl
  names_nodup : (decls.map Decl.name).Nodup
  acyclic : WellFounded fun x y => ∃ d ∈ decls, d.source = x ∧ d.name = y
  no_keyword : ∀ d ∈ decls, d.source ∉ keywords ∧ d.name ∉ keywords

namespace Header

/-- The first line in which the type is found, with the word before it. -/
def find (h : Header) (typeStr : String) : Option (Decl × String) :=
  h.decls.findSome? fun d => (d.typeBefore typeStr).map fun before => (d, before)

def occurs (h : Header) (typeStr : String) : Bool :=
  h.decls.any fun d => decide (typeStr ∈ d.words)

end Header

/-! ## Tables -/

/-- The target file before the types of a source file are converted, and what the source files
before it have left in the tables. -/
structure Target where
  /-- The words of the target file. -/
  code : Finset String
  basicTypes : Finset String
  typeDone : Finset String
  done_in_code : ∀ typeStr ∈ typeDone, typeStr = "struct" ∨ typeStr ∈ code

def basicTypes : Finset String :=
  ["void", "...", "double", "char",
    "short", "int", "long", "long int", "long long",
    "unsigned",
    "__int8", "__int16", "__int32", "__int64",
    "int8_t", "int16_t", "int32_t", "int64_t",
    "uint8_t", "uint16_t", "uint32_t", "uint64_t",
    "__int8_t", "__int16_t", "__int32_t", "__int64_t",
    "__uint8_t", "__uint16_t", "__uint32_t", "__uint64_t",
    "intptr_t", "uintptr_t",
    "ptrdiff_t", "size_t", "wchar_t",
    "va_list", "__builtin_va_list", "__gnuc_va_list"].toFinset

/-- Before the first source file, with an empty target file. -/
def Target.empty : Target where
  code := ∅
  basicTypes := FfiDef.basicTypes
  typeDone := {"struct"}
  done_in_code := by decide

structure State where
  typeDefines : Finset String
  typeDone : Finset String
  basicTypes : Finset String
  typeNotFound : Finset String
  typeLinesContent : Finset Decl
  typeLinesBasic : List Decl
  typeLines : List Decl

/-- `paramsAdd` does not add basic types. -/
def start (target : Target) (requested : Finset String) : State :=
  { typeDefines := requested.filter (· ∉ target.basicTypes)
    typeDone := target.typeDone
    basicTypes := target.basicTypes
    typeNotFound := ∅
    typeLinesContent := ∅
    typeLinesBasic := []
    typeLines := [] }

namespace State

/-- `type_defines[type_str] = nil`. -/
def remove (s : State) (typeStr : String) : State :=
  { s with typeDefines := s.typeDefines.erase typeStr }

def typeNotFoundAdd (s : State) (typeStr : String) : State :=
  { s.remove typeStr with basicTypes := insert typeStr s.basicTypes }

/-- A line that is new is added to the start of its list. -/
def addLine (s : State) (typeStr : String) (line : Decl) (before : String) : State :=
  if line ∈ s.typeLinesContent then s
  else
    let s := { s with typeLinesContent := insert line s.typeLinesContent }
    let s :=
      if before ∉ s.basicTypes ∧ before ∉ s.typeDone then
        { s with typeDefines := insert before s.typeDefines }
      else { s with typeDone := insert typeStr s.typeDone }
    if before ∈ s.basicTypes then { s with typeLinesBasic := line :: s.typeLinesBasic }
    else { s with typeLines := line :: s.typeLines }

/-- The definitions that `addNewDefinitionsToTargetCdefFile` writes, in their order. -/
def newDefinitions (s : State) : List Decl := s.typeLinesBasic ++ s.typeLines

end State

/-- The body of the loop over `pairs(type_defines)`. -/
def visit (h : Header) (code : Finset String) (s : State) (typeStr : String) : State :=
  if typeStr ∈ s.typeDone then s.remove typeStr
  else if typeStr ∈ code then s.remove typeStr
  else if typeStr ∈ s.typeNotFound then s.typeNotFoundAdd typeStr
  else
    let s := { s with typeNotFound := insert typeStr s.typeNotFound }
    match h.find typeStr with
    | some (line, before) =>
        let s := (s.addLine typeStr line before).remove typeStr
        { s with typeNotFound := s.typeNotFound.erase typeStr }
    | none => if h.occurs typeStr then s.typeNotFoundAdd typeStr else s

/-- `pairs` comes to a key of the table. -/
def step (h : Header) (code : Finset String) (s : State) (typeStr : String) : Except Unit State :=
  if typeStr ∈ s.typeDefines then .ok (visit h code s typeStr) else .error ()

/-- A run of `convertTypesToBasicTypes` that visits the types in this order. -/
def Converts (h : Header) (target : Target) (requested : Finset String) (order : List String)
    (s : State) : Prop :=
  runCalls (step h target.code) (start target requested) order = .ok s ∧ s.typeDefines = ∅

end FfiDef
end LuajitTcpServer
