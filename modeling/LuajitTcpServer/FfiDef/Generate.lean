import LuajitTcpServer.FfiDef.CallSearch

/-!
# Generate — from the source files to the file with the C definitions

The main loop of `ffi_def_create.lua`.  A source file gives the names of the C functions that it
calls and of the C types that it makes.  What the target file does not define yet is searched in
the header, and what is found is written behind the target file, for each source file in a block
of its own.

* `createSourceText`, `addCTypeParameters`, `callsOf` — reading a source file;
* `createNotFoundNewDefinitions` — the calls that the target file does not define;
* `addNewDefinitions` — writing;
* `FileRun`, `Generates` — a file, and all of them.

The preferences are the ones that the script starts with.  Left out are what is printed, and the
report on what is not found that is written behind the last block.
-/

namespace LuajitTcpServer
namespace FfiDef
namespace Generate

open Lua Loops TypeSearch CallSearch

/-! ## Reading a source file -/

structure SourceFile where
  name : List Char
  text : List Char

/-- The source without comments of Lua: first those in brackets, then those up to the end of a
line. -/
def createSourceText (source : List Char) : Except Error (List Char) := do
  let source ← gsub source "(%-%-%[(=*)%[.-%]%2%])".toList []
  gsub source "(%-%-[^\n]*)".toList []

def cTypePatterns : List (List Char) :=
  ["ffi.new%(%'(.-)%'".toList, "ffi.new%(%\"(.-)%\"".toList, "ffi.cast%(%'(.-)'".toList,
    "ffi.cast%(%\"(.-)\"".toList]

def cCallPatterns : List (List Char) :=
  ["%WC%.([_%w]*)".toList, "%Wkernel32%.([_%w]*)".toList, "%Ws%.([_%w]*)".toList]

/-- The type in front of the size of an array. -/
def elementType (params : List Char) : Except Error (List Char) := do
  match ← find params "%[".toList 1 false with
  | some (s, _) => pure (sub params 1 (s - 1))
  | none => pure params

def addCType (basicTypes typeDefines : Finset (List Char)) (params : List Char) :
    Except Error (Finset (List Char)) := do
  let params ← removeAllLineComments params
  paramsAdd basicTypes typeDefines (some (← elementType params)) ','

/-- The types in `ffi.new` and in `ffi.cast` are requested. -/
def addCTypeParameters (basicTypes typeDefines : Finset (List Char)) (source : List Char) :
    Except Error (Finset (List Char)) :=
  cTypePatterns.foldlM (fun typeDefines patt => do
    (← gmatch source patt).foldlM (addCType basicTypes) typeDefines) typeDefines

/-- A call is noted once. -/
def noteCall (calls : List (List Char)) (call : List Char) : List (List Char) :=
  if call ≠ [] ∧ call ∉ calls then calls ++ [call] else calls

/-- The calls in the order in which they are counted. -/
def callsOf (source : List Char) : Except Error (List (List Char)) :=
  cCallPatterns.foldlM (fun calls patt => do
    pure ((← gmatch source patt).foldl noteCall calls)) []

/-- The order of `table.sort`: names that differ in the size of letters only come in either
order. -/
def InOrder (calls : List (List Char)) : Prop :=
  calls.Pairwise fun a b => ¬ b.map Char.toLower < a.map Char.toLower

/-- The call stands in the code, and the first place is not the name of a structure. -/
def isDefined (code call : List Char) : Except Error Bool := do
  match ← find code (pattern call) 1 false with
  | none => pure false
  | some (posStart, posEnd) =>
      let codeCall := sub code ((posStart : Int) - 7) posEnd
      pure (← find codeCall ("struct ".toList ++ call) 1 false).isNone

def createNotFoundNewDefinitions (code : List Char) :
    List (List Char) → Except Error (List (List Char))
  | [] => pure []
  | call :: calls => do
      let found ← isDefined code call
      let newCalls ← createNotFoundNewDefinitions code calls
      pure (if found then newCalls else call :: newCalls)

/-! ## Writing -/

structure NewLines where
  staticConst : List (List Char)
  typesBasic : List (List Char)
  types : List (List Char)
  structs : List (List Char)
  functions : List (List Char)

/-- The lines of a list, and an empty line when other lists follow. -/
def linesText (lines : List (List Char)) (more : Bool) : List Char :=
  if lines = [] then []
  else ['\n'].intercalate lines ++ (if more then ['\n', '\n'] else [])

def NewLines.text (n : NewLines) : List Char :=
  linesText n.staticConst (n.types ≠ [] || n.structs ≠ [] || n.functions ≠ []) ++
    (linesText n.typesBasic (n.types ≠ []) ++
      (linesText n.types (n.structs ≠ [] || n.functions ≠ []) ++
        (linesText n.structs (n.functions ≠ []) ++ linesText n.functions false)))

def NewLines.isEmpty (n : NewLines) : Bool :=
  n.staticConst = [] && n.typesBasic = [] && n.types = [] && n.structs = [] && n.functions = []

def addNewDefinitions (code sourcefile : List Char) (n : NewLines) : List Char :=
  code ++ ("\n--[[ ".toList ++ sourcefile ++ " ]]".toList ++
    (if n.isEmpty then [] else "\nffi.cdef[[\n".toList ++ (n.text ++ "\n]]\n".toList)))

/-! ## The main loop -/

/-- What lasts from file to file. -/
structure Generator where
  code : List Char
  typeDefines : Finset (List Char)
  typeDone : Finset (List Char)
  basicTypes : Finset (List Char)
  notFoundCalls : List (List Char)
  notFoundBasicTypes : List (List Char)

/-- The values of a pass of the loop. -/
structure FileRun where
  source : List Char
  requested : Finset (List Char)
  calls : List (List Char)
  sorted : List (List Char)
  newCalls : List Identifier
  tables : CallTables
  /-- `new_calls` afterwards: what is found is an empty text. -/
  left : List (List Char)
  converted : Tables

def Generator.callTables (g : Generator) (requested : Finset (List Char)) : CallTables :=
  ⟨[], [], requested, g.basicTypes, g.typeDone⟩

/-- What the conversion of types starts with. -/
def Generator.typeTables (g : Generator) (t : CallTables) : Tables where
  typeDefines := t.typeDefines
  typeDone := t.typeDone
  basicTypes := t.basicTypes
  notFoundBasicTypes := g.notFoundBasicTypes
  typeNotFound := ∅
  typeLinesContent := ∅
  typeLinesBasic := []
  typeLines := []
  staticConstLines := t.staticConstLines
  added := ∅

/-- The parts of a pass, one after the other.  A name that a script calls does not start with a
digit, so it is an identifier of C. -/
structure FileRun.Of (header : List Char) (file : SourceFile) (g : Generator) (r : FileRun) :
    Prop where
  source : createSourceText file.text = .ok r.source
  requested : addCTypeParameters g.basicTypes g.typeDefines r.source = .ok r.requested
  calls : callsOf r.source = .ok r.calls
  perm : r.sorted.Perm r.calls
  inOrder : InOrder r.sorted
  newCalls : createNotFoundNewDefinitions g.code r.sorted = .ok (r.newCalls.map (·.text))
  found : createMissingDefinitions header (g.callTables r.requested) r.newCalls =
    .ok (r.tables, r.left)
  converted : Relation.ReflTransGen (Step header g.code) (TypeSearch.start (g.typeTables r.tables))
    ⟨r.converted, .finished⟩

/-- No line is put into `struct_lines`. -/
def FileRun.newLines (r : FileRun) : NewLines where
  staticConst := r.converted.staticConstLines
  typesBasic := r.converted.typeLinesBasic
  types := r.converted.typeLines
  structs := []
  functions := r.tables.functionLines

def FileRun.after (r : FileRun) (file : SourceFile) (g : Generator) : Generator where
  code := addNewDefinitions g.code file.name r.newLines
  typeDefines := r.converted.typeDefines
  typeDone := r.converted.typeDone
  basicTypes := r.converted.basicTypes
  notFoundCalls := g.notFoundCalls ++
    (("--- ".toList ++ file.name ++ " ---".toList) :: collectNotFoundCalls r.left)
  notFoundBasicTypes := r.converted.notFoundBasicTypes

inductive Generates (header : List Char) : List SourceFile → Generator → Generator → Prop
  | nil (g : Generator) : Generates header [] g g
  | cons {file : SourceFile} {files : List SourceFile} {g g' : Generator} {r : FileRun} :
      r.Of header file g → Generates header files (r.after file g) g' →
      Generates header (file :: files) g g'

end Generate
end FfiDef
end LuajitTcpServer
