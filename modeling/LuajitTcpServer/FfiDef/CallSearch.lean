import LuajitTcpServer.FfiDef.Extents
import LuajitTcpServer.FfiDef.Uncommented

/-!
# CallSearch — the search for the functions that a source file calls

`createMissingDefinitionsFromHeader` of `ffi_def_create.lua`: every call is searched in the header,
from statement to statement, and the first occurrence that is not skipped gives a line of the
target file.

* `callRound` — what is done with an occurrence; `postFix` is kept from round to round;
* `searchLoop` — the search for one call;
* `addCall` — what a call that is found does to the tables;
* `createMissingDefinitions` — all calls, in their order.

Left out is what is printed.
-/

namespace LuajitTcpServer
namespace FfiDef
namespace CallSearch

open Lua Loops TypeSearch

/-! ## A round of the search -/

/-- A statement that is cut out of the header, and what is put behind it. -/
structure Statement where
  line : List Char
  lineStart : Nat
  lineEnd : Nat
  postFix : List Char
  deriving DecidableEq, Repr

def newline : List Char := ['\n']

/-- The line break in front of a body. -/
def beforeNewline (line : List Char) (lineEnd : Nat) : Nat :=
  if line.getLast? = some '\n' then lineEnd - 1 else lineEnd

/-- A statement with a body ends in front of the body.  The places are those of the line without
comments. -/
def cutBody (header : List Char) (st : Statement) (e : Nat) : Except Error Statement := do
  match ← find st.line openBrace 1 false with
  | none => pure st
  | some (s2, _) =>
      if s2 > e then
        let lineEnd := st.lineEnd - (st.line.length - s2 + 1)
        let lineEnd := beforeNewline (sub header (st.lineStart + 1 : Nat) lineEnd) lineEnd
        let line ← gsub (sub header (st.lineStart + 1 : Nat) lineEnd) newline []
        pure ⟨line ++ TypeSearch.semicolon, st.lineStart, lineEnd, TypeSearch.semicolon⟩
      else pure st

/-- A statement behind a body begins behind the body. -/
def cutFront (header : List Char) (st : Statement) (s : Nat) : Except Error Statement := do
  match ← find st.line closeBrace 1 false with
  | none => pure st
  | some (_, e2) =>
      if e2 < s then
        let lineStart := st.lineStart + e2 + 1
        pure { st with
          line := sub header (lineStart + 1 : Nat) st.lineEnd ++ st.postFix
          lineStart := lineStart }
      else pure st

/-- The name of a structure, in front of any call of the function. -/
def namesStruct (line findcall : List Char) : Except Error Bool := do
  match ← find line ("%Wstruct ".toList ++ findcall ++ "%W".toList) 1 false with
  | none => pure false
  | some (posStruct, _) =>
      let (posCall, _) ← valueOf (← find line (findcall ++ "%W".toList) 1 false)
      pure (posCall > posStruct)

/-- The function is on the right side of an assignment. -/
def isAssigned (line findcall : List Char) : Except Error Bool := do
  pure (← find line ("= ".toList ++ findcall) 1 false).isSome

/-- A statement in `#pragma pack` goes on to the end of the packing. -/
def cutPragma (header : List Char) (st : Statement) :
    Except Error (Statement × Option (List Char)) := do
  match ← find st.line pragmaWords 1 false with
  | none => pure (st, none)
  | some (_, e) =>
      let (s, _) ← valueOf (← find st.line newline e false)
      let pragmaPack := sub header (st.lineStart + 2 : Nat) (st.lineStart + s - 1 : Nat)
      let lineStart := st.lineStart + s - 1
      let (_, e2) ← valueOf (← find header "pragma pack%(%)".toList (lineStart + e) false)
      pure (⟨sub header lineStart e2, lineStart, e2, st.postFix⟩, some pragmaPack)

structure Found where
  statement : Statement
  pragmaPack : Option (List Char)
  deriving DecidableEq, Repr

inductive CallOutcome where
  | goOn (findpos : Nat) (postFix : List Char)
  | take (found : Found)
  deriving DecidableEq, Repr

/-- What is done with the occurrence from `startpos` to `endpos`. -/
def callRound (header findcall postFix : List Char) (startpos endpos : Nat) :
    Except Error CallOutcome := do
  let (lineStart, lineEnd) ← stringBetweenPosition header startpos endpos TypeSearch.semicolon TypeSearch.semicolon
  let line ← removeAllLineComments (sub header (lineStart + 1 : Nat) lineEnd)
  match ← find line (pattern findcall) 1 false with
  | none => pure (.goOn (endpos + 1) postFix)
  | some (s, e) =>
      let st ← cutBody header ⟨line, lineStart, lineEnd, postFix⟩ e
      let st ← cutFront header st s
      if ← namesStruct st.line findcall then
        pure (.goOn (endpos + 1) st.postFix)
      else if ← isAssigned st.line findcall then
        pure (.goOn (endpos + 1) st.postFix)
      else
        let (st, pragmaPack) ← cutPragma header st
        pure (.take ⟨st, pragmaPack⟩)

/-! ## The search for a call -/

structure Search where
  findpos : Nat
  postFix : List Char
  /-- The place of the occurrence that is taken. -/
  taken : Option (Nat × Found)
  deriving DecidableEq, Repr

def searchCallRound (header : List Char) (findcall : Identifier) (s : Search) :
    Except Error (Round Search) := do
  match ← find header (pattern findcall.text) s.findpos false with
  | none => pure (.done s)
  | some (startpos, endpos) =>
      match ← callRound header findcall.text s.postFix startpos endpos with
      | .goOn findpos postFix => pure (.again ⟨findpos, postFix, none⟩)
      | .take found => pure (.done { s with taken := some (startpos, found) })

theorem callRound_goOn {header findcall postFix postFix' : List Char} {startpos endpos findpos : Nat}
    (h : callRound header findcall postFix startpos endpos = .ok (.goOn findpos postFix')) :
    findpos = endpos + 1 := by
  simp only [callRound, bind_eq_ok] at h
  rcases h with ⟨⟨lineStart, lineEnd⟩, -, line, -, place, -, h⟩
  rcases place with _ | ⟨s, e⟩
  · cases h
    rfl
  · simp only [bind_eq_ok] at h
    rcases h with ⟨st, -, st', -, struct, -, h⟩
    split at h
    · cases h
      rfl
    · simp only [bind_eq_ok] at h
      rcases h with ⟨assigned, -, h⟩
      split at h
      · cases h
        rfl
      · simp only [bind_eq_ok] at h
        rcases h with ⟨⟨st'', pragmaPack⟩, -, h⟩
        cases h

/-- Every round of the search goes on behind its occurrence. -/
def searchLoop (header : List Char) (findcall : Identifier) : Loop Error Search where
  round := searchCallRound header findcall
  size s := header.length + 1 - s.findpos
  decreases := by
    intro s s' hround
    simp only [searchCallRound, bind_eq_ok] at hround
    rcases hround with ⟨place, hfind, hround⟩
    rcases place with _ | ⟨startpos, endpos⟩
    · cases hround
    · simp only [bind_eq_ok] at hround
      rcases hround with ⟨outcome, hcall, hround⟩
      cases outcome with
      | take found =>
          cases hround
      | goOn findpos postFix =>
          cases hround
          have hgoOn := callRound_goOn hcall
          have hbounds := find_bounds (pattern_special _) (anchor_pattern _) hfind
          rcases occurrence_of_find findcall.text_word hfind with ⟨c, rest, -, -, hone, hend, hle⟩
          show header.length + 1 - findpos < header.length + 1 - s.findpos
          omega

/-! ## A call that is found -/

/-- The line of a statement, without comments. -/
def callText (header : List Char) (st : Statement) : Except Error (List Char) := do
  let line := sub header (st.lineStart + 1 + 1 : Nat) st.lineEnd ++ st.postFix
  -- the line breaks in front
  let line ← removeAllLineComments (line.dropWhile (· = '\n'))
  replaceLine line

def lastWordRound (dfn : List Char) : Except Error (Round (List Char)) := do
  let dfn := dfn.rdropWhile (· = ' ')
  match ← find dfn nameSeparator 1 false with
  | none => pure (.done dfn)
  | some (posStart, _) =>
      let dfn := sub dfn posStart (-1)
      if posStart = 1 then pure (.done dfn) else pure (.again dfn)

/-- What is in front of the name, from the first separator on. -/
def lastWordLoop : Loop Error (List Char) where
  round := lastWordRound
  size := List.length
  decreases := by
    intro dfn dfn' hround
    have hle := (List.rdropWhile_prefix (· = ' ') dfn).length_le
    simp only [lastWordRound, find_nameSeparator, bind, Except.bind] at hround
    cases hfirst : (dfn.rdropWhile (· = ' ')).findIdx? fun c => !isWordChar c with
    | none =>
        rw [hfirst] at hround
        cases hround
    | some k =>
        rw [hfirst] at hround
        rcases List.findIdx?_eq_some_iff_getElem.1 hfirst with ⟨hk, -, -⟩
        simp only [Option.map_some] at hround
        split at hround
        · cases hround
        · rename_i hne
          cases hround
          have hfrom := congrArg List.length (sub_from (dfn.rdropWhile (· = ' ')) k)
          rw [List.length_drop] at hfrom
          push_cast at hfrom ⊢
          omega

structure CallTables where
  functionLines : List (List Char)
  staticConstLines : List (List Char)
  typeDefines : Finset (List Char)
  basicTypes : Finset (List Char)
  typeDone : Finset (List Char)

def CallTables.requestParams (t : CallTables) (params : Option (List Char)) (sep : Char) :
    Except Error CallTables := do
  pure { t with typeDefines := ← paramsAdd t.basicTypes t.typeDefines params sep }

def startsEnum (line : List Char) : Except Error Bool := do
  match ← find line "enum".toList 1 false with
  | some (s, _) => pure (s = 1)
  | none => pure false

/-- The type of the result. -/
def resultType (dfn : List Char) : Except Error (List Char) := do
  let dfn ← gsub dfn "const ".toList []
  let dfn ← gsub dfn "^%s+".toList []
  let dfn ← gsub dfn newline []
  validType dfn

def requestResult (t : CallTables) (line dfn : List Char) : Except Error CallTables := do
  if dfn ≠ [] ∧ dfn ∉ t.basicTypes ∧ dfn ∉ t.typeDone then
    if ← startsEnum line then pure t else pure { t with typeDefines := insert dfn t.typeDefines }
  else pure t

/-- The parameters, or the fields of a structure. -/
def parametersOf (line : List Char) : Except Error (Option (Nat × Nat × Char)) := do
  match ← find line "%\x7b.-%\x7d".toList 1 false with
  | some (paramStart, paramEnd) => pure (some (paramStart, paramEnd, ';'))
  | none =>
      match ← find line "%(.-%)".toList 1 false with
      | some (paramStart, paramEnd) => pure (some (paramStart, paramEnd, ','))
      | none => pure none

def requestParameters (t : CallTables) (line : List Char) : Except Error CallTables := do
  match ← parametersOf line with
  | none => pure t
  | some (paramStart, paramEnd, sep) =>
      if ← startsEnum line then pure t
      else t.requestParams (some (sub line (paramStart + 1 : Nat) (paramEnd - 1))) sep

/-- A line of a structure in `#pragma pack` keeps it as a comment. -/
def withPragma (pack : Option (List Char)) (line : List Char) : Except Error (List Char) := do
  match pack with
  | none => pure line
  | some pack => gsub (pack ++ newline ++ line) pragmaPack "// #pragma pack".toList

def addLine (t : CallTables) (line dfn : List Char) : Except Error CallTables := do
  if ← startsStaticConst line then
    let t := { t with staticConstLines := t.staticConstLines ++ [line] }
    t.requestParams (← firstMatch line "%((.-)%)".toList) '|'
  else
    let line := spaced line
    let t := { t with functionLines := t.functionLines ++ [line] }
    let t ← requestResult t line (← resultType dfn)
    requestParameters t (← removeAllLineComments line)

def addCall (header : List Char) (t : CallTables) (startpos : Nat) (found : Found) :
    Except Error CallTables := do
  let line ← callText header found.statement
  if line = [] then
    pure t
  else
    let dfn ← lastWordLoop.run
      (sub header (found.statement.lineStart + 1 + 1 : Nat) ((startpos : Int) - 1))
    addLine t (← withPragma found.pragmaPack line) dfn

/-! ## The lines of a call -/

section Lines

variable {t t' : CallTables} {line dfn : List Char}

structure SameLines (t t' : CallTables) : Prop where
  function : t'.functionLines = t.functionLines
  staticConst : t'.staticConstLines = t.staticConstLines

theorem SameLines.refl (t : CallTables) : SameLines t t := ⟨rfl, rfl⟩

theorem SameLines.trans {t'' : CallTables} (h : SameLines t t') (h' : SameLines t' t'') :
    SameLines t t'' := ⟨h'.function.trans h.function, h'.staticConst.trans h.staticConst⟩

theorem requestParams_lines {params : Option (List Char)} {sep : Char}
    (h : t.requestParams params sep = .ok t') : SameLines t t' := by
  simp only [CallTables.requestParams, bind_eq_ok] at h
  rcases h with ⟨typeDefines, -, h⟩
  cases h
  exact ⟨rfl, rfl⟩

theorem requestResult_lines (h : requestResult t line dfn = .ok t') : SameLines t t' := by
  unfold requestResult at h
  split at h
  · simp only [bind_eq_ok] at h
    rcases h with ⟨enum, -, h⟩
    split at h
    · cases h
      exact .refl t
    · cases h
      exact ⟨rfl, rfl⟩
  · cases h
    exact .refl t

theorem requestParameters_lines (h : requestParameters t line = .ok t') : SameLines t t' := by
  simp only [requestParameters, bind_eq_ok] at h
  rcases h with ⟨parameters, -, h⟩
  rcases parameters with _ | ⟨paramStart, paramEnd, sep⟩
  · cases h
    exact .refl t
  · simp only [bind_eq_ok] at h
    rcases h with ⟨enum, -, h⟩
    split at h
    · cases h
      exact .refl t
    · exact requestParams_lines h

/-- A line goes to one of the lists. -/
theorem addLine_cases (h : addLine t line dfn = .ok t') :
    (t'.functionLines = t.functionLines ∧ t'.staticConstLines = t.staticConstLines ++ [line]) ∨
      (t'.functionLines = t.functionLines ++ [spaced line] ∧
        t'.staticConstLines = t.staticConstLines) := by
  simp only [addLine, bind_eq_ok] at h
  rcases h with ⟨constant, -, h⟩
  split at h
  · simp only [bind_eq_ok] at h
    rcases h with ⟨params, -, h⟩
    have hsame := requestParams_lines h
    exact Or.inl ⟨hsame.function, hsame.staticConst⟩
  · simp only [bind_eq_ok] at h
    rcases h with ⟨result, -, t₁, hresult, code, -, hparameters⟩
    have hsame := (requestResult_lines hresult).trans (requestParameters_lines hparameters)
    exact Or.inr ⟨hsame.function, hsame.staticConst⟩

/-- What a call that is found adds: nothing for an empty line, and otherwise one line. -/
theorem addCall_cases {header : List Char} {startpos : Nat} {found : Found}
    (h : addCall header t startpos found = .ok t') :
    ∃ text, callText header found.statement = .ok text ∧
      (text = [] ∧ t' = t ∨
        text ≠ [] ∧ ∃ dfn line, withPragma found.pragmaPack text = .ok line ∧
          addLine t line dfn = .ok t') := by
  simp only [addCall, bind_eq_ok] at h
  rcases h with ⟨text, htext, h⟩
  refine ⟨text, htext, ?_⟩
  split at h
  · rename_i hnil
    cases h
    exact Or.inl ⟨hnil, rfl⟩
  · rename_i hne
    simp only [bind_eq_ok] at h
    rcases h with ⟨dfn, -, line, hline, h⟩
    exact Or.inr ⟨hne, dfn, line, hline, h⟩

end Lines

/-! ## All calls -/

/-- One call after the other; a call that is found leaves an empty text in `new_calls`. -/
def createMissingDefinitions (header : List Char) :
    CallTables → List Identifier → Except Error (CallTables × List (List Char))
  | t, [] => pure (t, [])
  | t, findcall :: newCalls => do
      let s ← (searchLoop header findcall).run ⟨1, [], none⟩
      match s.taken with
      | none =>
          let (t, left) ← createMissingDefinitions header t newCalls
          pure (t, findcall.text :: left)
      | some (startpos, found) =>
          let t ← addCall header t startpos found
          let (t, left) ← createMissingDefinitions header t newCalls
          pure (t, [] :: left)

def collectNotFoundCalls (newCalls : List (List Char)) : List (List Char) :=
  newCalls.filter (· ≠ [])

end CallSearch
end FfiDef
end LuajitTcpServer
