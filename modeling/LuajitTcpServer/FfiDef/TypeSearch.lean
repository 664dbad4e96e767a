import LuajitTcpServer.FfiDef.LineStarts
import LuajitTcpServer.FfiDef.Params
import LuajitTcpServer.Lib.Places

/-!
# TypeSearch — the search for the types that are still requested

`convertTypesToBasicTypes` of `ffi_def_create.lua` as steps over its tables: it goes through
`type_defines` until nothing is left there, and looks for every type in the header.  The type itself
is part of the pattern of the search, as it is.

* `searchRound` — what is done with an occurrence: the search goes on, or the occurrence is taken;
* `takeLine` — what the declaration that is taken does to the tables;
* `Step` — the steps; `pairs` may give the entries in any order, and it may give or leave out an
  entry that is added during the traversal.

Left out is what is printed.
-/

namespace LuajitTcpServer
namespace FfiDef
namespace TypeSearch

open Lua Loops

/-! ## Positions in the header -/

/-- The last place of `startstr` at `startpos` or before it; 0 when there is none. -/
def backTo (str startstr : List Char) : Nat → Nat
  | 0 => 0
  | startpos + 1 =>
      let findlen : Int := startstr.length - 1
      if sub str (startpos + 1 : Nat) ((startpos + 1 : Nat) + findlen) = startstr then startpos + 1
      else backTo str startstr startpos

theorem sub_word {word : List Char} (hne : word ≠ []) (str : List Char) (p : Nat) :
    sub str (p + 1 : Nat) ((p + 1 : Nat) + ((word.length : Int) - 1)) = word ↔
      StandsAt word str p := by
  have hlast : ((p + 1 : Nat) : Int) + ((word.length : Int) - 1) = (p + word.length : Nat) := by
    push_cast
    omega
  have hwithin := sub_within str p (p + word.length)
  push_cast at hwithin hlast ⊢
  rw [hlast, hwithin, List.drop_take, Nat.add_sub_cancel_left]
  constructor
  · intro h
    have hstands : word <+: str.drop p := by
      rw [← h]
      exact List.take_prefix _ _
    have hlength := hstands.length_le
    have hpos := List.length_pos_iff.2 hne
    rw [List.length_drop] at hlength
    exact ⟨by omega, hstands⟩
  · intro h
    exact (List.prefix_iff_eq_take.1 h.2).symm

/-- The start is at the last place of the word, or there is none. -/
theorem backTo_word {word : List Char} (hne : word ≠ []) (str : List Char) (startpos : Nat) :
    backTo str word startpos ≤ startpos ∧
      (backTo str word startpos = 0 ∨ StandsAt word str (backTo str word startpos - 1)) ∧
      ∀ p, backTo str word startpos < p → p ≤ startpos → ¬ StandsAt word str (p - 1) := by
  induction startpos with
  | zero =>
      exact ⟨Nat.le_refl 0, Or.inl rfl, fun p hp hle => absurd hp (Nat.not_lt.2 hle)⟩
  | succ startpos ih =>
      rw [backTo]
      have hword := sub_word hne str startpos
      split
      · rename_i hstands
        exact ⟨Nat.le_refl _, Or.inr (hword.1 hstands), fun p hp hle => absurd hp (Nat.not_lt.2 hle)⟩
      · rename_i hstands
        rcases ih with ⟨hle, hat, hnone⟩
        refine ⟨hle.trans (Nat.le_succ _), hat, fun p hp hle => ?_⟩
        rcases Nat.lt_or_eq_of_le hle with hlt | rfl
        · exact hnone p hp (Nat.le_of_lt_succ hlt)
        · exact fun hat => hstands (hword.2 hat)

theorem backTo_char (str : List Char) (c : Char) (startpos : Nat) :
    backTo str [c] startpos ≤ startpos ∧
      (backTo str [c] startpos = 0 ∨ str[backTo str [c] startpos - 1]? = some c) ∧
      ∀ p, backTo str [c] startpos < p → p ≤ startpos → str[p - 1]? ≠ some c := by
  have hword := backTo_word (List.cons_ne_nil c []) str startpos
  simp only [standsAt_char] at hword
  exact hword

def stringBetweenPosition (str : List Char) (startpos endpos : Nat) (startstr endstr : List Char) :
    Except Error (Nat × Nat) := do
  match ← find str endstr endpos false with
  | some (_, e) => pure (backTo str startstr startpos, e)
  | none => pure (backTo str startstr startpos, endpos)

/-! ## Patterns -/

/-- The pattern that a type is searched with. -/
def pattern (typeStr : List Char) : List Char := nameSeparator ++ typeStr ++ nameSeparator

theorem pattern_special (typeStr : List Char) : (pattern typeStr).any isSpecial := by
  have hbracket : nameSeparator = '[' :: "^_%w]".toList := by decide
  rw [pattern, hbracket]
  rfl

theorem anchor_pattern (typeStr : List Char) :
    anchor (pattern typeStr) = (false, pattern typeStr) := by
  have hbracket : nameSeparator = '[' :: "^_%w]".toList := by decide
  rw [pattern, hbracket]
  rfl

def semicolon : List Char := [';']

def openBrace : List Char := ['\x7b']

def closeBrace : List Char := ['\x7d']

/-- Part of another definition, inside the parameters of a function. -/
def insideParameters (typeStr : List Char) : List Char :=
  "(.-)%((.-)".toList ++ typeStr ++ "(.-)%)".toList

/-- Part of another definition, inside a structure. -/
def insideStructure (typeStr : List Char) : List Char := "(.-)%\x7b(.-)".toList ++ typeStr

def namedStaticConst (typeStr : List Char) : List Char :=
  "static const(.-)".toList ++ typeStr ++ semicolon

def typedefUnion : List Char := "typedef union".toList

def typedefStruct : List Char := "typedef struct".toList

/-! ## The extent of a declaration -/

/-- A declaration that is cut out of the header. -/
structure Slice where
  line : List Char
  lineEnd : Nat
  deriving DecidableEq, Repr

/-- The previous `typedef union` or `typedef struct`, the later of the two. -/
def typedefBefore (header : List Char) (startpos endpos : Nat) : Except Error Slice := do
  let (s, e) ← stringBetweenPosition header startpos endpos typedefUnion semicolon
  let (lineStart, lineEnd) ← stringBetweenPosition header startpos endpos typedefStruct semicolon
  let (lineStart, lineEnd) := if s > lineStart then (s, e) else (lineStart, lineEnd)
  pure ⟨sub header lineStart lineEnd, lineEnd⟩

/-- A declaration with fields ends at the first `;` behind the first `}`. -/
def throughFields (header line : List Char) (lineStart lineEnd : Nat) : Except Error Slice := do
  match ← find line openBrace 1 false with
  | none => pure ⟨line, lineEnd⟩
  | some (curlyStart, _) =>
      match ← find header closeBrace (curlyStart + lineStart) false with
      | none => pure ⟨sub header (lineStart + 1 : Nat) lineEnd, lineEnd⟩
      | some (curlyEnd, _) =>
          let (lineEnd, _) ← valueOf (← find header semicolon (curlyEnd + 1) false)
          pure ⟨sub header (lineStart + 1 : Nat) lineEnd, lineEnd⟩

def extent (header typeStr line : List Char) (startpos endpos lineStart lineEnd : Nat) :
    Except Error Slice := do
  let linePos ← find line typeStr 1 false
  match ← find line closeBrace 1 false with
  | none => throughFields header line lineStart lineEnd
  | some (curlyEnd, _) =>
      let (linePos, _) ← valueOf linePos
      if curlyEnd < linePos then typedefBefore header startpos endpos
      else throughFields header line lineStart lineEnd

/-! ## A round of the search -/

/-- Leading and trailing line breaks removed, then blanks. -/
def replaceLine (line : List Char) : Except Error (List Char) := do
  let line ← valueOf (← firstMatch line "^\n*(.-)\n*$".toList)
  trimmed line

def twoSpaces : List Char := [' ', ' ']

def spacesRound (line : List Char) : Except Error (Round (List Char)) := do
  if (← find line twoSpaces 1 false).isSome then
    let line ← gsub line twoSpaces [' ']
    pure (.again line)
  else
    pure (.done line)

theorem gsub_twoSpaces (line : List Char) :
    gsub line twoSpaces [' '] = .ok (replaceAll twoSpaces [' '] line) := by
  have hspells : Spells [.char ' ', .char ' '] twoSpaces :=
    .cons (fun _ => decide_eq_decide.2 eq_comm) (.cons (fun _ => decide_eq_decide.2 eq_comm) .nil)
  exact gsub_spells rfl (by decide +kernel) hspells (by decide)

/-- Every round takes a space away. -/
theorem length_replaceAll_twoSpaces {line : List Char} (h : twoSpaces <:+: line) :
    (replaceAll twoSpaces [' '] line).length < line.length := by
  have hle : ∀ line, (replaceAll twoSpaces [' '] line).length ≤ line.length := by
    intro line
    induction line using @replaceAll_induction twoSpaces (by decide) with
    | nil =>
        rw [replaceAll_nil]
    | here line ih =>
        rw [replaceAll_word (by decide), List.length_append, List.length_append]
        exact Nat.add_le_add (by decide) ih
    | cons c line hword ih =>
        rw [replaceAll_cons hword]
        exact Nat.succ_le_succ ih
  induction line using @replaceAll_induction twoSpaces (by decide) with
  | nil =>
      exact absurd (List.infix_nil.1 h) (by decide)
  | here line ih =>
      rw [replaceAll_word (by decide), List.length_append, List.length_append]
      exact Nat.add_lt_add_of_lt_of_le (by decide) (hle line)
  | cons c line hword ih =>
      rw [replaceAll_cons hword]
      rcases List.infix_cons_iff.1 h with hhere | hlater
      · exact absurd hhere hword
      · exact Nat.succ_lt_succ (ih hlater)

def spacesLoop : Loop Error (List Char) where
  round := spacesRound
  size := List.length
  decreases := by
    intro line line' hround
    rcases @find_part twoSpaces line (by decide) with ⟨found, hfind, hfound⟩
    simp only [spacesRound, hfind, gsub_twoSpaces, bind, Except.bind] at hround
    split at hround
    · rename_i hsome
      cases hround
      exact length_replaceAll_twoSpaces (hfound.1 hsome)
    · cases hround

/-- A declaration that is taken, and the place of the type in it. -/
structure Taken where
  line : List Char
  lineOrig : List Char
  posStart : Nat
  deriving DecidableEq, Repr

inductive Outcome where
  | goOn (findpos : Nat)
  | take (taken : Taken)
  deriving DecidableEq, Repr

/-- A declaration as it is compared and searched: without comments and double spaces. -/
def compared (line : List Char) : Except Error (List Char) := do
  spacesLoop.run (← removeAllLineComments line)

/-- What is done with the occurrence from `startpos` to `endpos`.  The declaration starts behind the
`;` and the character that follows it. -/
def searchRound (header typeStr : List Char) (startpos endpos : Nat) : Except Error Outcome := do
  let (lineStart, lineEnd) ← stringBetweenPosition header startpos endpos semicolon semicolon
  let lineStart := lineStart + 1
  let line ← removeLineStartComments (sub header (lineStart + 1 : Nat) lineEnd)
  let line2 ← removeAllLineComments line
  -- an occurrence in a comment, or inside another definition
  if (← find line2 (pattern typeStr) 1 false).isNone then
    pure (.goOn (endpos + 1))
  else if (← find line (insideParameters typeStr) 1 false).isSome then
    pure (.goOn (endpos + 1))
  else if (← find line (insideStructure typeStr) 1 false).isSome then
    pure (.goOn (endpos + 1))
  else
    let slice ← extent header typeStr line startpos endpos lineStart lineEnd
    let findpos := slice.lineEnd + 1
    let lineOrig ← replaceLine slice.line
    let line ← compared lineOrig
    if (← find line (namedStaticConst typeStr) 1 false).isSome then
      pure (.goOn findpos)
    else
      match ← find line (pattern typeStr) 1 false with
      | some (posStart, _) => pure (.take ⟨line, lineOrig, posStart⟩)
      | none => pure (.goOn findpos)

/-! ## Tables -/

structure Tables where
  typeDefines : Finset (List Char)
  typeDone : Finset (List Char)
  basicTypes : Finset (List Char)
  notFoundBasicTypes : List (List Char)
  typeNotFound : Finset (List Char)
  typeLinesContent : Finset (List Char)
  typeLinesBasic : List (List Char)
  typeLines : List (List Char)
  staticConstLines : List (List Char)
  /-- The entries of `type_defines` that are added during the traversal. -/
  added : Finset (List Char)

namespace Tables

def remove (t : Tables) (typeStr : List Char) : Tables :=
  { t with typeDefines := t.typeDefines.erase typeStr }

/-- `type_defines` gets new entries. -/
def request (t : Tables) (typeDefines : Finset (List Char)) : Tables :=
  { t with typeDefines := typeDefines, added := t.added ∪ (typeDefines \ t.typeDefines) }

def done (t : Tables) (typeStr : List Char) : Tables :=
  { t with typeDone := insert typeStr t.typeDone }

def typeNotFoundAdd (t : Tables) (typeStr : List Char) : Tables :=
  { t.remove typeStr with
    basicTypes := insert typeStr t.basicTypes
    notFoundBasicTypes := t.notFoundBasicTypes ++ [typeStr] }

def requestParams (t : Tables) (params : Option (List Char)) (sep : Char) :
    Except Error Tables := do
  let typeDefines ← paramsAdd t.basicTypes t.typeDefines params sep
  pure (t.request typeDefines)

end Tables

/-- `typeDoneAdd`: the next name is marked as done, and no longer requested. -/
def typeDoneRound (sep : Char) :
    List Char × Tables → Except Error (Round (List Char × Tables))
  | (params, t) => do
      if params = [] then
        pure (.done (params, t))
      else
        let (dfn, params) ← cutParam params sep
        let dfn ← trimmed dfn
        let dfn ← gsub dfn "%*".toList []
        pure (.again (params, (t.done dfn).remove dfn))

def typeDoneLoop (sep : Char) : Loop Error (List Char × Tables) where
  round := typeDoneRound sep
  size s := s.1.length
  decreases := by
    rintro ⟨params, t⟩ ⟨params', t'⟩ hround
    rcases exists_cutParam params sep with ⟨dfn, rest, hcut, hshort⟩
    rw [typeDoneRound] at hround
    split at hround
    · cases hround
    · rename_i hne
      cases hgsub : gsub (trim dfn) "%*".toList [] with
      | error e =>
          simp only [hcut, trimmed_eq, hgsub, bind, Except.bind] at hround
          cases hround
      | ok name =>
          simp only [hcut, trimmed_eq, hgsub, bind, Except.bind] at hround
          cases hround
          exact hshort hne

def typeDoneAdd (t : Tables) (params : List Char) (sep : Char) : Except Error Tables := do
  let (_, t) ← (typeDoneLoop sep).run (params, t)
  pure t

/-! ## A declaration that is taken -/

def wordRound (dfn : List Char) : Except Error (Round (List Char)) := do
  -- trailing spaces
  let dfn := dfn.rdropWhile (· = ' ')
  match ← find dfn nameSeparator 1 false with
  | none => pure (.done dfn)
  | some (posStart, _) =>
      let dfn := sub dfn (posStart + 1 : Nat) (-1)
      if posStart = 1 then pure (.done dfn) else pure (.again dfn)

/-- What is left behind the first words, at most one. -/
def wordLoop : Loop Error (List Char) where
  round := wordRound
  size := List.length
  decreases := by
    intro dfn dfn' hround
    have hle := (List.rdropWhile_prefix (· = ' ') dfn).length_le
    simp only [wordRound, find_nameSeparator, bind, Except.bind] at hround
    cases hfirst : (dfn.rdropWhile (· = ' ')).findIdx? fun c => !isWordChar c with
    | none =>
        rw [hfirst] at hround
        cases hround
    | some k =>
        rw [hfirst] at hround
        rcases List.findIdx?_eq_some_iff_getElem.1 hfirst with ⟨hk, -, -⟩
        simp only [Option.map_some] at hround
        split at hround
        · cases hround
        · cases hround
          have hfrom := sub_from (dfn.rdropWhile (· = ' ')) (k + 1)
          have hlength := congrArg List.length hfrom
          rw [List.length_drop] at hlength
          push_cast at hlength ⊢
          omega

def pragmaPack : List Char := "#pragma pack".toList

/-- A structure in `#pragma pack` keeps it as a comment. -/
def packed (dfn lineOrig : List Char) : Except Error (List Char × List Char) := do
  if (← find dfn "pragma pack(.-)struct".toList 1 false).isNone then
    pure (dfn, lineOrig)
  else if (← find lineOrig "pragma pack%(%)".toList 1 false).isSome then
    pure ([], lineOrig)
  else
    let lineOrig ← gsub (lineOrig ++ "\n#pragma pack()".toList) pragmaPack "// #pragma pack".toList
    pure ([], lineOrig)

/-- The type that the declaration rests on is requested, or the type is done. -/
def requestSource (t : Tables) (typeStr dfn : List Char) : Tables :=
  if dfn = [] then t.done typeStr
  else if dfn ∉ t.basicTypes ∧ dfn ∉ t.typeDone then t.request (insert dfn t.typeDefines)
  else t.done typeStr

def fieldsText : List Char := "%\x7b(.-)%\x7d".toList

def namesBehindFields : List Char := "%\x7d(.-)%;".toList

/-- The types of the fields are requested, and the names behind them are done. -/
def typedefFields (t : Tables) (line : List Char) : Except Error Tables := do
  let t ← t.requestParams (← firstMatch line fieldsText) ';'
  match ← firstMatch line namesBehindFields with
  | some types => typeDoneAdd t types ','
  | none => pure t

def startsStaticConst (line : List Char) : Except Error Bool := do
  match ← find line staticConst 1 false with
  | some (s, _) => pure (s = 1)
  | none => pure false

/-- The line goes to the front of one of the three lists. -/
def listLine (t : Tables) (dfn line lineOrig : List Char) : Except Error Tables := do
  if ← startsStaticConst line then
    let t := { t with staticConstLines := lineOrig :: t.staticConstLines }
    t.requestParams (← firstMatch line "%((.-)%)".toList) '|'
  else if dfn ∈ t.basicTypes then
    pure { t with typeLinesBasic := lineOrig :: t.typeLinesBasic }
  else
    pure { t with typeLines := lineOrig :: t.typeLines }

/-- An extra line in front of a definition with several lines. -/
def spaced (lineOrig : List Char) : List Char :=
  if '\n' ∈ lineOrig then '\n' :: lineOrig else lineOrig

def insertLine (t : Tables) (dfn line lineOrig : List Char) : Except Error Tables := do
  if lineOrig = [] then
    pure t
  else
    let t ← listLine t dfn line (spaced lineOrig)
    if (← find line "typedef struct ".toList 1 false).isSome then typedefFields t line else pure t

def requestFields (t : Tables) (line : List Char) : Except Error Tables := do
  if ← startsStaticConst line then
    pure t
  else
    match ← find line "%\x7b.-%\x7d".toList 1 false with
    | none => pure t
    | some (paramStart, paramEnd) =>
        let params := sub line (paramStart + 1 : Nat) (paramEnd - 1)
        let t ← t.requestParams (some params) ';'
        match ← firstMatch line namesBehindFields with
        | none => pure t
        | some types =>
            if (← firstMatch line typedefStruct).isSome then typeDoneAdd t types ',' else pure t

/-- A line is added once. -/
def addLine (t : Tables) (typeStr dfn line lineOrig : List Char) : Except Error Tables := do
  if line ∈ t.typeLinesContent then
    pure t
  else
    let t := { t with typeLinesContent := insert line t.typeLinesContent }
    let (dfn, lineOrig) ← packed dfn lineOrig
    let dfn ← validType dfn
    let t ← insertLine (requestSource t typeStr dfn) dfn line lineOrig
    requestFields t line

def takeLine (t : Tables) (typeStr : List Char) (taken : Taken) : Except Error Tables := do
  let dfn ← wordLoop.run (sub taken.line 1 (taken.posStart - 1))
  let dfn ← trimmed dfn
  let t ← addLine t typeStr dfn taken.line taken.lineOrig
  pure { t.remove typeStr with typeNotFound := t.typeNotFound.erase typeStr }

/-! ## What is kept -/

/-- Requests and marks change no lines. -/
structure SameLines (t t' : Tables) : Prop where
  content : t'.typeLinesContent = t.typeLinesContent
  lines : t'.typeLines = t.typeLines

section Kept

variable {t t' : Tables} {typeStr : List Char}

theorem SameLines.refl (t : Tables) : SameLines t t := ⟨rfl, rfl⟩

theorem SameLines.trans {t'' : Tables} (h : SameLines t t') (h' : SameLines t' t'') :
    SameLines t t'' :=
  ⟨h'.content.trans h.content, h'.lines.trans h.lines⟩

theorem requestParams_lines {params : Option (List Char)} {sep : Char}
    (h : t.requestParams params sep = .ok t') : SameLines t t' := by
  simp only [Tables.requestParams, bind_eq_ok] at h
  rcases h with ⟨typeDefines, -, h⟩
  cases h
  exact ⟨rfl, rfl⟩

theorem typeDoneAdd_lines {params : List Char} {sep : Char}
    (h : typeDoneAdd t params sep = .ok t') : SameLines t t' := by
  simp only [typeDoneAdd, bind_eq_ok] at h
  rcases h with ⟨⟨left, last⟩, hrun, h⟩
  cases h
  refine Loop.run_keeps (typeDoneLoop sep) (motive := fun s => SameLines t s.2) (.refl t) hrun ?_
  rintro ⟨params, s⟩ ⟨params', s'⟩ hsame hround
  simp only [typeDoneLoop, typeDoneRound] at hround
  by_cases hnil : params = []
  · rw [if_pos hnil] at hround
    rcases hround with hround | hround
    · cases hround
    · cases hround
      exact hsame
  · simp only [if_neg hnil, bind_eq_ok] at hround
    rcases hround with ⟨⟨dfn, rest⟩, -, name, -, word, -, hround⟩ |
      ⟨⟨dfn, rest⟩, -, name, -, word, -, hround⟩
    · cases hround
      exact ⟨hsame.content, hsame.lines⟩
    · cases hround

theorem requestSource_lines (dfn : List Char) : SameLines t (requestSource t typeStr dfn) := by
  unfold requestSource
  split
  · exact ⟨rfl, rfl⟩
  · split <;> exact ⟨rfl, rfl⟩

theorem typedefFields_lines {line : List Char} (h : typedefFields t line = .ok t') :
    SameLines t t' := by
  simp only [typedefFields, bind_eq_ok] at h
  rcases h with ⟨params, -, between, hrequest, types, -, h⟩
  refine (requestParams_lines hrequest).trans ?_
  cases types with
  | none =>
      cases h
      exact .refl _
  | some types =>
      exact typeDoneAdd_lines h

theorem requestFields_lines {line : List Char} (h : requestFields t line = .ok t') :
    SameLines t t' := by
  simp only [requestFields, bind_eq_ok] at h
  rcases h with ⟨constant, -, h⟩
  split at h
  · cases h
    exact .refl _
  · simp only [bind_eq_ok] at h
    rcases h with ⟨found, -, h⟩
    rcases found with _ | ⟨paramStart, paramEnd⟩
    · cases h
      exact .refl _
    · simp only [bind_eq_ok] at h
      rcases h with ⟨between, hrequest, types, -, h⟩
      refine (requestParams_lines hrequest).trans ?_
      rcases types with _ | types
      · cases h
        exact .refl _
      · simp only [bind_eq_ok] at h
        rcases h with ⟨struct, -, h⟩
        split at h
        · exact typeDoneAdd_lines h
        · cases h
          exact .refl _

/-- A line goes to `type_lines` or to another list. -/
theorem listLine_cases {dfn line lineOrig : List Char} (h : listLine t dfn line lineOrig = .ok t') :
    t'.typeLinesContent = t.typeLinesContent ∧
      (t'.typeLines = t.typeLines ∨ t'.typeLines = lineOrig :: t.typeLines) := by
  simp only [listLine, bind_eq_ok] at h
  rcases h with ⟨constant, -, h⟩
  split at h
  · simp only [bind_eq_ok] at h
    rcases h with ⟨params, -, h⟩
    have hsame := requestParams_lines h
    exact ⟨hsame.content, Or.inl hsame.lines⟩
  · split at h
    · cases h
      exact ⟨rfl, Or.inl rfl⟩
    · cases h
      exact ⟨rfl, Or.inr rfl⟩

theorem insertLine_cases {dfn line lineOrig : List Char}
    (h : insertLine t dfn line lineOrig = .ok t') :
    t'.typeLinesContent = t.typeLinesContent ∧
      (t'.typeLines = t.typeLines ∨ t'.typeLines = spaced lineOrig :: t.typeLines) := by
  unfold insertLine at h
  split at h
  · cases h
    exact ⟨rfl, Or.inl rfl⟩
  · simp only [bind_eq_ok] at h
    rcases h with ⟨between, hlist, found, -, h⟩
    have hsame : SameLines between t' := by
      split at h
      · exact typedefFields_lines h
      · cases h
        exact .refl _
    rw [hsame.content, hsame.lines]
    exact listLine_cases hlist

theorem addLine_cases {dfn line lineOrig : List Char} (hnew : line ∉ t.typeLinesContent)
    (h : addLine t typeStr dfn line lineOrig = .ok t') :
    t'.typeLinesContent = insert line t.typeLinesContent ∧
      (t'.typeLines = t.typeLines ∨ ∃ dfn' orig, packed dfn lineOrig = .ok (dfn', orig) ∧
        t'.typeLines = spaced orig :: t.typeLines) := by
  simp only [addLine, if_neg hnew, bind_eq_ok] at h
  rcases h with ⟨⟨dfn', orig⟩, hpacked, source, -, between, hbetween, h⟩
  have hfields := requestFields_lines h
  have hsource := @requestSource_lines { t with typeLinesContent := insert line t.typeLinesContent }
    typeStr source
  rcases insertLine_cases hbetween with ⟨hcontent, hlines⟩
  rw [hsource.content] at hcontent
  rw [hsource.lines] at hlines
  rw [hfields.content, hfields.lines, hcontent]
  refine ⟨rfl, hlines.imp_right fun hline => ⟨dfn', orig, hpacked, hline⟩⟩

end Kept

/-! ## Steps -/

/-- Where the function is. -/
inductive Control where
  | outer
  | traverse (left : Finset (List Char))
  | search (left : Finset (List Char)) (typeStr : List Char) (startpos endpos : Nat)
  | failed (e : Error)
  | finished

structure Machine where
  tables : Tables
  control : Control

/-- The search goes to the next occurrence; without one the traversal goes on as `behind` says. -/
def searchFrom (header : List Char) (t behind : Tables) (left : Finset (List Char))
    (typeStr : List Char) (findpos : Nat) : Machine :=
  match find header (pattern typeStr) findpos false with
  | .error e => ⟨t, .failed e⟩
  | .ok (some (startpos, endpos)) => ⟨t, .search left typeStr startpos endpos⟩
  | .ok none => ⟨behind, .traverse left⟩

/-- The visit of an entry. -/
def visitEntry (header code : List Char) (t : Tables) (left : Finset (List Char))
    (typeStr : List Char) : Machine :=
  if typeStr ∈ t.typeDone then
    ⟨t.remove typeStr, .traverse left⟩
  else
    match find code (pattern typeStr) 1 false with
    | .error e => ⟨t, .failed e⟩
    | .ok (some _) => ⟨t.remove typeStr, .traverse left⟩
    | .ok none =>
        if typeStr ∈ t.typeNotFound then
          ⟨t.typeNotFoundAdd typeStr, .outer⟩
        else
          let t := { t with typeNotFound := insert typeStr t.typeNotFound }
          searchFrom header t t left typeStr 1

def searchStep (header : List Char) (t : Tables) (left : Finset (List Char)) (typeStr : List Char)
    (startpos endpos : Nat) : Machine :=
  match searchRound header typeStr startpos endpos with
  | .error e => ⟨t, .failed e⟩
  | .ok (.goOn findpos) => searchFrom header t (t.typeNotFoundAdd typeStr) left typeStr findpos
  | .ok (.take taken) =>
      match takeLine t typeStr taken with
      | .error e => ⟨t, .failed e⟩
      | .ok t => ⟨t, .traverse left⟩

/-- The entries of the traversal that are not visited yet are `left`, and those in `added`.  It ends
when none of `left` is still in `type_defines`. -/
inductive Step (header code : List Char) : Machine → Machine → Prop where
  | finish {t : Tables} : t.typeDefines = ∅ → Step header code ⟨t, .outer⟩ ⟨t, .finished⟩
  | enter {t : Tables} : t.typeDefines ≠ ∅ →
      Step header code ⟨t, .outer⟩ ⟨{ t with added := ∅ }, .traverse t.typeDefines⟩
  | leave {t : Tables} {left : Finset (List Char)} : Disjoint left t.typeDefines →
      Step header code ⟨t, .traverse left⟩ ⟨t, .outer⟩
  | visit {t : Tables} {left : Finset (List Char)} {typeStr : List Char} :
      typeStr ∈ t.typeDefines → typeStr ∈ left ∪ t.added →
      Step header code ⟨t, .traverse left⟩
        (visitEntry header code { t with added := t.added.erase typeStr } (left.erase typeStr)
          typeStr)
  | round {t : Tables} {left : Finset (List Char)} {typeStr : List Char} {startpos endpos : Nat} :
      Step header code ⟨t, .search left typeStr startpos endpos⟩
        (searchStep header t left typeStr startpos endpos)

def start (t : Tables) : Machine := ⟨t, .outer⟩

/-- The tables when nothing has been done yet. -/
def requested (typeDefines : Finset (List Char)) : Tables where
  typeDefines := typeDefines
  typeDone := ∅
  basicTypes := ∅
  notFoundBasicTypes := []
  typeNotFound := ∅
  typeLinesContent := ∅
  typeLinesBasic := []
  typeLines := []
  staticConstLines := []
  added := ∅

/-- The search for the only type that is requested. -/
theorem reaches_search {header typeStr : List Char} {startpos endpos : Nat}
    (hcode : find [] (pattern typeStr) 1 false = .ok none)
    (hfind : find header (pattern typeStr) 1 false = .ok (some (startpos, endpos))) :
    Relation.ReflTransGen (Step header []) (start (requested {typeStr}))
      ⟨{ requested {typeStr} with typeNotFound := {typeStr} },
        .search ∅ typeStr startpos endpos⟩ := by
  have hmem : typeStr ∈ (requested {typeStr}).typeDefines := Finset.mem_singleton_self _
  have hundone : typeStr ∉ (requested {typeStr}).typeDone := Finset.notMem_empty _
  have hunmarked : typeStr ∉ (requested {typeStr}).typeNotFound := Finset.notMem_empty _
  have henter : Step header [] (start (requested {typeStr}))
      ⟨requested {typeStr}, .traverse {typeStr}⟩ :=
    .enter (Finset.ne_empty_of_mem hmem)
  have hvisit := @Step.visit header [] _ _ _ hmem
    (Finset.mem_union_left (requested {typeStr}).added hmem)
  simp only [visitEntry, if_neg hundone, hcode, if_neg hunmarked, searchFrom, hfind] at hvisit
  have hleft : (requested {typeStr}).typeDefines.erase typeStr = ∅ := Finset.erase_singleton typeStr
  rw [hleft] at hvisit
  exact (Relation.ReflTransGen.single henter).tail hvisit

end TypeSearch
end FfiDef
end LuajitTcpServer
