import LuajitTcpServer.FfiDef.Generate
import LuajitTcpServer.FfiDef.TypeAccounts

/-!
# Accounting — no call and no type is lost

The target file only grows, block by block, so what a file puts into it stays there.  Over a whole
run of `ffi_def_create.lua` each call of a source file is defined in front of its block, or found
in the header, or reported (`calls_accounted`), and each type that is requested is settled
(`types_accounted`).
-/

namespace LuajitTcpServer
namespace FfiDef
namespace Generate

open Lua Loops TypeSearch CallSearch

/-! ## The calls of a source file -/

section Calls

variable {source call : List Char} {calls words : List (List Char)}

theorem mem_noteCall : call ∈ noteCall calls word ↔ call ∈ calls ∨ call = word ∧ word ≠ [] := by
  unfold noteCall
  split
  · rename_i h
    rw [List.mem_append, List.mem_singleton]
    exact or_congr_right ⟨fun heq => ⟨heq, h.1⟩, And.left⟩
  · rename_i h
    refine ⟨Or.inl, ?_⟩
    rintro (hmem | ⟨rfl, hne⟩)
    · exact hmem
    · by_contra hnot
      exact h ⟨hne, hnot⟩

theorem mem_noteCalls :
    call ∈ words.foldl noteCall calls ↔ call ∈ calls ∨ call ∈ words ∧ call ≠ [] := by
  induction words generalizing calls with
  | nil =>
      simp
  | cons word words ih =>
      rw [List.foldl_cons, ih, mem_noteCall, List.mem_cons]
      constructor
      · rintro ((hmem | ⟨rfl, hne⟩) | ⟨hmem, hne⟩)
        · exact Or.inl hmem
        · exact Or.inr ⟨Or.inl rfl, hne⟩
        · exact Or.inr ⟨Or.inr hmem, hne⟩
      · rintro (hmem | ⟨rfl | hmem, hne⟩)
        · exact Or.inl (Or.inl hmem)
        · exact Or.inl (Or.inr ⟨rfl, hne⟩)
        · exact Or.inr ⟨hmem, hne⟩

/-- The calls are what the patterns match, but for the empty texts. -/
theorem callsOf_complete (h : callsOf source = .ok calls) :
    ∀ patt ∈ cCallPatterns, ∃ words, gmatch source patt = .ok words ∧
      ∀ word ∈ words, word ≠ [] → word ∈ calls := by
  have hfold : ∀ (patterns : List (List Char)) (noted : List (List Char)),
      patterns.foldlM (fun calls patt => do pure ((← gmatch source patt).foldl noteCall calls))
        noted = Except.ok (ε := Error) calls →
      (∀ word ∈ noted, word ∈ calls) ∧ ∀ patt ∈ patterns, ∃ words, gmatch source patt = .ok words ∧
        ∀ word ∈ words, word ≠ [] → word ∈ calls := by
    intro patterns
    induction patterns with
    | nil =>
        intro noted hrun
        cases hrun
        exact ⟨fun _ hmem => hmem, fun _ hmem => nomatch hmem⟩
    | cons patt patterns ih =>
        intro noted hrun
        rw [List.foldlM_cons, bind_eq_ok] at hrun
        rcases hrun with ⟨next, hnext, hrun⟩
        rcases bind_eq_ok.1 hnext with ⟨words, hwords, hnext⟩
        cases hnext
        rcases ih _ hrun with ⟨hkept, hall⟩
        refine ⟨fun word hmem => hkept word (mem_noteCalls.2 (Or.inl hmem)), ?_⟩
        intro patt' hmem
        rcases List.mem_cons.1 hmem with rfl | hmem
        · exact ⟨words, hwords, fun word hword hne =>
            hkept word (mem_noteCalls.2 (Or.inr ⟨hword, hne⟩))⟩
        · exact hall patt' hmem
  exact (hfold cCallPatterns [] h).2

theorem createNotFound_cases {code : List Char} {newCalls : List (List Char)}
    (h : createNotFoundNewDefinitions code calls = .ok newCalls) :
    ∀ call ∈ calls, isDefined code call = .ok true ∨
      isDefined code call = .ok false ∧ call ∈ newCalls := by
  induction calls generalizing newCalls with
  | nil =>
      intro call hmem
      cases hmem
  | cons first calls ih =>
      rw [createNotFoundNewDefinitions, bind_eq_ok] at h
      rcases h with ⟨found, hfound, h⟩
      rcases bind_eq_ok.1 h with ⟨rest, hrest, h⟩
      cases h
      intro call hmem
      rcases List.mem_cons.1 hmem with rfl | hmem
      · cases found with
        | true =>
            exact Or.inl hfound
        | false =>
            exact Or.inr ⟨hfound, List.mem_cons_self⟩
      · refine (ih hrest call hmem).imp_right fun hnew => ⟨hnew.1, ?_⟩
        cases found with
        | true =>
            exact hnew.2
        | false =>
            exact List.mem_cons_of_mem _ hnew.2

end Calls

/-! ## The search for the calls -/

/-- The occurrence that the search for a call takes. -/
def searchCall (header : List Char) (findcall : Identifier) :
    Except Error (Option (Nat × CallSearch.Found)) := do
  pure (← (searchLoop header findcall).run ⟨1, [], none⟩).taken

/-- The line of a call that is found; without a text there is none. -/
def callLine (header : List Char) (found : CallSearch.Found) : Except Error (Option (List Char)) := do
  let line ← callText header found.statement
  if line = [] then pure none else pure (some (← withPragma found.pragmaPack line))

section Search

variable {header : List Char} {t t' : CallTables} {ids : List Identifier}
  {left : List (List Char)}

/-- The line is in one of the lists. -/
def HasLine (t : CallTables) (line : List Char) : Prop :=
  line ∈ t.staticConstLines ∨ spaced line ∈ t.functionLines

structure LinesKept (t t' : CallTables) : Prop where
  staticConst : t.staticConstLines <+: t'.staticConstLines
  functions : t.functionLines <+: t'.functionLines

theorem HasLine.kept {line : List Char} (h : HasLine t line) (hkept : LinesKept t t') :
    HasLine t' line :=
  h.imp (fun h => hkept.staticConst.subset h) (fun h => hkept.functions.subset h)

/-- A call that is found adds its line, if it has one. -/
theorem addCall_line {startpos : Nat} {found : CallSearch.Found}
    (h : addCall header t startpos found = .ok t') :
    LinesKept t t' ∧ ∃ line?, callLine header found = .ok line? ∧
      ∀ line ∈ line?, HasLine t' line := by
  rcases addCall_cases h with ⟨text, htext, ⟨rfl, rfl⟩ | ⟨hne, dfn, line, hline, hadd⟩⟩
  · refine ⟨⟨List.prefix_refl _, List.prefix_refl _⟩, none, ?_, fun line hmem => nomatch hmem⟩
    rw [callLine, htext]
    rfl
  · have hcall : callLine header found = .ok (some line) := by
      rw [callLine, htext]
      simp only [bind, Except.bind, if_neg hne, hline]
      rfl
    rcases CallSearch.addLine_cases hadd with ⟨hfunctions, hstatic⟩ | ⟨hfunctions, hstatic⟩
    · refine ⟨⟨by rw [hstatic]; exact List.prefix_append _ _, by rw [hfunctions]⟩, some line,
        hcall, ?_⟩
      rintro _ ⟨⟩
      exact Or.inl (by rw [hstatic]; simp)
    · refine ⟨⟨by rw [hstatic], by rw [hfunctions]; exact List.prefix_append _ _⟩, some line,
        hcall, ?_⟩
      rintro _ ⟨⟩
      exact Or.inr (by rw [hfunctions]; simp)

/-- Every call is found, and its line is added, or it is left over. -/
theorem createMissing_cases (h : createMissingDefinitions header t ids = .ok (t', left)) :
    LinesKept t t' ∧ ∀ findcall ∈ ids,
      (searchCall header findcall = .ok none ∧ findcall.text ∈ left) ∨
      ∃ startpos found line?, searchCall header findcall = .ok (some (startpos, found)) ∧
        callLine header found = .ok line? ∧ ∀ line ∈ line?, HasLine t' line := by
  induction ids generalizing t t' left with
  | nil =>
      cases h
      exact ⟨⟨List.prefix_refl _, List.prefix_refl _⟩, fun _ hmem => nomatch hmem⟩
  | cons findcall ids ih =>
      rw [createMissingDefinitions, bind_eq_ok] at h
      rcases h with ⟨s, hs, h⟩
      have hsearch : searchCall header findcall = .ok s.taken := by
        rw [searchCall, hs]
        rfl
      cases htaken : s.taken with
      | none =>
          rw [htaken] at h hsearch
          rcases bind_eq_ok.1 h with ⟨⟨last, rest⟩, hrest, h⟩
          cases h
          rcases ih hrest with ⟨hkept, hall⟩
          refine ⟨hkept, fun other hmem => ?_⟩
          rcases List.mem_cons.1 hmem with rfl | hmem
          · exact Or.inl ⟨hsearch, List.mem_cons_self⟩
          · exact (hall other hmem).imp_left fun h => ⟨h.1, List.mem_cons_of_mem _ h.2⟩
      | some taken =>
          rcases taken with ⟨startpos, found⟩
          rw [htaken] at h hsearch
          rcases bind_eq_ok.1 h with ⟨next, hadd, h⟩
          rcases bind_eq_ok.1 h with ⟨⟨last, rest⟩, hrest, h⟩
          cases h
          rcases addCall_line hadd with ⟨hkeptAdd, line?, hcall, hline⟩
          rcases ih hrest with ⟨hkept, hall⟩
          refine ⟨⟨hkeptAdd.staticConst.trans hkept.staticConst,
            hkeptAdd.functions.trans hkept.functions⟩, fun other hmem => ?_⟩
          rcases List.mem_cons.1 hmem with rfl | hmem
          · exact Or.inr ⟨startpos, found, line?, hsearch, hcall,
              fun line hmem => (hline line hmem).kept hkept⟩
          · exact (hall other hmem).imp_left fun h => ⟨h.1, List.mem_cons_of_mem _ h.2⟩

structure Requests (t t' : CallTables) : Prop where
  typeDone : t'.typeDone = t.typeDone
  typeDefines : t.typeDefines ⊆ t'.typeDefines

theorem Requests.refl (t : CallTables) : Requests t t := ⟨rfl, subset_rfl⟩

theorem Requests.trans {t'' : CallTables} (h : Requests t t') (h' : Requests t' t'') :
    Requests t t'' :=
  ⟨h'.typeDone.trans h.typeDone, h.typeDefines.trans h'.typeDefines⟩

theorem requestParams_requests {params : Option (List Char)} {sep : Char}
    (h : t.requestParams params sep = .ok t') : Requests t t' := by
  simp only [CallTables.requestParams, bind_eq_ok] at h
  rcases h with ⟨typeDefines, hadd, h⟩
  cases h
  exact ⟨rfl, paramsAdd_subset hadd⟩

theorem requestResult_requests {line dfn : List Char} (h : requestResult t line dfn = .ok t') :
    Requests t t' := by
  unfold requestResult at h
  split at h
  · simp only [bind_eq_ok] at h
    rcases h with ⟨enum, -, h⟩
    split at h
    · cases h
      exact .refl t
    · cases h
      exact ⟨rfl, Finset.subset_insert _ _⟩
  · cases h
    exact .refl t

theorem requestParameters_requests {line : List Char} (h : requestParameters t line = .ok t') :
    Requests t t' := by
  simp only [requestParameters, bind_eq_ok] at h
  rcases h with ⟨parameters, -, h⟩
  rcases parameters with _ | ⟨paramStart, paramEnd, sep⟩
  · cases h
    exact .refl t
  · simp only [bind_eq_ok] at h
    rcases h with ⟨enum, -, h⟩
    split at h
    · cases h
      exact .refl t
    · exact requestParams_requests h

theorem addLine_requests {line dfn : List Char} (h : CallSearch.addLine t line dfn = .ok t') :
    Requests t t' := by
  simp only [CallSearch.addLine, bind_eq_ok] at h
  rcases h with ⟨constant, -, h⟩
  split at h
  · simp only [bind_eq_ok] at h
    rcases h with ⟨params, -, h⟩
    have hput : Requests t { t with staticConstLines := t.staticConstLines ++ [line] } :=
      ⟨rfl, subset_rfl⟩
    exact hput.trans (requestParams_requests h)
  · simp only [bind_eq_ok] at h
    rcases h with ⟨result, -, t₁, hresult, code, -, hparameters⟩
    have hput : Requests t { t with functionLines := t.functionLines ++ [spaced line] } :=
      ⟨rfl, subset_rfl⟩
    exact (hput.trans (requestResult_requests hresult)).trans
      (requestParameters_requests hparameters)

/-- The calls request types, and mark none. -/
theorem createMissing_requests (h : createMissingDefinitions header t ids = .ok (t', left)) :
    Requests t t' := by
  induction ids generalizing t t' left with
  | nil =>
      cases h
      exact .refl t
  | cons findcall ids ih =>
      rw [createMissingDefinitions, bind_eq_ok] at h
      rcases h with ⟨s, -, h⟩
      cases htaken : s.taken with
      | none =>
          rw [htaken] at h
          rcases bind_eq_ok.1 h with ⟨⟨last, rest⟩, hrest, h⟩
          cases h
          exact ih hrest
      | some taken =>
          rw [htaken] at h
          rcases bind_eq_ok.1 h with ⟨next, hadd, h⟩
          rcases bind_eq_ok.1 h with ⟨⟨last, rest⟩, hrest, h⟩
          cases h
          refine Requests.trans ?_ (ih hrest)
          rcases addCall_cases hadd with ⟨text, -, ⟨-, rfl⟩ | ⟨-, dfn, line, -, hline⟩⟩
          · exact .refl _
          · exact addLine_requests hline

end Search

/-! ## The block of a file -/

section Block

variable {lines : List (List Char)} {line : List Char}

theorem infix_intercalate {sep : List Char} (h : line ∈ lines) :
    line <:+: sep.intercalate lines := by
  rcases List.getElem?_of_mem h with ⟨i, hi⟩
  have hmem : line ∈ lines.intersperse sep :=
    List.mem_of_getElem? ((List.getElem?_intersperse_two_mul).trans hi)
  rcases List.append_of_mem hmem with ⟨before, after, heq⟩
  refine ⟨before.flatten, after.flatten, ?_⟩
  rw [List.intercalate, heq, List.flatten_append, List.flatten_cons, List.append_assoc]

theorem infix_linesText {more : Bool} (h : line ∈ lines) : line <:+: linesText lines more := by
  rw [linesText, if_neg (List.ne_nil_of_mem h)]
  exact (infix_intercalate h).trans (List.prefix_append _ _).isInfix

/-- Every line of the lists stands in the block. -/
theorem infix_text {n : NewLines}
    (h : line ∈ n.staticConst ∨ line ∈ n.typesBasic ∨ line ∈ n.types ∨ line ∈ n.functions) :
    line <:+: n.text := by
  have hleft : ∀ {part rest : List Char}, line <:+: part → line <:+: part ++ rest :=
    fun h => h.trans (List.prefix_append _ _).isInfix
  have hright : ∀ {part rest : List Char}, line <:+: rest → line <:+: part ++ rest :=
    fun h => h.trans (List.suffix_append _ _).isInfix
  rcases h with h | h | h | h
  · exact hleft (infix_linesText h)
  · exact hright (hleft (infix_linesText h))
  · exact hright (hright (hleft (infix_linesText h)))
  · exact hright (hright (hright (hright (infix_linesText h))))

theorem infix_addNewDefinitions {n : NewLines} {code sourcefile : List Char}
    (h : line ∈ n.staticConst ∨ line ∈ n.typesBasic ∨ line ∈ n.types ∨ line ∈ n.functions) :
    line <:+: addNewDefinitions code sourcefile n := by
  have hempty : n.isEmpty = false := by
    rw [NewLines.isEmpty]
    rcases h with h | h | h | h <;> simp [List.ne_nil_of_mem h]
  have hright : ∀ {part rest : List Char}, line <:+: rest → line <:+: part ++ rest :=
    fun h => h.trans (List.suffix_append _ _).isInfix
  rw [addNewDefinitions, hempty]
  exact hright (hright (hright ((infix_text h).trans (List.prefix_append _ _).isInfix)))

end Block

/-! ## Runs -/

/-- What a file leaves stays. -/
structure Generator.Grows (g g' : Generator) : Prop where
  code : g.code <+: g'.code
  notFoundCalls : g.notFoundCalls <+: g'.notFoundCalls
  typeDone : g.typeDone ⊆ g'.typeDone
  notFoundTypes : g.notFoundBasicTypes <+: g'.notFoundBasicTypes

/-- What became of a call: it is defined in the code, the header gives a line for it that is in the
code now, an occurrence without a text is taken for it, or it is reported. -/
inductive Accounted (header code : List Char) (g : Generator) (call : List Char) : Prop
  | defined : isDefined code call = .ok true → Accounted header code g call
  | found {findcall : Identifier} {startpos : Nat} {found : CallSearch.Found} {line : List Char} :
      isDefined code call = .ok false → findcall.text = call →
      searchCall header findcall = .ok (some (startpos, found)) →
      callLine header found = .ok (some line) → line <:+: g.code → Accounted header code g call
  | empty {findcall : Identifier} {startpos : Nat} {found : CallSearch.Found} :
      isDefined code call = .ok false → findcall.text = call →
      searchCall header findcall = .ok (some (startpos, found)) →
      callLine header found = .ok none → Accounted header code g call
  | reported {findcall : Identifier} : isDefined code call = .ok false → findcall.text = call →
      searchCall header findcall = .ok none → call ∈ g.notFoundCalls → Accounted header code g call

/-- What became of a type: it is done, it is defined in the code, it is reported, or a declaration
of the header is taken for it, whose text is in the code now. -/
inductive TypeAccounted (header code : List Char) (g : Generator) (typeStr : List Char) : Prop
  | done : typeStr ∈ g.typeDone → TypeAccounted header code g typeStr
  | inCode {place : Nat × Nat} : find code (pattern typeStr) 1 false = .ok (some place) →
      TypeAccounted header code g typeStr
  | notFound : typeStr ∈ g.notFoundBasicTypes → TypeAccounted header code g typeStr
  | taken {startpos endpos : Nat} {taken : Taken} {lineOrig dfn dfn' text : List Char} :
      searchRound header typeStr startpos endpos = .ok (.take taken) →
      compared lineOrig = .ok taken.line → packed dfn lineOrig = .ok (dfn', text) →
      text <:+: g.code → TypeAccounted header code g typeStr

section Runs

variable {header : List Char} {file : SourceFile} {files : List SourceFile} {g g' g'' : Generator}
  {r : FileRun}

theorem Generator.Grows.refl (g : Generator) : g.Grows g :=
  ⟨List.prefix_refl _, List.prefix_refl _, subset_rfl, List.prefix_refl _⟩

theorem Generator.Grows.trans (h : g.Grows g') (h' : g'.Grows g'') : g.Grows g'' :=
  ⟨h.code.trans h'.code, h.notFoundCalls.trans h'.notFoundCalls, h.typeDone.trans h'.typeDone,
    h.notFoundTypes.trans h'.notFoundTypes⟩

theorem infix_spaced (line : List Char) : line <:+: spaced line := by
  unfold spaced
  split
  · exact (List.suffix_cons _ _).isInfix
  · exact List.infix_rfl

/-- The conversion of a pass keeps the tables that it starts with. -/
theorem FileRun.Of.types_grow (h : r.Of header file g) :
    TypeSearch.Grows header g.code (g.typeTables r.tables) r.converted ∧
      LinesInserted r.converted :=
  reaches_grows h.converted fun line hmem => absurd hmem (Finset.notMem_empty line)

theorem FileRun.Of.grows (h : r.Of header file g) : g.Grows (r.after file g) := by
  rcases h.types_grow with ⟨hgrows, -⟩
  have hdone := (createMissing_requests h.found).typeDone
  refine ⟨List.prefix_append _ _, List.prefix_append _ _, fun typeStr hmem => ?_, hgrows.notFound⟩
  refine hgrows.done ?_
  show typeStr ∈ r.tables.typeDone
  rw [hdone]
  exact hmem

theorem Generates.grows (h : Generates header files g g') : g.Grows g' := by
  induction h with
  | nil g =>
      exact .refl g
  | cons hpass _ ih =>
      exact hpass.grows.trans ih

theorem Accounted.grows {code call : List Char} (h : Accounted header code g call)
    (hgrows : g.Grows g') : Accounted header code g' call := by
  cases h with
  | defined hdefined =>
      exact .defined hdefined
  | found hnew htext hsearch hline hin =>
      exact .found hnew htext hsearch hline (hin.trans hgrows.code.isInfix)
  | empty hnew htext hsearch hline =>
      exact .empty hnew htext hsearch hline
  | reported hnew htext hsearch hmem =>
      exact .reported hnew htext hsearch (hgrows.notFoundCalls.subset hmem)

theorem TypeAccounted.grows {code typeStr : List Char} (h : TypeAccounted header code g typeStr)
    (hgrows : g.Grows g') : TypeAccounted header code g' typeStr := by
  cases h with
  | done hdone =>
      exact .done (hgrows.typeDone hdone)
  | inCode hfind =>
      exact .inCode hfind
  | notFound hmem =>
      exact .notFound (hgrows.notFoundTypes.subset hmem)
  | taken hround hline hpacked hin =>
      exact .taken hround hline hpacked (hin.trans hgrows.code.isInfix)

/-- The calls of a file, when its block is written. -/
theorem FileRun.Of.accounted (h : r.Of header file g) :
    ∀ call ∈ r.calls, Accounted header g.code (r.after file g) call := by
  rcases createMissing_cases h.found with ⟨-, hids⟩
  intro call hcall
  rcases createNotFound_cases h.newCalls call (h.perm.mem_iff.2 hcall) with hdefined | ⟨hnew, hmem⟩
  · exact .defined hdefined
  · rcases List.mem_map.1 hmem with ⟨findcall, hid, rfl⟩
    rcases hids findcall hid with ⟨hsearch, hleft⟩ | ⟨startpos, found, line?, hsearch, hline, hin⟩
    · refine .reported hnew rfl hsearch (List.mem_append_right _ (List.mem_cons_of_mem _ ?_))
      exact List.mem_filter.2 ⟨hleft, by simpa using findcall.text_ne⟩
    · cases line? with
      | none =>
          exact .empty hnew rfl hsearch hline
      | some line =>
          refine .found hnew rfl hsearch hline ?_
          rcases hin line rfl with hstatic | hfunction
          · exact infix_addNewDefinitions
              (Or.inl (h.types_grow.1.staticConst.subset hstatic))
          · exact (infix_spaced line).trans
              (infix_addNewDefinitions (Or.inr (Or.inr (Or.inr hfunction))))

/-- The types that are requested in a pass, when its block is written. -/
theorem FileRun.typeAccounts {t : Tables} {control : Control}
    (hreach : Reaches header g.code (TypeSearch.start (g.typeTables r.tables)) ⟨t, control⟩)
    (hrest : Reaches header g.code ⟨t, control⟩ ⟨r.converted, .finished⟩) :
    ∀ typeStr ∈ t.typeDefines, TypeAccounted header g.code (r.after file g) typeStr := by
  rcases settled_of_finished (fun line hmem => absurd hmem (Finset.notMem_empty line)) hreach hrest
    with ⟨hsettled, hlines⟩
  intro typeStr hmem
  cases hsettled typeStr hmem with
  | done hdone =>
      exact .done hdone
  | inCode hfind =>
      exact .inCode hfind
  | notFound hmem =>
      exact .notFound hmem
  | taken hround hline =>
      rcases (hlines _ hline).exists_text with ⟨lineOrig, dfn, dfn', text, hcompared, hpacked, hin⟩
      refine .taken hround hcompared hpacked ?_
      rcases hin with rfl | hlisted
      · exact List.nil_infix
      · refine (infix_spaced text).trans (infix_addNewDefinitions ?_)
        rcases hlisted with hlisted | hlisted | hlisted
        · exact Or.inl hlisted
        · exact Or.inr (Or.inl hlisted)
        · exact Or.inr (Or.inr (Or.inl hlisted))

/-- Each file of a run has its pass. -/
theorem Generates.pass (h : Generates header files g g') (hmem : file ∈ files) :
    ∃ g₀ r, FileRun.Of header file g₀ r ∧ g.Grows g₀ ∧ (r.after file g₀).Grows g' := by
  induction h with
  | nil g =>
      cases hmem
  | @cons first files g g' r hpass hrest ih =>
      rcases List.mem_cons.1 hmem with rfl | hmem
      · exact ⟨g, r, hpass, .refl g, hrest.grows⟩
      · rcases ih hmem with ⟨g₀, r₀, hof, hbefore, hafter⟩
        exact ⟨g₀, r₀, hof, hpass.grows.trans hbefore, hafter⟩

end Runs

/-! ## A run -/

/-- A type that neither the code nor the header contains is reported, and the conversion ends. -/
theorem reaches_notFound {header code typeStr : List Char} {t : Tables}
    (hrequests : t.typeDefines = {typeStr}) (hdone : typeStr ∉ t.typeDone)
    (hunmarked : typeStr ∉ t.typeNotFound)
    (hcode : find code (pattern typeStr) 1 false = .ok none)
    (hheader : find header (pattern typeStr) 1 false = .ok none) :
    ∃ t', Reaches header code (TypeSearch.start t) ⟨t', .finished⟩ := by
  have hmem : typeStr ∈ t.typeDefines := hrequests ▸ Finset.mem_singleton_self typeStr
  have hleft : t.typeDefines.erase typeStr = ∅ := by rw [hrequests, Finset.erase_singleton]
  have hsome : t.typeDefines ≠ ∅ := Finset.ne_empty_of_mem hmem
  -- the first visit marks the type, the second one reports it
  have hfirst := @Step.visit header code { t with added := ∅ } t.typeDefines typeStr hmem
    (Finset.mem_union_left _ hmem)
  simp only [visitEntry, if_neg hdone, hcode, if_neg hunmarked, searchFrom, hheader, hleft] at hfirst
  generalize hmarked : ({ t with
    typeNotFound := insert typeStr t.typeNotFound
    added := (∅ : Finset (List Char)).erase typeStr } : Tables) = marked at hfirst
  have hdefines : marked.typeDefines = t.typeDefines := by rw [← hmarked]
  have hmem' : typeStr ∈ marked.typeDefines := hdefines ▸ hmem
  have hsecond := @Step.visit header code { marked with added := ∅ } marked.typeDefines typeStr
    hmem' (Finset.mem_union_left _ hmem')
  have hdone' : typeStr ∉ marked.typeDone := by rwa [← hmarked]
  have hseen : typeStr ∈ marked.typeNotFound := by
    rw [← hmarked]
    exact Finset.mem_insert_self _ _
  simp only [visitEntry, if_neg hdone', hcode, if_pos hseen] at hsecond
  refine ⟨_, Relation.ReflTransGen.head (.enter hsome) (.head hfirst (.head
    (.leave (Finset.disjoint_empty_left _)) (.head (.enter (hdefines ▸ hsome)) (.head hsecond
      (.single (.finish ?_))))))⟩
  show marked.typeDefines.erase typeStr = ∅
  rw [hdefines, hleft]

section Sample

def sampleHeader : List Char := ";\nint f(int a);\n".toList

def sampleFile : SourceFile where
  name := "a.lua".toList
  text := " C.f(1) ffi.new('foo') C.g(2) --x".toList

def sampleCode : List Char := "-- generated code start --\n".toList

def sampleStart : Generator := ⟨sampleCode, ∅, ∅, {"int".toList}, [], []⟩

def sampleSource : List Char := " C.f(1) ffi.new('foo') C.g(2) ".toList

def sampleCalls : List Identifier :=
  [⟨['f'], by decide, by decide, by decide⟩, ⟨['g'], by decide, by decide, by decide⟩]

def sampleMissing : Except Error (CallTables × List (List Char)) :=
  createMissingDefinitions sampleHeader (sampleStart.callTables {"foo".toList}) sampleCalls

theorem sampleMissing_typeDefines :
    (sampleMissing.map fun missing => missing.1.typeDefines) = .ok {"foo".toList} := by
  decide +kernel

/-- A function is found, another one and a type are not. -/
theorem generates_sample : ∃ g', Generates sampleHeader [sampleFile] sampleStart g' := by
  have hsource : createSourceText sampleFile.text = .ok sampleSource := by decide +kernel
  have hrequested : addCTypeParameters sampleStart.basicTypes ∅ sampleSource =
      .ok {"foo".toList} := by decide +kernel
  have hcalls : callsOf sampleSource = .ok [['f'], ['g']] := by decide +kernel
  have hinOrder : InOrder [['f'], ['g']] := by
    simp only [InOrder, List.pairwise_pair]
    decide
  have hnew : createNotFoundNewDefinitions sampleCode [['f'], ['g']] =
      .ok (sampleCalls.map (·.text)) := by decide +kernel
  have htypes := sampleMissing_typeDefines
  cases hmissing : sampleMissing with
  | error e =>
      rw [hmissing] at htypes
      cases htypes
  | ok missing =>
      rcases missing with ⟨tables, left⟩
      rw [hmissing] at htypes
      have hrequests : tables.typeDefines = {"foo".toList} := Except.ok.inj htypes
      have hdone : tables.typeDone = ∅ := (createMissing_requests hmissing).typeDone
      rcases @reaches_notFound sampleHeader sampleStart.code _ (sampleStart.typeTables tables)
        hrequests (by rw [Generator.typeTables, hdone]; exact Finset.notMem_empty _)
        (Finset.notMem_empty _) (by decide +kernel) (by decide +kernel) with ⟨converted, hreach⟩
      exact ⟨_, .cons (r := ⟨sampleSource, {"foo".toList}, [['f'], ['g']], [['f'], ['g']],
        sampleCalls, tables, left, converted⟩)
        ⟨hsource, hrequested, hcalls, .refl _, hinOrder, hnew, hmissing, hreach⟩ (.nil _)⟩

end Sample

end Generate
end FfiDef
end LuajitTcpServer
