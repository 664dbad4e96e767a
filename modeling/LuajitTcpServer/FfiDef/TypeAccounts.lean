import LuajitTcpServer.FfiDef.TypeSearchEnds

/-!
# TypeAccounts — what becomes of the types that are requested

The conversion takes a type out of `type_defines` for one of four reasons (`Settled`), and it only
ever adds to its lists (`Grows`).  So when it ends every type that was requested on the way is
settled (`settled_of_finished`), and the declaration that was taken for it stands in one of the
lists of lines (`Inserted`).
-/

namespace LuajitTcpServer
namespace FfiDef
namespace TypeSearch

open Lua Loops

/-! ## What is added to the tables -/

/-- Why a type is no longer requested. -/
inductive Settled (header code : List Char) (t : Tables) (typeStr : List Char) : Prop
  | done : typeStr ∈ t.typeDone → Settled header code t typeStr
  | inCode {place : Nat × Nat} : find code (pattern typeStr) 1 false = .ok (some place) →
      Settled header code t typeStr
  | notFound : typeStr ∈ t.notFoundBasicTypes → Settled header code t typeStr
  | taken {startpos endpos : Nat} {taken : Taken} :
      searchRound header typeStr startpos endpos = .ok (.take taken) →
      taken.line ∈ t.typeLinesContent → Settled header code t typeStr

structure Grows (header code : List Char) (t t' : Tables) : Prop where
  requests : ∀ typeStr ∈ t.typeDefines,
    typeStr ∈ t'.typeDefines ∨ Settled header code t' typeStr
  done : t.typeDone ⊆ t'.typeDone
  content : t.typeLinesContent ⊆ t'.typeLinesContent
  notFound : t.notFoundBasicTypes <+: t'.notFoundBasicTypes
  staticConst : t.staticConstLines <:+ t'.staticConstLines
  typesBasic : t.typeLinesBasic <:+ t'.typeLinesBasic
  types : t.typeLines <:+ t'.typeLines

section Grows

variable {header code : List Char} {t t' t'' : Tables} {typeStr : List Char}

theorem Settled.grows (h : Settled header code t typeStr) (hgrows : Grows header code t t') :
    Settled header code t' typeStr := by
  cases h with
  | done h =>
      exact .done (hgrows.done h)
  | inCode h =>
      exact .inCode h
  | notFound h =>
      exact .notFound (hgrows.notFound.subset h)
  | taken hround hline =>
      exact .taken hround (hgrows.content hline)

theorem Grows.refl (header code : List Char) (t : Tables) : Grows header code t t :=
  ⟨fun _ h => Or.inl h, subset_rfl, subset_rfl, List.prefix_refl _, List.suffix_refl _,
    List.suffix_refl _, List.suffix_refl _⟩

theorem Grows.trans (h : Grows header code t t') (h' : Grows header code t' t'') :
    Grows header code t t'' where
  requests typeStr hmem := by
    rcases h.requests typeStr hmem with hmem' | hsettled
    · exact h'.requests typeStr hmem'
    · exact Or.inr (hsettled.grows h')
  done := h.done.trans h'.done
  content := h.content.trans h'.content
  notFound := h.notFound.trans h'.notFound
  staticConst := h.staticConst.trans h'.staticConst
  typesBasic := h.typesBasic.trans h'.typesBasic
  types := h.types.trans h'.types

/-- Requests and marks. -/
theorem Grows.of_requests (hrequests : ∀ typeStr ∈ t.typeDefines,
      typeStr ∈ t'.typeDefines ∨ typeStr ∈ t'.typeDone)
    (hdone : t.typeDone ⊆ t'.typeDone) (hcontent : t'.typeLinesContent = t.typeLinesContent)
    (hnotFound : t'.notFoundBasicTypes = t.notFoundBasicTypes)
    (hstatic : t'.staticConstLines = t.staticConstLines)
    (hbasic : t'.typeLinesBasic = t.typeLinesBasic) (htypes : t'.typeLines = t.typeLines) :
    Grows header code t t' where
  requests typeStr hmem := (hrequests typeStr hmem).imp_right .done
  done := hdone
  content := by rw [hcontent]
  notFound := by rw [hnotFound]
  staticConst := by rw [hstatic]
  typesBasic := by rw [hbasic]
  types := by rw [htypes]

theorem paramAdd_subset {basicTypes typeDefines after : Finset (List Char)} {dfn : List Char}
    (h : paramAdd basicTypes typeDefines dfn = .ok after) : typeDefines ⊆ after := by
  simp only [paramAdd, bind_eq_ok] at h
  rcases h with ⟨constant, -, h⟩
  split at h
  · cases h
    exact subset_rfl
  · simp only [bind_eq_ok] at h
    rcases h with ⟨flat, -, peeled, -, name, -, h⟩
    split at h
    · cases h
      exact Finset.subset_insert _ _
    · cases h
      exact subset_rfl

theorem paramsAdd_subset {basicTypes typeDefines after : Finset (List Char)}
    {params : Option (List Char)} {sep : Char}
    (h : paramsAdd basicTypes typeDefines params sep = .ok after) : typeDefines ⊆ after := by
  cases params with
  | none =>
      cases h
      exact subset_rfl
  | some params =>
      simp only [paramsAdd, bind_eq_ok] at h
      rcases h with ⟨enum, -, h⟩
      split at h
      · cases h
        exact subset_rfl
      · simp only [bind_eq_ok] at h
        rcases h with ⟨⟨left, last⟩, hrun, h⟩
        cases h
        refine Loop.run_keeps (paramsLoop basicTypes sep) (motive := fun s => typeDefines ⊆ s.2)
          subset_rfl hrun ?_
        rintro ⟨params, s⟩ ⟨params', s'⟩ hsub hround
        simp only [paramsLoop, paramsRound] at hround
        by_cases hnil : params = []
        · rw [if_pos hnil] at hround
          rcases hround with hround | hround
          · cases hround
          · cases hround
            exact hsub
        · simp only [if_neg hnil, bind_eq_ok] at hround
          rcases hround with ⟨⟨dfn, rest⟩, -, next, hadd, hround⟩ |
            ⟨⟨dfn, rest⟩, -, next, -, hround⟩
          · cases hround
            exact hsub.trans (paramAdd_subset hadd)
          · cases hround

theorem requestParams_grows {params : Option (List Char)} {sep : Char}
    (h : t.requestParams params sep = .ok t') : Grows header code t t' := by
  simp only [Tables.requestParams, bind_eq_ok] at h
  rcases h with ⟨typeDefines, hadd, h⟩
  cases h
  exact .of_requests (fun _ hmem => Or.inl (paramsAdd_subset hadd hmem)) subset_rfl rfl rfl rfl rfl
    rfl

theorem done_remove_grows (dfn : List Char) :
    Grows header code t ((t.done dfn).remove dfn) := by
  refine .of_requests (fun typeStr hmem => ?_) (Finset.subset_insert _ _) rfl rfl rfl rfl rfl
  by_cases heq : typeStr = dfn
  · exact Or.inr (heq ▸ Finset.mem_insert_self _ _)
  · exact Or.inl (Finset.mem_erase.2 ⟨heq, hmem⟩)

theorem typeDoneAdd_grows {params : List Char} {sep : Char}
    (h : typeDoneAdd t params sep = .ok t') : Grows header code t t' := by
  simp only [typeDoneAdd, bind_eq_ok] at h
  rcases h with ⟨⟨left, last⟩, hrun, h⟩
  cases h
  refine Loop.run_keeps (typeDoneLoop sep) (motive := fun s => Grows header code t s.2)
    (.refl _ _ t) hrun ?_
  rintro ⟨params, s⟩ ⟨params', s'⟩ hgrows hround
  simp only [typeDoneLoop, typeDoneRound] at hround
  by_cases hnil : params = []
  · rw [if_pos hnil] at hround
    rcases hround with hround | hround
    · cases hround
    · cases hround
      exact hgrows
  · simp only [if_neg hnil, bind_eq_ok] at hround
    rcases hround with ⟨⟨dfn, rest⟩, -, name, -, word, -, hround⟩ |
      ⟨⟨dfn, rest⟩, -, name, -, word, -, hround⟩
    · cases hround
      exact hgrows.trans (done_remove_grows word)
    · cases hround

theorem requestSource_grows (dfn : List Char) :
    Grows header code t (requestSource t typeStr dfn) := by
  unfold requestSource
  split
  · exact .of_requests (fun _ hmem => Or.inl hmem) (Finset.subset_insert _ _) rfl rfl rfl rfl rfl
  · split
    · exact .of_requests (fun _ hmem => Or.inl (Finset.mem_insert_of_mem hmem)) subset_rfl rfl rfl
        rfl rfl rfl
    · exact .of_requests (fun _ hmem => Or.inl hmem) (Finset.subset_insert _ _) rfl rfl rfl rfl rfl

theorem typedefFields_grows {line : List Char} (h : typedefFields t line = .ok t') :
    Grows header code t t' := by
  simp only [typedefFields, bind_eq_ok] at h
  rcases h with ⟨params, -, between, hrequest, types, -, h⟩
  refine (requestParams_grows hrequest).trans ?_
  cases types with
  | none =>
      cases h
      exact .refl _ _ _
  | some types =>
      exact typeDoneAdd_grows h

theorem requestFields_grows {line : List Char} (h : requestFields t line = .ok t') :
    Grows header code t t' := by
  simp only [requestFields, bind_eq_ok] at h
  rcases h with ⟨constant, -, h⟩
  split at h
  · cases h
    exact .refl _ _ _
  · simp only [bind_eq_ok] at h
    rcases h with ⟨found, -, h⟩
    rcases found with _ | ⟨paramStart, paramEnd⟩
    · cases h
      exact .refl _ _ _
    · simp only [bind_eq_ok] at h
      rcases h with ⟨between, hrequest, types, -, h⟩
      refine (requestParams_grows hrequest).trans ?_
      rcases types with _ | types
      · cases h
        exact .refl _ _ _
      · simp only [bind_eq_ok] at h
        rcases h with ⟨struct, -, h⟩
        split at h
        · exact typeDoneAdd_grows h
        · cases h
          exact .refl _ _ _

end Grows

/-! ## The lines of the declarations -/

/-- A text is one of the lines. -/
def Listed (t : Tables) (text : List Char) : Prop :=
  text ∈ t.staticConstLines ∨ text ∈ t.typeLinesBasic ∨ text ∈ t.typeLines

/-- The text behind a line that was taken: nothing, or one of the lines. -/
structure Inserted (t : Tables) (line : List Char) : Prop where
  exists_text : ∃ lineOrig dfn dfn' text, compared lineOrig = .ok line ∧
    packed dfn lineOrig = .ok (dfn', text) ∧ (text = [] ∨ Listed t (spaced text))

def LinesInserted (t : Tables) : Prop := ∀ line ∈ t.typeLinesContent, Inserted t line

section Lines

variable {header code : List Char} {t t' : Tables} {typeStr dfn line lineOrig : List Char}

theorem Listed.grows {text : List Char} (h : Listed t text) (hgrows : Grows header code t t') :
    Listed t' text := by
  rcases h with h | h | h
  · exact Or.inl (hgrows.staticConst.subset h)
  · exact Or.inr (Or.inl (hgrows.typesBasic.subset h))
  · exact Or.inr (Or.inr (hgrows.types.subset h))

theorem Inserted.grows (h : Inserted t line) (hgrows : Grows header code t t') :
    Inserted t' line := by
  rcases h.exists_text with ⟨lineOrig, dfn, dfn', text, hline, hpacked, htext⟩
  exact ⟨lineOrig, dfn, dfn', text, hline, hpacked, htext.imp_right fun h => h.grows hgrows⟩

theorem listLine_listed (h : listLine t dfn line lineOrig = .ok t') :
    Grows header code t t' ∧ Listed t' lineOrig := by
  simp only [listLine, bind_eq_ok] at h
  rcases h with ⟨constant, -, h⟩
  split at h
  · simp only [bind_eq_ok] at h
    rcases h with ⟨params, -, h⟩
    have hgrows : Grows header code _ t' := requestParams_grows h
    have hput : Grows header code t { t with staticConstLines := lineOrig :: t.staticConstLines } :=
      ⟨fun _ hmem => Or.inl hmem, subset_rfl, subset_rfl, List.prefix_refl _, List.suffix_cons _ _,
        List.suffix_refl _, List.suffix_refl _⟩
    exact ⟨hput.trans hgrows, Listed.grows (Or.inl List.mem_cons_self) hgrows⟩
  · split at h
    · cases h
      exact ⟨⟨fun _ hmem => Or.inl hmem, subset_rfl, subset_rfl, List.prefix_refl _,
        List.suffix_refl _, List.suffix_cons _ _, List.suffix_refl _⟩,
        Or.inr (Or.inl List.mem_cons_self)⟩
    · cases h
      exact ⟨⟨fun _ hmem => Or.inl hmem, subset_rfl, subset_rfl, List.prefix_refl _,
        List.suffix_refl _, List.suffix_refl _, List.suffix_cons _ _⟩,
        Or.inr (Or.inr List.mem_cons_self)⟩

theorem insertLine_listed (h : insertLine t dfn line lineOrig = .ok t') :
    Grows header code t t' ∧ (lineOrig = [] ∨ Listed t' (spaced lineOrig)) := by
  unfold insertLine at h
  split at h
  · rename_i hnil
    cases h
    exact ⟨.refl _ _ _, Or.inl hnil⟩
  · simp only [bind_eq_ok] at h
    rcases h with ⟨between, hlist, found, -, h⟩
    have hgrows : Grows header code between t' := by
      split at h
      · exact typedefFields_grows h
      · cases h
        exact .refl _ _ _
    have hput : Grows header code t between ∧ Listed between (spaced lineOrig) :=
      listLine_listed hlist
    exact ⟨hput.1.trans hgrows, Or.inr (hput.2.grows hgrows)⟩

/-- A new line is marked as seen, and its text goes to the lines. -/
theorem addLine_inserted (h : addLine t typeStr dfn line lineOrig = .ok t')
    (hline : compared lineOrig = .ok line) (hinserted : LinesInserted t) :
    Grows header code t t' ∧ LinesInserted t' := by
  by_cases hseen : line ∈ t.typeLinesContent
  · rw [addLine, if_pos hseen] at h
    cases h
    exact ⟨.refl _ _ _, hinserted⟩
  · have hcontent := (addLine_cases hseen h).1
    simp only [addLine, if_neg hseen, bind_eq_ok] at h
    rcases h with ⟨⟨dfn', text⟩, hpacked, source, -, between, hbetween, h⟩
    have hseenNow : Grows header code t
        { t with typeLinesContent := insert line t.typeLinesContent } :=
      ⟨fun _ hmem => Or.inl hmem, subset_rfl, Finset.subset_insert _ _, List.prefix_refl _,
        List.suffix_refl _, List.suffix_refl _, List.suffix_refl _⟩
    have hsource : Grows header code t _ := hseenNow.trans (@requestSource_grows _ _ _ typeStr source)
    have hput : Grows header code _ between ∧ (text = [] ∨ Listed between (spaced text)) :=
      insertLine_listed hbetween
    have hfields : Grows header code between t' := requestFields_grows h
    have hgrows := (hsource.trans hput.1).trans hfields
    refine ⟨hgrows, fun other hother => ?_⟩
    rw [hcontent] at hother
    rcases Finset.mem_insert.1 hother with rfl | hother
    · exact ⟨lineOrig, dfn, dfn', text, hline, hpacked,
        hput.2.imp_right fun h => h.grows hfields⟩
    · exact (hinserted other hother).grows hgrows

/-- The entry is erased, and it is settled. -/
theorem Grows.remove (h : Settled header code t typeStr) : Grows header code t (t.remove typeStr) := by
  have hsettled : Settled header code (t.remove typeStr) typeStr := by
    cases h with
    | done h =>
        exact .done h
    | inCode h =>
        exact .inCode h
    | notFound h =>
        exact .notFound h
    | taken hround hline =>
        exact .taken hround hline
  refine ⟨fun other hmem => ?_, subset_rfl, subset_rfl, List.prefix_refl _, List.suffix_refl _,
    List.suffix_refl _, List.suffix_refl _⟩
  by_cases heq : other = typeStr
  · exact Or.inr (heq ▸ hsettled)
  · exact Or.inl (Finset.mem_erase.2 ⟨heq, hmem⟩)

theorem typeNotFoundAdd_grows (t : Tables) (typeStr : List Char) :
    Grows header code t (t.typeNotFoundAdd typeStr) := by
  refine ⟨fun other hmem => ?_, subset_rfl, subset_rfl, List.prefix_append _ _,
    List.suffix_refl _, List.suffix_refl _, List.suffix_refl _⟩
  by_cases heq : other = typeStr
  · exact Or.inr (.notFound (heq ▸ List.mem_append_right _ List.mem_cons_self))
  · exact Or.inl (Finset.mem_erase.2 ⟨heq, hmem⟩)

end Lines

/-! ## Steps and runs -/

section Steps

variable {header code : List Char} {t t' : Tables} {left : Finset (List Char)}
  {typeStr : List Char} {m m' : Machine}

/-- What is compared with the lines that were seen is the declaration that is taken. -/
theorem compared_of_take {startpos endpos : Nat} {taken : Taken}
    (h : searchRound header typeStr startpos endpos = .ok (.take taken)) :
    compared taken.lineOrig = .ok taken.line := by
  simp only [searchRound, bind_eq_ok] at h
  rcases h with ⟨⟨lineStart, lineEnd⟩, -, line, -, line2, -, occurrence, -, h⟩
  split at h
  · cases h
  simp only [bind_eq_ok] at h
  rcases h with ⟨parameters, -, h⟩
  split at h
  · cases h
  simp only [bind_eq_ok] at h
  rcases h with ⟨fields, -, h⟩
  split at h
  · cases h
  simp only [bind_eq_ok] at h
  rcases h with ⟨slice, -, lineOrig, -, cleanLine, hcompared, constant, -, h⟩
  split at h
  · cases h
  simp only [bind_eq_ok] at h
  rcases h with ⟨found, -, h⟩
  rcases found with _ | ⟨posStart, _⟩
  · cases h
  · cases h
    exact hcompared

theorem takeLine_settles {startpos endpos : Nat} {taken : Taken}
    (hround : searchRound header typeStr startpos endpos = .ok (.take taken))
    (h : takeLine t typeStr taken = .ok t') (hinserted : LinesInserted t) :
    Grows header code t t' ∧ LinesInserted t' := by
  have hseen : taken.line ∈ t'.typeLinesContent := by
    rcases takeLine_cases h with ⟨hmem, hcontent, -, -⟩ | ⟨-, hcontent⟩
    · rw [hcontent]
      exact hmem
    · rw [hcontent]
      exact Finset.mem_insert_self _ _
  simp only [takeLine, bind_eq_ok] at h
  rcases h with ⟨words, -, dfn, -, between, hadd, h⟩
  cases h
  have hlines : Grows header code t between ∧ LinesInserted between :=
    addLine_inserted hadd (compared_of_take hround) hinserted
  have hremove : Grows header code between (between.remove typeStr) := .remove (.taken hround hseen)
  have hunmark : Grows header code (between.remove typeStr)
      { between.remove typeStr with typeNotFound := between.typeNotFound.erase typeStr } :=
    .of_requests (fun _ hmem => Or.inl hmem) subset_rfl rfl rfl rfl rfl rfl
  exact ⟨(hlines.1.trans hremove).trans hunmark,
    fun line hline => ((hlines.2 line hline).grows hremove).grows hunmark⟩

theorem LinesInserted.same (hinserted : LinesInserted t) (hgrows : Grows header code t t')
    (hcontent : t'.typeLinesContent = t.typeLinesContent) : LinesInserted t' := by
  intro line hline
  rw [hcontent] at hline
  exact (hinserted line hline).grows hgrows

/-- Which tables a search goes on with. -/
theorem searchFrom_tables {behind : Tables} (findpos : Nat) :
    (searchFrom header t behind left typeStr findpos).tables = t ∨
      (searchFrom header t behind left typeStr findpos).tables = behind := by
  unfold searchFrom
  split
  · exact Or.inl rfl
  · exact Or.inl rfl
  · exact Or.inr rfl

theorem visitEntry_grows (t : Tables) :
    Grows header code t (visitEntry header code t left typeStr).tables ∧
      (visitEntry header code t left typeStr).tables.typeLinesContent = t.typeLinesContent := by
  unfold visitEntry
  split
  · rename_i hdone
    exact ⟨.remove (.done hdone), rfl⟩
  split
  · exact ⟨.refl _ _ _, rfl⟩
  · rename_i hfind
    exact ⟨.remove (.inCode hfind), rfl⟩
  split
  · exact ⟨typeNotFoundAdd_grows t typeStr, rfl⟩
  · have hmark : Grows header code t { t with typeNotFound := insert typeStr t.typeNotFound } :=
      .of_requests (fun _ hmem => Or.inl hmem) subset_rfl rfl rfl rfl rfl rfl
    rcases @searchFrom_tables header { t with typeNotFound := insert typeStr t.typeNotFound } left
      typeStr { t with typeNotFound := insert typeStr t.typeNotFound } 1 with heq | heq
    · rw [heq]
      exact ⟨hmark, rfl⟩
    · rw [heq]
      exact ⟨hmark, rfl⟩

theorem step_grows (hstep : Step header code m m') (hinserted : LinesInserted m.tables) :
    Grows header code m.tables m'.tables ∧ LinesInserted m'.tables := by
  cases hstep with
  | finish _ =>
      exact ⟨.refl _ _ _, hinserted⟩
  | @enter t _ =>
      have hempty : Grows header code t { t with added := ∅ } :=
        .of_requests (fun _ hmem => Or.inl hmem) subset_rfl rfl rfl rfl rfl rfl
      exact ⟨hempty, hinserted.same hempty rfl⟩
  | leave _ =>
      exact ⟨.refl _ _ _, hinserted⟩
  | @visit t left typeStr _ _ =>
      have hadded : Grows header code t { t with added := t.added.erase typeStr } :=
        .of_requests (fun _ hmem => Or.inl hmem) subset_rfl rfl rfl rfl rfl rfl
      rcases @visitEntry_grows header code (left.erase typeStr) typeStr
        { t with added := t.added.erase typeStr } with ⟨hvisit, hcontent⟩
      exact ⟨hadded.trans hvisit, hinserted.same (hadded.trans hvisit) hcontent⟩
  | @round t left typeStr startpos endpos =>
      unfold searchStep
      split
      · exact ⟨.refl _ _ _, hinserted⟩
      · rename_i findpos _
        rcases @searchFrom_tables header t left typeStr (t.typeNotFoundAdd typeStr) findpos with
          heq | heq
        · rw [heq]
          exact ⟨.refl _ _ _, hinserted⟩
        · rw [heq]
          have hgrows : Grows header code t _ := typeNotFoundAdd_grows t typeStr
          exact ⟨hgrows, hinserted.same hgrows rfl⟩
      · rename_i taken hround
        split
        · exact ⟨.refl _ _ _, hinserted⟩
        · rename_i t' htake
          exact takeLine_settles hround htake hinserted

theorem reaches_grows (hreach : Reaches header code m m') (hinserted : LinesInserted m.tables) :
    Grows header code m.tables m'.tables ∧ LinesInserted m'.tables := by
  induction hreach with
  | refl =>
      exact ⟨.refl _ _ _, hinserted⟩
  | tail _ hstep ih =>
      rcases step_grows hstep ih.2 with ⟨hgrows, hlines⟩
      exact ⟨ih.1.trans hgrows, hlines⟩

theorem searchFrom_unfinished {behind : Tables} (findpos : Nat) :
    (searchFrom header t behind left typeStr findpos).control ≠ .finished := by
  unfold searchFrom
  split <;> simp

theorem visitEntry_unfinished :
    (visitEntry header code t left typeStr).control ≠ .finished := by
  unfold visitEntry
  split
  · simp
  split
  · simp
  · simp
  split
  · simp
  · exact searchFrom_unfinished 1

theorem searchStep_unfinished {startpos endpos : Nat} :
    (searchStep header t left typeStr startpos endpos).control ≠ .finished := by
  unfold searchStep
  split
  · simp
  · exact searchFrom_unfinished _
  · split <;> simp

/-- The conversion ends when no type is requested. -/
theorem finished_empty {t : Tables} (hreach : Reaches header code m ⟨t, .finished⟩)
    (hstart : m.control ≠ .finished) : t.typeDefines = ∅ := by
  rcases Relation.ReflTransGen.cases_tail hreach with heq | ⟨before, -, hstep⟩
  · rw [← heq] at hstart
    exact absurd rfl hstart
  · generalize hlast : (⟨t, .finished⟩ : Machine) = last at hstep
    cases hstep with
    | finish hnone =>
        cases hlast
        exact hnone
    | enter _ =>
        cases hlast
    | leave _ =>
        cases hlast
    | visit _ _ =>
        exact absurd (congrArg Machine.control hlast).symm visitEntry_unfinished
    | round =>
        exact absurd (congrArg Machine.control hlast).symm searchStep_unfinished

/-- Whatever type is requested on the way, it is settled when the conversion ends, and each
declaration that was seen is one of the lines. -/
theorem settled_of_finished {t₀ t₁ : Tables} {control : Control}
    (hstart : LinesInserted t₀) (hreach : Reaches header code (start t₀) ⟨t, control⟩)
    (hrest : Reaches header code ⟨t, control⟩ ⟨t₁, .finished⟩) :
    (∀ typeStr ∈ t.typeDefines, Settled header code t₁ typeStr) ∧ LinesInserted t₁ := by
  have hempty : t₁.typeDefines = ∅ :=
    finished_empty (hreach.trans hrest) (fun h => Control.noConfusion h)
  rcases reaches_grows hreach hstart with ⟨-, hlines⟩
  rcases reaches_grows hrest hlines with ⟨hgrows, hlines₁⟩
  refine ⟨fun typeStr hmem => (hgrows.requests typeStr hmem).resolve_left fun hleft => ?_, hlines₁⟩
  rw [hempty] at hleft
  exact Finset.notMem_empty _ hleft

end Steps

end TypeSearch
end FfiDef
end LuajitTcpServer
