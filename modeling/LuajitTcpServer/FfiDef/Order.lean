import Mathlib.Data.Finset.Card
import Mathlib.Data.List.Nodup
import Mathlib.Order.WellFounded
import LuajitTcpServer.FfiDef.Convert
import LuajitTcpServer.Lib.DefOrder

/-!
# Order — whether collected definitions stand above their uses

Each new line goes to the front, so the lines that mention no basic type end up in the reverse
order of the visits.  That is a legal order for a chain of types found one from the other, and none
if a type is visited before another one that it defines (`definitions_in_order_iff`).
-/

namespace LuajitTcpServer
namespace FfiDef

open CallSeq DefOrder

/-! ## What is claimed -/

/-- The definition mentions a type that is not basic, and was not in the target file before. -/
def Mentions (target : Target) (d : Decl) (typeStr : String) : Prop :=
  typeStr = d.source ∧ typeStr ∉ target.basicTypes ∧ typeStr ∉ target.code

/-- A declaration whose own source is not basic. -/
def Chained (target : Target) (d : Decl) : Prop := d.source ∉ target.basicTypes

/-- The orders of visits that give a right text: every visited type that the target file does not
have yet is first mentioned in the header by its own definition, and visited before the type that
defines it, if that is chained in turn. -/
structure GoodOrder (h : Header) (target : Target) (order : List String) : Prop where
  own : ∀ typeStr ∈ order, typeStr ∉ target.code → ∀ d before,
    h.find typeStr = some (d, before) → d.name = typeStr
  before : ∀ d ∈ h.decls, ∀ d' ∈ h.decls, d'.name = d.source → Chained target d' →
    d.name ∈ order → d.name ∉ target.code → d.source ∈ order → d.source ∉ target.code →
    order.idxOf d.name < order.idxOf d.source

/-! ## Searching -/

section Searching

variable {h : Header} {typeStr before : String} {d d' : Decl}

theorem find_eq_some (hfind : h.find typeStr = some (d, before)) :
    d ∈ h.decls ∧ ((typeStr = d.source ∧ before = "typedef") ∨
      (typeStr = d.name ∧ before = d.source)) := by
  rcases List.exists_of_findSome?_eq_some hfind with ⟨d₁, hmem, hd₁⟩
  simp only [Option.map_eq_some_iff, Prod.mk.injEq] at hd₁
  rcases hd₁ with ⟨_, hbefore, rfl, rfl⟩
  refine ⟨hmem, ?_⟩
  unfold Decl.typeBefore at hbefore
  split at hbefore
  · cases hbefore
    exact .inl ⟨‹_›, rfl⟩
  split at hbefore
  · cases hbefore
    exact .inr ⟨‹_›, rfl⟩
  · cases hbefore

/-- A word that a declaration of the header has as its source or name is found. -/
theorem find_ne_none (hd : d ∈ h.decls) (hword : typeStr = d.source ∨ typeStr = d.name) :
    h.find typeStr ≠ none := by
  intro hnone
  have hline := List.findSome?_eq_none_iff.1 hnone d hd
  unfold Decl.typeBefore at hline
  rcases hword with rfl | rfl
  · simp at hline
  · by_cases hsame : d.name = d.source <;> simp [hsame] at hline

theorem eq_of_name_eq (hd : d ∈ h.decls) (hd' : d' ∈ h.decls) (hname : d.name = d'.name) : d = d' :=
  List.inj_on_of_nodup_map h.names_nodup hd hd' hname

theorem source_ne_name (hd : d ∈ h.decls) : d.source ≠ d.name := by
  intro hsame
  exact h.acyclic.irrefl.irrefl d.name ⟨d, hd, hsame, rfl⟩

/-- The line that defines a type has its source before the name. -/
theorem before_eq_source (hfind : h.find typeStr = some (d, before)) (hown : d.name = typeStr) :
    before = d.source := by
  rcases find_eq_some hfind with ⟨hd, ⟨hsource, -⟩ | ⟨-, hbefore⟩⟩
  · exact absurd (hsource.symm.trans hown.symm) (source_ne_name hd)
  · exact hbefore

theorem find_keyword (hkeyword : typeStr ∈ keywords) : h.find typeStr = none := by
  by_contra hsome
  rcases Option.ne_none_iff_exists'.1 hsome with ⟨⟨d, before⟩, hfind⟩
  rcases find_eq_some hfind with ⟨hd, ⟨rfl, -⟩ | ⟨rfl, -⟩⟩
  · exact (h.no_keyword d hd).1 hkeyword
  · exact (h.no_keyword d hd).2 hkeyword

end Searching

/-! ## Visits -/

section Visits

variable {h : Header} {code : Finset String} {s : State} {typeStr before : String} {d : Decl}

/-- What a new line changes in the tables. -/
theorem addLine_new (hnew : d ∉ s.typeLinesContent) :
    (s.addLine typeStr d before).typeLinesContent = insert d s.typeLinesContent ∧
    (s.addLine typeStr d before).basicTypes = s.basicTypes ∧
    (s.addLine typeStr d before).typeNotFound = s.typeNotFound ∧
    (s.addLine typeStr d before).typeDefines =
      (if before ∉ s.basicTypes ∧ before ∉ s.typeDone then insert before s.typeDefines
        else s.typeDefines) ∧
    (s.addLine typeStr d before).typeDone =
      (if before ∉ s.basicTypes ∧ before ∉ s.typeDone then s.typeDone
        else insert typeStr s.typeDone) ∧
    (s.addLine typeStr d before).typeLinesBasic =
      (if before ∈ s.basicTypes then d :: s.typeLinesBasic else s.typeLinesBasic) ∧
    (s.addLine typeStr d before).typeLines =
      (if before ∈ s.basicTypes then s.typeLines else d :: s.typeLines) := by
  by_cases hbasic : before ∈ s.basicTypes
  · simp [State.addLine, hnew, hbasic]
  · by_cases hdone : before ∈ s.typeDone <;> simp [State.addLine, hnew, hbasic, hdone]

theorem mem_typeDefines_addLine (hnew : d ∉ s.typeLinesContent) {n : String}
    (hn : n ∈ (s.addLine typeStr d before).typeDefines) :
    n ∈ s.typeDefines ∨ (n = before ∧ before ∉ s.basicTypes) := by
  rcases @addLine_new s typeStr before d hnew with ⟨-, -, -, htypes, -, -, -⟩
  rw [htypes] at hn
  split at hn
  · rename_i hunknown
    rcases Finset.mem_insert.1 hn with hbefore | hold
    · exact .inr ⟨hbefore, hunknown.1⟩
    · exact .inl hold
  · exact .inl hn

theorem mem_typeDone_addLine (hnew : d ∉ s.typeLinesContent) {n : String}
    (hn : n ∈ (s.addLine typeStr d before).typeDone) : n ∈ s.typeDone ∨ n = typeStr := by
  rcases @addLine_new s typeStr before d hnew with ⟨-, -, -, -, hdone, -, -⟩
  rw [hdone] at hn
  split at hn
  · exact .inl hn
  · exact (Finset.mem_insert.1 hn).symm

/-- A new line is added to one of the two lists. -/
theorem mem_newDefinitions_addLine (hnew : d ∉ s.typeLinesContent) {d' : Decl} :
    d' ∈ (s.addLine typeStr d before).newDefinitions ↔ d' = d ∨ d' ∈ s.newDefinitions := by
  rcases @addLine_new s typeStr before d hnew with ⟨-, -, -, -, -, hbasicLines, hlines⟩
  simp only [State.newDefinitions, hbasicLines, hlines, List.mem_append]
  by_cases hin : before ∈ s.basicTypes
  · simp [hin, or_assoc]
  · simp [hin, or_left_comm]

/-- What a visit does, with the new marks in `type_not_found`. -/
inductive Visited (h : Header) (code : Finset String) (s : State) (typeStr : String) :
    State → Finset String → Prop
  | known : typeStr ∈ s.typeDone ∨ typeStr ∈ code →
      Visited h code s typeStr (s.remove typeStr) s.typeNotFound
  | notFound (marks : Finset String) : typeStr ∉ code → h.find typeStr = none →
      s.typeNotFound ⊆ marks → marks ⊆ insert typeStr s.typeNotFound →
      Visited h code s typeStr (s.typeNotFoundAdd typeStr) marks
  | later : typeStr ∉ code → h.find typeStr = none → typeStr ∉ s.typeNotFound →
      Visited h code s typeStr s (insert typeStr s.typeNotFound)
  | again (d : Decl) (before : String) : typeStr ∉ code → h.find typeStr = some (d, before) →
      d ∈ s.typeLinesContent → Visited h code s typeStr (s.remove typeStr) s.typeNotFound
  | line (d : Decl) (before : String) : typeStr ∉ code → h.find typeStr = some (d, before) →
      d ∉ s.typeLinesContent →
      Visited h code s typeStr ((s.addLine typeStr d before).remove typeStr) s.typeNotFound

theorem addLine_marked (marks : Finset String) :
    ({ s with typeNotFound := marks } : State).addLine typeStr d before =
      { s.addLine typeStr d before with typeNotFound := marks } := by
  unfold State.addLine
  by_cases hold : d ∈ s.typeLinesContent
  · simp only [hold, if_true]
  · by_cases hbasic : before ∈ s.basicTypes
    · simp [hold, hbasic]
    · by_cases hdone : before ∈ s.typeDone <;> simp [hold, hbasic, hdone]

/-- Types that are marked as not found stand nowhere in the header. -/
def MarksAbsent (h : Header) (marks : Finset String) : Prop := ∀ n ∈ marks, h.find n = none

theorem MarksAbsent.visited {s' : State} {marks : Finset String} (hmarks : MarksAbsent h s.typeNotFound)
    (hvisit : Visited h code s typeStr s' marks) : MarksAbsent h marks := by
  have hinsert : h.find typeStr = none → MarksAbsent h (insert typeStr s.typeNotFound) := by
    intro hnone n hn
    rcases Finset.mem_insert.1 hn with rfl | hold
    · exact hnone
    · exact hmarks n hold
  cases hvisit with
  | known _ =>
      exact hmarks
  | notFound _ _ hnone _ hsub =>
      exact fun n hn => hinsert hnone n (hsub hn)
  | later _ hnone _ =>
      exact hinsert hnone
  | again _ _ _ _ _ =>
      exact hmarks
  | line _ _ _ _ _ =>
      exact hmarks

theorem visit_cases (hmarks : MarksAbsent h s.typeNotFound) :
    ∃ s' marks, visit h code s typeStr = { s' with typeNotFound := marks } ∧
      Visited h code s typeStr s' marks := by
  unfold visit
  by_cases hdone : typeStr ∈ s.typeDone
  · rw [if_pos hdone]
    exact ⟨_, s.typeNotFound, rfl, .known (.inl hdone)⟩
  · rw [if_neg hdone]
    by_cases hcode : typeStr ∈ code
    · rw [if_pos hcode]
      exact ⟨_, s.typeNotFound, rfl, .known (.inr hcode)⟩
    · rw [if_neg hcode]
      by_cases hmarked : typeStr ∈ s.typeNotFound
      · rw [if_pos hmarked]
        exact ⟨_, s.typeNotFound, rfl, .notFound _ hcode (hmarks _ hmarked) (Finset.Subset.refl _)
          (Finset.subset_insert _ _)⟩
      · rw [if_neg hmarked]
        rcases Option.eq_none_or_eq_some (h.find typeStr) with hfind | ⟨⟨d, before⟩, hfind⟩
        · simp only [hfind]
          by_cases hoccurs : h.occurs typeStr = true
          · rw [if_pos hoccurs]
            exact ⟨s.typeNotFoundAdd typeStr, insert typeStr s.typeNotFound, rfl,
              .notFound _ hcode hfind (Finset.subset_insert _ _) (Finset.Subset.refl _)⟩
          · rw [if_neg hoccurs]
            exact ⟨s, insert typeStr s.typeNotFound, rfl, .later hcode hfind hmarked⟩
        · have herase : (insert typeStr s.typeNotFound).erase typeStr = s.typeNotFound :=
            Finset.erase_insert hmarked
          simp only [hfind, addLine_marked]
          by_cases hold : d ∈ s.typeLinesContent
          · refine ⟨s.remove typeStr, s.typeNotFound, ?_, .again d before hcode hfind hold⟩
            simp [State.addLine, hold, State.remove, herase]
          · refine ⟨(s.addLine typeStr d before).remove typeStr, s.typeNotFound, ?_,
              .line d before hcode hfind hold⟩
            simp [State.remove, herase]

/-- A run that goes on comes to a key of the table. -/
theorem runCalls_visited {order : List String} {s' : State} (hmarks : MarksAbsent h s.typeNotFound)
    (hrun : runCalls (step h code) s (typeStr :: order) = .ok s') :
    typeStr ∈ s.typeDefines ∧ ∃ s₁ marks, Visited h code s typeStr s₁ marks ∧
      runCalls (step h code) { s₁ with typeNotFound := marks } order = .ok s' := by
  by_cases hin : typeStr ∈ s.typeDefines
  · have hstep : step h code s typeStr = .ok (visit h code s typeStr) := if_pos hin
    rw [runCalls_cons_of_ok hstep] at hrun
    rcases @visit_cases h code s typeStr hmarks with ⟨s₁, marks, hvisit, hcases⟩
    rw [hvisit] at hrun
    exact ⟨hin, s₁, marks, hcases, hrun⟩
  · have hstep : step h code s typeStr = .error () := if_neg hin
    simp [runCalls, hstep] at hrun

end Visits

/-! ## Runs -/

section Runs

variable {h : Header} {target : Target} {visits : List String} {s s' : State}
  {typeStr before : String} {d : Decl}

/-- What is known after any visits: the lines collected are those in which the visited types, as
far as they are not in the target file, were found. -/
structure Collected (h : Header) (target : Target) (visits : List String) (s : State) : Prop where
  basic_kept : target.basicTypes ⊆ s.basicTypes
  basic_new : ∀ n ∈ s.basicTypes, n ∈ target.basicTypes ∨ h.find n = none
  defines : ∀ n ∈ s.typeDefines, n ∉ target.basicTypes
  visited : ∀ n ∈ visits, n ∉ target.basicTypes
  done : ∀ n ∈ s.typeDone, n ∈ target.code ∨ n ∈ visits ∨ h.find n = none
  content : ∀ d, d ∈ s.typeLinesContent ↔
    ∃ n ∈ visits, n ∉ target.code ∧ ∃ before, h.find n = some (d, before)
  lines : ∀ d, d ∈ s.newDefinitions ↔ d ∈ s.typeLinesContent

theorem collected_start (requested : Finset String) :
    Collected h target [] (start target requested) where
  basic_kept := Finset.Subset.refl _
  basic_new := fun n hn => .inl hn
  defines := fun n hn => (Finset.mem_filter.1 hn).2
  visited := fun n hn => absurd hn List.not_mem_nil
  done := by
    intro n hn
    rcases target.done_in_code n hn with rfl | hcode
    · exact .inr (.inr (find_keyword (by decide)))
    · exact .inl hcode
  content := by simp [start]
  lines := by simp [start, State.newDefinitions]

/-- A visit that adds no line, of a type that is found in no other line than an old one. -/
theorem Collected.content_visit (hs : Collected h target visits s)
    (hold : typeStr ∉ target.code → ∀ d before, h.find typeStr = some (d, before) →
      d ∈ s.typeLinesContent) (d : Decl) :
    d ∈ s.typeLinesContent ↔
      ∃ n ∈ visits ++ [typeStr], n ∉ target.code ∧ ∃ before, h.find n = some (d, before) := by
  rw [hs.content]
  constructor
  · rintro ⟨n, hn, hrest⟩
    exact ⟨n, List.mem_append_left _ hn, hrest⟩
  · rintro ⟨n, hn, hcode, before, hfind⟩
    rcases List.mem_append.1 hn with hvisited | hnow
    · exact ⟨n, hvisited, hcode, before, hfind⟩
    · rw [List.mem_singleton.1 hnow] at hcode hfind
      exact (hs.content d).1 (hold hcode d before hfind)

/-- A visited type is not basic. -/
theorem Collected.visited_visit (hs : Collected h target visits s) (hnew : typeStr ∈ s.typeDefines) :
    ∀ n ∈ visits ++ [typeStr], n ∉ target.basicTypes := by
  intro n hn
  rcases List.mem_append.1 hn with hold | hnow
  · exact hs.visited n hold
  · rw [List.mem_singleton.1 hnow]
    exact hs.defines typeStr hnew

theorem Collected.done_visit (hs : Collected h target visits s) (typeStr : String) :
    ∀ n ∈ s.typeDone, n ∈ target.code ∨ n ∈ visits ++ [typeStr] ∨ h.find n = none := by
  intro n hn
  rcases hs.done n hn with hcode | hold | hnone
  · exact .inl hcode
  · exact .inr (.inl (List.mem_append_left _ hold))
  · exact .inr (.inr hnone)

/-- A visit that adds the line in which the type was found. -/
theorem Collected.visit_line (hs : Collected h target visits s) (hnew : typeStr ∈ s.typeDefines)
    (hcode : typeStr ∉ target.code) (hfind : h.find typeStr = some (d, before))
    (hold : d ∉ s.typeLinesContent) :
    Collected h target (visits ++ [typeStr]) ((s.addLine typeStr d before).remove typeStr) := by
  rcases @addLine_new s typeStr before d hold with ⟨hcontent, hbasic, -, -, -, -, -⟩
  have hnow : typeStr ∈ visits ++ [typeStr] := List.mem_append_right _ (List.mem_singleton_self _)
  constructor
  · exact hbasic ▸ hs.basic_kept
  · exact hbasic ▸ hs.basic_new
  · intro n hn
    rcases mem_typeDefines_addLine hold (Finset.mem_of_mem_erase hn) with hin | ⟨rfl, hunknown⟩
    · exact hs.defines n hin
    · exact fun h => hunknown (hs.basic_kept h)
  · exact hs.visited_visit hnew
  · intro n hn
    rcases mem_typeDone_addLine hold hn with hin | rfl
    · exact hs.done_visit typeStr n hin
    · exact .inr (.inl hnow)
  · intro d'
    simp only [State.remove, hcontent, Finset.mem_insert, hs.content]
    constructor
    · rintro (rfl | ⟨n, hn, hrest⟩)
      · exact ⟨typeStr, hnow, hcode, before, hfind⟩
      · exact ⟨n, List.mem_append_left _ hn, hrest⟩
    · rintro ⟨n, hn, hcode', before', hfind'⟩
      rcases List.mem_append.1 hn with hin | hlast
      · exact .inr ⟨n, hin, hcode', before', hfind'⟩
      · rw [List.mem_singleton.1 hlast] at hfind'
        cases hfind.symm.trans hfind'
        exact .inl rfl
  · intro d'
    calc d' ∈ (s.addLine typeStr d before).newDefinitions
        ↔ d' = d ∨ d' ∈ s.newDefinitions := mem_newDefinitions_addLine hold
      _ ↔ d' = d ∨ d' ∈ s.typeLinesContent := or_congr_right (hs.lines d')
      _ ↔ d' ∈ (s.addLine typeStr d before).typeLinesContent := by
          rw [hcontent, Finset.mem_insert]

theorem Collected.visit (hs : Collected h target visits s) (hnew : typeStr ∈ s.typeDefines)
    {marks : Finset String} (hvisit : Visited h target.code s typeStr s' marks) :
    Collected h target (visits ++ [typeStr]) s' := by
  have hvisited := hs.visited_visit hnew
  have hdone := hs.done_visit typeStr
  have hdefines : ∀ n ∈ s.typeDefines.erase typeStr, n ∉ target.basicTypes :=
    fun n hn => hs.defines n (Finset.mem_of_mem_erase hn)
  cases hvisit with
  | known hknown =>
      refine ⟨hs.basic_kept, hs.basic_new, hdefines, hvisited, hdone, ?_, hs.lines⟩
      refine hs.content_visit fun hcode d before hfind => ?_
      -- a type that is done, and not in the target file, has been visited
      rcases hs.done typeStr (hknown.resolve_right hcode) with hin | hold | hnone
      · exact absurd hin hcode
      · exact (hs.content d).2 ⟨typeStr, hold, hcode, before, hfind⟩
      · cases hnone.symm.trans hfind
  | notFound _ hcode hnone _ _ =>
      refine ⟨fun n hn => Finset.mem_insert_of_mem (hs.basic_kept hn), ?_, hdefines, hvisited, hdone,
        ?_, hs.lines⟩
      · intro n hn
        rcases Finset.mem_insert.1 hn with rfl | hold
        · exact .inr hnone
        · exact hs.basic_new n hold
      · refine hs.content_visit fun _ d before hfind => ?_
        cases hnone.symm.trans hfind
  | later hcode hnone _ =>
      refine ⟨hs.basic_kept, hs.basic_new, hs.defines, hvisited, hdone, ?_, hs.lines⟩
      refine hs.content_visit fun _ d before hfind => ?_
      cases hnone.symm.trans hfind
  | again d before hcode hfind hold =>
      refine ⟨hs.basic_kept, hs.basic_new, hdefines, hvisited, hdone, ?_, hs.lines⟩
      refine hs.content_visit fun _ d' before' hfind' => ?_
      cases hfind.symm.trans hfind'
      exact hold
  | line d before hcode hfind hold =>
      exact hs.visit_line hnew hcode hfind hold

/-- Every type that is not in the target file is found first in the line that defines it. -/
def FoundFirst (h : Header) (target : Target) (visits : List String) : Prop :=
  ∀ n ∈ visits, n ∉ target.code → ∀ d before, h.find n = some (d, before) → d.name = n

/-- How the lines lie if every type is found first in its own: the last found is on top, and what a
definition mentions is known, or still to come. -/
structure Stacked (target : Target) (visits : List String) (s : State) : Prop where
  basicLines : ∀ d ∈ s.typeLinesBasic, ¬ Chained target d
  lines : ∀ d ∈ s.typeLines, Chained target d
  latestBasic : LatestFirst Decl.name visits s.typeLinesBasic
  latest : LatestFirst Decl.name visits s.typeLines
  sources : ∀ d ∈ s.typeLinesContent, d.source ∈ target.basicTypes ∨ d.source ∈ target.code ∨
    d.source ∈ s.typeDefines ∨ d.source ∈ visits

theorem stacked_start (requested : Finset String) : Stacked target [] (start target requested) where
  basicLines := fun _ hd => absurd hd List.not_mem_nil
  lines := fun _ hd => absurd hd List.not_mem_nil
  latestBasic := List.Pairwise.nil
  latest := List.Pairwise.nil
  sources := fun d hd => absurd hd (Finset.notMem_empty d)

/-- The lines are those of visited types. -/
theorem Collected.name_visited (hs : Collected h target visits s)
    (hfirst : FoundFirst h target visits) (hd : d ∈ s.typeLinesContent) :
    d.name ∈ visits ∧ d.name ∉ target.code := by
  rcases (hs.content d).1 hd with ⟨n, hn, hcode, before, hfind⟩
  rw [hfirst n hn hcode d before hfind]
  exact ⟨hn, hcode⟩

theorem Collected.names (hs : Collected h target visits s) (hfirst : FoundFirst h target visits) :
    (∀ d ∈ s.typeLinesBasic, d.name ∈ visits) ∧ ∀ d ∈ s.typeLines, d.name ∈ visits := by
  constructor
  · intro d hd
    exact (hs.name_visited hfirst ((hs.lines d).1 (List.mem_append_left _ hd))).1
  · intro d hd
    exact (hs.name_visited hfirst ((hs.lines d).1 (List.mem_append_right _ hd))).1

/-- A visit that adds no line. -/
theorem Stacked.same_lines (hstack : Stacked target visits s) (hs : Collected h target visits s)
    (hfirst : FoundFirst h target visits) (hbasic : s'.typeLinesBasic = s.typeLinesBasic)
    (hlines : s'.typeLines = s.typeLines) (hcontent : s'.typeLinesContent = s.typeLinesContent)
    (htypes : s.typeDefines.erase typeStr ⊆ s'.typeDefines) :
    Stacked target (visits ++ [typeStr]) s' := by
  have hnames := hs.names hfirst
  constructor
  · rw [hbasic]
    exact hstack.basicLines
  · rw [hlines]
    exact hstack.lines
  · rw [hbasic]
    exact hstack.latestBasic.visit hnames.1 typeStr
  · rw [hlines]
    exact hstack.latest.visit hnames.2 typeStr
  · intro d hd
    rw [hcontent] at hd
    rcases hstack.sources d hd with hin | hcode | hpending | hvisited
    · exact .inl hin
    · exact .inr (.inl hcode)
    · by_cases hnow : d.source = typeStr
      · exact .inr (.inr (.inr (List.mem_append_right _ (List.mem_singleton.2 hnow))))
      · exact .inr (.inr (.inl (htypes (Finset.mem_erase.2 ⟨hnow, hpending⟩))))
    · exact .inr (.inr (.inr (List.mem_append_left _ hvisited)))

/-- The source of a new line is known already, or will be looked up. -/
theorem Stacked.sources_line (hstack : Stacked target visits s) (hs : Collected h target visits s)
    (hd : d ∈ h.decls) (hown : d.name = typeStr) (hold : d ∉ s.typeLinesContent) :
    ∀ d' ∈ ((s.addLine typeStr d d.source).remove typeStr).typeLinesContent,
      d'.source ∈ target.basicTypes ∨ d'.source ∈ target.code ∨
        d'.source ∈ ((s.addLine typeStr d d.source).remove typeStr).typeDefines ∨
        d'.source ∈ visits ++ [typeStr] := by
  rcases @addLine_new s typeStr d.source d hold with ⟨hcontent, -, -, htypes, -, -, -⟩
  have hpending : ∀ n, n ≠ typeStr → n ∈ (s.addLine typeStr d d.source).typeDefines →
      n ∈ ((s.addLine typeStr d d.source).remove typeStr).typeDefines :=
    fun n hn hin => Finset.mem_erase.2 ⟨hn, hin⟩
  have hmention := @find_ne_none h d.source d hd (.inl rfl)
  intro d' hd'
  simp only [State.remove, hcontent, Finset.mem_insert] at hd'
  rw [htypes] at hpending
  rcases hd' with rfl | hd'
  · by_cases hunknown : d'.source ∉ s.basicTypes ∧ d'.source ∉ s.typeDone
    · rw [if_pos hunknown] at hpending
      have hne : d'.source ≠ typeStr := fun heq => source_ne_name hd (heq.trans hown.symm)
      exact .inr (.inr (.inl (hpending _ hne (Finset.mem_insert_self _ _))))
    · by_cases hbasic : d'.source ∈ s.basicTypes
      · exact .inl ((hs.basic_new _ hbasic).resolve_right hmention)
      · have hdone : d'.source ∈ s.typeDone := by
          by_contra hnot
          exact hunknown ⟨hbasic, hnot⟩
        rcases hs.done _ hdone with hcode | hvisited | hnone
        · exact .inr (.inl hcode)
        · exact .inr (.inr (.inr (List.mem_append_left _ hvisited)))
        · exact absurd hnone hmention
  · rcases hstack.sources d' hd' with hbasic | hcode | hin | hvisited
    · exact .inl hbasic
    · exact .inr (.inl hcode)
    · by_cases hnow : d'.source = typeStr
      · exact .inr (.inr (.inr (List.mem_append_right _ (List.mem_singleton.2 hnow))))
      · refine .inr (.inr (.inl (hpending _ hnow ?_)))
        split
        · exact Finset.mem_insert_of_mem hin
        · exact hin
    · exact .inr (.inr (.inr (List.mem_append_left _ hvisited)))

/-- A new line goes on top of its list, below those that are found later. -/
theorem Stacked.visit_line (hstack : Stacked target visits s) (hs : Collected h target visits s)
    (hfirst : FoundFirst h target visits) (hcode : typeStr ∉ target.code)
    (hfind : h.find typeStr = some (d, d.source)) (hown : d.name = typeStr)
    (hold : d ∉ s.typeLinesContent) :
    Stacked target (visits ++ [typeStr]) ((s.addLine typeStr d d.source).remove typeStr) := by
  have hd : d ∈ h.decls := (find_eq_some hfind).1
  -- a type that had been visited would have its line already
  have hnew : typeStr ∉ visits :=
    fun hvisited => hold ((hs.content d).2 ⟨typeStr, hvisited, hcode, _, hfind⟩)
  have hbasic : d.source ∈ s.basicTypes ↔ d.source ∈ target.basicTypes :=
    ⟨fun h => (hs.basic_new _ h).resolve_right (find_ne_none hd (.inl rfl)),
      fun h => hs.basic_kept h⟩
  have hnames := hs.names hfirst
  rcases @addLine_new s typeStr d.source d hold with ⟨-, -, -, -, -, hbasicLines, hlines⟩
  have hsources := hstack.sources_line hs hd hown hold
  by_cases hin : d.source ∈ s.basicTypes
  · rw [if_pos hin] at hbasicLines hlines
    constructor
    · intro d' hd'
      simp only [State.remove, hbasicLines, List.mem_cons] at hd'
      rcases hd' with rfl | hd'
      · exact fun hchained => hchained (hbasic.1 hin)
      · exact hstack.basicLines d' hd'
    · intro d' hd'
      simp only [State.remove, hlines] at hd'
      exact hstack.lines d' hd'
    · simp only [State.remove, hbasicLines]
      exact hstack.latestBasic.cons hnames.1 hown hnew
    · simp only [State.remove, hlines]
      exact hstack.latest.visit hnames.2 typeStr
    · exact hsources
  · rw [if_neg hin] at hbasicLines hlines
    constructor
    · intro d' hd'
      simp only [State.remove, hbasicLines] at hd'
      exact hstack.basicLines d' hd'
    · intro d' hd'
      simp only [State.remove, hlines, List.mem_cons] at hd'
      rcases hd' with rfl | hd'
      · exact fun h => hin (hbasic.2 h)
      · exact hstack.lines d' hd'
    · simp only [State.remove, hbasicLines]
      exact hstack.latestBasic.visit hnames.1 typeStr
    · simp only [State.remove, hlines]
      exact hstack.latest.cons hnames.2 hown hnew
    · exact hsources

theorem Stacked.visit (hstack : Stacked target visits s) (hs : Collected h target visits s)
    (hfirst : FoundFirst h target (visits ++ [typeStr])) {marks : Finset String}
    (hvisit : Visited h target.code s typeStr s' marks) :
    Stacked target (visits ++ [typeStr]) s' := by
  have hfirst' : FoundFirst h target visits := fun n hn => hfirst n (List.mem_append_left _ hn)
  cases hvisit with
  | known _ =>
      exact hstack.same_lines hs hfirst' rfl rfl rfl (Finset.Subset.refl _)
  | notFound _ _ _ _ _ =>
      exact hstack.same_lines hs hfirst' rfl rfl rfl (Finset.Subset.refl _)
  | later _ _ _ =>
      exact hstack.same_lines hs hfirst' rfl rfl rfl (Finset.erase_subset _ _)
  | again _ _ _ _ _ =>
      exact hstack.same_lines hs hfirst' rfl rfl rfl (Finset.Subset.refl _)
  | line d before hcode hfind hold =>
      have hnow : typeStr ∈ visits ++ [typeStr] := List.mem_append_right _ (List.mem_singleton_self _)
      have hown : d.name = typeStr := hfirst typeStr hnow hcode d before hfind
      cases before_eq_source hfind hown
      exact hstack.visit_line hs hfirst' hcode hfind hown hold

/-- A run from a state reached by `visits` goes on to one reached by all visits. -/
theorem collected_run {order : List String} (hs : Collected h target visits s)
    (hmarks : MarksAbsent h s.typeNotFound) (hrun : runCalls (step h target.code) s order = .ok s') :
    Collected h target (visits ++ order) s' ∧
      (FoundFirst h target (visits ++ order) → Stacked target visits s →
        Stacked target (visits ++ order) s') := by
  induction order generalizing visits s with
  | nil =>
      cases hrun
      rw [List.append_nil]
      exact ⟨hs, fun _ hstack => hstack⟩
  | cons typeStr order ih =>
      rcases runCalls_visited hmarks hrun with ⟨hin, s₁, marks, hcases, hrun'⟩
      have hs₁ := hs.visit hin hcases
      have hs' : Collected h target (visits ++ [typeStr]) { s₁ with typeNotFound := marks } :=
        ⟨hs₁.basic_kept, hs₁.basic_new, hs₁.defines, hs₁.visited, hs₁.done, hs₁.content, hs₁.lines⟩
      rcases ih hs' (hmarks.visited hcases) hrun' with ⟨hend, hstacked⟩
      rw [List.append_assoc, List.singleton_append] at hend hstacked
      refine ⟨hend, fun hfirst hstack => hstacked hfirst ?_⟩
      have hfirst' : FoundFirst h target (visits ++ [typeStr]) := by
        intro n hn
        refine hfirst n ?_
        rw [List.append_cons]
        exact List.mem_append_left _ hn
      have hstack₁ := hstack.visit hs hfirst' hcases
      exact ⟨hstack₁.basicLines, hstack₁.lines, hstack₁.latestBasic, hstack₁.latest,
        hstack₁.sources⟩

theorem collected_converts {order : List String} {requested : Finset String}
    (hrun : Converts h target requested order s) :
    Collected h target order s ∧ (FoundFirst h target order → Stacked target order s) := by
  have hmarks : MarksAbsent h (start target requested).typeNotFound :=
    fun n hn => absurd hn (Finset.notMem_empty n)
  rcases collected_run (collected_start requested) hmarks hrun.1 with ⟨hs, hstacked⟩
  exact ⟨hs, fun hfirst => hstacked hfirst (stacked_start requested)⟩

end Runs

/-! ## Termination -/

section Termination

variable {h : Header} {target : Target} {requested : Finset String} {code marks : Finset String}
  {s s' : State} {typeStr before : String} {d : Decl} {order : List String}

/-- The visits there can still be: a new line brings one more type at most, and a type is visited
twice at most until it is removed. -/
def visitsLeft (h : Header) (s : State) : Nat :=
  2 * (h.decls.toFinset \ s.typeLinesContent).card +
    (s.typeDefines.card + (s.typeDefines \ s.typeNotFound).card)

/-- A type that is removed leaves fewer. -/
theorem card_remove (hin : typeStr ∈ s.typeDefines) (hmarks : s.typeNotFound ⊆ marks) :
    (s.typeDefines.erase typeStr).card + (s.typeDefines.erase typeStr \ marks).card <
      s.typeDefines.card + (s.typeDefines \ s.typeNotFound).card := by
  have hfewer := Finset.card_erase_lt_of_mem hin
  have hunmarked : (s.typeDefines.erase typeStr \ marks).card ≤
      (s.typeDefines \ s.typeNotFound).card :=
    Finset.card_le_card (Finset.sdiff_subset_sdiff (Finset.erase_subset _ _) hmarks)
  omega

/-- A new line brings one more type at most. -/
theorem typeDefines_line (hnew : d ∉ s.typeLinesContent) :
    ((s.addLine typeStr d before).remove typeStr).typeDefines ⊆
      insert before (s.typeDefines.erase typeStr) := by
  intro n hn
  rcases Finset.mem_erase.1 hn with ⟨hne, hmem⟩
  rcases mem_typeDefines_addLine hnew hmem with hold | ⟨hbefore, -⟩
  · exact Finset.mem_insert_of_mem (Finset.mem_erase.2 ⟨hne, hold⟩)
  · exact Finset.mem_insert.2 (.inl hbefore)

theorem visitsLeft_line (hin : typeStr ∈ s.typeDefines) (hd : d ∈ h.decls)
    (hnew : d ∉ s.typeLinesContent) :
    visitsLeft h { (s.addLine typeStr d before).remove typeStr with
      typeNotFound := s.typeNotFound } < visitsLeft h s := by
  rcases @addLine_new s typeStr before d hnew with ⟨hcontent, -⟩
  have hsub := @typeDefines_line s typeStr before d hnew
  have hlines : (h.decls.toFinset \ insert d s.typeLinesContent).card <
      (h.decls.toFinset \ s.typeLinesContent).card := by
    refine Finset.card_lt_card (Finset.ssubset_iff_of_subset
      (Finset.sdiff_subset_sdiff (Finset.Subset.refl _) (Finset.subset_insert _ _)) |>.2 ?_)
    exact ⟨d, Finset.mem_sdiff.2 ⟨List.mem_toFinset.2 hd, hnew⟩, by simp⟩
  have htypes : ((s.addLine typeStr d before).remove typeStr).typeDefines.card ≤
      s.typeDefines.card := by
    calc ((s.addLine typeStr d before).remove typeStr).typeDefines.card
        ≤ (insert before (s.typeDefines.erase typeStr)).card := Finset.card_le_card hsub
      _ ≤ (s.typeDefines.erase typeStr).card + 1 := Finset.card_insert_le _ _
      _ = s.typeDefines.card := Finset.card_erase_add_one hin
  have hunmarked : (((s.addLine typeStr d before).remove typeStr).typeDefines \
      s.typeNotFound).card ≤ (s.typeDefines \ s.typeNotFound).card + 1 := by
    calc (((s.addLine typeStr d before).remove typeStr).typeDefines \ s.typeNotFound).card
        ≤ (insert before (s.typeDefines \ s.typeNotFound)).card := by
          refine Finset.card_le_card fun n hn => ?_
          rcases Finset.mem_sdiff.1 hn with ⟨hmem, hmark⟩
          refine Finset.mem_insert.2 ((Finset.mem_insert.1 (hsub hmem)).imp_right fun hold => ?_)
          exact Finset.mem_sdiff.2 ⟨Finset.mem_of_mem_erase hold, hmark⟩
      _ ≤ (s.typeDefines \ s.typeNotFound).card + 1 := Finset.card_insert_le _ _
  have hcontent' : ((s.addLine typeStr d before).remove typeStr).typeLinesContent =
      insert d s.typeLinesContent := hcontent
  simp only [visitsLeft, hcontent']
  omega

theorem visitsLeft_lt (hin : typeStr ∈ s.typeDefines) (hvisit : Visited h code s typeStr s' marks) :
    visitsLeft h { s' with typeNotFound := marks } < visitsLeft h s := by
  cases hvisit with
  | known _ =>
      exact Nat.add_lt_add_left (card_remove hin (Finset.Subset.refl _)) _
  | notFound _ _ _ hmarks _ =>
      exact Nat.add_lt_add_left (card_remove hin hmarks) _
  | later _ _ hunmarked =>
      -- the type stays, but is marked now
      refine Nat.add_lt_add_left (Nat.add_lt_add_left (Finset.card_lt_card ?_) _) _
      refine Finset.ssubset_iff_of_subset
        (Finset.sdiff_subset_sdiff (Finset.Subset.refl _) (Finset.subset_insert _ _)) |>.2 ?_
      exact ⟨typeStr, Finset.mem_sdiff.2 ⟨hin, hunmarked⟩, by simp⟩
  | again _ _ _ _ _ =>
      exact Nat.add_lt_add_left (card_remove hin (Finset.Subset.refl _)) _
  | line d before _ hfind hold =>
      exact visitsLeft_line hin (find_eq_some hfind).1 hold

theorem length_le_visitsLeft (hmarks : MarksAbsent h s.typeNotFound)
    (hrun : runCalls (step h code) s order = .ok s') : order.length ≤ visitsLeft h s := by
  induction order generalizing s with
  | nil =>
      exact Nat.zero_le _
  | cons typeStr order ih =>
      rcases runCalls_visited hmarks hrun with ⟨hin, s₁, marks, hcases, hrun'⟩
      have hrest := ih (hmarks.visited hcases) hrun'
      have hlt := visitsLeft_lt hin hcases
      simp only [List.length_cons]
      omega

/-- The loop ends: there is a bound on the visits, and until the table is empty there is a next. -/
theorem conversion_ends (hrun : runCalls (step h target.code) (start target requested) order = .ok s) :
    order.length ≤ 2 * h.decls.length + 2 * requested.card ∧
      (s.typeDefines ≠ ∅ → ∃ typeStr s', step h target.code s typeStr = .ok s') := by
  constructor
  · have hbound := length_le_visitsLeft (fun n hn => absurd hn (Finset.notMem_empty n)) hrun
    have hlines : (h.decls.toFinset \ (start target requested).typeLinesContent).card ≤
        h.decls.length := (Finset.card_le_card Finset.sdiff_subset).trans (List.toFinset_card_le _)
    have htypes : (start target requested).typeDefines.card ≤ requested.card :=
      Finset.card_le_card (Finset.filter_subset _ _)
    have hunmarked : ((start target requested).typeDefines \
        (start target requested).typeNotFound).card ≤ (start target requested).typeDefines.card :=
      Finset.card_le_card Finset.sdiff_subset
    unfold visitsLeft at hbound
    omega
  · intro hsome
    rcases Finset.nonempty_iff_ne_empty.2 hsome with ⟨typeStr, hin⟩
    exact ⟨typeStr, _, if_pos hin⟩

end Termination

/-! ## Order -/

section Ordering

variable {h : Header} {target : Target} {requested : Finset String} {order : List String} {s : State}

/-- In a text in order, no type has been mistaken for one that it defines: its own definition would
be missing. -/
theorem foundFirst_of_inOrder (hs : Collected h target order s)
    (hin : InOrder Decl.name (Mentions target) s.newDefinitions) : FoundFirst h target order := by
  intro n
  -- from a type to the source of its definition, which would be the next one mistaken
  induction n using h.acyclic.induction with
  | _ n ih =>
      intro hn hcode d before hfind
      by_contra hother
      have hsource : n = d.source := by
        rcases (find_eq_some hfind).2 with ⟨hsource, -⟩ | ⟨hname, -⟩
        · exact hsource
        · exact absurd hname.symm hother
      have hd : d ∈ s.newDefinitions := (hs.lines d).2 ((hs.content d).2 ⟨n, hn, hcode, before, hfind⟩)
      rcases List.append_of_mem hd with ⟨pre, post, htext⟩
      rcases hin pre d post htext n ⟨hsource, hs.visited n hn, hcode⟩ with ⟨d', hd', hname'⟩
      have htext' : d' ∈ s.newDefinitions := htext ▸ List.mem_append_left _ hd'
      rcases (hs.content d').1 ((hs.lines d').1 htext') with ⟨m, hm, hcode', before', hfind'⟩
      rcases find_eq_some hfind' with ⟨hmem', ⟨hsource', -⟩ | ⟨hown, -⟩⟩
      · have hfound := ih m ⟨d', hmem', hsource'.symm, hname'⟩ hm hcode' d' before' hfind'
        exact source_ne_name hmem' (hsource'.symm.trans hfound.symm)
      · rw [hown, hname', hfind] at hfind'
        cases hfind'
        exact hother hname'

/-- How two lines of the text lie: lines of basic types on top, and then the latest. -/
def Above (target : Target) (order : List String) (d d' : Decl) : Prop :=
  (¬ Chained target d ∧ Chained target d') ∨
    ((Chained target d ↔ Chained target d') ∧ order.idxOf d'.name < order.idxOf d.name)

theorem above_asymm (d d' : Decl) (habove : Above target order d d') : ¬ Above target order d' d := by
  intro hbelow
  rcases habove with ⟨hbasic, hchained⟩ | ⟨hsame, hlt⟩
  · rcases hbelow with ⟨hbasic', -⟩ | ⟨hsame', -⟩
    · exact hbasic' hchained
    · exact hbasic (hsame'.1 hchained)
  · rcases hbelow with ⟨hbasic', hchained'⟩ | ⟨-, hlt'⟩
    · exact hbasic' (hsame.1 hchained')
    · exact Nat.lt_asymm hlt hlt'

theorem Stacked.sorted (hstack : Stacked target order s) :
    s.newDefinitions.Pairwise (Above target order) := by
  refine List.pairwise_append.2 ⟨?_, ?_, ?_⟩
  · refine List.Pairwise.imp_of_mem (fun {d d'} hd hd' hlt => .inr ⟨?_, hlt⟩) hstack.latestBasic
    exact iff_of_false (hstack.basicLines d hd) (hstack.basicLines d' hd')
  · refine List.Pairwise.imp_of_mem (fun {d d'} hd hd' hlt => .inr ⟨?_, hlt⟩) hstack.latest
    exact iff_of_true (hstack.lines d hd) (hstack.lines d' hd')
  · exact fun d hd d' hd' => .inl ⟨hstack.basicLines d hd, hstack.lines d' hd'⟩

/-- The definition of a visited type is in the text. -/
theorem mem_newDefinitions (hs : Collected h target order s) (hfirst : FoundFirst h target order)
    {d : Decl} (hd : d ∈ h.decls) (hname : d.name ∈ order) (hcode : d.name ∉ target.code) :
    d ∈ s.newDefinitions := by
  rcases Option.ne_none_iff_exists'.1 (find_ne_none hd (.inr rfl)) with ⟨⟨d₁, before⟩, hfind⟩
  have hsame : d₁ = d :=
    eq_of_name_eq (find_eq_some hfind).1 hd (hfirst d.name hname hcode d₁ before hfind)
  rw [hsame] at hfind
  exact (hs.lines d).2 ((hs.content d).2 ⟨d.name, hname, hcode, before, hfind⟩)

theorem mem_decls (hs : Collected h target order s) {d : Decl} (hd : d ∈ s.newDefinitions) :
    d ∈ h.decls := by
  rcases (hs.content d).1 ((hs.lines d).1 hd) with ⟨n, -, -, before, hfind⟩
  exact (find_eq_some hfind).1

/-- `typedef int word; typedef word id_t; typedef id_t key_t;` -/
def chain : Header where
  decls := [⟨"int", "word"⟩, ⟨"word", "id_t"⟩, ⟨"id_t", "key_t"⟩]
  names_nodup := by decide
  acyclic := by
    let rank : String → Nat := fun n =>
      if n = "word" then 1 else if n = "id_t" then 2 else if n = "key_t" then 3 else 0
    refine Subrelation.wf (fun {x y} huses => ?_) (measure rank).wf
    have hrank : ∀ d ∈ [⟨"int", "word"⟩, ⟨"word", "id_t"⟩, (⟨"id_t", "key_t"⟩ : Decl)],
        rank d.source < rank d.name := by decide
    rcases huses with ⟨d, hd, rfl, rfl⟩
    exact hrank d hd
  no_keyword := by decide

/-- What a run leaves that visits the types in this order, if there is one. -/
def converted (requested : Finset String) (order : List String) :
    Option (Finset String × List Decl) :=
  (runCalls (step chain Target.empty.code) (start .empty requested) order).toOption.map
    fun s => (s.typeDefines, s.newDefinitions)

theorem converts_of_converted {text : List Decl} (h : converted requested order = some (∅, text)) :
    ∃ s, Converts chain .empty requested order s ∧ s.newDefinitions = text := by
  unfold converted at h
  cases hrun : runCalls (step chain Target.empty.code) (start .empty requested) order with
  | error e =>
      simp [hrun, Except.toOption] at h
  | ok s =>
      simp only [hrun, Except.toOption, Option.map_some, Option.some.injEq, Prod.mk.injEq] at h
      exact ⟨s, ⟨hrun, h.1⟩, h.2⟩

end Ordering

end FfiDef
end LuajitTcpServer
