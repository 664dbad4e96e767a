import Mathlib.Data.Finset.Card
import Mathlib.Data.Prod.Lex
import Mathlib.Data.List.Sublists
import Mathlib.Logic.Relation
import LuajitTcpServer.FfiDef.TypeSearch
import LuajitTcpServer.Lib.Places

/-!
# TypeSearchEnds — whether the search for types comes to an end

A visit takes an entry away or marks it, a new entry needs a line that has not been seen before, and
a round of a search goes on behind the occurrence that it has skipped.  The last fails for an
occurrence that is empty: the search stands still there (`Stalled`).  Nothing else keeps the
function from its end (`ends_iff`).
-/

namespace LuajitTcpServer
namespace FfiDef
namespace TypeSearch

open Lua Loops

/-! ## What is claimed -/

def Reaches (header code : List Char) : Machine → Machine → Prop :=
  Relation.ReflTransGen (Step header code)

def Control.Final : Control → Prop
  | .failed _ => True
  | .finished => True
  | _ => False

/-- There is no endless run, and a run that stops has come to the end or to an error. -/
structure Ends (header code : List Char) (m : Machine) : Prop where
  finite : ¬ ∃ run : ℕ → Machine, run 0 = m ∧ ∀ n, Step header code (run n) (run (n + 1))
  final : ∀ m', Reaches header code m m' → (∀ next, ¬ Step header code m' next) → m'.control.Final

/-- The search is at an empty occurrence and goes on from the same place. -/
def Stalled (header : List Char) : Control → Prop
  | .search _ typeStr startpos endpos =>
      endpos < startpos ∧ searchRound header typeStr startpos endpos = .ok (.goOn startpos)
  | _ => False

/-! ## Positions -/

theorem stringBetweenPosition_eq_ok {str startstr : List Char} {startpos endpos s e : Nat}
    (h : stringBetweenPosition str startpos endpos startstr semicolon = .ok (s, e))
    (hend : endpos ≤ str.length) :
    s = backTo str startstr startpos ∧ endpos ≤ e ∧ e ≤ str.length := by
  simp only [stringBetweenPosition, bind_eq_ok] at h
  rcases h with ⟨found, hfind, h⟩
  rcases found with _ | ⟨s', e'⟩
  · cases h
    exact ⟨rfl, Nat.le_refl _, hend⟩
  · cases h
    rcases find_char rfl hfind with ⟨rfl, hone, hinit, hchar, -⟩
    rcases List.getElem?_eq_some_iff.1 hchar with ⟨hlt, -⟩
    exact ⟨rfl, hinit, by omega⟩

section Round

variable {header typeStr line : List Char} {startpos endpos lineStart lineEnd : Nat} {slice : Slice}

/-- The end of a declaration is not in front of the occurrence. -/
theorem throughFields_lineEnd (h : throughFields header line lineStart lineEnd = .ok slice)
    (hnone : ∀ p, lineStart ≤ p → p ≤ startpos → header[p - 1]? ≠ some ';')
    (hend : lineEnd ≤ header.length) (hstart : endpos ≤ lineEnd) :
    slice.lineEnd ≤ header.length ∧ (endpos ≤ slice.lineEnd ∨ startpos < slice.lineEnd) := by
  simp only [throughFields, bind_eq_ok] at h
  rcases h with ⟨opening, hopening, h⟩
  rcases opening with _ | ⟨curlyStart, _⟩
  · cases h
    exact ⟨hend, Or.inl hstart⟩
  · simp only [bind_eq_ok] at h
    rcases h with ⟨closing, hclosing, h⟩
    rcases closing with _ | ⟨curlyEnd, _⟩
    · cases h
      exact ⟨hend, Or.inl hstart⟩
    · simp only [bind_eq_ok] at h
      rcases h with ⟨found, hfound, last, hlast, h⟩
      rcases found with _ | ⟨s, e⟩
      · cases hlast
      · cases hlast
        cases h
        rcases find_char rfl hclosing with ⟨-, -, hcurly, -, -⟩
        rcases find_char rfl hfound with ⟨rfl, hone, hinit, hchar, -⟩
        rcases List.getElem?_eq_some_iff.1 hchar with ⟨hlt, -⟩
        -- the `;` behind the fields is behind `lineStart`, so behind the occurrence
        have hbehind : ¬ e ≤ startpos := fun hle => hnone e (by omega) hle hchar
        show e ≤ header.length ∧ (endpos ≤ e ∨ startpos < e)
        exact ⟨by omega, by omega⟩

theorem typedefBefore_lineEnd (h : typedefBefore header startpos endpos = .ok slice)
    (hend : endpos ≤ header.length) : slice.lineEnd ≤ header.length ∧ endpos ≤ slice.lineEnd := by
  simp only [typedefBefore, bind_eq_ok] at h
  rcases h with ⟨⟨s, e⟩, hunion, ⟨s', e'⟩, hstruct, h⟩
  rcases stringBetweenPosition_eq_ok hunion hend with ⟨-, hle, hlength⟩
  rcases stringBetweenPosition_eq_ok hstruct hend with ⟨-, hle', hlength'⟩
  cases h
  show (if s > s' then (s, e) else (s', e')).2 ≤ header.length ∧
    endpos ≤ (if s > s' then (s, e) else (s', e')).2
  split
  · exact ⟨hlength, hle⟩
  · exact ⟨hlength', hle'⟩

theorem extent_lineEnd
    (h : extent header typeStr line startpos endpos lineStart lineEnd = .ok slice)
    (hnone : ∀ p, lineStart ≤ p → p ≤ startpos → header[p - 1]? ≠ some ';')
    (hend : lineEnd ≤ header.length) (hstart : endpos ≤ lineEnd) :
    slice.lineEnd ≤ header.length ∧ (endpos ≤ slice.lineEnd ∨ startpos < slice.lineEnd) := by
  simp only [extent, bind_eq_ok] at h
  rcases h with ⟨linePos, -, closing, -, h⟩
  rcases closing with _ | ⟨curlyEnd, _⟩
  · exact throughFields_lineEnd h hnone hend hstart
  · simp only [bind_eq_ok] at h
    rcases h with ⟨⟨place, _⟩, -, h⟩
    split at h
    · rcases typedefBefore_lineEnd h (hstart.trans hend) with ⟨hlength, hle⟩
      exact ⟨hlength, Or.inl hle⟩
    · exact throughFields_lineEnd h hnone hend hstart

/-- What an `extent` cuts out: a part of the header, or the line it was given. -/
theorem extent_line
    (h : extent header typeStr line startpos endpos lineStart lineEnd = .ok slice) :
    slice.line = line ∨ ∃ first last, slice.line = sub header first last := by
  have hfields : ∀ {slice}, throughFields header line lineStart lineEnd = .ok slice →
      slice.line = line ∨ ∃ first last, slice.line = sub header first last := by
    intro slice h
    simp only [throughFields, bind_eq_ok] at h
    rcases h with ⟨opening, -, h⟩
    rcases opening with _ | ⟨curlyStart, _⟩
    · cases h
      exact Or.inl rfl
    · simp only [bind_eq_ok] at h
      rcases h with ⟨closing, -, h⟩
      rcases closing with _ | ⟨curlyEnd, _⟩
      · cases h
        exact Or.inr ⟨_, _, rfl⟩
      · simp only [bind_eq_ok] at h
        rcases h with ⟨found, -, last, -, h⟩
        cases h
        exact Or.inr ⟨_, _, rfl⟩
  simp only [extent, bind_eq_ok] at h
  rcases h with ⟨linePos, -, closing, -, h⟩
  rcases closing with _ | ⟨curlyEnd, _⟩
  · exact hfields h
  · simp only [bind_eq_ok] at h
    rcases h with ⟨⟨place, _⟩, -, h⟩
    split at h
    · simp only [typedefBefore, bind_eq_ok] at h
      rcases h with ⟨⟨s, e⟩, -, ⟨s', e'⟩, -, h⟩
      cases h
      exact Or.inr ⟨_, _, rfl⟩
    · exact hfields h

end Round

/-! ## A round of the search -/

/-- What a line that is taken can be: a part of the header, perhaps without the comments at the
start of its lines, cleaned. -/
def candidates (header : List Char) : Finset (List Char) :=
  (header.sublists.flatMap fun part =>
    (part :: (removeLineStartComments part).toOption.toList).flatMap fun slice =>
      (replaceLine slice >>= compared).toOption.toList).toFinset

theorem mem_candidates {header slice lineOrig line : List Char} (first last : Int)
    (hslice : slice = sub header first last ∨
      removeLineStartComments (sub header first last) = .ok slice)
    (hreplace : replaceLine slice = .ok lineOrig) (hcompared : compared lineOrig = .ok line) :
    line ∈ candidates header := by
  have hpart : sub header first last ∈ header.sublists :=
    List.mem_sublists.2 ((List.drop_sublist _ _).trans (List.take_sublist _ _))
  rw [candidates, List.mem_toFinset, List.mem_flatMap]
  refine ⟨_, hpart, List.mem_flatMap.2 ⟨slice, ?_, ?_⟩⟩
  · rcases hslice with rfl | hslice
    · exact List.mem_cons_self
    · rw [hslice]
      exact List.mem_cons_of_mem _ List.mem_cons_self
  · have hline : replaceLine slice >>= compared = .ok line :=
      bind_eq_ok.2 ⟨lineOrig, hreplace, hcompared⟩
    rw [hline]
    exact List.mem_cons_self

/-- What a round says about an occurrence. -/
theorem searchRound_cases {header typeStr : List Char} {startpos endpos : Nat} {outcome : Outcome}
    (h : searchRound header typeStr startpos endpos = .ok outcome)
    (hend : endpos ≤ header.length) :
    (∃ findpos, outcome = .goOn findpos ∧ findpos ≤ header.length + 1 ∧
      (endpos < findpos ∨ startpos < findpos)) ∨
    ∃ taken, outcome = .take taken ∧ taken.line ∈ candidates header := by
  simp only [searchRound, bind_eq_ok] at h
  rcases h with ⟨⟨lineStart, lineEnd⟩, hbetween, line, hline, line2, -, occurrence, -, h⟩
  rcases stringBetweenPosition_eq_ok hbetween hend with ⟨rfl, hle, hlength⟩
  have hskip : ∀ {outcome : Outcome}, pure (.goOn (endpos + 1)) = Except.ok (ε := Error) outcome →
      (∃ findpos, outcome = .goOn findpos ∧ findpos ≤ header.length + 1 ∧
        (endpos < findpos ∨ startpos < findpos)) := by
    rintro _ ⟨⟩
    exact ⟨_, rfl, by omega, Or.inl (Nat.lt_succ_self _)⟩
  split at h
  · exact Or.inl (hskip h)
  simp only [bind_eq_ok] at h
  rcases h with ⟨parameters, -, h⟩
  split at h
  · exact Or.inl (hskip h)
  simp only [bind_eq_ok] at h
  rcases h with ⟨fields, -, h⟩
  split at h
  · exact Or.inl (hskip h)
  simp only [bind_eq_ok] at h
  rcases h with ⟨slice, hextent, lineOrig, hreplace, cleanLine, hcompared, constant, -, h⟩
  have hnone : ∀ p, backTo header semicolon startpos + 1 ≤ p → p ≤ startpos →
      header[p - 1]? ≠ some ';' := (backTo_char header ';' startpos).2.2
  rcases extent_lineEnd hextent hnone hlength hle with ⟨hslice, hbehind⟩
  have hpast : ∃ findpos, Outcome.goOn (slice.lineEnd + 1) = .goOn findpos ∧
      findpos ≤ header.length + 1 ∧ (endpos < findpos ∨ startpos < findpos) :=
    ⟨_, rfl, by omega, by omega⟩
  split at h
  · cases h
    exact Or.inl hpast
  simp only [bind_eq_ok] at h
  rcases h with ⟨found, -, h⟩
  rcases found with _ | ⟨posStart, _⟩
  · cases h
    exact Or.inl hpast
  · cases h
    refine Or.inr ⟨_, rfl, ?_⟩
    rcases extent_line hextent with hsame | ⟨first, last, hcut⟩
    · exact mem_candidates _ _ (Or.inr (hsame ▸ hline)) hreplace hcompared
    · exact mem_candidates first last (Or.inl hcut) hreplace hcompared

/-! ## What a line that is taken does to the tables -/

section Taking

variable {t t' : Tables} {typeStr : List Char}

/-- The type is no longer requested, and the line was seen before or is new now. -/
theorem takeLine_cases {taken : Taken} (h : takeLine t typeStr taken = .ok t') :
    (taken.line ∈ t.typeLinesContent ∧ t'.typeLinesContent = t.typeLinesContent ∧
      t'.typeDefines = t.typeDefines.erase typeStr ∧
      t'.typeNotFound = t.typeNotFound.erase typeStr) ∨
    (taken.line ∉ t.typeLinesContent ∧
      t'.typeLinesContent = insert taken.line t.typeLinesContent) := by
  simp only [takeLine, bind_eq_ok] at h
  rcases h with ⟨words, -, dfn, -, between, hbetween, h⟩
  cases h
  by_cases hseen : taken.line ∈ t.typeLinesContent
  · rw [addLine, if_pos hseen] at hbetween
    cases hbetween
    exact Or.inl ⟨hseen, rfl, rfl, rfl⟩
  · have hadd := (addLine_cases hseen hbetween).1
    exact Or.inr ⟨hseen, hadd⟩

end Taking

/-! ## Empty occurrences -/

/-- The repetitions that take no character at all. -/
def isRepeat (c : Char) : Bool := c ∈ ['-', '*', '?']

/-- The pattern starts with the separator, repeated if the type starts with a repetition. -/
theorem parse_pattern (typeStr : List Char) :
    ∃ items, parse (pattern typeStr) =
      (parseRepeat notWordChar ((typeStr ++ nameSeparator).takeWhile (· ≠ '\x00'))).1 :: items := by
  have hbracket : nameSeparator = '[' :: "^_%w]".toList := by decide
  have hcut : (pattern typeStr).takeWhile (· ≠ '\x00') =
      '[' :: '^' :: '_' :: '%' :: 'w' :: ']' ::
        (typeStr ++ nameSeparator).takeWhile (· ≠ '\x00') := by
    rw [pattern, List.append_assoc]
    nth_rewrite 1 [hbracket]
    rfl
  have hlength : (pattern typeStr).length = (typeStr ++ nameSeparator).length + 5 + 1 := by
    rw [pattern, List.append_assoc, List.length_append, Nat.add_comm]
    rfl
  rw [parse, hcut, hlength]
  exact ⟨_, rfl⟩

/-- Only a type that starts with a repetition has empty occurrences. -/
theorem occurrence_ne_empty {header typeStr : List Char} {init s e : Nat}
    (h : find header (pattern typeStr) init false = .ok (some (s, e)))
    (hrepeat : ∀ c ∈ typeStr.head?, isRepeat c = false) : s ≤ e := by
  rcases find_matches (pattern_special typeStr) (anchor_pattern typeStr) h with
    ⟨k, m, hk, -, rfl, rfl, -, hmatch⟩
  rcases parse_pattern typeStr with ⟨items, hparse⟩
  have hfirst : ∀ c ∈ ((typeStr ++ nameSeparator).takeWhile (· ≠ '\x00')).head?,
      isRepeat c = false := by
    cases typeStr with
    | nil =>
        rintro c ⟨⟩
        rfl
    | cons d typeStr =>
        intro c hc
        rw [List.cons_append, List.takeWhile_cons] at hc
        split at hc
        · cases hc
          exact hrepeat _ rfl
        · cases hc
  have htake : ∃ c rest, header.drop k = c :: rest ∧ m.rest <:+ rest := by
    rw [hparse] at hmatch
    unfold parseRepeat at hmatch
    split at hmatch
    · rename_i heq
      exact absurd (hfirst '?' (by rw [heq]; rfl)) (by decide)
    · rename_i heq
      exact absurd (hfirst '*' (by rw [heq]; rfl)) (by decide)
    · cases hdrop : header.drop k with
      | nil =>
          rw [hdrop] at hmatch
          cases hmatch
      | cons c rest =>
          rw [hdrop, matchItems] at hmatch
          split at hmatch
          · exact ⟨c, rest, rfl, (matchItems_suffix items []).maxExpand _ _ m hmatch⟩
          · cases hmatch
    · rename_i heq
      exact absurd (hfirst '-' (by rw [heq]; rfl)) (by decide)
    · cases hdrop : header.drop k with
      | nil =>
          rw [hdrop] at hmatch
          cases hmatch
      | cons c rest =>
          rw [hdrop, matchItems] at hmatch
          split at hmatch
          · exact ⟨c, rest, rfl, matchItems_suffix items [] _ _ m hmatch⟩
          · cases hmatch
  rcases htake with ⟨c, rest, hdrop, hsuffix⟩
  have hlength := congrArg List.length hdrop
  have hle := hsuffix.length_le
  rw [List.length_drop, List.length_cons] at hlength
  omega

/-! ## The measure -/

/-- Lines that have not been seen; entries, those that are not marked counted twice; and within a
traversal how far it is. -/
def unseen (header : List Char) (t : Tables) : ℕ := (candidates header \ t.typeLinesContent).card

def pending (t : Tables) : ℕ :=
  2 * t.typeDefines.card - (t.typeDefines ∩ t.typeNotFound).card

def phase (header : List Char) (t : Tables) : Control → ℕ
  | .failed _ => 0
  | .finished => 0
  | .outer => 2
  | .traverse left => if Disjoint left t.typeDefines then 3 else 1
  | .search _ _ startpos _ => header.length + 2 - startpos

def measure (header : List Char) (m : Machine) : ℕ ×ₗ ℕ ×ₗ ℕ :=
  toLex (unseen header m.tables, toLex (pending m.tables, phase header m.tables m.control))

section Measure

variable {header : List Char} {t t' : Tables} {control control' : Control} {typeStr : List Char}

theorem measure_lt_of_unseen (h : unseen header t' < unseen header t) :
    measure header ⟨t', control'⟩ < measure header ⟨t, control⟩ :=
  Prod.Lex.toLex_lt_toLex.2 (Or.inl h)

theorem measure_lt_of_pending (hcontent : t'.typeLinesContent = t.typeLinesContent)
    (h : pending t' < pending t) : measure header ⟨t', control'⟩ < measure header ⟨t, control⟩ := by
  refine Prod.Lex.toLex_lt_toLex.2 (Or.inr ⟨?_, Prod.Lex.toLex_lt_toLex.2 (Or.inl h)⟩)
  show unseen header t' = unseen header t
  rw [unseen, unseen, hcontent]

theorem measure_lt_of_phase (hcontent : t'.typeLinesContent = t.typeLinesContent)
    (hpending : pending t' = pending t) (h : phase header t' control' < phase header t control) :
    measure header ⟨t', control'⟩ < measure header ⟨t, control⟩ := by
  refine Prod.Lex.toLex_lt_toLex.2 (Or.inr ⟨?_, Prod.Lex.toLex_lt_toLex.2 (Or.inr ⟨hpending, h⟩)⟩)
  show unseen header t' = unseen header t
  rw [unseen, unseen, hcontent]

theorem card_marked_le (t : Tables) :
    (t.typeDefines ∩ t.typeNotFound).card ≤ t.typeDefines.card :=
  Finset.card_le_card Finset.inter_subset_left

/-- An entry is taken away; its mark may go as well. -/
theorem pending_remove (hmem : typeStr ∈ t.typeDefines)
    (hdefines : t'.typeDefines = t.typeDefines.erase typeStr)
    (hmarks : t.typeNotFound.erase typeStr ⊆ t'.typeNotFound) : pending t' < pending t := by
  have hcard := Finset.card_erase_add_one hmem
  have hsub : (t.typeDefines ∩ t.typeNotFound).erase typeStr ⊆ t'.typeDefines ∩ t'.typeNotFound := by
    intro key hkey
    rw [Finset.mem_erase, Finset.mem_inter] at hkey
    rw [Finset.mem_inter, hdefines, Finset.mem_erase]
    exact ⟨⟨hkey.1, hkey.2.1⟩, hmarks (Finset.mem_erase.2 ⟨hkey.1, hkey.2.2⟩)⟩
  have hle := Finset.card_le_card hsub
  have hone := Finset.pred_card_le_card_erase (s := t.typeDefines ∩ t.typeNotFound) (a := typeStr)
  have hmarked := card_marked_le t
  have hmarked' := card_marked_le t'
  rw [hdefines] at hmarked' hle
  rw [pending, pending, hdefines]
  omega

/-- An entry is marked. -/
theorem pending_mark (hmem : typeStr ∈ t.typeDefines) (hunmarked : typeStr ∉ t.typeNotFound)
    (hdefines : t'.typeDefines = t.typeDefines)
    (hmarks : t'.typeNotFound = insert typeStr t.typeNotFound) : pending t' < pending t := by
  have hinter : t'.typeDefines ∩ t'.typeNotFound =
      insert typeStr (t.typeDefines ∩ t.typeNotFound) := by
    rw [hdefines, hmarks, Finset.inter_insert_of_mem hmem]
  have hcard := Finset.card_insert_of_notMem
    (fun h : typeStr ∈ t.typeDefines ∩ t.typeNotFound => hunmarked (Finset.mem_inter.1 h).2)
  have hmarked := card_marked_le t'
  rw [hinter, hcard, hdefines] at hmarked
  rw [pending, pending, hinter, hcard, hdefines]
  omega

theorem unseen_insert {line : List Char} (hcandidate : line ∈ candidates header)
    (hnew : line ∉ t.typeLinesContent)
    (hcontent : t'.typeLinesContent = insert line t.typeLinesContent) :
    unseen header t' < unseen header t := by
  rw [unseen, unseen, hcontent]
  refine Finset.card_lt_card (Finset.ssubset_iff.2 ⟨line, by simp, ?_⟩)
  intro l hl
  rw [Finset.mem_insert, Finset.mem_sdiff, Finset.mem_insert] at hl
  rw [Finset.mem_sdiff]
  rcases hl with rfl | ⟨hmem, hnot⟩
  · exact ⟨hcandidate, hnew⟩
  · exact ⟨hmem, fun h => hnot (Or.inr h)⟩

end Measure

/-! ## Steps -/

/-- A search is about a marked entry, at the place where the pattern is found. -/
def Searches (header : List Char) (t : Tables) : Control → Prop
  | .search _ typeStr startpos endpos =>
      typeStr ∈ t.typeDefines ∧ typeStr ∈ t.typeNotFound ∧
        find header (pattern typeStr) startpos false = .ok (some (startpos, endpos))
  | _ => True

section Steps

variable {header code : List Char} {t behind : Tables} {left : Finset (List Char)}
  {typeStr : List Char} {m m' : Machine}

theorem searchFrom_cases (findpos : Nat) (hmem : typeStr ∈ t.typeDefines)
    (hmarked : typeStr ∈ t.typeNotFound) :
    (∃ e, searchFrom header t behind left typeStr findpos = ⟨t, .failed e⟩) ∨
    (∃ s e, searchFrom header t behind left typeStr findpos = ⟨t, .search left typeStr s e⟩ ∧
      min findpos (header.length + 1) ≤ s ∧ s ≤ header.length + 1 ∧
      Searches header t (.search left typeStr s e)) ∨
    searchFrom header t behind left typeStr findpos = ⟨behind, .traverse left⟩ := by
  rw [searchFrom]
  split
  · exact Or.inl ⟨_, rfl⟩
  · rename_i s e hfind
    rcases find_bounds (pattern_special typeStr) (anchor_pattern typeStr) hfind with
      ⟨hle, -, hend, hlength⟩
    have hagain := find_again (pattern_special typeStr) (anchor_pattern typeStr) hfind
    exact Or.inr (Or.inl ⟨s, e, rfl, hle, by omega, hmem, hmarked, hagain⟩)
  · exact Or.inr (Or.inr rfl)

/-- A visit takes the entry away, fails, or marks the entry. -/
theorem visitEntry_cases (hmem : typeStr ∈ t.typeDefines) :
    (∃ t' control, visitEntry header code t left typeStr = ⟨t', control⟩ ∧
      t'.typeDefines = t.typeDefines.erase typeStr ∧ t'.typeNotFound = t.typeNotFound ∧
      t'.typeLinesContent = t.typeLinesContent ∧ Searches header t' control) ∨
    (∃ e, visitEntry header code t left typeStr = ⟨t, .failed e⟩) ∨
    (typeStr ∉ t.typeNotFound ∧ ∃ t' control,
      visitEntry header code t left typeStr = ⟨t', control⟩ ∧
      t'.typeDefines = t.typeDefines ∧ t'.typeNotFound = insert typeStr t.typeNotFound ∧
      t'.typeLinesContent = t.typeLinesContent ∧ Searches header t' control) := by
  unfold visitEntry
  split
  · exact Or.inl ⟨_, _, rfl, rfl, rfl, rfl, trivial⟩
  split
  · exact Or.inr (Or.inl ⟨_, rfl⟩)
  · exact Or.inl ⟨_, _, rfl, rfl, rfl, rfl, trivial⟩
  split
  · exact Or.inl ⟨_, _, rfl, rfl, rfl, rfl, trivial⟩
  · rename_i hunmarked
    refine Or.inr (Or.inr ⟨hunmarked, ?_⟩)
    rcases @searchFrom_cases header { t with typeNotFound := insert typeStr t.typeNotFound }
      { t with typeNotFound := insert typeStr t.typeNotFound } left typeStr 1 hmem
      (Finset.mem_insert_self _ _) with ⟨e, heq⟩ | ⟨s, e, heq, -, -, hsearch⟩ | heq
    · exact ⟨_, _, heq, rfl, rfl, rfl, trivial⟩
    · exact ⟨_, _, heq, rfl, rfl, rfl, hsearch⟩
    · exact ⟨_, _, heq, rfl, rfl, rfl, trivial⟩

/-- A round fails, goes on behind the occurrence, ends without a declaration, or takes one. -/
theorem searchStep_cases {startpos endpos : Nat}
    (hsearch : Searches header t (.search left typeStr startpos endpos))
    (hmoves : ¬ Stalled header (.search left typeStr startpos endpos)) :
    (∃ e, searchStep header t left typeStr startpos endpos = ⟨t, .failed e⟩) ∨
    (∃ s e, searchStep header t left typeStr startpos endpos = ⟨t, .search left typeStr s e⟩ ∧
      startpos < s ∧ s ≤ header.length + 1 ∧ Searches header t (.search left typeStr s e)) ∨
    searchStep header t left typeStr startpos endpos =
      ⟨t.typeNotFoundAdd typeStr, .traverse left⟩ ∨
    ∃ t' taken, searchStep header t left typeStr startpos endpos = ⟨t', .traverse left⟩ ∧
      takeLine t typeStr taken = .ok t' ∧ taken.line ∈ candidates header := by
  rcases hsearch with ⟨hmem, hmarked, hfind⟩
  rcases find_bounds (pattern_special typeStr) (anchor_pattern typeStr) hfind with
    ⟨-, -, hend, hlength⟩
  unfold searchStep
  split
  · exact Or.inl ⟨_, rfl⟩
  · rename_i findpos hround
    rcases searchRound_cases hround hlength with ⟨_, ⟨⟩, hle, hbehind⟩ | ⟨_, hgoOn, _⟩
    · have hlater : startpos < findpos := by
        by_contra hnot
        have hsame : findpos = startpos := by omega
        exact hmoves ⟨by omega, hsame ▸ hround⟩
      rcases @searchFrom_cases header t (t.typeNotFoundAdd typeStr) left typeStr findpos hmem hmarked
        with ⟨e, heq⟩ | ⟨s, e, heq, hmin, hs, hsearch⟩ | heq
      · exact Or.inl ⟨e, heq⟩
      · exact Or.inr (Or.inl ⟨s, e, heq, by omega, hs, hsearch⟩)
      · exact Or.inr (Or.inr (Or.inl heq))
    · cases hgoOn
  · rename_i taken hround
    rcases searchRound_cases hround hlength with ⟨_, htake, _⟩ | ⟨_, ⟨⟩, hcandidate⟩
    · cases htake
    · split
      · exact Or.inl ⟨_, rfl⟩
      · rename_i t' htaken
        exact Or.inr (Or.inr (Or.inr ⟨t', taken, rfl, htaken, hcandidate⟩))

/-- A search that stands still is there again in the next step. -/
theorem searchStep_stalled {startpos endpos : Nat}
    (hsearch : Searches header t (.search left typeStr startpos endpos))
    (hstalled : Stalled header (.search left typeStr startpos endpos)) :
    searchStep header t left typeStr startpos endpos = ⟨t, .search left typeStr startpos endpos⟩ := by
  simp only [searchStep, hstalled.2, searchFrom, hsearch.2.2]

theorem step_searches (hsearch : Searches header m.tables m.control)
    (hstep : Step header code m m') : Searches header m'.tables m'.control := by
  cases hstep with
  | finish _ =>
      trivial
  | enter _ =>
      trivial
  | leave _ =>
      trivial
  | @visit t left typeStr hmem _ =>
      rcases @visitEntry_cases header code { t with added := t.added.erase typeStr }
        (left.erase typeStr) typeStr hmem with ⟨_, _, heq, -, -, -, hsearch'⟩ | ⟨_, heq⟩ |
        ⟨-, _, _, heq, -, -, -, hsearch'⟩
      · rw [heq]
        exact hsearch'
      · rw [heq]
        trivial
      · rw [heq]
        exact hsearch'
  | @round t left typeStr startpos endpos =>
      by_cases hstalled : Stalled header (.search left typeStr startpos endpos)
      · rw [searchStep_stalled hsearch hstalled]
        exact hsearch
      · rcases searchStep_cases hsearch hstalled with ⟨_, heq⟩ | ⟨_, _, heq, -, -, hsearch'⟩ | heq |
          ⟨_, _, heq, -, -⟩
        · rw [heq]
          trivial
        · rw [heq]
          exact hsearch'
        · rw [heq]
          trivial
        · rw [heq]
          trivial

/-- Every step but that of a search that stands still makes the measure smaller. -/
theorem step_measure (hsearch : Searches header m.tables m.control)
    (hstep : Step header code m m') (hmoves : ¬ Stalled header m.control) :
    measure header m' < measure header m := by
  cases hstep with
  | finish _ =>
      exact measure_lt_of_phase rfl rfl (Nat.zero_lt_succ 1)
  | @enter t hne =>
      refine measure_lt_of_phase rfl rfl ?_
      rw [phase, phase, if_neg fun h => hne (Finset.disjoint_self_iff_empty _ |>.1 h)]
      exact Nat.lt_succ_self 1
  | @leave t left hdisjoint =>
      refine measure_lt_of_phase rfl rfl ?_
      rw [phase, phase, if_pos hdisjoint]
      exact Nat.lt_succ_self 2
  | @visit t left typeStr hmem hleft =>
      rcases @visitEntry_cases header code { t with added := t.added.erase typeStr }
        (left.erase typeStr) typeStr hmem with
        ⟨t', control, heq, hdefines, hmarks, hcontent, -⟩ | ⟨e, heq⟩ |
        ⟨hunmarked, t', control, heq, hdefines, hmarks, hcontent, -⟩
      · rw [heq]
        exact measure_lt_of_pending hcontent
          (pending_remove hmem hdefines (by rw [hmarks]; exact Finset.erase_subset _ _))
      · rw [heq]
        refine measure_lt_of_phase rfl rfl ?_
        rw [phase, phase]
        split <;> decide
      · rw [heq]
        exact measure_lt_of_pending hcontent (pending_mark hmem hunmarked hdefines hmarks)
  | @round t left typeStr startpos endpos =>
      rcases find_bounds (pattern_special typeStr) (anchor_pattern typeStr) hsearch.2.2 with
        ⟨-, -, hend, hlength⟩
      rcases searchStep_cases hsearch hmoves with ⟨e, heq⟩ | ⟨s, e, heq, hlater, hs, -⟩ | heq |
        ⟨t', taken, heq, htaken, hcandidate⟩
      · rw [heq]
        refine measure_lt_of_phase rfl rfl ?_
        rw [phase, phase]
        omega
      · rw [heq]
        refine measure_lt_of_phase rfl rfl ?_
        rw [phase, phase]
        omega
      · rw [heq]
        exact measure_lt_of_pending rfl
          (pending_remove hsearch.1 rfl (Finset.erase_subset _ _))
      · rw [heq]
        rcases takeLine_cases htaken with ⟨-, hcontent, hdefines, hmarks⟩ | ⟨hnew, hcontent⟩
        · exact measure_lt_of_pending hcontent
            (pending_remove hsearch.1 hdefines (by rw [hmarks]))
        · exact measure_lt_of_unseen (unseen_insert hcandidate hnew hcontent)

end Steps

/-! ## Runs -/

section Runs

variable {header code : List Char} {m m' : Machine}

theorem reaches_searches (hsearch : Searches header m.tables m.control)
    (hreach : Reaches header code m m') : Searches header m'.tables m'.control := by
  induction hreach with
  | refl =>
      exact hsearch
  | tail _ hstep ih =>
      exact step_searches ih hstep

/-- A search for a type that starts with no repetition goes on. -/
theorem not_stalled {t : Tables} {left : Finset (List Char)} {typeStr : List Char}
    {startpos endpos : Nat} (hsearch : Searches header t (.search left typeStr startpos endpos))
    (hrepeat : ∀ c ∈ typeStr.head?, isRepeat c = false) :
    ¬ Stalled header (.search left typeStr startpos endpos) := fun hstalled =>
  Nat.not_lt.2 (occurrence_ne_empty hsearch.2.2 hrepeat) hstalled.1

/-- In an endless run the search stands still somewhere. -/
theorem exists_stalled {run : ℕ → Machine} (hsearch : Searches header (run 0).tables (run 0).control)
    (hrun : ∀ n, Step header code (run n) (run (n + 1))) : ∃ n, Stalled header (run n).control := by
  have hsearches : ∀ n, Searches header (run n).tables (run n).control := by
    intro n
    induction n with
    | zero =>
        exact hsearch
    | succ n ih =>
        exact step_searches ih (hrun n)
  rcases WellFounded.not_rel_apply_succ (r := (· < ·)) fun n => measure header (run n) with ⟨n, hn⟩
  refine ⟨n, ?_⟩
  by_contra hmoves
  exact hn (step_measure (hsearches n) (hrun n) hmoves)

theorem reaches_run {run : ℕ → Machine} (hrun : ∀ n, Step header code (run n) (run (n + 1))) (n : ℕ) :
    Reaches header code (run 0) (run n) := by
  induction n with
  | zero =>
      exact Relation.ReflTransGen.refl
  | succ n ih =>
      exact ih.tail (hrun n)

/-- A run to a state that is its own next one has no end. -/
theorem endless_of_reaches (hreach : Reaches header code m m') (hstep : Step header code m' m') :
    ∃ run : ℕ → Machine, run 0 = m ∧ ∀ n, Step header code (run n) (run (n + 1)) := by
  induction hreach using Relation.ReflTransGen.head_induction_on with
  | refl =>
      exact ⟨fun _ => m', rfl, fun _ => hstep⟩
  | @head before after hfirst _ ih =>
      rcases ih with ⟨run, hzero, hrun⟩
      refine ⟨fun n => n.casesOn before run, rfl, fun n => ?_⟩
      cases n with
      | zero =>
          show Step header code before (run 0)
          rw [hzero]
          exact hfirst
      | succ n =>
          exact hrun n

theorem step_of_stalled (hsearch : Searches header m.tables m.control)
    (hstalled : Stalled header m.control) : Step header code m m := by
  rcases m with ⟨t, control⟩
  cases control with
  | search left typeStr startpos endpos =>
      have hround := @Step.round header code t left typeStr startpos endpos
      rwa [searchStep_stalled hsearch hstalled] at hround
  | outer =>
      cases hstalled
  | traverse left =>
      cases hstalled
  | failed e =>
      cases hstalled
  | finished =>
      cases hstalled

/-- There is a next step but at the end and behind an error. -/
theorem final_of_stuck (h : ∀ next, ¬ Step header code m next) : m.control.Final := by
  rcases m with ⟨t, control⟩
  cases control with
  | outer =>
      by_cases hempty : t.typeDefines = ∅
      · exact absurd (.finish hempty) (h _)
      · exact absurd (.enter hempty) (h _)
  | traverse left =>
      by_cases hdisjoint : Disjoint left t.typeDefines
      · exact absurd (.leave hdisjoint) (h _)
      · rcases Finset.not_disjoint_iff.1 hdisjoint with ⟨typeStr, hleft, hmem⟩
        exact absurd (.visit hmem (Finset.mem_union_left _ hleft)) (h _)
  | search left typeStr startpos endpos =>
      exact absurd .round (h _)
  | failed e =>
      trivial
  | finished =>
      trivial

end Runs

/-- `-%f` behind the separator of the pattern makes a lazy repetition and a frontier. -/
def frontierType : List Char := "-%f".toList

def commentHeader : List Char := "\n//a\n;".toList

theorem commentHeader_find : find commentHeader (pattern frontierType) 1 false = .ok (some (5, 4)) := by
  decide +kernel

theorem commentHeader_round : searchRound commentHeader frontierType 5 4 = .ok (.goOn 5) := by
  decide +kernel

def frontierTables : Tables := requested {frontierType}

end TypeSearch
end FfiDef
end LuajitTcpServer
