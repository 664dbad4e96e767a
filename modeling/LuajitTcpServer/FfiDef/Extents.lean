import LuajitTcpServer.FfiDef.Declarations

/-!
# Extents — whether a definition that is taken is the whole declaration

An occurrence of the type in front of its fields gives the declaration up to the first `;` behind the
first closing brace, one behind the fields gives what follows the last `typedef struct` or
`typedef union`.  In both cases a character behind the last `;` is left out first.
-/

namespace LuajitTcpServer
namespace FfiDef
namespace TypeSearch

open Lua Loops

/-! ## Occurrences -/

theorem word_not_magic {c : Char} (h : isWordChar c) : isMagic c = false := by
  by_contra hmagic
  rw [Bool.not_eq_false, isMagic, decide_eq_true_eq] at hmagic
  simp only [List.mem_cons, List.not_mem_nil, or_false] at hmagic
  rcases hmagic with rfl | rfl | rfl | rfl | rfl | rfl | rfl | rfl | rfl | rfl <;>
    exact absurd h (by decide)

theorem parse_name {name : List Char} (hname : ∀ c ∈ name, isWordChar c) :
    parse (pattern name) =
      (notWordChar :: (name.map Single.char ++ [notWordChar])).map .one := by
  have hbracket : nameSeparator = "[^_%w]".toList := rfl
  have hzero : ∀ c ∈ pattern name, decide (c ≠ '\x00') := by
    intro c hc
    refine decide_eq_true ?_
    rintro rfl
    rw [pattern, List.append_assoc, List.mem_append, List.mem_append] at hc
    rcases hc with hc | hc | hc
    · exact absurd hc (by decide)
    · exact absurd (hname _ hc) (by decide)
    · exact absurd hc (by decide)
  have hword := @parseItems_literals name nameSeparator 11 (fun c hc => word_not_magic (hname c hc))
    (by decide)
  have hlength : (pattern name).length = (name.length + 11) + 1 := by
    rw [pattern, List.length_append, List.length_append]
    show 6 + name.length + 6 = _
    omega
  have hfirst : parseItems (name.length + 11 + 1) (pattern name) =
      .one notWordChar :: parseItems (name.length + 11) (name ++ nameSeparator) := by
    rw [pattern, List.append_assoc]
    have hcons : nameSeparator ++ (name ++ nameSeparator) =
        '[' :: '^' :: '_' :: '%' :: 'w' :: ']' :: (name ++ nameSeparator) := rfl
    have hrepeat : parseRepeat notWordChar (name ++ nameSeparator) =
        (.one notWordChar, name ++ nameSeparator) := by
      cases name with
      | nil =>
          rfl
      | cons c name =>
          refine parseRepeat_literal ?_
          rintro _ ⟨⟩
          exact word_not_magic (hname c List.mem_cons_self)
    rw [hcons, parseItems]
    show (parseRepeat notWordChar (name ++ nameSeparator)).1 :: parseItems _
      (parseRepeat notWordChar (name ++ nameSeparator)).2 = _
    rw [hrepeat]
  have hlast : parseItems 11 nameSeparator = [.one notWordChar] := by decide +kernel
  rw [parse, List.takeWhile_eq_self_iff.2 hzero, hlength, hfirst, hword, hlast]
  simp

theorem spells_chars (word : List Char) : Spells (word.map Single.char) word := by
  induction word with
  | nil =>
      exact .nil
  | cons c word ih =>
      exact .cons (fun _ => decide_eq_decide.2 eq_comm) ih

theorem readSingles_append_singles (singles more : List Single) (txt : List Char) :
    readSingles (singles ++ more) txt = (readSingles singles txt).bind (readSingles more) := by
  induction singles generalizing txt with
  | nil =>
      rfl
  | cons s singles ih =>
      cases txt with
      | nil =>
          rfl
      | cons c txt =>
          rw [List.cons_append, readSingles, readSingles]
          split
          · exact ih txt
          · rfl

/-- An occurrence: a character, the name and another character that are not of a word. -/
theorem occurrence_of_find {header name : List Char} {init s e : Nat}
    (hname : ∀ c ∈ name, isWordChar c)
    (h : find header (pattern name) init false = .ok (some (s, e))) :
    ∃ c rest, header.drop s = name ++ c :: rest ∧ isWordChar c = false ∧ 1 ≤ s ∧
      e = s + name.length + 1 ∧ e ≤ header.length := by
  have hspecial : (pattern name).any isSpecial := rfl
  rcases find_matches hspecial rfl h with ⟨k, m, hk, -, rfl, rfl, -, hmatch⟩
  have hones := matchItems_ones (notWordChar :: (name.map Single.char ++ [notWordChar])) []
    ((header.take k).getLastD '\x00') (header.drop k) []
  rw [List.append_nil, ← parse_name hname, hmatch] at hones
  cases hdrop : header.drop k with
  | nil =>
      rw [hdrop] at hones
      cases hones
  | cons c₀ txt =>
      rw [hdrop, readSingles, readSingles_append_singles] at hones
      split at hones
      · cases hread : readSingles (name.map Single.char) txt with
        | none =>
            rw [hread] at hones
            cases hones
        | some left =>
            rw [hread, Option.bind_some] at hones
            cases left with
            | nil =>
                cases hones
            | cons c rest =>
                rw [readSingles] at hones
                split at hones
                · rename_i hc
                  have hrest : m.rest = rest := by
                    cases hones
                    rfl
                  have htxt := (spells_chars name).eq_append hread
                  have hbehind : header.drop (k + 1) = name ++ c :: rest := by
                    rw [← List.drop_drop, hdrop, ← htxt]
                    rfl
                  have hlength := congrArg List.length hbehind
                  rw [List.length_drop, List.length_append, List.length_cons] at hlength
                  rw [notWordChar_holds] at hc
                  refine ⟨c, rest, hbehind, by simpa using hc, by omega, ?_, by omega⟩
                  rw [hrest]
                  omega
                · cases hones
      · cases hones

/-! ## Definitions that are taken -/

/-- A round that takes an occurrence: what it has cut out, without the blanks around it. -/
theorem searchRound_take {header typeStr : List Char} {startpos endpos : Nat} {taken : Taken}
    (h : searchRound header typeStr startpos endpos = .ok (.take taken)) :
    ∃ lineStart lineEnd line slice,
      stringBetweenPosition header startpos endpos semicolon semicolon = .ok (lineStart, lineEnd) ∧
      removeLineStartComments (sub header (lineStart + 1 + 1 : Nat) lineEnd) = .ok line ∧
      extent header typeStr line startpos endpos (lineStart + 1) lineEnd = .ok slice ∧
      taken.lineOrig = trim slice.line ∧ compared taken.lineOrig = .ok taken.line := by
  simp only [searchRound, bind_eq_ok] at h
  rcases h with ⟨⟨lineStart, lineEnd⟩, hbetween, line, hline, line2, -, occurrence, -, h⟩
  split at h
  · cases h
  simp only [bind_eq_ok] at h
  rcases h with ⟨parameters, -, h⟩
  split at h
  · cases h
  simp only [bind_eq_ok] at h
  rcases h with ⟨fields, -, h⟩
  split at h
  · cases h
  simp only [bind_eq_ok, replaceLine_eq, Except.ok.injEq] at h
  rcases h with ⟨slice, hextent, _, rfl, line', hcompared, constant, -, h⟩
  split at h
  · cases h
  simp only [bind_eq_ok] at h
  rcases h with ⟨found, -, h⟩
  rcases found with _ | ⟨posStart, _⟩
  · cases h
  · cases h
    exact ⟨lineStart, lineEnd, line, slice, hbetween, hline, hextent, rfl, hcompared⟩

theorem word_not_special {name : List Char} (hname : ∀ c ∈ name, isWordChar c) :
    !name.any isSpecial := by
  rw [Bool.not_eq_true', List.any_eq_false]
  intro c hc hspecial
  have hword := hname c hc
  rw [isSpecial, decide_eq_true_eq] at hspecial
  simp only [List.mem_cons, List.not_mem_nil, or_false] at hspecial
  rcases hspecial with rfl | rfl | rfl | rfl | rfl | rfl | rfl | rfl | rfl | rfl <;>
    exact absurd hword (by decide)

/-- The first place of a name is not behind any place of it. -/
theorem find_name_le {line name : List Char} {k p q : Nat} (hname : ∀ c ∈ name, isWordChar c)
    (hfind : find line name 1 false = .ok (some (p, q))) (hstands : StandsAt name line k) :
    p ≤ k + 1 := by
  rw [find_plain (by simpa using word_not_special hname), Nat.sub_self, Nat.zero_min,
    List.drop_zero] at hfind
  simp only [Except.ok.injEq, Option.map_eq_some_iff, Prod.mk.injEq] at hfind
  rcases hfind with ⟨k', hfrom, rfl, -⟩
  by_contra hlt
  exact (plainFrom_some hfrom).2 k (by omega) hstands

namespace Declaration

variable (d : Declaration) {name : Identifier} {s e : Nat}

/-! ## The name in front of the fields -/

/-- The declaration up to the `;` behind the first closing brace. -/
def cutBehind (inside between : List Char) : List Char :=
  d.front.text ++ '\x7b' :: (inside ++ '\x7d' :: (between ++ [';']))

/-- What follows the opening brace, up to the first `;`. -/
def firstField : List Char :=
  (d.fields.text ++ '\x7d' :: (d.back.text ++ [';'])).takeWhile (· ≠ ';')

theorem exists_firstField : ∃ rest, d.text = d.front.text ++ '\x7b' :: (d.firstField ++ ';' :: rest) ∧
    ';' ∉ d.firstField := by
  have hnot : ';' ∉ d.firstField := by
    intro hmem
    exact absurd (List.mem_takeWhile_imp hmem) (by decide)
  have hcut := List.takeWhile_append_dropWhile (p := fun c => decide (c ≠ ';'))
    (l := d.fields.text ++ '\x7d' :: (d.back.text ++ [';']))
  cases hrest : (d.fields.text ++ '\x7d' :: (d.back.text ++ [';'])).dropWhile
      fun c => decide (c ≠ ';') with
  | nil =>
      rw [List.dropWhile_eq_nil_iff] at hrest
      exact absurd (hrest ';' (by simp)) (by decide)
  | cons c rest =>
      have hhead := List.head?_dropWhile_not (fun c => decide (c ≠ ';'))
        (d.fields.text ++ '\x7d' :: (d.back.text ++ [';']))
      rw [hrest] at hhead hcut
      have hc : c = ';' := by simpa using hhead
      subst hc
      exact ⟨rest, by rw [text, ← hcut]; rfl, hnot⟩

/-- The statement in front of the fields. -/
def headLine : List Char :=
  d.gap.text ++ (d.front.text ++ '\x7b' :: d.firstField)

structure InFront (name : Identifier) (s e : Nat) : Prop where
  found : find d.header (pattern name.text) s false = .ok (some (s, e))
  behind_before : d.before.length < s
  before_fields : e ≤ d.before.length + d.gap.text.length + d.front.text.length + 1
  uncommented : '/' ∉ d.gap.text ++ d.front.text

theorem exists_header_inFront :
    ∃ after, d.header = d.before ++ (d.headLine ++ [';'] ++ after) ∧ ';' ∉ d.headLine := by
  rcases d.exists_firstField with ⟨more, htext, hnot⟩
  refine ⟨more ++ d.after, ?_, ?_⟩
  · rw [header, htext, headLine]
    simp
  · rw [headLine]
    simp [d.gap.not_mem (show isMark ';' by decide), d.front.not_mem (show isMark ';' by decide), hnot]

theorem length_headLine : d.gap.text.length + d.front.text.length + 1 ≤ d.headLine.length := by
  simp only [headLine, List.length_append, List.length_cons]
  omega

theorem between_inFront (h : d.InFront name s e) :
    stringBetweenPosition d.header s e semicolon semicolon =
        .ok (d.before.length, d.before.length + d.headLine.length + 1) ∧
      sub d.header (d.before.length + 1 + 1 : Nat) (d.before.length + d.headLine.length + 1 : Nat) =
        (d.headLine ++ [';']).drop 1 := by
  rcases occurrence_of_find name.text_word h.found with ⟨c, rest, -, -, -, he, -⟩
  rcases d.exists_header_inFront with ⟨after, hheader, hpart⟩
  have hlength := d.length_headLine
  have hbehind := h.behind_before
  have hbefore := h.before_fields
  constructor
  · rw [hheader, List.append_assoc]
    exact stringBetweenPosition_statement d.before_end hpart (by omega) (by omega) (by omega)
      (by omega)
  · have hsub := sub_part d.before (d.headLine ++ [';']) after 1
    rw [← hheader, List.length_append, List.length_singleton] at hsub
    exact hsub

theorem length_gap_front : 1 ≤ (d.gap.text ++ d.front.text).length := by
  rcases d.front_begins with ⟨c, hc, -⟩
  cases hfront : d.front.text with
  | nil =>
      rw [hfront] at hc
      cases hc
  | cons c' rest =>
      rw [List.length_append, List.length_cons]
      omega

/-- The opening brace is the first one of the statement. -/
theorem drop_headLine :
    (d.headLine ++ [';']).drop 1 =
      (d.gap.text ++ d.front.text).drop 1 ++ '\x7b' :: (d.firstField ++ [';']) := by
  rw [headLine, ← List.drop_append_of_le_length d.length_gap_front]
  simp

theorem not_mem_gap_front {c : Char} (hc : isMark c) : c ∉ (d.gap.text ++ d.front.text).drop 1 := by
  intro hmem
  rcases List.mem_append.1 ((List.drop_suffix _ _).subset hmem) with hgap | hfront
  · exact d.gap.not_mem hc hgap
  · exact d.front.not_mem hc hfront

/-- The line of an occurrence: what stands in front of the fields is kept as it is. -/
theorem line_inFront (h : d.InFront name s e) {line : List Char}
    (hline : removeLineStartComments ((d.headLine ++ [';']).drop 1) = .ok line) :
    ∃ rest, line = (d.gap.text ++ d.front.text).drop 1 ++ '\x7b' :: rest := by
  rw [drop_headLine] at hline
  refine removeLineStartComments_front (fun hmem => ?_) (by decide) hline
  rcases List.mem_append.1 hmem with hmem | hmem
  · exact h.uncommented ((List.drop_suffix _ _).subset hmem)
  · exact absurd hmem (by decide)

theorem throughFields_inFront {inside between after rest : List Char} (lineEnd : Nat)
    (heq : d.fields.text ++ '\x7d' :: (d.back.text ++ ';' :: d.after) =
      inside ++ '\x7d' :: (between ++ ';' :: after))
    (hinside : '\x7d' ∉ inside) (hbetween : ∀ c ∈ between, isMark c = false) :
    ∃ slice, throughFields d.header ((d.gap.text ++ d.front.text).drop 1 ++ '\x7b' :: rest)
        (d.before.length + 1) lineEnd = .ok slice ∧
      slice.line = (d.gap.text ++ d.cutBehind inside between).drop 1 := by
  have hlength := d.length_gap_front
  -- the opening brace
  have hopen := @find_char_at '\x7b' 1 ((d.gap.text ++ d.front.text).drop 1) rest (by decide) (by omega)
    (by rw [Nat.sub_self, List.drop_zero]; exact d.not_mem_gap_front (by decide))
  have hplace : ((d.gap.text ++ d.front.text).drop 1).length + 1 =
      (d.gap.text ++ d.front.text).length := by
    rw [List.length_drop]
    omega
  rw [hplace] at hopen
  -- the closing brace that comes first behind it
  have hbefore : d.header =
      (d.before ++ (d.gap.text ++ d.front.text) ++ '\x7b' :: inside) ++
        '\x7d' :: (between ++ ';' :: after) := by
    rw [header, text, List.append_assoc _ ('\x7b' :: inside), List.cons_append, ← heq]
    simp
  have hnone : '\x7d' ∉ (d.before ++ (d.gap.text ++ d.front.text) ++ '\x7b' :: inside).drop
      ((d.gap.text ++ d.front.text).length + (d.before.length + 1) - 1) := by
    have hskip : (d.gap.text ++ d.front.text).length + (d.before.length + 1) - 1 =
        (d.before ++ (d.gap.text ++ d.front.text)).length := by
      simp only [List.length_append]
      omega
    rw [hskip, List.drop_left, List.mem_cons, not_or]
    exact ⟨by decide, hinside⟩
  have hclose := @find_char_at _ _ _ (between ++ ';' :: after)
    (show isSpecial '\x7d' = false by decide)
    (by simp only [List.length_append, List.length_cons]; omega) hnone
  rw [← hbefore] at hclose
  -- the `;` behind it
  have hbehind : d.header =
      (d.before ++ (d.gap.text ++ d.front.text) ++ '\x7b' :: inside ++ '\x7d' :: between) ++
        ';' :: after := by
    rw [hbefore]
    simp
  have hnone' : ';' ∉
      (d.before ++ (d.gap.text ++ d.front.text) ++ '\x7b' :: inside ++ '\x7d' :: between).drop
        ((d.before ++ (d.gap.text ++ d.front.text) ++ '\x7b' :: inside).length + 1 + 1 - 1) := by
    rw [List.drop_append, List.drop_eq_nil_of_le (by omega), List.nil_append, Nat.add_sub_cancel,
      Nat.add_sub_cancel_left, List.drop_succ_cons, List.drop_zero]
    intro hmem
    exact absurd (hbetween _ hmem) (by decide)
  have hend := @find_char_at _ _ _ after (show isSpecial ';' = false by decide)
    (by simp only [List.length_append, List.length_cons]; omega) hnone'
  rw [← hbehind] at hend
  refine ⟨⟨sub d.header (d.before.length + 1 + 1 : Nat)
    ((d.before ++ (d.gap.text ++ d.front.text) ++ '\x7b' :: inside ++ '\x7d' :: between).length + 1 :
      Nat), (d.before ++ (d.gap.text ++ d.front.text) ++ '\x7b' :: inside ++
        '\x7d' :: between).length + 1⟩, ?_, ?_⟩
  · have hopen' : find ((d.gap.text ++ d.front.text).drop 1 ++ '\x7b' :: rest) openBrace 1 false = _ :=
      hopen
    have hclose' : find d.header closeBrace
      ((d.gap.text ++ d.front.text).length + (d.before.length + 1)) false = _ := hclose
    have hend' : find d.header semicolon
      ((d.before ++ (d.gap.text ++ d.front.text) ++ '\x7b' :: inside).length + 1 + 1) false = _ := hend
    simp only [throughFields, hopen', hclose', hend', bind, Except.bind, valueOf]
    rfl
  · have hsub := sub_part d.before (d.gap.text ++ d.cutBehind inside between) after 1
    have hall : d.before ++ (d.gap.text ++ d.cutBehind inside between ++ after) = d.header := by
      rw [hbehind, cutBehind]
      simp
    have hlast : (d.before ++ (d.gap.text ++ d.front.text) ++ '\x7b' :: inside ++
        '\x7d' :: between).length + 1 =
        d.before.length + (d.gap.text ++ d.cutBehind inside between).length := by
      simp only [cutBehind, List.length_append, List.length_cons, List.length_nil]
      omega
    rw [hall, ← hlast] at hsub
    exact hsub

/-- A closing brace in the statement comes behind the name. -/
theorem extent_inFront (h : d.InFront name s e) (lineEnd : Nat) {rest : List Char} {slice : Slice}
    (hextent : extent d.header name.text
      ((d.gap.text ++ d.front.text).drop 1 ++ '\x7b' :: rest) s e (d.before.length + 1) lineEnd =
        .ok slice) :
    throughFields d.header ((d.gap.text ++ d.front.text).drop 1 ++ '\x7b' :: rest)
      (d.before.length + 1) lineEnd = .ok slice := by
  rcases occurrence_of_find name.text_word h.found with ⟨c, behind, hdrop, -, -, he, -⟩
  have hbehind := h.behind_before
  have hbefore := h.before_fields
  simp only [extent, bind_eq_ok] at hextent
  rcases hextent with ⟨place, hplace, closing, hclosing, hextent⟩
  rcases closing with _ | ⟨curlyEnd, _⟩
  · exact hextent
  · simp only [bind_eq_ok] at hextent
    rcases hextent with ⟨⟨linePos, _⟩, hvalue, hextent⟩
    have hlate : ¬ curlyEnd < linePos := by
      rcases place with _ | ⟨p, q⟩
      · cases hvalue
      cases hvalue
      -- the name stands in the line, in front of the opening brace
      have hstands : StandsAt name.text ((d.gap.text ++ d.front.text).drop 1 ++ '\x7b' :: rest)
          (s - d.before.length - 1) := by
        have hheader : d.header = d.before ++ ((d.gap.text ++ d.front.text) ++ ('\x7b' ::
            (d.fields.text ++ '\x7d' :: (d.back.text ++ ';' :: d.after)))) := by
          rw [header, text]
          simp
        rw [hheader] at hdrop
        refine (standsAt_part (by rw [hdrop]; exact List.prefix_append _ _) hbehind ?_).append _
        rw [List.length_append]
        omega
      have hle := find_name_le name.text_word hplace hstands
      rcases find_char (by decide) hclosing with ⟨-, hone, -, hchar, -⟩
      have hlength := d.length_gap_front
      rw [List.length_append] at hlength
      have hcurly : d.gap.text.length + d.front.text.length ≤ curlyEnd := by
        by_contra hlt
        rw [List.getElem?_append_left (by rw [List.length_drop, List.length_append]; omega)] at hchar
        exact d.not_mem_gap_front (by decide) (List.mem_of_getElem? hchar)
      omega
    rw [if_neg hlate] at hextent
    exact hextent

theorem cutBehind_append {inside between after : List Char}
    (heq : d.fields.text ++ '\x7d' :: (d.back.text ++ ';' :: d.after) =
      inside ++ '\x7d' :: (between ++ ';' :: after)) :
    d.cutBehind inside between ++ after = d.text ++ d.after := by
  have hcut : d.cutBehind inside between ++ after =
      d.front.text ++ '\x7b' :: (inside ++ '\x7d' :: (between ++ ';' :: after)) := by
    simp [cutBehind]
  rw [hcut, ← heq, text]
  simp

/-- The text up to the first closing brace is the declaration when no field has fields. -/
theorem cutBehind_flat {inside between after : List Char}
    (heq : d.fields.text ++ '\x7d' :: (d.back.text ++ ';' :: d.after) =
      inside ++ '\x7d' :: (between ++ ';' :: after)) (hafter : after = d.after) :
    d.cutBehind inside between = d.text := by
  have hcut := d.cutBehind_append heq
  rw [hafter] at hcut
  exact List.append_cancel_right hcut

theorem solid_cutBehind (inside between : List Char) : Solid (d.cutBehind inside between) := by
  have hlast : d.cutBehind inside between =
      (d.front.text ++ '\x7b' :: (inside ++ '\x7d' :: between)) ++ [';'] := by
    simp [cutBehind]
  rcases d.front_begins with ⟨c, hfirst, hc⟩
  refine ⟨⟨c, ?_, hc⟩, ';', ?_, by decide⟩
  · rw [cutBehind]
    cases hfront : d.front.text with
    | nil =>
        rw [hfront] at hfirst
        cases hfirst
    | cons c' rest =>
        rw [hfront] at hfirst
        exact hfirst
  · rw [hlast, List.getLast?_concat]
    rfl

/-- With more than one opening brace the text is not balanced. -/
theorem count_cutBehind {inside between : List Char} (hinside : '\x7d' ∉ inside)
    (hbetween : ∀ c ∈ between, isMark c = false)
    (h : (d.cutBehind inside between).count '\x7b' = (d.cutBehind inside between).count '\x7d') :
    '\x7b' ∉ inside := by
  have hnone : ∀ c, isMark c → between.count c = 0 := by
    intro c hc
    refine List.count_eq_zero.2 fun hmem => ?_
    rw [hbetween c hmem] at hc
    cases hc
  simp only [cutBehind, List.count_append, List.count_cons,
    d.front.count_eq_zero (show isMark '\x7b' by decide),
    d.front.count_eq_zero (show isMark '\x7d' by decide), hnone '\x7b' (by decide),
    hnone '\x7d' (by decide), List.count_eq_zero.2 hinside, List.count_nil] at h
  exact List.count_eq_zero.1 (by simpa using h)

/-- The name in front of the fields: the whole declaration is taken when none of its fields has
fields of its own, and blanks stand in front of it. -/
theorem whole_inFront (h : d.InFront name s e) {taken : Taken}
    (hround : searchRound d.header name.text s e = .ok (.take taken)) :
    taken.lineOrig = d.text ↔
      d.gap.text ≠ [] ∧ (∀ c ∈ d.gap.text.drop 1, isBlank c) ∧ d.fields.Flat := by
  rcases d.between_inFront h with ⟨hbetween, hsub⟩
  rcases searchRound_take hround with ⟨_, _, line, slice, hplaces, hline, hextent, horig, -⟩
  rw [hbetween] at hplaces
  cases hplaces
  rw [hsub] at hline
  rcases d.line_inFront h hline with ⟨rest, rfl⟩
  rcases d.fields.first_closing d.back d.after with
    ⟨inside, between, after, heq, hinside, hplain, hsuffix, hflat, hopen⟩
  rcases d.throughFields_inFront (d.before.length + d.headLine.length + 1) heq hinside hplain with
    ⟨slice', hthrough, hslice⟩
  rw [d.extent_inFront h _ hextent, Except.ok.injEq] at hthrough
  rw [horig, hthrough, hslice]
  have hsolid := d.solid_cutBehind inside between
  by_cases hgap : d.gap.text = []
  · -- the first character of the declaration is left out
    refine iff_of_false (fun hwhole => ?_) fun hkept => hkept.1 hgap
    have hle := length_trim_le ((d.cutBehind inside between).drop 1)
    have hcut := congrArg List.length (d.cutBehind_append heq)
    have hafter := hsuffix.length_le
    have hpos : 0 < (d.cutBehind inside between).length := by simp [cutBehind]
    rw [hgap, List.nil_append] at hwhole
    rw [hwhole, List.length_drop] at hle
    rw [List.length_append, List.length_append] at hcut
    omega
  · have hdrop : (d.gap.text ++ d.cutBehind inside between).drop 1 =
        d.gap.text.drop 1 ++ d.cutBehind inside between :=
      List.drop_append_of_le_length (List.length_pos_iff.2 hgap)
    rw [hdrop]
    constructor
    · intro hwhole
      have hcount := d.count_braces
      rw [← hwhole, trim_append_solid hsolid] at hcount
      have hnone : ∀ c, isMark c → ((d.gap.text.drop 1).dropWhile isBlank).count c = 0 := by
        intro c hc
        refine List.count_eq_zero.2 fun hmem => d.gap.not_mem hc ?_
        exact (List.drop_suffix _ _).subset ((List.dropWhile_suffix _).subset hmem)
      rw [List.count_append, List.count_append, hnone _ (by decide), hnone _ (by decide),
        Nat.zero_add, Nat.zero_add] at hcount
      have hflat' := hopen (d.count_cutBehind hinside hplain hcount)
      rw [d.cutBehind_flat heq (hflat hflat').2, trim_append_eq_iff d.text_solid] at hwhole
      exact ⟨hgap, hwhole, hflat'⟩
    · rintro ⟨-, hblank, hflat'⟩
      rw [d.cutBehind_flat heq (hflat hflat').2]
      exact (trim_append_eq_iff d.text_solid).2 hblank

/-! ## The name behind the fields -/

structure Behind (name : Identifier) (s e : Nat) : Prop where
  found : find d.header (pattern name.text) s false = .ok (some (s, e))
  behind_fields :
    d.before.length + d.gap.text.length + d.front.text.length + d.fields.text.length + 2 ≤ s
  before_end : e ≤ d.before.length + d.gap.text.length + d.text.length
  uncommented : '/' ∉ d.back.text

def TypedefAt (header : List Char) (k : Nat) : Prop :=
  StandsAt typedefUnion header k ∨ StandsAt typedefStruct header k

/-- The last place of the two words in front of a place. -/
def typedefPlace (header : List Char) (startpos : Nat) : Nat :=
  max (backTo header typedefUnion startpos) (backTo header typedefStruct startpos)

theorem typedefPlace_last (header : List Char) (startpos : Nat) :
    typedefPlace header startpos ≤ startpos ∧
      (typedefPlace header startpos = 0 ∨ TypedefAt header (typedefPlace header startpos - 1)) ∧
      ∀ k, typedefPlace header startpos ≤ k → k < startpos → ¬ TypedefAt header k := by
  rcases backTo_word (show typedefUnion ≠ [] by decide) header startpos with
    ⟨hunion, hatUnion, hlastUnion⟩
  rcases backTo_word (show typedefStruct ≠ [] by decide) header startpos with
    ⟨hstruct, hatStruct, hlastStruct⟩
  refine ⟨max_le hunion hstruct, ?_, ?_⟩
  · rcases le_total (backTo header typedefUnion startpos) (backTo header typedefStruct startpos)
      with hle | hle
    · rw [typedefPlace, max_eq_right hle]
      exact hatStruct.imp_right Or.inr
    · rw [typedefPlace, max_eq_left hle]
      exact hatUnion.imp_right Or.inl
  · rintro k hk hlt (hat | hat)
    · exact hlastUnion (k + 1) (Nat.lt_succ_of_le ((le_max_left _ _).trans hk)) hlt hat
    · exact hlastStruct (k + 1) (Nat.lt_succ_of_le ((le_max_right _ _).trans hk)) hlt hat

/-- The last `typedef struct` or `typedef union` up to the name begins the declaration, or there is
none and the declaration is the first text of the header. -/
def BeginsTypedef (startpos : Nat) : Prop :=
  (TypedefAt d.header (d.before ++ d.gap.text).length ∧
      ∀ k, (d.before ++ d.gap.text).length < k → k < startpos → ¬ TypedefAt d.header k) ∨
    ((∀ k < startpos, ¬ TypedefAt d.header k) ∧ ∀ c ∈ d.before ++ d.gap.text, isBlank c)

theorem typedefAt_not_blank {header : List Char} {k : Nat} (h : TypedefAt header k) :
    ∃ c, header[k]? = some c ∧ isBlank c = false := by
  rcases h with ⟨-, rest, hrest⟩ | ⟨-, rest, hrest⟩
  · refine ⟨'t', ?_, by decide⟩
    rw [← List.head?_drop, ← hrest]
    rfl
  · refine ⟨'t', ?_, by decide⟩
    rw [← List.head?_drop, ← hrest]
    rfl

theorem beginsTypedef_iff {startpos : Nat} (hstart : (d.before ++ d.gap.text).length < startpos) :
    d.BeginsTypedef startpos ↔
      typedefPlace d.header startpos - 1 ≤ (d.before ++ d.gap.text).length ∧
        ∀ c ∈ (d.before ++ d.gap.text).drop (typedefPlace d.header startpos - 1), isBlank c := by
  rcases typedefPlace_last d.header startpos with ⟨hle, hat, hlast⟩
  constructor
  · rintro (⟨hhere, hnone⟩ | ⟨hnone, hblank⟩)
    · have hplace : typedefPlace d.header startpos = (d.before ++ d.gap.text).length + 1 := by
        have hbehind : (d.before ++ d.gap.text).length < typedefPlace d.header startpos := by
          by_contra hfront
          exact hlast _ (not_lt.1 hfront) hstart hhere
        rcases hat with hzero | hat
        · omega
        · by_contra hne
          exact hnone _ (by omega) (by omega) hat
      rw [hplace, Nat.add_sub_cancel, List.drop_length]
      exact ⟨Nat.le_refl _, fun c hc => absurd hc List.not_mem_nil⟩
    · have hplace : typedefPlace d.header startpos = 0 := by
        rcases hat with hzero | hat
        · exact hzero
        · by_contra hne
          exact hnone _ (by omega) hat
      rw [hplace]
      exact ⟨Nat.zero_le _, hblank⟩
  · rintro ⟨hfront, hblank⟩
    rcases hat with hzero | hat
    · rw [hzero] at hblank hlast
      exact Or.inr ⟨fun k hk => hlast k (Nat.zero_le _) hk, hblank⟩
    · refine Or.inl ?_
      have hplace : typedefPlace d.header startpos - 1 = (d.before ++ d.gap.text).length := by
        by_contra hne
        rcases typedefAt_not_blank hat with ⟨c, hc, hsolid⟩
        have hpart : ∀ k < (d.before ++ d.gap.text).length,
            d.header[k]? = (d.before ++ d.gap.text)[k]? := by
          intro k hk
          rw [header, ← List.append_assoc, List.getElem?_append_left hk]
        rw [hpart _ (by omega), ← List.head?_drop] at hc
        rw [hblank c (List.mem_of_mem_head? hc)] at hsolid
        cases hsolid
      rw [hplace] at hat
      exact ⟨hat, fun k hk hlt => hlast k (by omega) hlt⟩

/-- The statement behind the fields. -/
def tailLine : List Char := d.fields.lastBlanks ++ '\x7d' :: d.back.text

theorem semicolon_not_mem_tailLine : ';' ∉ d.tailLine := by
  intro hmem
  rw [tailLine, List.mem_append, List.mem_cons] at hmem
  rcases hmem with hmem | hmem | hmem
  · exact absurd (d.fields.lastBlanks_blank _ hmem) (by decide)
  · exact absurd hmem (by decide)
  · exact d.back.not_mem (by decide) hmem

/-- The header up to the last `;` of the fields. -/
theorem exists_header_behind :
    ∃ before, d.header = before ++ (d.tailLine ++ ';' :: d.after) ∧ before.getLast? = some ';' ∧
      before.length + d.tailLine.length + 1 =
        d.before.length + d.gap.text.length + d.text.length ∧
      before.length + d.fields.lastBlanks.length =
        d.before.length + d.gap.text.length + d.front.text.length + d.fields.text.length + 1 := by
  rcases d.fields.last_semicolon d.fields_any with ⟨inside, hinside⟩
  refine ⟨(d.before ++ (d.gap.text ++ (d.front.text ++ '\x7b' :: inside))) ++ [';'], ?_,
    List.getLast?_concat, ?_, ?_⟩
  · rw [header, text, hinside, tailLine]
    simp
  · simp only [tailLine, text, hinside, List.length_append, List.length_cons, List.length_nil]
    omega
  · simp only [hinside, List.length_append, List.length_cons, List.length_nil]
    omega

theorem typedefBefore_behind (h : d.Behind name s e) :
    ∃ slice, typedefBefore d.header s e = .ok slice ∧
      slice.line = ((d.before ++ d.gap.text) ++ d.text).drop (typedefPlace d.header s - 1) := by
  rcases occurrence_of_find name.text_word h.found with ⟨c, rest, -, -, -, he, -⟩
  rcases d.exists_header_behind with ⟨before, hheader, -, hend, hclosing⟩
  have hfields := h.behind_fields
  have hbefore := h.before_end
  have hbetween : ∀ startstr, stringBetweenPosition d.header s e startstr semicolon =
      .ok (backTo d.header startstr s, before.length + d.tailLine.length + 1) := by
    intro startstr
    rw [hheader]
    exact stringBetweenPosition_end d.semicolon_not_mem_tailLine (by omega) (by omega)
  refine ⟨⟨sub d.header (typedefPlace d.header s) (before.length + d.tailLine.length + 1 : Nat),
    before.length + d.tailLine.length + 1⟩, ?_, ?_⟩
  · simp only [typedefBefore, hbetween, bind, Except.bind, typedefPlace]
    split
    · rename_i hlater
      rw [max_eq_left (le_of_lt hlater)]
      rfl
    · rename_i hlater
      rw [max_eq_right (not_lt.1 hlater)]
      rfl
  · have htake : d.header.take (before.length + d.tailLine.length + 1) =
        (d.before ++ d.gap.text) ++ d.text := by
      have hall : d.header = ((d.before ++ d.gap.text) ++ d.text) ++ d.after := by
        rw [header]
        simp
      rw [hall]
      refine List.take_left' ?_
      simp only [List.length_append]
      omega
    show sub d.header _ _ = _
    rw [sub_positions, htake]

/-- Without a blank behind the last `;` the closing brace is left out, and the statement itself is
taken. -/
theorem extent_tight {lineStart lineEnd : Nat} {slice : Slice}
    (htight : d.fields.lastBlanks = [])
    (h : extent d.header name.text ((d.tailLine ++ [';']).drop 1) s e lineStart lineEnd = .ok slice) :
    slice.line = d.back.text ++ [';'] := by
  have hline : (d.tailLine ++ [';']).drop 1 = d.back.text ++ [';'] := by
    rw [tailLine, htight]
    rfl
  have hnone : ∀ c, isMark c → c ≠ ';' → isSpecial c = false →
      find (d.back.text ++ [';']) [c] 1 false = .ok none := by
    intro c hc hne hspecial
    have hnot : c ∉ d.back.text ++ [';'] := by
      simp [d.back.not_mem hc, hne]
    rw [find_plain (by simp [hspecial]), Nat.sub_self, Nat.zero_min, List.drop_zero,
      plainFrom_char_none hnot]
    rfl
  have hopen : find (d.back.text ++ [';']) openBrace 1 false = .ok none :=
    hnone _ (by decide) (by decide) (by decide)
  have hclose : find (d.back.text ++ [';']) closeBrace 1 false = .ok none :=
    hnone _ (by decide) (by decide) (by decide)
  simp only [extent, bind_eq_ok, hline, hclose, Except.ok.injEq] at h
  rcases h with ⟨place, -, _, rfl, h⟩
  simp only [throughFields, hopen, bind, Except.bind] at h
  cases h
  rfl

/-- The closing brace is in front of the name. -/
theorem extent_behind {lineStart lineEnd : Nat} {slice : Slice}
    (hblank : d.fields.lastBlanks ≠ [])
    (h : extent d.header name.text ((d.tailLine ++ [';']).drop 1) s e lineStart lineEnd = .ok slice) :
    typedefBefore d.header s e = .ok slice := by
  have hline : (d.tailLine ++ [';']).drop 1 =
      d.fields.lastBlanks.drop 1 ++ '\x7d' :: (d.back.text ++ [';']) := by
    rw [tailLine, List.append_assoc,
      List.drop_append_of_le_length (List.length_pos_iff.2 hblank)]
    rfl
  have hnot : ∀ c ∈ d.fields.lastBlanks.drop 1, isBlank c := fun c hc =>
    d.fields.lastBlanks_blank c ((List.drop_suffix _ _).subset hc)
  have hclose : find ((d.tailLine ++ [';']).drop 1) closeBrace 1 false =
      .ok (some (d.fields.lastBlanks.length, d.fields.lastBlanks.length)) := by
    have hat := @find_char_at '\x7d' 1 (d.fields.lastBlanks.drop 1) (d.back.text ++ [';'])
      (by decide) (by omega) (by
        rw [Nat.sub_self, List.drop_zero]
        exact fun hmem => absurd (hnot _ hmem) (by decide))
    have hlength : (d.fields.lastBlanks.drop 1).length + 1 = d.fields.lastBlanks.length := by
      have hpos := List.length_pos_iff.2 hblank
      rw [List.length_drop]
      omega
    rw [hlength, ← hline] at hat
    exact hat
  simp only [extent, bind_eq_ok, hclose, Except.ok.injEq] at h
  rcases h with ⟨place, hplace, _, rfl, h⟩
  simp only [bind_eq_ok] at h
  rcases h with ⟨⟨linePos, _⟩, hvalue, h⟩
  rcases place with _ | ⟨p, q⟩
  · cases hvalue
  cases hvalue
  -- blanks and the brace are no characters of the name
  have hlate : d.fields.lastBlanks.length < linePos := by
    rw [find_plain (by simpa using word_not_special name.text_word), Nat.sub_self, Nat.zero_min,
      List.drop_zero] at hplace
    simp only [Except.ok.injEq, Option.map_eq_some_iff, Prod.mk.injEq] at hplace
    rcases hplace with ⟨k, hfrom, rfl, -⟩
    rcases (plainFrom_some hfrom).1 with ⟨-, rest, hstands⟩
    by_contra hle
    cases hname : name.text with
    | nil =>
        exact name.text_ne hname
    | cons c more =>
        rw [hname, List.cons_append] at hstands
        have hchar : ((d.tailLine ++ [';']).drop 1)[k]? = some c := by
          rw [← List.head?_drop, ← hstands]
          rfl
        have hword : isWordChar c := name.text_word c (by rw [hname]; exact List.mem_cons_self)
        have hlength := List.length_drop (i := 1) (l := d.fields.lastBlanks)
        have hpos := List.length_pos_iff.2 hblank
        rw [hline] at hchar
        by_cases hk : k < (d.fields.lastBlanks.drop 1).length
        · rw [List.getElem?_append_left hk] at hchar
          have hblank' := hnot c (List.mem_of_getElem? hchar)
          rw [blank_not_word hblank'] at hword
          cases hword
        · have hsame : k = (d.fields.lastBlanks.drop 1).length := by omega
          rw [hsame, List.getElem?_append_right (Nat.le_refl _), Nat.sub_self] at hchar
          cases hchar
          exact absurd hword (by decide)
  rw [if_pos hlate] at h
  exact h

/-- The name behind the fields: the whole declaration is taken when a blank stands behind the last
`;` of the fields, and the last `typedef` up to the name is its own. -/
theorem whole_behind (h : d.Behind name s e) {taken : Taken}
    (hround : searchRound d.header name.text s e = .ok (.take taken)) :
    taken.lineOrig = d.text ↔
      d.fields.lastBlanks ≠ [] ∧ d.BeginsTypedef s := by
  rcases occurrence_of_find name.text_word h.found with ⟨c, rest, -, -, -, he, -⟩
  rcases d.exists_header_behind with ⟨before, hheader, hlast, hend, hclosing⟩
  have hfields := h.behind_fields
  have hbefore := h.before_end
  have htail : d.tailLine.length = d.fields.lastBlanks.length + d.back.text.length + 1 := by
    simp [tailLine]
    omega
  have hbetween : stringBetweenPosition d.header s e semicolon semicolon =
      .ok (before.length, before.length + d.tailLine.length + 1) := by
    rw [hheader]
    exact stringBetweenPosition_statement (Or.inr hlast) d.semicolon_not_mem_tailLine (by omega)
      (by omega) (by omega) (by omega)
  have hsub := sub_part before (d.tailLine ++ [';']) d.after 1
  rw [List.append_assoc, List.singleton_append, ← hheader, List.length_append,
    List.length_singleton] at hsub
  have huncommented : '/' ∉ sub d.header (before.length + 1 + 1 : Nat)
      (before.length + d.tailLine.length + 1 : Nat) := by
    intro hmem
    have hpart := (List.drop_suffix _ _).subset (hsub ▸ hmem)
    rw [tailLine] at hpart
    simp only [List.mem_append, List.mem_cons, List.not_mem_nil, or_false] at hpart
    rcases hpart with (hpart | hpart | hpart) | hpart
    · exact absurd (d.fields.lastBlanks_blank _ hpart) (by decide)
    · exact absurd hpart (by decide)
    · exact h.uncommented hpart
    · exact absurd hpart (by decide)
  rcases searchRound_take hround with ⟨_, _, line, slice, hplaces, hline, hextent, horig, -⟩
  rw [hbetween] at hplaces
  cases hplaces
  rw [removeLineStartComments_plain huncommented] at hline
  cases hline
  have hextent' : extent d.header name.text ((d.tailLine ++ [';']).drop 1) s e (before.length + 1)
      (before.length + d.tailLine.length + 1) = .ok slice := hsub ▸ hextent
  by_cases hblank : d.fields.lastBlanks = []
  · -- what is left has no brace
    refine iff_of_false (fun hwhole => ?_) fun hkept => hkept.1 hblank
    have hbrace : '\x7b' ∈ taken.lineOrig := by
      rw [hwhole, text]
      simp
    rw [horig, d.extent_tight hblank hextent'] at hbrace
    rcases List.mem_append.1 (trim_subset _ hbrace) with hmem | hmem
    · exact d.back.not_mem (by decide) hmem
    · exact absurd hmem (by decide)
  · rcases d.typedefBefore_behind h with ⟨slice', htypedef, hslice⟩
    rw [d.extent_behind hblank hextent', Except.ok.injEq] at htypedef
    rw [horig, htypedef, hslice, trim_drop_eq_iff d.text_solid, and_iff_right hblank,
      d.beginsTypedef_iff (by rw [List.length_append]; omega)]

end Declaration

/-! ## The text that is added -/

def pragmaWords : List Char := "pragma pack".toList

theorem find_packed_none {dfn : List Char} (h : ¬ pragmaWords <:+: dfn) :
    find dfn "pragma pack(.-)struct".toList 1 false = .ok none := by
  have hparse : parse "pragma pack(.-)struct".toList =
      (pragmaWords.map Single.char).map .one ++ (.openCapture :: .minus .any :: .closeCapture ::
        ("struct".toList.map Single.char).map .one) := by
    decide +kernel
  rw [find_reach (by decide) (by decide +kernel) (by rw [hparse]; decide +kernel), hparse]
  cases hfirst : firstReach ((pragmaWords.map Single.char).map .one ++ (.openCapture ::
      .minus .any :: .closeCapture :: ("struct".toList.map Single.char).map .one)) dfn with
  | none =>
      rfl
  | some found =>
      rcases found with ⟨skipped, left⟩
      have hreach := (firstReach_some hfirst).2
      rw [reach_ones] at hreach
      rcases Option.bind_eq_some_iff.1 hreach with ⟨rest, hread, -⟩
      have hstands := (spells_chars pragmaWords).eq_append hread
      exact absurd ⟨dfn.take skipped, rest, by
        rw [List.append_assoc, ← hstands, List.take_append_drop]⟩ h

/-- A text that is packed is the text itself, or it ends with the line that ends the packing. -/
theorem packed_cases {dfn dfn' lineOrig text : List Char}
    (h : packed dfn lineOrig = .ok (dfn', text)) :
    text = lineOrig ∨ (pragmaWords <:+: dfn ∧ ∃ front, text = front ++ [')']) := by
  by_cases hpragma : pragmaWords <:+: dfn
  · simp only [packed, bind_eq_ok] at h
    rcases h with ⟨found, -, h⟩
    split at h
    · cases h
      exact Or.inl rfl
    simp only [bind_eq_ok] at h
    rcases h with ⟨ending, -, h⟩
    split at h
    · cases h
      exact Or.inl rfl
    simp only [bind_eq_ok] at h
    rcases h with ⟨replaced, hgsub, h⟩
    cases h
    refine Or.inr ⟨hpragma, ?_⟩
    have hend : "\n#pragma pack()".toList = '\n' :: "#pragma pack()".toList := rfl
    have hlast : replaceAll pragmaPack "// #pragma pack".toList "#pragma pack()".toList =
        "// #pragma pack(".toList ++ [')'] := by
      decide +kernel
    rw [gsub_spells rfl (by decide +kernel) (spells_chars pragmaPack) (by decide), hend,
      replaceAll_append_cons (by decide) (by decide), hlast, Except.ok.injEq] at hgsub
    refine ⟨replaceAll pragmaPack "// #pragma pack".toList lineOrig ++
      '\n' :: "// #pragma pack(".toList, ?_⟩
    rw [← hgsub, List.append_assoc, List.cons_append]
  · rw [packed, find_packed_none hpragma] at h
    cases h
    exact Or.inl rfl

theorem trim_spaced (txt : List Char) : trim (spaced txt) = trim txt := by
  rw [spaced]
  split
  · exact @trim_blanks_append ['\n'] txt (by decide)
  · rfl

/-- The words in front of the type are a part of the line. -/
theorem wordLoop_part {line dfn words : List Char} (hdfn : dfn <:+: line)
    (h : wordLoop.run dfn = .ok words) : words <:+: line := by
  refine Loop.run_keeps wordLoop (motive := fun x => x <:+: line) hdfn h ?_
  intro x x' hx hround
  have hsub : ∀ p : Nat, sub (x.rdropWhile (· = ' ')) (p + 1 : Nat) (-1) <:+: line := by
    intro p
    have hfrom := sub_from (x.rdropWhile (· = ' ')) p
    push_cast
    rw [hfrom]
    exact ((List.drop_suffix _ _).isInfix.trans (List.rdropWhile_prefix _ _).isInfix).trans hx
  simp only [wordLoop, wordRound, bind_eq_ok] at hround
  rcases hround with ⟨found, -, hround⟩ | ⟨found, -, hround⟩
  · rcases found with _ | ⟨posStart, _⟩
    · cases hround
    · by_cases hfirst : posStart = 1
      · simp only [if_pos hfirst] at hround
        cases hround
      · simp only [if_neg hfirst] at hround
        cases hround
        exact hsub posStart
  · rcases found with _ | ⟨posStart, _⟩
    · cases hround
      exact (List.rdropWhile_prefix _ _).isInfix.trans hx
    · by_cases hfirst : posStart = 1
      · simp only [if_pos hfirst] at hround
        cases hround
        exact hsub posStart
      · simp only [if_neg hfirst] at hround
        cases hround

/-- A step of the search at an occurrence adds a text to `type_lines`. -/
def Adds (header code typeStr : List Char) (startpos endpos : Nat) (text : List Char) : Prop :=
  ∃ left t m, Step header code ⟨t, .search left typeStr startpos endpos⟩ m ∧
    m.tables.typeLines = text :: t.typeLines

theorem searchFrom_lines {header typeStr : List Char} {t behind : Tables}
    {left : Finset (List Char)} {findpos : Nat} (h : behind.typeLines = t.typeLines) :
    (searchFrom header t behind left typeStr findpos).tables.typeLines = t.typeLines := by
  unfold searchFrom
  split
  · rfl
  · rfl
  · exact h

/-- The occurrence was taken. -/
theorem Adds.taken {header code typeStr text : List Char} {startpos endpos : Nat}
    (h : Adds header code typeStr startpos endpos text) :
    ∃ taken t t', searchRound header typeStr startpos endpos = .ok (.take taken) ∧
      takeLine t typeStr taken = .ok t' ∧ t'.typeLines = text :: t.typeLines := by
  rcases h with ⟨left, t, m, hstep, hadds⟩
  have hkept : ∀ lines : List (List Char), lines ≠ text :: lines := fun lines heq =>
    List.cons_ne_self _ _ heq.symm
  cases hstep
  unfold searchStep at hadds
  split at hadds
  · exact absurd hadds (hkept _)
  · rw [searchFrom_lines (show (t.typeNotFoundAdd typeStr).typeLines = t.typeLines from rfl)] at hadds
    exact absurd hadds (hkept _)
  · rename_i taken hround
    split at hadds
    · exact absurd hadds (hkept _)
    · rename_i t' htake
      exact ⟨taken, t, t', hround, htake, hadds⟩

theorem takeLine_text {t t' : Tables} {typeStr text : List Char} {taken : Taken}
    (h : takeLine t typeStr taken = .ok t') (hadds : t'.typeLines = text :: t.typeLines) :
    ∃ dfn dfn' orig, dfn <:+: taken.line ∧ packed dfn taken.lineOrig = .ok (dfn', orig) ∧
      text = spaced orig := by
  simp only [takeLine, bind_eq_ok, trimmed_eq, Except.ok.injEq] at h
  rcases h with ⟨words, hwords, _, rfl, between, hbetween, h⟩
  have hlines : between.typeLines = t'.typeLines := by
    cases h
    rfl
  rw [hadds] at hlines
  by_cases hseen : taken.line ∈ t.typeLinesContent
  · rw [addLine, if_pos hseen] at hbetween
    cases hbetween
    exact absurd hlines (List.cons_ne_self _ _).symm
  · rcases (addLine_cases hseen hbetween).2 with hsame | ⟨dfn', orig, hpacked, hline⟩
    · rw [hsame] at hlines
      exact absurd hlines (List.cons_ne_self _ _).symm
    · refine ⟨trim words, dfn', orig, ?_, hpacked, ?_⟩
      · have hpart : sub taken.line 1 (taken.posStart - 1) <:+: taken.line :=
          (List.drop_suffix _ _).isInfix.trans (List.take_prefix _ _).isInfix
        refine List.IsInfix.trans ?_ (wordLoop_part hpart hwords)
        exact (List.rdropWhile_prefix _ _).isInfix.trans (List.dropWhile_suffix _).isInfix
      · rw [hline] at hlines
        exact (List.cons.inj hlines).1.symm

namespace Declaration

variable (d : Declaration) {name : Identifier} {s e : Nat}

/-- A text with balanced braces that is the declaration from its first token to its last `;`. -/
structure Complete (text : List Char) : Prop where
  balanced : (trim text).count '\x7b' = (trim text).count '\x7d'
  whole : trim text = d.text

/-- Where the occurrence is in front of the fields, and where it is behind them. -/
def Kept (s : Nat) : Prop :=
  if s ≤ d.before.length + d.gap.text.length + d.front.text.length then
    d.gap.text ≠ [] ∧ (∀ c ∈ d.gap.text.drop 1, isBlank c) ∧ d.fields.Flat
  else
    d.fields.lastBlanks ≠ [] ∧ d.BeginsTypedef s

theorem complete_iff (text : List Char) : d.Complete text ↔ trim text = d.text :=
  ⟨fun h => h.whole, fun h => ⟨by rw [h, d.count_braces], h⟩⟩

theorem whole_iff (h : d.InFront name s e ∨ d.Behind name s e) {taken : Taken}
    (hround : searchRound d.header name.text s e = .ok (.take taken)) :
    taken.lineOrig = d.text ↔ d.Kept s := by
  rcases h with h | h
  · rcases occurrence_of_find name.text_word h.found with ⟨c, rest, -, -, -, he, -⟩
    have hname := List.length_pos_iff.2 name.text_ne
    have hbefore := h.before_fields
    rw [Kept, if_pos (by omega)]
    exact d.whole_inFront h hround
  · have hfields := h.behind_fields
    rw [Kept, if_neg (by omega)]
    exact d.whole_behind h hround

end Declaration

def point : Identifier where
  text := "point".toList
  text_ne := by decide
  text_word := by decide
  text_first := by decide

def pointDeclaration : Declaration where
  before := []
  before_end := Or.inl rfl
  gap := ⟨['\n'], by decide⟩
  front := ⟨"struct point ".toList, by decide⟩
  front_begins := ⟨'s', rfl, by decide⟩
  fields := .field ⟨"\n int x".toList, by decide⟩ (.done ⟨['\n'], by decide⟩)
  fields_any := trivial
  back := ⟨[], by decide⟩
  after := ['\n']

def in6Addr : Identifier where
  text := "in6_addr".toList
  text_ne := by decide
  text_word := by decide
  text_first := by decide

/-- A structure with a union. -/
def in6Declaration : Declaration where
  before := []
  before_end := Or.inl rfl
  gap := ⟨['\n'], by decide⟩
  front := ⟨"struct in6_addr ".toList, by decide⟩
  front_begins := ⟨'s', rfl, by decide⟩
  fields := .nested ⟨"\n union ".toList, by decide⟩
    (.field ⟨"\n  __uint8_t __u6_addr8[16]".toList, by decide⟩ (.done ⟨"\n ".toList, by decide⟩))
    ⟨" __u6_addr".toList, by decide⟩ (.done ⟨['\n'], by decide⟩)
  fields_any := trivial
  back := ⟨[], by decide⟩
  after := ['\n']

/-- What is added ends behind the union. -/
def in6Line : List Char :=
  "\nstruct in6_addr \x7b\n union \x7b\n  __uint8_t __u6_addr8[16];\n \x7d __u6_addr;".toList

end TypeSearch
end FfiDef
end LuajitTcpServer
