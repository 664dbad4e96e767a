import LuajitTcpServer.FfiDef.Script
import LuajitTcpServer.Lib.Replacing

/-!
# Comments — comments removed from the text of a header

`removeAllLineComments` of `ffi_def_create.lua` removes the block comments first and then, in each
line that is not empty, what follows the first `//`.

A text of C is a sequence of pieces as a C lexer reads it from left to right (`CText`): characters
of code, literals, line comments and block comments.
-/

namespace LuajitTcpServer
namespace FfiDef

open Lua

/-! ## removeAllLineComments -/

def blockComment : List Char := "/%*(.-)%*/".toList

/-- A line up to the first `//`. -/
def removeLineComment (line : List Char) : Except Error (List Char) := do
  match ← find line "//".toList 1 false with
  | some (s, _) => pure (sub line 1 (s - 1))
  | none => pure line

def removeAllLineComments (txt : List Char) : Except Error (List Char) := do
  let txt ← gsub txt blockComment []
  let txtall ← (← gmatch txt "[^\n]+".toList).mapM removeLineComment
  pure (['\n'].intercalate txtall)

example : removeAllLineComments "int a; /* b\n */\n\nint c; // d\n".toList =
    .ok "int a; \nint c; ".toList := by
  decide +kernel

/-! ## Texts of C -/

inductive Piece where
  | char (c : Char)
  | literal (txt : List Char)
  | line (body : List Char)
  | block (body : List Char)
  deriving DecidableEq, Repr

namespace Piece

def text : Piece → List Char
  | char c => [c]
  | literal txt => txt
  | line body => '/' :: '/' :: body
  | block body => '/' :: '*' :: (body ++ ['*', '/'])

/-- What is left of it without comments. -/
def code : Piece → List Char
  | char c => [c]
  | literal txt => txt
  | _ => []

/-- What is left of it without block comments. -/
def withLines : Piece → List Char
  | block _ => []
  | p => p.text

end Piece

def render (ps : List Piece) : List Char := ps.flatMap Piece.text

def strip (ps : List Piece) : List Char := ps.flatMap Piece.code

def withLines (ps : List Piece) : List Char := ps.flatMap Piece.withLines

def isQuote (c : Char) : Bool := c = '"' || c = '\''

/-- The inside of a literal: a backslash takes the next character along, and there is neither the
quote nor the end of a line. -/
def literalBody (quote : Char) : List Char → Bool
  | [] => true
  | [c] => c ≠ quote && c ≠ '\\' && c ≠ '\n'
  | c :: d :: rest =>
      if c = '\\' then d ≠ '\n' && literalBody quote rest
      else c ≠ quote && c ≠ '\n' && literalBody quote (d :: rest)

/-- The pieces that a lexer reads: a slash of the code starts no comment, a line comment goes to the
end of the line, and a block comment ends where it can end first. -/
inductive Reads : List Piece → Prop where
  | nil : Reads []
  | char {c : Char} {ps : List Piece} :
      isQuote c = false → (c = '/' → ∀ d ∈ (render ps).head?, d ≠ '/' ∧ d ≠ '*') →
      Reads ps → Reads (.char c :: ps)
  | literal {quote : Char} {body : List Char} {ps : List Piece} :
      isQuote quote → literalBody quote body → Reads ps →
      Reads (.literal (quote :: body ++ [quote]) :: ps)
  | line {body : List Char} {ps : List Piece} :
      '\n' ∉ body → (∀ p ∈ ps.head?, p = .char '\n') → Reads ps → Reads (.line body :: ps)
  | block {body : List Char} {ps : List Piece} :
      ¬ ['*', '/'] <:+: body → Reads ps → Reads (.block body :: ps)

/-- `Reads` as a check. -/
def checkReads : List Piece → Bool
  | [] => true
  | .char c :: ps =>
      !isQuote c && (c ≠ '/' || (render ps).head?.all fun d => d ≠ '/' && d ≠ '*') && checkReads ps
  | .literal [] :: _ => false
  | .literal (quote :: body) :: ps =>
      isQuote quote && body.getLast? = some quote && literalBody quote body.dropLast &&
        checkReads ps
  | .line body :: ps => '\n' ∉ body && ps.head?.all (· = .char '\n') && checkReads ps
  | .block body :: ps => (plainFrom ['*', '/'] body).isNone && checkReads ps

theorem reads_of_check {ps : List Piece} (h : checkReads ps) : Reads ps := by
  induction ps using checkReads.induct with
  | case1 =>
      exact .nil
  | case2 c ps ih =>
      rw [checkReads, Bool.and_eq_true, Bool.and_eq_true] at h
      rcases h with ⟨⟨hquote, hslash⟩, hrest⟩
      refine .char (by simpa using hquote) ?_ (ih hrest)
      intro hc d hd
      rw [hc, hd] at hslash
      simpa using hslash
  | case3 ps =>
      cases h
  | case4 quote body ps ih =>
      rw [checkReads, Bool.and_eq_true, Bool.and_eq_true, Bool.and_eq_true] at h
      rcases h with ⟨⟨⟨hquote, hlast⟩, hbody⟩, hrest⟩
      have hsplit : body.dropLast ++ [quote] = body :=
        List.dropLast_append_getLast? quote (of_decide_eq_true hlast)
      have hreads := Reads.literal hquote hbody (ih hrest)
      rwa [List.cons_append, hsplit] at hreads
  | case5 body ps ih =>
      rw [checkReads, Bool.and_eq_true, Bool.and_eq_true] at h
      rcases h with ⟨⟨hbody, hnext⟩, hrest⟩
      refine .line (of_decide_eq_true hbody) ?_ (ih hrest)
      intro p hp
      rw [hp] at hnext
      exact of_decide_eq_true hnext
  | case6 body ps ih =>
      rw [checkReads, Bool.and_eq_true] at h
      refine .block ?_ (ih h.2)
      intro hinside
      rcases exists_standsAt hinside with ⟨k, hk⟩
      exact plainFrom_none (Option.isNone_iff_eq_none.1 h.1) hk

/-- A text in which literals and block comments are closed. -/
structure CText where
  pieces : List Piece
  reads : Reads pieces

def CText.text (c : CText) : List Char := render c.pieces

/-- The lines of a text that are not empty. -/
def fullLines (txt : List Char) : List (List Char) := runs (fun c => c ≠ '\n') txt

def dropEmptyLines (txt : List Char) : List Char := ['\n'].intercalate (fullLines txt)

/-- What comment removal is for: the text without the comments, and without empty lines. -/
def CText.stripped (c : CText) : List Char := dropEmptyLines (strip c.pieces)

/-! ## Where a block comment is found -/

/-- `/*` starts here, and `*/` follows somewhere. -/
def OpensBlock (txt : List Char) : Prop :=
  ∃ body rest, txt = '/' :: '*' :: (body ++ '*' :: '/' :: rest)

def blockItems : List Item :=
  [Single.char '/', .cls '*'].map .one ++
    (.openCapture :: .minus .any :: .closeCapture :: ([Single.cls '*', .char '/'].map .one ++ []))

theorem parse_blockComment : parse blockComment = blockItems := by decide +kernel

theorem spells_open : Spells [.char '/', .cls '*'] ['/', '*'] :=
  .cons (fun _ => decide_eq_decide.2 eq_comm) (.cons (fun _ => rfl) .nil)

theorem spells_close : Spells [.cls '*', .char '/'] ['*', '/'] :=
  .cons (fun _ => rfl) (.cons (fun _ => decide_eq_decide.2 eq_comm) .nil)

/-- The end of a block comment does not stand across the last character before it. -/
theorem close_not_before {body rest : List Char} (hbody : ¬ ['*', '/'] <:+: body)
    (hne : body ≠ []) :
    readSingles [.cls '*', .char '/'] (body ++ '*' :: '/' :: rest) = none := by
  cases hread : readSingles [.cls '*', .char '/'] (body ++ '*' :: '/' :: rest) with
  | none =>
      rfl
  | some left =>
      have heq := spells_close.eq_append hread
      cases body with
      | nil =>
          exact absurd rfl hne
      | cons c body =>
          cases body with
          | nil =>
              injection heq with hc heq
              injection heq with hslash
              exact absurd hslash (by decide)
          | cons d body =>
              injection heq with hc heq
              injection heq with hd heq
              refine absurd ?_ hbody
              exact ⟨[], body, by rw [hc, hd]; rfl⟩

theorem reach_block {body rest : List Char} (hbody : ¬ ['*', '/'] <:+: body) :
    reach blockItems ('/' :: '*' :: (body ++ '*' :: '/' :: rest)) = some rest := by
  have hopen : readSingles [.char '/', .cls '*'] ('/' :: '*' :: (body ++ '*' :: '/' :: rest)) =
      some (body ++ '*' :: '/' :: rest) := spells_open.append
  rw [blockItems, reach_ones, hopen]
  change reachMin Single.any.holds (reach _) _ = _
  refine reachMin_eq (fun _ _ => rfl) ?_ ?_
  · rintro first last rfl hne
    have hlast : ¬ ['*', '/'] <:+: last := fun h => hbody (h.trans (List.suffix_append _ _).isInfix)
    rw [reach, reach_ones, close_not_before hlast hne]
    rfl
  · have hclose : readSingles [.cls '*', .char '/'] ('*' :: '/' :: rest) = some rest :=
      spells_close.append
    rw [reach, reach_ones, hclose]
    rfl

theorem reach_block_none {txt : List Char} (h : ¬ OpensBlock txt) :
    reach blockItems txt = none := by
  cases hreach : reach blockItems txt with
  | none =>
      rfl
  | some left =>
      rw [blockItems, reach_ones] at hreach
      rcases Option.bind_eq_some_iff.1 hreach with ⟨inside, hopen, hinside⟩
      rcases reachMin_some hinside with ⟨body, rest, hsplit, -, hrest⟩
      rw [reach, reach_ones] at hrest
      rcases Option.bind_eq_some_iff.1 hrest with ⟨after, hclose, -⟩
      refine absurd ⟨body, after, ?_⟩ h
      rw [spells_open.eq_append hopen, hsplit, spells_close.eq_append hclose]
      rfl

/-! ## The block comments -/

/-- No block comment is found inside a literal or a line comment, and no line comment inside a
literal; `rest` is the text behind the piece. -/
def Piece.Unmarked (rest : List Char) : Piece → Prop
  | literal txt =>
      ¬ ['/', '/'] <:+: txt ∧
        ∀ first last, txt = first ++ last → last ≠ [] → ¬ OpensBlock (last ++ rest)
  | line body =>
      ∀ first last, '/' :: body = first ++ last → last ≠ [] → ¬ OpensBlock (last ++ rest)
  | _ => True

def Unmarked : List Piece → Prop
  | [] => True
  | p :: ps => p.Unmarked (render ps) ∧ Unmarked ps

theorem opensBlock_cons {c : Char} {txt : List Char} (h : OpensBlock (c :: txt)) :
    c = '/' ∧ txt.head? = some '*' := by
  rcases h with ⟨body, rest, heq⟩
  injection heq with hc htxt
  exact ⟨hc, by rw [htxt]; rfl⟩

/-- What opens a block comment is read to its first end. -/
theorem reach_block_of_opens {txt : List Char} (h : OpensBlock txt) :
    (reach blockItems txt).isSome := by
  rcases h with ⟨body, rest, rfl⟩
  cases hfrom : plainFrom ['*', '/'] (body ++ '*' :: '/' :: rest) with
  | none =>
      have hinside : ['*', '/'] <:+: body ++ '*' :: '/' :: rest := ⟨body, rest, by simp⟩
      rcases exists_standsAt hinside with ⟨k, hk⟩
      exact absurd hk (plainFrom_none hfrom)
  | some k =>
      rcases plainFrom_some hfrom with ⟨hstands, hfirst⟩
      rcases hstands.2 with ⟨after, hafter⟩
      have hsplit := List.take_append_drop k (body ++ '*' :: '/' :: rest)
      have hbefore : ¬ ['*', '/'] <:+: (body ++ '*' :: '/' :: rest).take k := by
        intro hinside
        rcases exists_standsAt hinside with ⟨j, hj⟩
        have hjk := hj.le
        rw [List.length_take] at hjk
        simp only [List.length_cons, List.length_nil] at hjk
        refine hfirst j (by omega) ⟨by omega, ?_⟩
        refine hj.2.trans ?_
        rw [List.drop_take]
        exact List.take_prefix _ _
      rw [← hsplit, ← hafter]
      change (reach blockItems ('/' :: '*' :: (_ ++ '*' :: '/' :: after))).isSome
      rw [reach_block hbefore]
      rfl

/-- `Unmarked` as a check. -/
def checkUnmarked : List Piece → Bool
  | [] => true
  | .literal txt :: ps =>
      (plainFrom ['/', '/'] txt).isNone &&
        (txt.tails.all fun last => last = [] || (reach blockItems (last ++ render ps)).isNone) &&
        checkUnmarked ps
  | .line body :: ps =>
      (('/' :: body).tails.all fun last =>
        last = [] || (reach blockItems (last ++ render ps)).isNone) && checkUnmarked ps
  | _ :: ps => checkUnmarked ps

theorem unmarked_of_check {ps : List Piece} (h : checkUnmarked ps) : Unmarked ps := by
  have htails : ∀ {txt rest : List Char}, (txt.tails.all fun last =>
      last = [] || (reach blockItems (last ++ rest)).isNone) →
      ∀ first last, txt = first ++ last → last ≠ [] → ¬ OpensBlock (last ++ rest) := by
    rintro txt rest hall first last rfl hne hopens
    have hlast := List.all_eq_true.1 hall last
      ((List.mem_tails _ _).2 (List.suffix_append first last))
    have hsome := reach_block_of_opens hopens
    rw [decide_eq_false hne, Bool.false_or, Option.isNone_iff_eq_none] at hlast
    rw [hlast] at hsome
    cases hsome
  induction ps with
  | nil =>
      trivial
  | cons p ps ih =>
      cases p with
      | char c =>
          exact ⟨trivial, ih h⟩
      | literal txt =>
          rw [checkUnmarked, Bool.and_eq_true, Bool.and_eq_true] at h
          refine ⟨⟨?_, htails h.1.2⟩, ih h.2⟩
          intro hinside
          rcases exists_standsAt hinside with ⟨k, hk⟩
          exact plainFrom_none (Option.isNone_iff_eq_none.1 h.1.1) hk
      | line body =>
          rw [checkUnmarked, Bool.and_eq_true] at h
          exact ⟨htails h.1, ih h.2⟩
      | block body =>
          exact ⟨trivial, ih h⟩

theorem matchLength_none {txt : List Char} (h : ¬ OpensBlock txt) :
    matchLength blockItems txt = none := by
  rw [matchLength, reach_block_none h, Option.map_none]

theorem removeBlocks {ps : List Piece} (hreads : Reads ps) (hunmarked : Unmarked ps) :
    replaceBy (matchLength blockItems) [] 0 (render ps) = withLines ps := by
  induction hreads with
  | nil =>
      exact replaceBy_nil
  | @char c ps _ hslash _ ih =>
      have hmiss : ¬ OpensBlock (c :: render ps) := by
        intro hopens
        rcases opensBlock_cons hopens with ⟨hc, hstar⟩
        exact (hslash hc '*' hstar).2 rfl
      change replaceBy _ _ 0 (c :: render ps) = c :: withLines ps
      rw [replaceBy_miss (matchLength_none hmiss), ih hunmarked.2]
  | @literal quote body ps _ _ _ ih =>
      change replaceBy _ _ 0 ((quote :: body ++ [quote]) ++ render ps) = _ ++ withLines ps
      rw [replaceBy_miss_all, ih hunmarked.2]
      · rfl
      · intro first last heq hne
        exact matchLength_none (hunmarked.1.2 first last heq hne)
  | @line body ps _ _ _ ih =>
      change replaceBy _ _ 0 (('/' :: '/' :: body) ++ render ps) = _ ++ withLines ps
      rw [replaceBy_miss_all, ih hunmarked.2]
      · rfl
      · intro first last heq hne
        refine matchLength_none ?_
        cases first with
        | nil =>
            rw [List.nil_append] at heq
            rw [← heq]
            intro hopens
            have hstar := (opensBlock_cons hopens).2
            cases hstar
        | cons c first =>
            injection heq with _ heq
            exact hunmarked.1 first last heq hne
  | @block body ps hbody _ ih =>
      have htext : (Piece.block body).text ++ render ps =
          '/' :: '*' :: (body ++ '*' :: '/' :: render ps) := by
        simp [Piece.text]
      have hlength : matchLength blockItems ((Piece.block body).text ++ render ps) =
          some (Piece.block body).text.length := by
        have hreach := @reach_block _ (render ps) hbody
        rw [← htext] at hreach
        rw [matchLength, hreach, Option.map_some, List.length_append, Nat.add_sub_cancel]
      have hne : (Piece.block body).text ≠ [] := List.cons_ne_nil _ _
      change replaceBy _ _ 0 ((Piece.block body).text ++ render ps) = withLines ps
      rw [replaceBy_hit hne hlength, List.nil_append, ih hunmarked.2]

theorem gsub_blockComment (txt : List Char) :
    gsub txt blockComment [] = .ok (replaceBy (matchLength blockItems) [] 0 txt) := by
  have hanchor : anchor blockComment = (false, blockComment) := rfl
  have h := @gsub_plain [] txt _ hanchor
    (by rw [parse_blockComment]; rfl) (by rw [parse_blockComment]; rfl)
  rwa [parse_blockComment] at h

/-! ## The line comments -/

/-- A line up to the first `//`. -/
def cutLine (line : List Char) : List Char :=
  (plainFrom ['/', '/'] line).elim line fun skipped => line.take skipped

theorem removeLineComment_eq (line : List Char) :
    removeLineComment line = .ok (cutLine line) := by
  have hfind : find line "//".toList 1 false =
      .ok ((plainFrom ['/', '/'] line).map fun skipped => (skipped + 1, skipped + 2)) := by
    rw [find_plain (by decide), Nat.sub_self, Nat.zero_min, List.drop_zero]
    simp
  rw [removeLineComment, hfind, cutLine]
  cases plainFrom ['/', '/'] line with
  | none =>
      rfl
  | some skipped =>
      have hsub := sub_within line 0 skipped
      have hlast : ((skipped + 1 : Nat) : Int) - 1 = skipped := by omega
      change Except.ok (sub line 1 (((skipped + 1 : Nat) : Int) - 1)) = Except.ok (line.take skipped)
      rw [hlast]
      exact congrArg _ hsub

theorem cutLine_nil : cutLine [] = [] := rfl

theorem cutLine_comment {rest : List Char} : cutLine ('/' :: '/' :: rest) = [] := rfl

theorem cutLine_cons {c : Char} {line : List Char} (h : ¬ (c = '/' ∧ line.head? = some '/')) :
    cutLine (c :: line) = c :: cutLine line := by
  have hpart : ¬ ['/', '/'].isPrefixOf (c :: line) := by
    intro hpart
    rcases List.isPrefixOf_iff_prefix.1 hpart with ⟨rest, heq⟩
    injection heq with hc hline
    exact h ⟨hc.symm, by rw [← hline]; rfl⟩
  rw [cutLine, plainFrom, if_neg hpart, cutLine]
  cases plainFrom ['/', '/'] line <;> rfl

theorem cutLine_append {before line : List Char} (hbefore : ¬ ['/', '/'] <:+: before)
    (hlast : before.getLast? ≠ some '/') : cutLine (before ++ line) = before ++ cutLine line := by
  induction before with
  | nil =>
      rfl
  | cons c before ih =>
      have hrest : ¬ ['/', '/'] <:+: before := fun h =>
        hbefore (h.trans (List.suffix_cons c before).isInfix)
      have hmiss : ¬ (c = '/' ∧ (before ++ line).head? = some '/') := by
        rintro ⟨rfl, hhead⟩
        cases before with
        | nil =>
            exact hlast rfl
        | cons d before =>
            rw [List.cons_append, List.head?_cons, Option.some.injEq] at hhead
            exact hbefore ⟨[], before, by rw [hhead]; rfl⟩
      have hlastRest : before.getLast? ≠ some '/' := by
        cases before with
        | nil =>
            exact (Option.some_ne_none _).symm
        | cons d before =>
            rwa [List.getLast?_cons_cons] at hlast
      rw [List.cons_append, cutLine_cons hmiss, ih hrest hlastRest, List.cons_append]

/-- The lines of a text, empty ones included. -/
def lines (txt : List Char) : List (List Char) := txt.splitOnP fun c => !decide (c ≠ '\n')

theorem lines_newline {txt : List Char} : lines ('\n' :: txt) = [] :: lines txt := by
  rw [lines, List.splitOnP_cons_eq_if_modifyHead]
  rfl

theorem lines_cons {c : Char} {txt : List Char} (hc : c ≠ '\n') :
    lines (c :: txt) = (lines txt).modifyHead (c :: ·) := by
  rw [lines, List.splitOnP_cons_eq_if_modifyHead, decide_eq_true hc]
  rfl

theorem lines_append {before txt : List Char} (h : '\n' ∉ before) :
    lines (before ++ txt) = (lines txt).modifyHead (before ++ ·) := by
  induction before with
  | nil =>
      cases hlines : lines txt <;> simp [hlines]
  | cons c before ih =>
      have hc : c ≠ '\n' := fun heq => h (heq ▸ List.mem_cons_self)
      rw [List.cons_append, lines_cons hc, ih fun hmem => h (List.mem_cons_of_mem _ hmem),
        List.modifyHead_modifyHead]
      rfl

theorem exists_lines (txt : List Char) : ∃ first more, lines txt = first :: more :=
  List.exists_cons_of_ne_nil (List.splitOnP_ne_nil _ _)

theorem first_line_begins {txt first : List Char} {more : List (List Char)}
    (h : lines txt = first :: more) : first <+: txt := by
  induction txt generalizing first more with
  | nil =>
      cases h
      exact List.nil_prefix
  | cons c txt ih =>
      by_cases hc : c = '\n'
      · rw [hc, lines_newline] at h
        cases h
        exact List.nil_prefix
      · rcases exists_lines txt with ⟨first', more', hlines⟩
        rw [lines_cons hc, hlines, List.modifyHead_cons] at h
        cases h
        exact List.cons_prefix_cons.2 ⟨rfl, ih hlines⟩

/-- What follows a slash of the code follows it without block comments, too. -/
theorem head_withLines {ps : List Piece} (hreads : Reads ps)
    (h : ∀ d ∈ (render ps).head?, d ≠ '/' ∧ d ≠ '*') : (withLines ps).head? ≠ some '/' := by
  cases hreads with
  | nil =>
      exact (Option.some_ne_none _).symm
  | char =>
      intro hhead
      exact (h _ rfl).1 (Option.some.inj hhead)
  | literal =>
      intro hhead
      exact (h _ rfl).1 (Option.some.inj hhead)
  | line =>
      exact absurd rfl (h '/' rfl).1
  | block =>
      exact absurd rfl (h '/' rfl).1

theorem literalBody_newline {quote : Char} {body : List Char} (h : literalBody quote body) :
    '\n' ∉ body := by
  induction body using literalBody.induct with
  | case1 =>
      simp
  | case2 c =>
      rw [literalBody, Bool.and_eq_true, Bool.and_eq_true] at h
      have hc : c ≠ '\n' := of_decide_eq_true h.2
      simp [hc.symm]
  | case3 d rest ih =>
      rw [literalBody, if_pos rfl, Bool.and_eq_true] at h
      have hd : d ≠ '\n' := of_decide_eq_true h.1
      simp [hd.symm, ih h.2]
  | case4 c d rest hc ih =>
      rw [literalBody, if_neg hc, Bool.and_eq_true, Bool.and_eq_true] at h
      have hne : c ≠ '\n' := of_decide_eq_true h.1.2
      have hrest := ih h.2
      intro hmem
      rcases List.mem_cons.1 hmem with heq | hmem
      · exact hne heq.symm
      · exact hrest hmem

/-- Cutting the lines of the text without block comments leaves the lines without any. -/
theorem lines_strip {ps : List Piece} (hreads : Reads ps) (hunmarked : Unmarked ps) :
    (lines (withLines ps)).map cutLine = lines (strip ps) := by
  induction hreads with
  | nil =>
      rfl
  | @char c ps _ hslash hreads ih =>
      have hrest := ih hunmarked.2
      change (lines (c :: withLines ps)).map cutLine = lines (c :: strip ps)
      by_cases hc : c = '\n'
      · rw [hc, lines_newline, lines_newline, List.map_cons, cutLine_nil, hrest]
      · rcases exists_lines (withLines ps) with ⟨first, more, hlines⟩
        have hmiss : ¬ (c = '/' ∧ first.head? = some '/') := by
          rintro ⟨rfl, hfirst⟩
          refine head_withLines hreads (hslash rfl) ?_
          rcases first_line_begins hlines with ⟨rest, heq⟩
          rw [← heq]
          exact List.head?_append_of_ne_nil first (fun hnil => by simp [hnil] at hfirst) |>.trans hfirst
        rw [lines_cons hc, lines_cons hc, ← hrest, hlines, List.modifyHead_cons, List.map_cons,
          cutLine_cons hmiss, List.map_cons, List.modifyHead_cons]
  | @literal quote body ps hquote hbody hreads ih =>
      have hrest := ih hunmarked.2
      have hquoteNe : quote ≠ '/' ∧ quote ≠ '\n' := by
        constructor <;> rintro rfl <;> exact absurd hquote (by decide)
      have hnewline : '\n' ∉ quote :: body ++ [quote] := by
        simp [hquoteNe.2.symm, literalBody_newline hbody]
      have hlast : (quote :: body ++ [quote]).getLast? ≠ some '/' := by
        rw [List.getLast?_concat]
        exact fun h => hquoteNe.1 (Option.some.inj h)
      rcases exists_lines (withLines ps) with ⟨first, more, hlines⟩
      change (lines ((quote :: body ++ [quote]) ++ withLines ps)).map cutLine =
        lines ((quote :: body ++ [quote]) ++ strip ps)
      rw [lines_append hnewline, lines_append hnewline, ← hrest, hlines, List.modifyHead_cons,
        List.map_cons, cutLine_append hunmarked.1.1 hlast, List.map_cons, List.modifyHead_cons]
  | @line body ps hbody hnext hreads ih =>
      have hrest := ih hunmarked.2
      have hnewline : '\n' ∉ '/' :: '/' :: body := by
        simp [hbody]
      -- the line ends behind the comment
      have hfirst : ∃ more, lines (withLines ps) = [] :: more := by
        cases ps with
        | nil =>
            exact ⟨[], rfl⟩
        | cons p ps =>
            rw [hnext p rfl]
            exact ⟨_, lines_newline⟩
      rcases hfirst with ⟨more, hlines⟩
      change (lines (('/' :: '/' :: body) ++ withLines ps)).map cutLine = lines (strip ps)
      rw [lines_append hnewline, ← hrest, hlines, List.modifyHead_cons, List.map_cons,
        List.map_cons]
      rfl
  | @block body ps hbody _ ih =>
      exact ih hunmarked.2

/-! ## When the two passes agree with the lexer -/

/-- No line begins with a line comment when the block comments are gone, unless it is the only
one. -/
def NoCommentLine (ps : List Piece) : Prop :=
  (∀ line ∈ fullLines (withLines ps), ¬ ['/', '/'] <+: line) ∨
    (fullLines (withLines ps)).length = 1

theorem cutLine_eq_nil {line : List Char} (hne : line ≠ []) :
    cutLine line = [] ↔ ['/', '/'] <+: line := by
  constructor
  · intro h
    unfold cutLine at h
    cases hfrom : plainFrom ['/', '/'] line with
    | none =>
        rw [hfrom] at h
        exact absurd h hne
    | some skipped =>
        rw [hfrom, Option.elim_some, List.take_eq_nil_iff] at h
        have hzero : skipped = 0 := h.resolve_right hne
        have hstands := (plainFrom_some hfrom).1
        rwa [hzero, standsAt_zero] at hstands
  · rintro ⟨rest, rfl⟩
    exact cutLine_comment

theorem cutLine_subset {line : List Char} : cutLine line ⊆ line := by
  unfold cutLine
  cases plainFrom ['/', '/'] line with
  | none =>
      exact List.Subset.refl _
  | some skipped =>
      exact List.take_subset _ _

theorem newline_not_mem_fullLines {txt line : List Char} (h : line ∈ fullLines txt) :
    '\n' ∉ line := by
  intro hmem
  have hholds := holds_of_mem_runs h _ hmem
  exact absurd (of_decide_eq_true hholds) (by simp)

/-- Lines are counted by the line breaks between them. -/
theorem count_intercalate {ls : List (List Char)} (h : ∀ line ∈ ls, '\n' ∉ line) :
    (['\n'].intercalate ls).count '\n' = ls.length - 1 := by
  induction ls with
  | nil =>
      rfl
  | cons line ls ih =>
      have hline : line.count '\n' = 0 := List.count_eq_zero.2 (h line List.mem_cons_self)
      cases ls with
      | nil =>
          simpa using hline
      | cons next ls =>
          have hrest := ih fun line hmem => h line (List.mem_cons_of_mem _ hmem)
          rw [List.intercalate_cons_cons, List.count_append, List.count_append, hline, hrest]
          simp only [List.length_cons, List.count_singleton_self]
          omega

/-- An empty line among others is seen in the text. -/
theorem intercalate_filter_iff {ls : List (List Char)} (h : ∀ line ∈ ls, '\n' ∉ line) :
    ['\n'].intercalate ls = ['\n'].intercalate (ls.filter (· ≠ [])) ↔
      (∀ line ∈ ls, line ≠ []) ∨ ls.length = 1 := by
  constructor
  · intro heq
    by_cases hall : ∀ line ∈ ls, line ≠ []
    · exact Or.inl hall
    · have hshort : (ls.filter (· ≠ [])).length < ls.length := by
        refine Nat.lt_of_le_of_ne (List.length_filter_le _ _) fun hlength => hall ?_
        simpa using List.length_filter_eq_length_iff.1 hlength
      have hcount := congrArg (List.count '\n') heq
      rw [count_intercalate h,
        count_intercalate fun line hmem => h line (List.mem_filter.1 hmem).1] at hcount
      exact Or.inr (by omega)
  · rintro (hall | hone)
    · rw [List.filter_eq_self.2 (by simpa using hall)]
    · rcases List.length_eq_one_iff.1 hone with ⟨line, rfl⟩
      cases line <;> rfl

theorem removeAllLineComments_eq (txt : List Char) :
    removeAllLineComments txt =
      .ok (['\n'].intercalate
        ((fullLines (replaceBy (matchLength blockItems) [] 0 txt)).map cutLine)) := by
  have hparse : parse "[^\n]+".toList = [.plus (.set true [.char '\n'])] := by decide +kernel
  have hholds : (Single.set true [.char '\n']).holds = fun c => decide (c ≠ '\n') := by
    funext c
    by_cases hc : c = '\n'
    · rw [hc]
      rfl
    · simp [Single.holds, Member.holds, hc, eq_comm]
  have hlines : ∀ ls : List (List Char),
      ls.mapM removeLineComment = (.ok (ls.map cutLine) : Except Error _) := by
    intro ls
    induction ls with
    | nil =>
        rfl
    | cons line ls ih =>
        rw [List.mapM_cons, removeLineComment_eq, ih]
        rfl
  rw [removeAllLineComments, gsub_blockComment]
  simp only [bind, Except.bind, gmatch_plus hparse, hholds, hlines]
  rfl

def chars (txt : String) : List Piece := txt.toList.map .char

/-- A field, a line comment behind it, and the next field. -/
def commentedFields : CText where
  pieces := chars "int a; " ++ .line " b".toList :: chars "\nint c;"
  reads := reads_of_check (by decide +kernel)

/-- A line comment that holds the start of a block comment. -/
def markedComment : CText where
  pieces := chars "int a; " ++ .line " in /* and out".toList :: chars "\nint b; " ++
    .block " unused ".toList :: chars "\nint c;"
  reads := reads_of_check (by decide +kernel)

end FfiDef
end LuajitTcpServer
