import LuajitTcpServer.FfiDef.Comments
import LuajitTcpServer.FfiDef.Tokens
import LuajitTcpServer.Lib.Loops

/-!
# LineStarts — comments at the start of a line removed first

`removeLineStartComments` of `ffi_def_create.lua` removes the block comments at the start of a line,
with the line break in front of them, and then the line comments at the start of a line, in loops.
-/

namespace LuajitTcpServer
namespace FfiDef

open Lua Loops

/-! ## removeLineStartComments -/

def lineStartBlock : List Char := "\n(%s-)/%*(.-)%*/".toList

def textStartBlock : List Char := "^(%s-)/%*(.-)%*/".toList

def lineStartLine : List Char := "\n(%s-)//(.-)\n".toList

def textStartLine : List Char := "^(%s-)//(.-)\n".toList

/-- A round of a loop that replaces line comments until none is found. -/
def replaceRound (pattern txt : List Char) : Except Error (Round (List Char)) := do
  let txt ← gsub txt pattern ['\n']
  if (← find txt pattern 1 false).isSome then pure (.again txt) else pure (.done txt)

/-- The blanks in front of what the items match. -/
def afterBlanks (items : List Item) : List Item :=
  .openCapture :: .minus (.cls 's') :: .closeCapture :: items

def lineItems : List Item :=
  [Single.char '/', .char '/'].map .one ++
    (.openCapture :: .minus .any :: .closeCapture :: ([Single.char '\n'].map .one ++ []))

theorem parse_lineStartBlock :
    parse lineStartBlock = .one (.char '\n') :: afterBlanks blockItems := by
  decide +kernel

theorem parse_textStartBlock : parse "(%s-)/%*(.-)%*/".toList = afterBlanks blockItems := by
  decide +kernel

theorem parse_lineStartLine :
    parse lineStartLine = .one (.char '\n') :: afterBlanks lineItems := by
  decide +kernel

theorem parse_textStartLine : parse "(%s-)//(.-)\n".toList = afterBlanks lineItems := by
  decide +kernel

theorem spells_line : Spells [.char '/', .char '/'] ['/', '/'] :=
  .cons (fun _ => decide_eq_decide.2 eq_comm) (.cons (fun _ => decide_eq_decide.2 eq_comm) .nil)

theorem spells_newline : Spells [.char '\n'] ['\n'] := .cons (fun _ => decide_eq_decide.2 eq_comm) .nil

/-- What a match of a line comment takes: the comment and the line break behind it. -/
theorem reach_lineItems_some {txt left : List Char} (h : reach lineItems txt = some left) :
    ∃ body, txt = '/' :: '/' :: (body ++ '\n' :: left) := by
  rw [lineItems, reach_ones] at h
  rcases Option.bind_eq_some_iff.1 h with ⟨inside, hopen, hinside⟩
  have htxt := spells_line.eq_append hopen
  change reachMin Single.any.holds (reach _) inside = some left at hinside
  rcases reachMin_some hinside with ⟨body, rest, rfl, -, hclose⟩
  change reach ([Single.char '\n'].map .one ++ []) rest = some left at hclose
  rw [reach_ones] at hclose
  rcases Option.bind_eq_some_iff.1 hclose with ⟨left', hread, hleft⟩
  cases hleft
  exact ⟨body, by rw [htxt, spells_newline.eq_append hread]; rfl⟩

theorem reach_lineItems {body rest : List Char} (hbody : '\n' ∉ body) :
    reach lineItems ('/' :: '/' :: (body ++ '\n' :: rest)) = some rest := by
  have hopen : readSingles [.char '/', .char '/'] ('/' :: '/' :: (body ++ '\n' :: rest)) =
      some (body ++ '\n' :: rest) := spells_line.append
  rw [lineItems, reach_ones, hopen]
  change reachMin Single.any.holds (reach _) _ = _
  refine reachMin_eq (fun _ _ => rfl) ?_ ?_
  · rintro first last rfl hne
    cases last with
    | nil =>
        exact absurd rfl hne
    | cons c last =>
        have hc : ¬ '\n' = c := by
          rintro rfl
          exact hbody (List.mem_append_right _ List.mem_cons_self)
        change (if decide ('\n' = c) then _ else _) = _
        rw [decide_eq_false hc, if_neg Bool.false_ne_true]
  · rfl

theorem reach_afterBlanks {items : List Item} {txt : List Char}
    (h : ∀ c rest, isBlank c → reach items (c :: rest) = none) :
    reach (afterBlanks items) txt = reach items (txt.dropWhile isBlank) :=
  reachMin_skip h

theorem reach_blockItems_other (c : Char) (rest : List Char) (hc : c ≠ '/') :
    reach blockItems (c :: rest) = none :=
  reach_block_none fun hopens => hc (opensBlock_cons hopens).1

theorem reach_lineItems_other (c : Char) (rest : List Char) (hc : c ≠ '/') :
    reach lineItems (c :: rest) = none := by
  cases hreach : reach lineItems (c :: rest) with
  | none =>
      rfl
  | some left =>
      rcases reach_lineItems_some hreach with ⟨body, heq⟩
      exact absurd (List.cons.inj heq).1 hc

theorem blank_ne_slash {c : Char} (hc : isBlank c) : c ≠ '/' := by
  rintro rfl
  exact absurd hc (by decide)

theorem reach_lineItems_blank {c : Char} (hc : isBlank c) (rest : List Char) :
    reach lineItems (c :: rest) = none :=
  reach_lineItems_other c rest (blank_ne_slash hc)

theorem reach_blockItems_blank {c : Char} (hc : isBlank c) (rest : List Char) :
    reach blockItems (c :: rest) = none :=
  reach_blockItems_other c rest (blank_ne_slash hc)

/-- A match behind blanks takes more than the line break that replaces it. -/
theorem reach_afterBlanks_length {txt left : List Char}
    (h : reach (afterBlanks lineItems) txt = some left) : left.length + 3 ≤ txt.length := by
  rw [reach_afterBlanks fun c rest hc => reach_lineItems_blank hc rest] at h
  rcases reach_lineItems_some h with ⟨body, heq⟩
  have hle := (List.dropWhile_suffix (l := txt) isBlank).length_le
  rw [heq] at hle
  simp only [List.length_cons, List.length_append] at hle
  omega

def lineStartItems : List Item := .one (.char '\n') :: afterBlanks lineItems

theorem reach_lineStartItems (c : Char) (txt : List Char) :
    reach lineStartItems (c :: txt) =
      if '\n' = c then reach lineItems (txt.dropWhile isBlank) else none := by
  rw [lineStartItems, reach, reach_afterBlanks fun c rest hc => reach_lineItems_blank hc rest]
  simp only [Single.holds, decide_eq_true_eq]

theorem matchLength_lineStart {rest : List Char} {n : Nat}
    (h : matchLength lineStartItems rest = some n) : 1 < n ∧ n ≤ rest.length := by
  rcases Option.map_eq_some_iff.1 h with ⟨left, hreach, rfl⟩
  cases rest with
  | nil =>
      cases hreach
  | cons c rest =>
      rw [lineStartItems, reach] at hreach
      split at hreach
      · have hlength := reach_afterBlanks_length hreach
        rw [List.length_cons]
        omega
      · cases hreach

theorem gsub_lineStartLine (txt : List Char) :
    gsub txt lineStartLine ['\n'] =
      .ok (replaceBy (matchLength lineStartItems) ['\n'] 0 txt) := by
  have h := @gsub_plain ['\n'] txt lineStartLine rfl (by rw [parse_lineStartLine]; rfl)
    (by rw [parse_lineStartLine]; rfl)
  rwa [parse_lineStartLine] at h

theorem find_lineStartLine (txt : List Char) :
    ∃ found, find txt lineStartLine 1 false = .ok found ∧
      (found.isSome ↔ ∃ before rest, txt = before ++ rest ∧ (reach lineStartItems rest).isSome) := by
  have h := @find_reach txt lineStartLine (by decide) rfl (by rw [parse_lineStartLine]; rfl)
  rw [parse_lineStartLine] at h
  refine ⟨_, h, ?_⟩
  rw [Option.isSome_map]
  constructor
  · intro hsome
    rcases Option.isSome_iff_exists.1 hsome with ⟨⟨skipped, left⟩, hfirst⟩
    refine ⟨txt.take skipped, txt.drop skipped, (List.take_append_drop _ _).symm, ?_⟩
    rw [lineStartItems, (firstReach_some hfirst).2]
    rfl
  · rintro ⟨before, rest, heq, hsome⟩
    by_contra hnone
    rw [Bool.not_eq_true, Option.isSome_eq_false_iff, Option.isNone_iff_eq_none] at hnone
    rw [lineStartItems, firstReach_none hnone heq] at hsome
    cases hsome

def lineLoop : Loop Error (List Char) where
  round := replaceRound lineStartLine
  size := List.length
  decreases := by
    intro txt txt' hround
    rcases find_lineStartLine (replaceBy (matchLength lineStartItems) ['\n'] 0 txt) with
      ⟨found, hfind, hfound⟩
    simp only [replaceRound, gsub_lineStartLine, hfind, bind, Except.bind] at hround
    split at hround
    · rename_i hsome
      cases hround
      have hshorter := @replaceBy_shorter _ (matchLength lineStartItems) ['\n']
        (fun _ _ h => (matchLength_lineStart h).1) (fun _ _ h => (matchLength_lineStart h).2) txt
      refine hshorter.resolve_right fun hnone => ?_
      have hsame := @replaceBy_miss_all _ (matchLength lineStartItems) ['\n'] txt [] (by
        rintro left right rfl hne
        rw [List.append_nil]
        exact hnone left right rfl hne)
      rw [List.append_nil, replaceBy_nil, List.append_nil] at hsame
      rcases hfound.1 hsome with ⟨before, rest, heq, hreach⟩
      rw [hsame] at heq
      have hne : rest ≠ [] := by
        rintro rfl
        cases hreach
      have hmiss := hnone before rest heq hne
      rw [matchLength, Option.map_eq_none_iff] at hmiss
      rw [hmiss] at hreach
      cases hreach
    · cases hround

theorem gsub_textStartLine (txt : List Char) :
    gsub txt textStartLine ['\n'] =
      .ok ((reach (afterBlanks lineItems) txt).elim txt fun rest => '\n' :: rest) := by
  have h := @gsub_anchored ['\n'] txt "(%s-)//(.-)\n".toList textStartLine rfl
    (by rw [parse_textStartLine]; rfl)
  rwa [parse_textStartLine] at h

theorem find_textStartLine (txt : List Char) :
    ∃ found, find txt textStartLine 1 false = .ok found ∧
      (found.isSome ↔ (reach (afterBlanks lineItems) txt).isSome) := by
  have h := @find_anchored txt "(%s-)//(.-)\n".toList textStartLine (by decide) rfl
    (by rw [parse_textStartLine]; rfl)
  rw [parse_textStartLine] at h
  exact ⟨_, h, by rw [Option.isSome_map]⟩

def textLoop : Loop Error (List Char) where
  round := replaceRound textStartLine
  size := List.length
  decreases := by
    intro txt txt' hround
    rcases find_textStartLine ((reach (afterBlanks lineItems) txt).elim txt fun rest => '\n' :: rest)
      with ⟨found, hfind, hfound⟩
    simp only [replaceRound, gsub_textStartLine, hfind, bind, Except.bind] at hround
    split at hround
    · rename_i hsome
      cases hround
      cases hreach : reach (afterBlanks lineItems) txt with
      | none =>
          rw [hreach, Option.elim_none] at hfound
          rw [hfound, hreach] at hsome
          cases hsome
      | some left =>
          have hlength := reach_afterBlanks_length hreach
          show ('\n' :: left).length < txt.length
          rw [List.length_cons]
          omega
    · cases hround

def removeLineStartComments (txt : List Char) : Except Error (List Char) := do
  let txt ← gsub txt lineStartBlock []
  let txt ← gsub txt textStartBlock []
  let txt ← lineLoop.run txt
  textLoop.run txt

example : removeLineStartComments "// a\n// b\nint c; // d\n /* e\n */\n// f\nint g;\n".toList =
    .ok "\nint c; // d\nint g;\n".toList := by
  decide +kernel

end FfiDef
end LuajitTcpServer
