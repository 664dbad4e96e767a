import LuajitTcpServer.FfiDef.Comments
import LuajitTcpServer.Lib.Loops
import Mathlib.Data.Finset.Basic
import Mathlib.Data.Finset.Union

/-!
# Params — the types of parameters and fields

`paramsAdd` of `ffi_def_create.lua` cuts a text of parameters or fields at a separator, finds the
type of each with replacements and a loop over its words, and requests the types that are not
basic.
-/

namespace LuajitTcpServer
namespace FfiDef

open Lua Loops

/-! ## validType -/

/-- What stands before the first space. -/
def beforeSpace (dfn : List Char) : Except Error (List Char) := do
  match ← find dfn " ".toList 1 false with
  | some (s, _) => pure (sub dfn 1 (s - 1))
  | none => pure dfn

def validType (dfn : List Char) : Except Error (List Char) := do
  let dfn ← removeAllLineComments dfn
  let dfn ← beforeSpace dfn
  let firstChar := sub dfn 1 1
  if firstChar = ['('] ∨ firstChar = ['['] ∨ firstChar = ['{'] ∨ firstChar = ['*'] then
    pure []
  else
    let dfn ← trimmed dfn
    gsub dfn "%)".toList []

/-! ## The words of a parameter -/

def nameSeparator : List Char := "[^_%w]".toList

def notWordChar : Single := .set true [.char '_', .cls 'w']

theorem notWordChar_holds : notWordChar.holds = fun c => !isWordChar c := by
  funext c
  have hword : (Single.set true [.char '_', .cls 'w']).holds c =
      (true != (decide ('_' = c) || (c.isAlphanum || false))) := rfl
  rw [notWordChar, hword, isWordChar, Bool.or_false, Bool.or_comm, Bool.true_bne,
    decide_eq_decide.2 (eq_comm (a := '_') (b := c))]

theorem find_nameSeparator (txt : List Char) :
    find txt nameSeparator 1 false =
      .ok ((txt.findIdx? fun c => !isWordChar c).map fun k => (k + 1, k + 1)) := by
  have hparse : parse nameSeparator = [.one notWordChar] := by decide +kernel
  rw [find_one (by decide) rfl hparse, notWordChar_holds]

structure Peel where
  basetype : List Char
  dfn : List Char
  deriving DecidableEq, Repr

/-- A round of the loop over the words: the first word becomes `basetype`. -/
def peelRound (s : Peel) : Except Error (Round Peel) := do
  let dfn ← trimmed s.dfn
  match ← find dfn nameSeparator 1 false with
  | none => pure (.done ⟨s.basetype, dfn⟩)
  | some (posStart, _) =>
      let peeled : Peel := ⟨sub dfn 1 (posStart - 1), sub dfn posStart (-1)⟩
      if posStart = 1 ∨ peeled.dfn = [] then pure (.done peeled) else pure (.again peeled)

theorem peelRound_none {s : Peel} (h : ∀ c ∈ trim s.dfn, isWordChar c) :
    peelRound s = .ok (.done ⟨s.basetype, trim s.dfn⟩) := by
  have hnone : (trim s.dfn).findIdx? (fun c => !isWordChar c) = none := by
    rw [List.findIdx?_eq_none_iff]
    intro c hc
    rw [h c hc]
    rfl
  simp only [peelRound, trimmed_eq, find_nameSeparator, hnone, bind, Except.bind, Option.map_none]
  rfl

theorem peelRound_some {s : Peel} {word rest : List Char} {c : Char}
    (h : trim s.dfn = word ++ c :: rest) (hword : ∀ d ∈ word, isWordChar d)
    (hc : isWordChar c = false) :
    peelRound s = .ok (if word = [] then .done ⟨word, c :: rest⟩ else .again ⟨word, c :: rest⟩) := by
  have hsome : (word ++ c :: rest).findIdx? (fun c => !isWordChar c) = some word.length := by
    rw [List.findIdx?_append, List.findIdx?_eq_none_iff.2, List.findIdx?_cons, hc]
    · simp
    · intro d hd
      rw [hword d hd]
      rfl
  have hbase : sub (word ++ c :: rest) 1 (((word.length + 1 : Nat) : Int) - 1) = word := by
    have hwithin := sub_within (word ++ c :: rest) 0 word.length
    rw [List.take_left, List.drop_zero] at hwithin
    simpa using hwithin
  have hrest : sub (word ++ c :: rest) ((word.length + 1 : Nat) : Int) (-1) = c :: rest := by
    have hfrom := sub_from (word ++ c :: rest) word.length
    rw [List.drop_left] at hfrom
    exact_mod_cast hfrom
  simp only [peelRound, trimmed_eq, find_nameSeparator, h, hsome, bind, Except.bind,
    Option.map_some, hbase, hrest, pure, Except.pure, List.cons_ne_nil, or_false,
    Nat.add_eq_right, List.length_eq_zero_iff]
  split <;> rfl

theorem length_trim_le (txt : List Char) : (trim txt).length ≤ txt.length :=
  (List.rdropWhile_prefix _ _).length_le.trans (List.dropWhile_suffix _).length_le

def peelLoop : Loop Error Peel where
  round := peelRound
  size s := s.dfn.length
  decreases := by
    intro s s' hround
    have hlength := length_trim_le s.dfn
    by_cases hall : ∀ c ∈ trim s.dfn, isWordChar c
    · rw [peelRound_none hall] at hround
      cases hround
    · have hcut := List.takeWhile_append_dropWhile (p := isWordChar) (l := trim s.dfn)
      cases hrest : (trim s.dfn).dropWhile isWordChar with
      | nil =>
          refine absurd ?_ hall
          rw [hrest, List.append_nil] at hcut
          intro c hc
          rw [← hcut] at hc
          exact List.mem_takeWhile_imp hc
      | cons c rest =>
          have hc : isWordChar c = false := by
            have hhead := List.head?_dropWhile_not isWordChar (trim s.dfn)
            rw [hrest] at hhead
            exact hhead
          rw [hrest] at hcut
          rw [peelRound_some hcut.symm (fun d hd => List.mem_takeWhile_imp hd) hc] at hround
          have hsum := congrArg List.length hcut
          rw [List.length_append] at hsum
          split at hround
          · cases hround
          · rename_i hne
            cases hround
            have hpos := List.length_pos_iff.2 hne
            show (c :: rest).length < s.dfn.length
            omega

/-- What the loop ends with, by the words that are left. -/
def ends (basetype : List Char) : List (List Char) → Peel
  | [] => ⟨basetype, []⟩
  | [word] => ⟨basetype, word⟩
  | word :: next :: words => ends word (next :: words)

theorem trim_subset (txt : List Char) : trim txt ⊆ txt := fun _ hc =>
  (List.dropWhile_suffix _).subset ((List.rdropWhile_prefix _ _).subset hc)

theorem head?_trim {txt : List Char} : ∀ c ∈ (trim txt).head?, isBlank c = false := by
  intro c hc
  have hhead := List.head?_dropWhile_not isBlank txt
  rcases List.rdropWhile_prefix isBlank (txt.dropWhile isBlank) with ⟨after, heq⟩
  change trim txt ++ after = _ at heq
  cases htrim : trim txt with
  | nil =>
      rw [htrim] at hc
      cases hc
  | cons d rest =>
      rw [htrim] at hc heq
      cases hc
      rw [← heq] at hhead
      exact hhead

theorem getLast?_trim {txt : List Char} : ∀ c ∈ (trim txt).getLast?, isBlank c = false := by
  intro c hc
  rcases List.mem_getLast?_eq_getLast hc with ⟨hne, rfl⟩
  exact Bool.not_eq_true _ ▸ List.rdropWhile_last_not isBlank _ hne

/-- The loop over words and blanks ends at the last word. -/
theorem peelLoop_words {txt : List Char} (basetype : List Char)
    (h : ∀ c ∈ txt, isWordChar c ∨ isBlank c) :
    peelLoop.run ⟨basetype, txt⟩ = .ok (ends basetype (runs isWordChar txt)) := by
  induction hlength : txt.length using Nat.strongRecOn generalizing txt basetype with
  | ind n ih =>
      have htrim : runs isWordChar (trim txt) = runs isWordChar txt :=
        runs_trimmed fun c hc => blank_not_word hc
      rw [← htrim]
      have hcut := List.takeWhile_append_dropWhile (p := isWordChar) (l := trim txt)
      have hword : ∀ c ∈ (trim txt).takeWhile isWordChar, isWordChar c := fun c hc =>
        List.mem_takeWhile_imp hc
      cases hrest : (trim txt).dropWhile isWordChar with
      | nil =>
          rw [hrest, List.append_nil] at hcut
          rw [hcut] at hword
          rw [peelLoop.run_done (peelRound_none hword)]
          by_cases hne : trim txt = []
          · rw [hne]
            rfl
          · rw [runs_word hne hword]
            rfl
      | cons c rest =>
          have hc : isWordChar c = false := by
            have hhead := List.head?_dropWhile_not isWordChar (trim txt)
            rw [hrest] at hhead
            exact hhead
          rw [hrest] at hcut
          have hsub : ∀ d ∈ c :: rest, isWordChar d ∨ isBlank d := by
            intro d hd
            refine h d (trim_subset txt ?_)
            rw [← hcut]
            exact List.mem_append_right _ hd
          have hne : (trim txt).takeWhile isWordChar ≠ [] := by
            intro hnil
            rw [hnil, List.nil_append] at hcut
            have hfirst := @head?_trim txt c (by rw [← hcut]; rfl)
            rcases hsub c List.mem_cons_self with hc' | hc'
            · rw [hc] at hc'
              cases hc'
            · rw [hfirst] at hc'
              cases hc'
          have hround := peelRound_some (s := ⟨basetype, txt⟩) hcut.symm hword hc
          rw [if_neg hne] at hround
          have hshort : (c :: rest).length < n := by
            have hsum := congrArg List.length hcut
            have hpos := List.length_pos_iff.2 hne
            have hle := length_trim_le txt
            rw [List.length_append] at hsum
            omega
          -- the last character is no blank, so a word is left
          have hleft : runs isWordChar (c :: rest) ≠ [] := by
            have hlast := @getLast?_trim txt ((c :: rest).getLast (List.cons_ne_nil _ _))
              (by rw [← hcut, List.getLast?_append_of_ne_nil _ (List.cons_ne_nil _ _),
                List.getLast?_eq_some_getLast (List.cons_ne_nil _ _)]; rfl)
            have hmem := List.getLast_mem (List.cons_ne_nil c rest)
            rcases hsub _ hmem with hchar | hblank
            · exact runs_ne_nil hmem hchar
            · rw [hlast] at hblank
              cases hblank
          rw [peelLoop.run_again hround, ih _ hshort _ hsub rfl]
          conv_rhs =>
            rw [← hcut, runs_append_cons hc, runs_word hne hword, ← runs_cons_neg hc]
          cases hruns : runs isWordChar (c :: rest) with
          | nil =>
              exact absurd hruns hleft
          | cons next words =>
              rfl

theorem rdropWhile_append_cons {p : Char → Bool} {before after : List Char} {c : Char}
    (hc : ¬ p c) : (before ++ c :: after).rdropWhile p = before ++ c :: after.rdropWhile p := by
  induction after using List.reverseRecOn with
  | nil =>
      exact List.rdropWhile_concat_neg _ _ _ hc
  | append_singleton after d ih =>
      rw [← List.cons_append, ← List.append_assoc]
      by_cases hd : p d
      · rw [List.rdropWhile_concat_pos _ _ _ hd, List.rdropWhile_concat_pos _ _ _ hd, ih]
      · rw [List.rdropWhile_concat_neg _ _ _ hd, List.rdropWhile_concat_neg _ _ _ hd]
        simp

theorem trim_append_cons {before after : List Char} {c : Char} (hc : isBlank c = false) :
    trim (before ++ c :: after) = before.dropWhile isBlank ++ c :: after.rdropWhile isBlank := by
  have hneg : ¬ isBlank c := by simp [hc]
  rw [trim, dropWhile_append_cons hneg, rdropWhile_append_cons hneg]

/-- The loop ends at a bracket, with nothing in front of it. -/
theorem peelLoop_array {before after : List Char} (basetype : List Char)
    (h : ∀ c ∈ before, isWordChar c ∨ isBlank c) :
    ∃ inside, peelLoop.run ⟨basetype, before ++ '[' :: after⟩ = .ok ⟨[], '[' :: inside⟩ ∧
      inside ⊆ after := by
  induction hlength : before.length using Nat.strongRecOn generalizing before after basetype with
  | ind n ih =>
      have htrim := @trim_append_cons before after '[' (by decide)
      have hcut := List.takeWhile_append_dropWhile (p := isWordChar)
        (l := before.dropWhile isBlank)
      have hword : ∀ c ∈ (before.dropWhile isBlank).takeWhile isWordChar, isWordChar c :=
        fun c hc => List.mem_takeWhile_imp hc
      have hafter : after.rdropWhile isBlank ⊆ after := (List.rdropWhile_prefix _ _).subset
      by_cases hnil : (before.dropWhile isBlank).takeWhile isWordChar = []
      · have hbefore : before.dropWhile isBlank = [] := by
          cases hfirst : before.dropWhile isBlank with
          | nil =>
              rfl
          | cons c rest =>
              have hhead := List.head?_dropWhile_not isBlank before
              have hmem : c ∈ before := (List.dropWhile_suffix isBlank).subset
                (by rw [hfirst]; exact List.mem_cons_self)
              rw [hfirst] at hhead hnil
              rcases h c hmem with hchar | hblank
              · rw [List.takeWhile_cons_of_pos hchar] at hnil
                cases hnil
              · rw [show isBlank c = false from hhead] at hblank
                cases hblank
        rw [hbefore] at htrim
        have hround := peelRound_some (s := ⟨basetype, before ++ '[' :: after⟩) htrim
          (by simp) (by decide)
        exact ⟨_, peelLoop.run_done hround, hafter⟩
      · rw [← hcut, List.append_assoc] at htrim
        have hshort : ((before.dropWhile isBlank).dropWhile isWordChar).length < n := by
          have hsum := congrArg List.length hcut
          have hpos := List.length_pos_iff.2 hnil
          have hle := (List.dropWhile_suffix (l := before) isBlank).length_le
          rw [List.length_append] at hsum
          omega
        have hsub : ∀ c ∈ (before.dropWhile isBlank).dropWhile isWordChar,
            isWordChar c ∨ isBlank c := fun c hc =>
          h c ((List.dropWhile_suffix _).subset ((List.dropWhile_suffix _).subset hc))
        rcases @ih _ hshort _ (after.rdropWhile isBlank)
          ((before.dropWhile isBlank).takeWhile isWordChar) hsub rfl with ⟨inside, hrun, hinside⟩
        refine ⟨inside, ?_, fun c hc => hafter (hinside hc)⟩
        rw [← hrun]
        refine peelLoop.run_again ?_
        cases hrest : (before.dropWhile isBlank).dropWhile isWordChar with
        | nil =>
            rw [hrest] at htrim
            have hround := peelRound_some (s := ⟨basetype, before ++ '[' :: after⟩) htrim hword
              (by decide)
            rwa [if_neg hnil] at hround
        | cons c rest =>
            have hc : isWordChar c = false := by
              have hhead := List.head?_dropWhile_not isWordChar (before.dropWhile isBlank)
              rw [hrest] at hhead
              exact hhead
            rw [hrest] at htrim
            have hround := peelRound_some (s := ⟨basetype, before ++ '[' :: after⟩) htrim hword hc
            rwa [if_neg hnil] at hround

/-! ## paramsAdd -/

def struct : List Char := "struct".toList

def staticConst : List Char := "static const ".toList

def typedefEnum : List Char := "typedef enum".toList

/-- The last steps for a parameter, behind the loop over its words. -/
def cleaned (peeled : Peel) : Except Error (List Char) := do
  let dfn := if peeled.basetype ≠ [] ∧ peeled.basetype ≠ struct then peeled.basetype else peeled.dfn
  let dfn ← gsub dfn "%(void %)".toList []
  let dfn ← gsub dfn "%(void%)".toList []
  let dfn ← gsub dfn "%(%)".toList []
  let dfn ← gsub dfn "(.-)%-%>".toList []
  let dfn ← trimmed dfn
  validType dfn

/-- The replacements in front of the loop. -/
def flattened (dfn : List Char) : Except Error (List Char) := do
  let dfn ← gsub dfn "\n".toList []
  let dfn ← gsub dfn "const".toList []
  let dfn ← gsub dfn " %*".toList [' ']
  let dfn ← gsub dfn "%* ".toList [' ']
  let dfn ← gsub dfn "%*".toList []
  gsub dfn "%(%)".toList [' ']

/-- What is done for one parameter. -/
def paramAdd (basic_types type_defines : Finset (List Char)) (dfn : List Char) :
    Except Error (Finset (List Char)) := do
  if (← find dfn staticConst 1 false).isSome then
    pure type_defines
  else
    let peeled ← peelLoop.run ⟨[], ← flattened dfn⟩
    let dfn ← cleaned peeled
    if dfn ≠ [] ∧ dfn ∉ basic_types ∧ dfn ∉ type_defines ∧ peeled.basetype ∉ basic_types then
      pure (insert dfn type_defines)
    else
      pure type_defines

/-- The text up to the separator, and what follows it. -/
def cutParam (params : List Char) (sep : Char) : Except Error (List Char × List Char) := do
  match ← find params [sep] 1 true with
  | some (s, e) => pure (sub params 1 (s - 1), sub params (e + 1) (-1))
  | none => pure (params, [])

theorem cutParam_some {before after : List Char} {sep : Char} (h : sep ∉ before) :
    cutParam (before ++ sep :: after) sep = .ok (before, after) := by
  have hbefore : sub (before ++ sep :: after) 1 (((before.length + 1 : Nat) : Int) - 1) = before := by
    have hwithin := sub_within (before ++ sep :: after) 0 before.length
    rw [List.take_left, List.drop_zero] at hwithin
    simpa using hwithin
  have hafter : sub (before ++ sep :: after) (((before.length + 1 : Nat) : Int) + 1) (-1) = after := by
    rw [sub_from, List.drop_append, List.drop_eq_nil_of_le (Nat.le_succ _)]
    simp
  rw [cutParam, find_plain rfl, Nat.sub_self, Nat.zero_min, List.drop_zero, plainFrom_char h]
  simp only [bind, Except.bind, Option.map_some, Nat.zero_add, List.length_singleton, hbefore,
    hafter]
  rfl

theorem cutParam_none {params : List Char} {sep : Char} (h : sep ∉ params) :
    cutParam params sep = .ok (params, []) := by
  rw [cutParam, find_plain rfl, Nat.sub_self, Nat.zero_min, List.drop_zero, plainFrom_char_none h]
  rfl

theorem exists_cutParam (params : List Char) (sep : Char) :
    ∃ dfn rest, cutParam params sep = .ok (dfn, rest) ∧
      (params ≠ [] → rest.length < params.length) := by
  by_cases hsep : sep ∈ params
  · rcases List.eq_append_cons_of_mem hsep with ⟨before, after, rfl, hbefore⟩
    refine ⟨before, after, cutParam_some hbefore, fun _ => ?_⟩
    rw [List.length_append, List.length_cons]
    omega
  · exact ⟨params, [], cutParam_none hsep, List.length_pos_iff.2⟩

def paramsRound (basic_types : Finset (List Char)) (sep : Char) :
    List Char × Finset (List Char) → Except Error (Round (List Char × Finset (List Char)))
  | (params, type_defines) => do
      if params = [] then
        pure (.done (params, type_defines))
      else
        let (dfn, params) ← cutParam params sep
        let type_defines ← paramAdd basic_types type_defines dfn
        pure (.again (params, type_defines))

def paramsLoop (basic_types : Finset (List Char)) (sep : Char) :
    Loop Error (List Char × Finset (List Char)) where
  round := paramsRound basic_types sep
  size s := s.1.length
  decreases := by
    rintro ⟨params, type_defines⟩ ⟨params', type_defines'⟩ hround
    rcases exists_cutParam params sep with ⟨dfn, rest, hcut, hshort⟩
    rw [paramsRound] at hround
    split at hround
    · cases hround
    · rename_i hne
      cases hadd : paramAdd basic_types type_defines dfn with
      | error e =>
          simp only [hcut, hadd, bind, Except.bind] at hround
          cases hround
      | ok defines =>
          simp only [hcut, hadd, bind, Except.bind] at hround
          cases hround
          exact hshort hne

/-- The keys of `type_defines` afterwards.  Every caller's separator is one character. -/
def paramsAdd (basic_types type_defines : Finset (List Char)) (params_orig : Option (List Char))
    (sep : Char) : Except Error (Finset (List Char)) := do
  match params_orig with
  | none => pure type_defines
  | some params =>
      if (← find params typedefEnum 1 false).isSome then
        pure type_defines
      else
        let (_, type_defines) ← (paramsLoop basic_types sep).run (params, type_defines)
        pure type_defines

example : (paramsAdd {"int".toList} {} (some "int a, const struct foo *b, bar".toList) ',') =
    .ok {"bar".toList, "foo".toList} := by
  decide +kernel

/-! ## What a text is read as -/

/-- The text that the loop gets, for a parameter without parentheses. -/
def erased (txt : List Char) : List Char :=
  (replaceAll "const".toList [] (txt.filter (· ≠ '\n'))).filter (· ≠ '*')

theorem spells_cls {c : Char} (h : classOf c.toLower = none) : Spells [.cls c] [c] := by
  refine .cons (fun d => ?_) .nil
  show matchClass c d = _
  rw [matchClass, h]

theorem flattened_eq {txt : List Char} (h : '(' ∉ txt) : flattened txt = .ok (erased txt) := by
  have hline (txt : List Char) : gsub txt "\n".toList [] = .ok (txt.filter (· ≠ '\n')) := by
    have hspells : Spells [.char '\n'] ['\n'] := .cons (fun _ => decide_eq_decide.2 eq_comm) .nil
    rw [gsub_spells rfl (by decide +kernel) hspells (by decide), replaceAll_char]
  have hconst (txt : List Char) :
      gsub txt "const".toList [] = .ok (replaceAll "const".toList [] txt) := by
    have hspells : Spells ("const".toList.map .char) "const".toList := by
      refine List.forall₂_map_left_iff.2 (List.forall₂_same.2 ?_)
      intro c _ d
      exact decide_eq_decide.2 eq_comm
    exact gsub_spells rfl (by decide +kernel) hspells (by decide)
  have hbehind (txt : List Char) :
      gsub txt " %*".toList [' '] = .ok (replaceAll " *".toList [' '] txt) := by
    have hspells : Spells [.char ' ', .cls '*'] " *".toList :=
      .cons (fun _ => decide_eq_decide.2 eq_comm) (spells_cls rfl)
    exact gsub_spells rfl (by decide +kernel) hspells (by decide)
  have hfront (txt : List Char) :
      gsub txt "%* ".toList [' '] = .ok (replaceAll "* ".toList [' '] txt) := by
    have hspells : Spells [.cls '*', .char ' '] "* ".toList :=
      .cons (fun _ => rfl) (.cons (fun _ => decide_eq_decide.2 eq_comm) .nil)
    exact gsub_spells rfl (by decide +kernel) hspells (by decide)
  have hstar (txt : List Char) : gsub txt "%*".toList [] = .ok (txt.filter (· ≠ '*')) := by
    have hspells : Spells [.cls '*'] ['*'] := spells_cls rfl
    rw [gsub_spells rfl (by decide +kernel) hspells (by decide), replaceAll_char]
  have hstars : (replaceAll "* ".toList [' '] (replaceAll " *".toList [' ']
      (replaceAll "const".toList [] (txt.filter (· ≠ '\n'))))).filter (· ≠ '*') = erased txt := by
    rw [filter_replaceAll (by decide) (by decide), filter_replaceAll (by decide) (by decide)]
    rfl
  have hparens : gsub (erased txt) "%(%)".toList [' '] = .ok (erased txt) := by
    refine gsub_absent (s := .cls '(') rfl (by decide +kernel) (by decide +kernel) ?_
    intro c hc
    have hmem := replaceAll_subset (by decide) _ c (List.mem_filter.1 hc).1
    have htxt : c ∈ txt := (List.mem_filter.1 (hmem.resolve_right (by simp))).1
    refine decide_eq_false ?_
    rintro rfl
    exact h htxt
  simp only [flattened, hline, hconst, hbehind, hfront, hstar, hstars, hparens, bind, Except.bind]

theorem beforeSpace_eq (dfn : List Char) : beforeSpace dfn = .ok (dfn.takeWhile (· ≠ ' ')) := by
  have hfind : find dfn " ".toList 1 false =
      .ok ((plainFrom [' '] dfn).map fun skipped => (skipped + 1, skipped + 1)) := by
    rw [find_plain (by decide), Nat.sub_self, Nat.zero_min, List.drop_zero]
    simp
  by_cases hspace : ' ' ∈ dfn
  · rcases List.eq_append_cons_of_mem hspace with ⟨before, after, rfl, hbefore⟩
    have htake : (before ++ ' ' :: after).takeWhile (· ≠ ' ') = before := by
      rw [List.takeWhile_append_of_pos, List.takeWhile_cons_of_neg (by simp), List.append_nil]
      intro c hc
      exact decide_eq_true fun heq => hbefore (heq ▸ hc)
    have hsub : sub (before ++ ' ' :: after) 1 (((before.length + 1 : Nat) : Int) - 1) = before := by
      have hwithin := sub_within (before ++ ' ' :: after) 0 before.length
      rw [List.take_left, List.drop_zero] at hwithin
      simpa using hwithin
    rw [beforeSpace, hfind, plainFrom_char hbefore, htake]
    simp only [bind, Except.bind, Option.map_some, hsub]
    rfl
  · have hall : ∀ c ∈ dfn, decide (c ≠ ' ') := fun c hc =>
      decide_eq_true fun heq => hspace (heq ▸ hc)
    rw [beforeSpace, hfind, plainFrom_char_none hspace, List.takeWhile_eq_self_iff.2 hall]
    rfl

/-- A line without a slash has no comment. -/
theorem removeAllLineComments_plain {line : List Char} (hslash : '/' ∉ line)
    (hnewline : '\n' ∉ line) : removeAllLineComments line = .ok line := by
  have hblocks : replaceBy (matchLength blockItems) [] 0 line = line := by
    have hgsub := gsub_blockComment line
    have habsent : ∀ c ∈ line, Single.holds (.char '/') c = false := by
      intro c hc
      refine decide_eq_false ?_
      rintro rfl
      exact hslash hc
    rw [gsub_absent rfl (by decide +kernel) (by decide +kernel) habsent] at hgsub
    exact (Except.ok.inj hgsub).symm
  have hcut : cutLine line = line := by
    cases hfrom : plainFrom ['/', '/'] line with
    | none =>
        rw [cutLine, hfrom]
        rfl
    | some skipped =>
        have hpart := standsAt_isInfix (plainFrom_some hfrom).1
        exact absurd (hpart.subset List.mem_cons_self) hslash
  rw [removeAllLineComments_eq, hblocks, fullLines]
  by_cases hne : line = []
  · rw [hne]
    rfl
  · have hline : ∀ c ∈ line, decide (c ≠ '\n') := by
      intro c hc
      refine decide_eq_true ?_
      rintro rfl
      exact hnewline hc
    rw [runs_word hne hline, List.map_singleton, hcut, List.intercalate_singleton]

theorem validType_word {word : List Char} (h : ∀ c ∈ word, isWordChar c) :
    validType word = .ok word := by
  have hne : ∀ c : Char, isWordChar c = false → c ∉ word := by
    intro c hc hmem
    rw [h c hmem] at hc
    cases hc
  have hspace : word.takeWhile (· ≠ ' ') = word := by
    refine List.takeWhile_eq_self_iff.2 fun c hc => decide_eq_true ?_
    rintro rfl
    exact hne _ (by decide) hc
  have hfirst : ∀ c : Char, isWordChar c = false → sub word 1 1 ≠ [c] := by
    intro c hc hsub
    refine hne c hc ?_
    have hwithin := sub_within word 0 1
    rw [List.drop_zero] at hwithin
    refine List.mem_of_mem_take (i := 1) ?_
    rw [← hwithin]
    exact hsub ▸ List.mem_singleton_self c
  have htrim : trim word = word := by
    refine trim_eq_self (fun c hc => ?_) fun c hc => ?_
    · exact (wordChar_ne (h c (List.mem_of_mem_head? hc))).1
    · exact (wordChar_ne (h c (List.mem_of_mem_getLast? hc))).1
  have hparen : gsub word "%)".toList [] = .ok word := by
    refine gsub_absent (s := .cls ')') rfl (by decide +kernel) (by decide +kernel) ?_
    intro c hc
    refine decide_eq_false ?_
    rintro rfl
    exact hne _ (by decide) hc
  rw [validType, removeAllLineComments_plain (hne _ (by decide)) (hne _ (by decide))]
  simp only [bind, Except.bind, beforeSpace_eq, hspace, trimmed_eq, htrim, hparen,
    hfirst _ (show isWordChar '(' = false by decide), hfirst _ (show isWordChar '[' = false by decide),
    hfirst _ (show isWordChar '\x7b' = false by decide),
    hfirst _ (show isWordChar '*' = false by decide), or_self, if_false]

theorem validType_array {inside : List Char} (hslash : '/' ∉ inside) (hnewline : '\n' ∉ inside) :
    validType ('[' :: inside) = .ok [] := by
  rw [validType, removeAllLineComments_plain (by simp [hslash]) (by simp [hnewline])]
  simp only [bind, Except.bind, beforeSpace_eq]
  rfl

/-- The word that the steps behind the loop go on with. -/
def Peel.word (peeled : Peel) : List Char :=
  if peeled.basetype ≠ [] ∧ peeled.basetype ≠ struct then peeled.basetype else peeled.dfn

/-- These replacements are for pointers, calls and `->`. -/
theorem cleaned_eq {peeled : Peel} (hparen : '(' ∉ peeled.word) (harrow : '>' ∉ peeled.word) :
    cleaned peeled = validType (trim peeled.word) := by
  have hopen : ∀ c ∈ peeled.word, Single.holds (.cls '(') c = false := by
    intro c hc
    refine decide_eq_false ?_
    rintro rfl
    exact hparen hc
  have hgreater : ∀ c ∈ peeled.word, Single.holds (.cls '>') c = false := by
    intro c hc
    refine decide_eq_false ?_
    rintro rfl
    exact harrow hc
  have hvoid : gsub peeled.word "%(void %)".toList [] = .ok peeled.word :=
    gsub_absent rfl (by decide +kernel) (by decide +kernel) hopen
  have hvoid' : gsub peeled.word "%(void%)".toList [] = .ok peeled.word :=
    gsub_absent rfl (by decide +kernel) (by decide +kernel) hopen
  have hcall : gsub peeled.word "%(%)".toList [] = .ok peeled.word :=
    gsub_absent rfl (by decide +kernel) (by decide +kernel) hopen
  have hmember : gsub peeled.word "(.-)%-%>".toList [] = .ok peeled.word :=
    gsub_absent rfl (by decide +kernel) (by decide +kernel) hgreater
  rw [Peel.word] at hvoid hvoid' hcall hmember
  simp only [cleaned, hvoid, hvoid', hcall, hmember, trimmed_eq, bind, Except.bind]
  rfl

/-- What the loop ends with: nothing for a text with an array suffix, as it ends at the bracket. -/
def readAs (txt : List Char) : Peel :=
  if staticConst <:+: txt ∨ '[' ∈ txt then ⟨[], []⟩
  else ends [] (runs isWordChar (erased txt))

theorem readAs_stop {txt : List Char} (h : staticConst <:+: txt ∨ '[' ∈ txt) :
    readAs txt = ⟨[], []⟩ := by
  rw [readAs, if_pos h]

theorem readAs_words {txt : List Char} (h : ¬ (staticConst <:+: txt ∨ '[' ∈ txt)) :
    readAs txt = ends [] (runs isWordChar (erased txt)) := by
  rw [readAs, if_neg h]

/-- The type that is requested for a text. -/
def requestOf (basic_types : Finset (List Char)) (txt : List Char) : Option (List Char) :=
  let peeled := readAs txt
  if peeled.word = [] ∨ peeled.word ∈ basic_types ∨ peeled.basetype ∈ basic_types then none
  else some peeled.word

/-- Words, blanks and stars, and then perhaps a bracket with words and blanks behind it. -/
structure Readable (txt : List Char) : Prop where
  exists_parts : ∃ before after, txt = before ++ after ∧
    (∀ c ∈ before, isWordChar c ∨ isBlank c ∨ c = '*') ∧
    (after = [] ∨ ∃ inside, after = '[' :: inside ∧
      ∀ c ∈ inside, isWordChar c ∨ isBlank c ∨ c = '*' ∨ c = ']')

theorem ends_mem {words : List (List Char)} {basetype : List Char} :
    ((ends basetype words).basetype = basetype ∨ (ends basetype words).basetype ∈ words) ∧
      ((ends basetype words).dfn = [] ∨ (ends basetype words).dfn ∈ words) := by
  induction words generalizing basetype with
  | nil =>
      exact ⟨Or.inl rfl, Or.inl rfl⟩
  | cons word words ih =>
      cases words with
      | nil =>
          exact ⟨Or.inl rfl, Or.inr List.mem_cons_self⟩
      | cons next words =>
          rcases @ih word with ⟨hbase, hdfn⟩
          refine ⟨Or.inr ?_, hdfn.imp_right (List.mem_cons_of_mem _)⟩
          rcases hbase with hbase | hbase
          · exact List.mem_cons.2 (Or.inl hbase)
          · exact List.mem_cons_of_mem _ hbase

theorem mem_erased {txt : List Char} {c : Char} (h : c ∈ erased txt) :
    c ∈ txt ∧ c ≠ '\n' ∧ c ≠ '*' := by
  rcases List.mem_filter.1 h with ⟨hmem, hstar⟩
  have hline := (replaceAll_subset (by decide) _ c hmem).resolve_right (by simp)
  rcases List.mem_filter.1 hline with ⟨htxt, hnewline⟩
  exact ⟨htxt, of_decide_eq_true hnewline, of_decide_eq_true hstar⟩

theorem erased_append_cons {before after : List Char} {c : Char} (hnewline : c ≠ '\n')
    (hstar : c ≠ '*') (hconst : c ∉ "const".toList) :
    erased (before ++ c :: after) = erased before ++ c :: erased after := by
  have hkept : ∀ (d : Char) (txt : List Char), c ≠ d →
      (c :: txt).filter (· ≠ d) = c :: txt.filter (· ≠ d) := fun d txt hne =>
    List.filter_cons_of_pos (decide_eq_true hne)
  rw [erased, List.filter_append, hkept _ _ hnewline, replaceAll_append_cons (by decide) hconst,
    List.filter_append, hkept _ _ hstar]
  rfl

theorem Readable.not_mem {txt : List Char} (h : Readable txt) {c : Char}
    (hword : isWordChar c = false) (hblank : isBlank c = false)
    (hchar : c ≠ '*' ∧ c ≠ '[' ∧ c ≠ ']') : c ∉ txt := by
  rcases h.exists_parts with ⟨before, after, rfl, hbefore, hafter⟩
  intro hmem
  rcases List.mem_append.1 hmem with hmem | hmem
  · rcases hbefore c hmem with hc | hc | hc
    · rw [hword] at hc
      cases hc
    · rw [hblank] at hc
      cases hc
    · exact hchar.1 hc
  · rcases hafter with rfl | ⟨inside, rfl, hinside⟩
    · cases hmem
    · rcases List.mem_cons.1 hmem with hc | hmem
      · exact hchar.2.1 hc
      · rcases hinside c hmem with hc | hc | hc | hc
        · rw [hword] at hc
          cases hc
        · rw [hblank] at hc
          cases hc
        · exact hchar.1 hc
        · exact hchar.2.2 hc

theorem readAs_word (txt : List Char) : ∀ c ∈ (readAs txt).word, isWordChar c := by
  have hends := @ends_mem (runs isWordChar (erased txt)) []
  have hall : ∀ word : List Char, word = [] ∨ word ∈ runs isWordChar (erased txt) →
      ∀ c ∈ word, isWordChar c := by
    rintro word (rfl | hmem)
    · simp
    · exact holds_of_mem_runs hmem
  by_cases hstop : staticConst <:+: txt ∨ '[' ∈ txt
  · rw [readAs_stop hstop]
    exact hall [] (Or.inl rfl)
  · rw [readAs_words hstop, Peel.word]
    split
    · exact hall _ hends.1
    · exact hall _ hends.2

theorem cleaned_readAs (txt : List Char) : cleaned (readAs txt) = .ok (readAs txt).word := by
  have hchars := readAs_word txt
  have hnot : ∀ c : Char, isWordChar c = false → c ∉ (readAs txt).word := by
    intro c hc hmem
    rw [hchars c hmem] at hc
    cases hc
  have htrim : trim (readAs txt).word = (readAs txt).word := by
    refine trim_eq_self (fun c hc => ?_) fun c hc => ?_
    · exact (wordChar_ne (hchars c (List.mem_of_mem_head? hc))).1
    · exact (wordChar_ne (hchars c (List.mem_of_mem_getLast? hc))).1
  rw [cleaned_eq (hnot '(' (by decide)) (hnot '>' (by decide)), htrim, validType_word hchars]

theorem paramAdd_of {txt dfn : List Char} {peeled : Peel}
    (basic_types type_defines : Finset (List Char)) (hstatic : ¬ staticConst <:+: txt)
    (hflat : flattened txt = .ok (erased txt))
    (hpeel : peelLoop.run ⟨[], erased txt⟩ = .ok peeled) (hclean : cleaned peeled = .ok dfn) :
    paramAdd basic_types type_defines txt =
      .ok (if dfn = [] ∨ dfn ∈ basic_types ∨ peeled.basetype ∈ basic_types then type_defines
        else insert dfn type_defines) := by
  rcases @find_part staticConst txt (by decide) with ⟨found, hfind, hfound⟩
  have hnone : found.isSome = false := by
    rw [Bool.eq_false_iff]
    exact fun hsome => hstatic (hfound.1 hsome)
  simp only [paramAdd, hfind, bind, Except.bind, hnone, Bool.false_eq_true, if_false, hflat, hpeel,
    hclean]
  split
  · rename_i hnew
    rw [if_neg (by tauto)]
    rfl
  · rename_i hold
    split
    · rfl
    · have hmem : dfn ∈ type_defines := by tauto
      rw [Finset.insert_eq_of_mem hmem]
      rfl

/-- One parameter requests one type at most. -/
theorem paramAdd_eq {txt : List Char} (h : Readable txt)
    (basic_types type_defines : Finset (List Char)) :
    paramAdd basic_types type_defines txt =
      .ok ((requestOf basic_types txt).elim type_defines (insert · type_defines)) := by
  have hflat := flattened_eq (h.not_mem (c := '(') (by decide) (by decide) (by decide))
  have hslash := h.not_mem (c := '/') (by decide) (by decide) (by decide)
  have harrow := h.not_mem (c := '>') (by decide) (by decide) (by decide)
  by_cases hstatic : staticConst <:+: txt
  · rcases @find_part staticConst txt (by decide) with ⟨found, hfind, hfound⟩
    simp only [paramAdd, hfind, bind, Except.bind, hfound.2 hstatic, if_true, requestOf,
      readAs_stop (Or.inl hstatic)]
    rfl
  · rcases h.exists_parts with ⟨before, after, htxt, hbefore, hafter⟩
    have hwords : ∀ c ∈ erased before, isWordChar c ∨ isBlank c := by
      intro c hc
      rcases mem_erased hc with ⟨hmem, -, hstar⟩
      rcases hbefore c hmem with hword | hblank | heq
      · exact Or.inl hword
      · exact Or.inr hblank
      · exact absurd heq hstar
    rcases hafter with rfl | ⟨inside, rfl, hinside⟩
    · rw [List.append_nil] at htxt
      have hbracket : '[' ∉ txt := by
        rw [htxt]
        intro hmem
        rcases hbefore _ hmem with hc | hc | hc <;> exact absurd hc (by decide)
      have hpeel := peelLoop_words [] hwords
      rw [← htxt, ← readAs_words (not_or.2 ⟨hstatic, hbracket⟩)] at hpeel
      rw [paramAdd_of basic_types type_defines hstatic hflat hpeel (cleaned_readAs txt), requestOf]
      split <;> rfl
    · have hbracket : '[' ∈ txt := by
        rw [htxt]
        exact List.mem_append_right _ List.mem_cons_self
      rcases @peelLoop_array _ (erased inside) [] hwords with ⟨left, hpeel, hleft⟩
      rw [← erased_append_cons (by decide) (by decide) (by decide), ← htxt] at hpeel
      -- what is left from the bracket on is no name of a type
      have hclean : cleaned ⟨[], '[' :: left⟩ = .ok [] := by
        have hinside : ∀ c : Char, c ∉ txt → c ∉ '[' :: left := by
          intro c hc hmem
          refine hc ?_
          rw [htxt]
          refine List.mem_append_right _ ?_
          rcases List.mem_cons.1 hmem with rfl | hmem
          · exact List.mem_cons_self
          · exact List.mem_cons_of_mem _ (mem_erased (hleft hmem)).1
        have htrim : trim ('[' :: left) = '[' :: left.rdropWhile isBlank :=
          @trim_append_cons [] left '[' (by decide)
        have hsub := (List.rdropWhile_prefix isBlank left).subset
        have hword : (⟨[], '[' :: left⟩ : Peel).word = '[' :: left := rfl
        rw [cleaned_eq (by rw [hword]; exact hinside _ (h.not_mem (by decide) (by decide) (by decide)))
          (by rw [hword]; exact hinside _ harrow), hword, htrim]
        refine validType_array (fun hmem => ?_) fun hmem => ?_
        · exact hinside _ hslash (List.mem_cons_of_mem _ (hsub hmem))
        · exact (mem_erased (hleft (hsub hmem))).2.1 rfl
      rw [paramAdd_of basic_types type_defines hstatic hflat hpeel hclean, if_pos (Or.inl rfl),
        requestOf, readAs_stop (Or.inr hbracket)]
      rfl

/-! ## The loop over the parameters -/

theorem requestOf_nil (basic_types : Finset (List Char)) : requestOf basic_types [] = none := by
  have hread : readAs [] = ⟨[], []⟩ := by decide +kernel
  rw [requestOf, hread]
  rfl

section Rounds

variable {sep : Char} {basic_types type_defines : Finset (List Char)}

theorem mem_elim_insert {request : Option (List Char)} {key : List Char} :
    key ∈ request.elim type_defines (insert · type_defines) ↔
      key ∈ type_defines ∨ request = some key := by
  cases request with
  | none =>
      simp
  | some word =>
      rw [Option.elim_some, Finset.mem_insert, Option.some.injEq, or_comm, eq_comm]

theorem paramsRound_nil :
    (paramsLoop basic_types sep).round ([], type_defines) = .ok (.done ([], type_defines)) := rfl

theorem paramsRound_some {before after : List Char} (hsep : sep ∉ before)
    (hread : Readable before) :
    (paramsLoop basic_types sep).round (before ++ sep :: after, type_defines) =
      .ok (.again (after, (requestOf basic_types before).elim type_defines
        (insert · type_defines))) := by
  simp only [paramsLoop, paramsRound, if_neg (show before ++ sep :: after ≠ [] by simp),
    cutParam_some hsep, paramAdd_eq hread, bind, Except.bind]
  rfl

theorem paramsRound_last {params : List Char} (hne : params ≠ []) (hsep : sep ∉ params)
    (hread : Readable params) :
    (paramsLoop basic_types sep).round (params, type_defines) =
      .ok (.again ([], (requestOf basic_types params).elim type_defines
        (insert · type_defines))) := by
  simp only [paramsLoop, paramsRound, if_neg hne, cutParam_none hsep, paramAdd_eq hread, bind,
    Except.bind]
  rfl

theorem paramsLoop_run {texts : List (List Char)} (hsep : ∀ txt ∈ texts, sep ∉ txt)
    (hread : ∀ txt ∈ texts, Readable txt) :
    ∃ after, (paramsLoop basic_types sep).run ([sep].intercalate texts, type_defines) =
        .ok ([], after) ∧
      ∀ key, key ∈ after ↔
        key ∈ type_defines ∨ ∃ txt ∈ texts, requestOf basic_types txt = some key := by
  induction texts generalizing type_defines with
  | nil =>
      exact ⟨type_defines, Loop.run_done _ paramsRound_nil, by simp⟩
  | cons txt texts ih =>
      have hsep' : ∀ txt ∈ texts, sep ∉ txt := fun txt htxt => hsep txt (List.mem_cons_of_mem _ htxt)
      have hread' : ∀ txt ∈ texts, Readable txt := fun txt htxt =>
        hread txt (List.mem_cons_of_mem _ htxt)
      have hsepHere := hsep txt List.mem_cons_self
      have hreadHere := hread txt List.mem_cons_self
      rcases @ih ((requestOf basic_types txt).elim type_defines (insert · type_defines)) hsep' hread'
        with ⟨after, hrun, hkeys⟩
      have hkeys' : ∀ key, key ∈ after ↔ key ∈ type_defines ∨
          ∃ text ∈ txt :: texts, requestOf basic_types text = some key := by
        intro key
        rw [hkeys, mem_elim_insert, or_assoc]
        simp
      cases texts with
      | nil =>
          rw [List.intercalate_singleton]
          by_cases hne : txt = []
          · rw [hne]
            exact ⟨type_defines, Loop.run_done _ paramsRound_nil, by simp [requestOf_nil]⟩
          · refine ⟨after, ?_, hkeys'⟩
            rw [← hrun]
            exact Loop.run_again _ (paramsRound_last hne hsepHere hreadHere)
      | cons next texts =>
          refine ⟨after, ?_, hkeys'⟩
          rw [← hrun, List.intercalate_cons_cons, List.append_assoc, List.singleton_append]
          exact Loop.run_again _ (paramsRound_some hsepHere hreadHere)

/-- The keys behind a call. -/
theorem paramsAdd_keys {texts : List (List Char)} (hsep : ∀ txt ∈ texts, sep ∉ txt)
    (hread : ∀ txt ∈ texts, Readable txt) :
    ∃ after, paramsAdd basic_types type_defines (some ([sep].intercalate texts)) sep = .ok after ∧
      ∀ key, key ∈ after ↔ key ∈ type_defines ∨
        ¬ typedefEnum <:+: [sep].intercalate texts ∧
          ∃ txt ∈ texts, requestOf basic_types txt = some key := by
  rcases @find_part typedefEnum ([sep].intercalate texts) (by decide) with
    ⟨found, hfind, hfound⟩
  by_cases henum : typedefEnum <:+: [sep].intercalate texts
  · refine ⟨type_defines, ?_, fun key => (or_iff_left fun h => h.1 henum).symm⟩
    simp only [paramsAdd, hfind, bind, Except.bind, hfound.2 henum, if_true]
    rfl
  · have hnone : found.isSome = false := by
      rw [Bool.eq_false_iff]
      exact fun hsome => henum (hfound.1 hsome)
    rcases @paramsLoop_run sep basic_types type_defines texts hsep hread with ⟨after, hrun, hkeys⟩
    refine ⟨after, ?_, fun key => by rw [hkeys, and_iff_right henum]⟩
    simp only [paramsAdd, hfind, bind, Except.bind, hnone, Bool.false_eq_true, if_false, hrun]
    rfl

end Rounds

end FfiDef
end LuajitTcpServer
