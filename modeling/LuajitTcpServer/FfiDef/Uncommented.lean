import LuajitTcpServer.FfiDef.LineStarts

/-!
# Uncommented — comment removal on texts that are put together

What `removeAllLineComments` makes of a text in front and of a text behind it.  A text in front that
ends in no comment is treated as if it stood alone, but for a line break at its end.
-/

namespace LuajitTcpServer
namespace FfiDef

open Lua

/-! ## The two passes -/

def withoutBlocks (txt : List Char) : List Char := replaceBy (matchLength blockItems) [] 0 txt

def joinLines (txt : List Char) : List Char := ['\n'].intercalate ((fullLines txt).map cutLine)

/-- The text that `removeAllLineComments` leaves. -/
def uncommented (txt : List Char) : List Char := joinLines (withoutBlocks txt)

theorem removeAllLineComments_ok (txt : List Char) :
    removeAllLineComments txt = .ok (uncommented txt) :=
  removeAllLineComments_eq txt

/-! ## Block comments -/

theorem withoutBlocks_cons {c : Char} {txt : List Char} (h : ¬ OpensBlock (c :: txt)) :
    withoutBlocks (c :: txt) = c :: withoutBlocks txt :=
  replaceBy_miss (matchLength_none h)

theorem withoutBlocks_other {c : Char} (hc : c ≠ '/') (txt : List Char) :
    withoutBlocks (c :: txt) = c :: withoutBlocks txt :=
  withoutBlocks_cons fun hopens => hc (opensBlock_cons hopens).1

theorem withoutBlocks_append {front : List Char} (hfront : '/' ∉ front) (txt : List Char) :
    withoutBlocks (front ++ txt) = front ++ withoutBlocks txt := by
  induction front with
  | nil =>
      rfl
  | cons c front ih =>
      have hc : c ≠ '/' := fun heq => hfront (heq ▸ List.mem_cons_self)
      rw [List.cons_append, withoutBlocks_other hc,
        ih fun hmem => hfront (List.mem_cons_of_mem _ hmem), List.cons_append]

/-- A text with the end of a comment, up to the first one. -/
theorem exists_first_close {inside : List Char} (h : ['*', '/'] <:+: inside) :
    ∃ body rest, inside = body ++ '*' :: '/' :: rest ∧ ¬ ['*', '/'] <:+: body := by
  cases hfrom : plainFrom ['*', '/'] inside with
  | none =>
      rcases exists_standsAt h with ⟨k, hk⟩
      exact absurd hk (plainFrom_none hfrom)
  | some k =>
      rcases plainFrom_some hfrom with ⟨hstands, hfirst⟩
      rcases hstands.2 with ⟨rest, hrest⟩
      refine ⟨inside.take k, rest, ?_, ?_⟩
      · have hcut := (List.take_append_drop k inside).symm
        rwa [← hrest] at hcut
      · intro hpart
        rcases exists_standsAt hpart with ⟨j, hj⟩
        have hjk := hj.le
        rw [List.length_take] at hjk
        simp only [List.length_cons, List.length_nil] at hjk
        refine hfirst j (by omega) ⟨by omega, ?_⟩
        refine hj.2.trans ?_
        rw [List.drop_take]
        exact List.take_prefix _ _

/-- A block comment that opens here is removed up to its first end. -/
theorem exists_block {txt : List Char} (h : OpensBlock txt) :
    ∃ comment rest, txt = comment ++ rest ∧ rest.length < txt.length ∧
      comment.getLast? = some '/' ∧ ∀ more, OpensBlock (comment ++ more) ∧
        withoutBlocks (comment ++ more) = withoutBlocks more := by
  rcases h with ⟨inside, after, htxt⟩
  rcases @exists_first_close (inside ++ '*' :: '/' :: after) ⟨inside, after, by simp⟩ with
    ⟨body, rest, hsplit, hnone⟩
  rw [hsplit] at htxt
  refine ⟨'/' :: '*' :: (body ++ ['*', '/']), rest, by rw [htxt]; simp, ?_, ?_, ?_⟩
  · rw [htxt]
    simp only [List.length_append, List.length_cons]
    omega
  · have hcomment : '/' :: '*' :: (body ++ ['*', '/']) = ('/' :: '*' :: (body ++ ['*'])) ++ ['/'] := by
      simp
    rw [hcomment, List.getLast?_concat]
  · intro more
    have htext : '/' :: '*' :: (body ++ ['*', '/']) ++ more =
        '/' :: '*' :: (body ++ '*' :: '/' :: more) := by
      simp
    have hlength : matchLength blockItems ('/' :: '*' :: (body ++ ['*', '/']) ++ more) =
        some ('/' :: '*' :: (body ++ ['*', '/'])).length := by
      rw [matchLength, htext, reach_block hnone, Option.map_some, ← htext, List.length_append,
        Nat.add_sub_cancel]
    exact ⟨⟨body, more, htext⟩, replaceBy_hit (List.cons_ne_nil _ _) hlength⟩

/-- No block comment is open at the end of the text. -/
def BlocksClosed (txt : List Char) : Prop := ¬ ['/', '*'] <:+: withoutBlocks txt

/-- What stands behind closed block comments does not change them. -/
theorem withoutBlocks_append_cons {front txt : List Char} {c : Char} (h : BlocksClosed front)
    (hc : c ≠ '*') : withoutBlocks (front ++ c :: txt) = withoutBlocks front ++ withoutBlocks (c :: txt) := by
  induction hsize : front.length using Nat.strongRecOn generalizing front with
  | ind n ih =>
      by_cases hopens : OpensBlock front
      · rcases exists_block hopens with ⟨comment, rest, rfl, hshort, -, hremove⟩
        rw [BlocksClosed, (hremove rest).2] at h
        rw [List.append_assoc, (hremove _).2, (hremove _).2, ih rest.length (hsize ▸ hshort) h rfl]
      · cases front with
        | nil =>
            rfl
        | cons first front =>
            rw [BlocksClosed, withoutBlocks_cons hopens] at h
            have hclosed : BlocksClosed front := fun hinside =>
              h (hinside.trans (List.suffix_cons _ _).isInfix)
            have hstill : ¬ OpensBlock (first :: (front ++ c :: txt)) := by
              intro hlater
              rcases opensBlock_cons hlater with ⟨rfl, hstar⟩
              cases front with
              | nil =>
                  exact hc (Option.some.inj hstar)
              | cons star front =>
                  have hstar' : star = '*' := Option.some.inj hstar
                  subst hstar'
                  refine h ?_
                  rw [withoutBlocks_other (by decide)]
                  exact ⟨[], withoutBlocks front, rfl⟩
            rw [List.cons_append, withoutBlocks_cons hstill, withoutBlocks_cons hopens,
              ih front.length (by rw [← hsize]; exact Nat.lt_succ_self _) hclosed rfl,
              List.cons_append]

/-- A last character that ends no comment. -/
theorem withoutBlocks_concat {txt : List Char} {c : Char} (hc : c ≠ '/') :
    withoutBlocks (txt ++ [c]) = withoutBlocks txt ++ [c] := by
  induction hsize : txt.length using Nat.strongRecOn generalizing txt with
  | ind n ih =>
      by_cases hopens : OpensBlock txt
      · rcases exists_block hopens with ⟨comment, rest, rfl, hshort, -, hremove⟩
        rw [List.append_assoc, (hremove _).2, (hremove _).2, ih rest.length (hsize ▸ hshort) rfl]
      · cases txt with
        | nil =>
            rw [List.nil_append, withoutBlocks_other hc]
            rfl
        | cons first txt =>
            have hstill : ¬ OpensBlock (first :: (txt ++ [c])) := by
              rintro ⟨body, rest, heq⟩
              rcases List.eq_nil_or_concat' rest with rfl | ⟨rest, last, rfl⟩
              · -- the comment would end with the last character
                have hlast := congrArg List.getLast? heq
                have hend : '/' :: '*' :: (body ++ ['*', '/']) =
                    ('/' :: '*' :: (body ++ ['*'])) ++ ['/'] := by
                  simp
                rw [hend, ← List.cons_append, List.getLast?_concat, List.getLast?_concat] at hlast
                exact hc (Option.some.inj hlast)
              · refine hopens ⟨body, rest, ?_⟩
                have hsame : (first :: txt) ++ [c] =
                    ('/' :: '*' :: (body ++ '*' :: '/' :: rest)) ++ [last] := by
                  simpa using heq
                exact (List.append_inj' hsame rfl).1
            rw [List.cons_append, withoutBlocks_cons hstill, withoutBlocks_cons hopens,
              ih txt.length (by rw [← hsize]; exact Nat.lt_succ_self _) rfl, List.cons_append]

/-! ## Lines -/

/-- What stands behind the last line break. -/
def lastLine (txt : List Char) : List Char := txt.rtakeWhile (· ≠ '\n')

/-- A line break, or nothing. -/
def IsBreak (sep : List Char) : Prop := sep = [] ∨ sep = ['\n']

theorem IsBreak.blank {sep : List Char} (h : IsBreak sep) : ∀ c ∈ sep, isBlank c := by
  rcases h with rfl | rfl <;> decide

theorem fullLines_newline (front txt : List Char) :
    fullLines (front ++ '\n' :: txt) = fullLines front ++ fullLines txt :=
  runs_append_cons (by decide)

theorem fullLines_line {line : List Char} (hne : line ≠ []) (hline : '\n' ∉ line) :
    fullLines line = [line] := by
  refine runs_word hne fun c hc => decide_eq_true ?_
  rintro rfl
  exact hline hc

theorem fullLines_cons {c : Char} (hc : c ≠ '\n') (txt : List Char) :
    fullLines (c :: txt) =
      (c :: txt.takeWhile (· ≠ '\n')) :: fullLines (txt.dropWhile (· ≠ '\n')) :=
  runs_cons_pos (by simpa using hc)

theorem intercalate_append (ls more : List (List Char)) :
    ∃ sep, IsBreak sep ∧ ['\n'].intercalate (ls ++ more) =
      ['\n'].intercalate ls ++ sep ++ ['\n'].intercalate more ∧
      (more ≠ [] → sep = if ls = [] then [] else ['\n']) ∧ (more = [] → sep = []) := by
  induction ls with
  | nil =>
      exact ⟨[], Or.inl rfl, rfl, fun _ => rfl, fun _ => rfl⟩
  | cons line ls ih =>
      cases ls with
      | nil =>
          cases more with
          | nil =>
              exact ⟨[], Or.inl rfl, by simp, fun h => absurd rfl h, fun _ => rfl⟩
          | cons next more =>
              exact ⟨['\n'], Or.inr rfl, by simp [List.intercalate_cons_cons], fun _ => rfl,
                fun h => absurd h (List.cons_ne_nil _ _)⟩
      | cons next ls =>
          rcases ih with ⟨sep, hsep, heq, hmore, hnone⟩
          refine ⟨sep, hsep, ?_, hmore, hnone⟩
          rw [List.cons_append, List.cons_append, List.intercalate_cons_cons, ← List.cons_append, heq,
            List.intercalate_cons_cons]
          simp

/-- Lines that are put together. -/
theorem joinLines_newline (front txt : List Char) :
    ∃ sep, IsBreak sep ∧ joinLines (front ++ '\n' :: txt) = joinLines front ++ sep ++ joinLines txt ∧
      (fullLines txt ≠ [] → sep = if fullLines front = [] then [] else ['\n']) ∧
      (fullLines txt = [] → sep = []) := by
  rcases intercalate_append ((fullLines front).map cutLine) ((fullLines txt).map cutLine) with
    ⟨sep, hsep, heq, hmore, hnone⟩
  rw [← List.map_append, ← fullLines_newline] at heq
  refine ⟨sep, hsep, heq, fun h => ?_, fun h => hnone (by rw [h]; rfl)⟩
  rw [hmore (by simpa using h)]
  simp

theorem joinLines_line {line : List Char} (hline : '\n' ∉ line) : joinLines line = cutLine line := by
  by_cases hne : line = []
  · rw [hne]
    rfl
  · rw [joinLines, fullLines_line hne hline, List.map_singleton, List.intercalate_singleton]

theorem cutLine_cons_other {line rest : List Char} {c : Char} (hline : ¬ ['/', '/'] <:+: line)
    (hc : c ≠ '/') : cutLine (line ++ c :: rest) = line ++ cutLine (c :: rest) := by
  induction line with
  | nil =>
      rfl
  | cons first line ih =>
      have hmiss : ¬ (first = '/' ∧ (line ++ c :: rest).head? = some '/') := by
        rintro ⟨rfl, hhead⟩
        cases line with
        | nil =>
            exact hc (Option.some.inj hhead)
        | cons next line =>
            have hnext : next = '/' := Option.some.inj hhead
            exact hline ⟨[], line, by rw [hnext]; rfl⟩
      rw [List.cons_append, cutLine_cons hmiss,
        ih fun h => hline (h.trans (List.suffix_cons _ _).isInfix), List.cons_append]

theorem cutLine_self {line : List Char} (hline : ¬ ['/', '/'] <:+: line) : cutLine line = line := by
  cases hfrom : plainFrom ['/', '/'] line with
  | none =>
      rw [cutLine, hfrom]
      rfl
  | some skipped =>
      exact absurd (standsAt_isInfix (plainFrom_some hfrom).1) hline

/-- A line in front of a character. -/
theorem joinLines_line_cons {line txt : List Char} {c : Char} (hline : '\n' ∉ line)
    (hcode : ¬ ['/', '/'] <:+: line) (hc : c ≠ '/') (hbreak : c ≠ '\n') :
    joinLines (line ++ c :: txt) = line ++ joinLines (c :: txt) := by
  have hfront : fullLines (line ++ c :: txt) =
      (line ++ c :: txt.takeWhile (· ≠ '\n')) :: fullLines (txt.dropWhile (· ≠ '\n')) := by
    cases line with
    | nil =>
        exact fullLines_cons hbreak txt
    | cons first line =>
        have hfirst : first ≠ '\n' := fun heq => hline (heq ▸ List.mem_cons_self)
        have hall : ∀ d ∈ line, decide (d ≠ '\n') := by
          intro d hd
          refine decide_eq_true ?_
          rintro rfl
          exact hline (List.mem_cons_of_mem _ hd)
        rw [List.cons_append, fullLines_cons hfirst, List.takeWhile_append_of_pos hall,
          List.dropWhile_append_of_pos hall, List.takeWhile_cons_of_pos (by simpa using hbreak),
          List.dropWhile_cons_of_pos (by simpa using hbreak), List.cons_append]
  have hcons : ∀ (first : List Char) (more : List (List Char)),
      ['\n'].intercalate ((line ++ first) :: more) = line ++ ['\n'].intercalate (first :: more) := by
    intro first more
    cases more with
    | nil =>
        simp
    | cons next more =>
        rw [List.intercalate_cons_cons, List.intercalate_cons_cons]
        simp
  rw [joinLines, hfront, List.map_cons, cutLine_cons_other hcode hc, hcons, joinLines,
    fullLines_cons hbreak, List.map_cons]

/-- The last line break of a text. -/
theorem exists_lastLine (txt : List Char) :
    ('\n' ∉ txt ∧ lastLine txt = txt) ∨
      ∃ front, txt = front ++ '\n' :: lastLine txt ∧ '\n' ∉ lastLine txt := by
  induction txt using List.reverseRecOn with
  | nil =>
      exact Or.inl ⟨List.not_mem_nil, rfl⟩
  | append_singleton txt c ih =>
      by_cases hc : c = '\n'
      · have hlast : lastLine (txt ++ [c]) = [] :=
          List.rtakeWhile_concat_neg _ _ _ (by simp [hc])
        rw [hlast, hc]
        exact Or.inr ⟨txt, rfl, List.not_mem_nil⟩
      · have hlast : lastLine (txt ++ [c]) = lastLine txt ++ [c] :=
          List.rtakeWhile_concat_pos _ _ _ (by simpa using hc)
        rw [hlast]
        rcases ih with ⟨hnone, hline⟩ | ⟨front, hsplit, hnone⟩
        · exact Or.inl ⟨by simp [hnone, Ne.symm hc], by rw [hline]⟩
        · refine Or.inr ⟨front, ?_, by simp [hnone, Ne.symm hc]⟩
          rw [← List.cons_append, ← List.append_assoc, ← hsplit]

/-! ## Texts that end in no comment -/

/-- Neither a block comment nor a line comment is open at the end. -/
structure Clean (txt : List Char) : Prop where
  blocks : BlocksClosed txt
  line : ¬ ['/', '/'] <:+: lastLine (withoutBlocks txt)

/-- Behind such a text a character of the code is kept, and nothing in front of it changes. -/
theorem uncommented_append {front : List Char} (h : Clean front) :
    ∃ sep, IsBreak sep ∧ ∀ c txt, c ≠ '/' → c ≠ '*' → c ≠ '\n' →
      uncommented (front ++ c :: txt) = uncommented front ++ sep ++ uncommented (c :: txt) := by
  have hblocks : ∀ c txt, c ≠ '/' → c ≠ '*' →
      withoutBlocks (front ++ c :: txt) = withoutBlocks front ++ c :: withoutBlocks txt := by
    intro c txt hslash hstar
    rw [withoutBlocks_append_cons h.blocks hstar, withoutBlocks_other hslash]
  have hline := h.line
  rcases exists_lastLine (withoutBlocks front) with ⟨hnone, hlast⟩ | ⟨before, hsplit, hnone⟩
  · refine ⟨[], Or.inl rfl, fun c txt hslash hstar hbreak => ?_⟩
    rw [hlast] at hline
    rw [uncommented, uncommented, uncommented, hblocks c txt hslash hstar, withoutBlocks_other hslash,
      joinLines_line_cons hnone hline hslash hbreak, joinLines_line hnone, cutLine_self hline,
      List.append_nil]
  · rcases joinLines_newline before (lastLine (withoutBlocks front)) with
      ⟨sep, hsep, hfront, hmore, hempty⟩
    rw [← hsplit] at hfront
    refine ⟨if sep = [] ∧ fullLines before ≠ [] then ['\n'] else [], ?_, ?_⟩
    · split
      · exact Or.inr rfl
      · exact Or.inl rfl
    intro c txt hslash hstar hbreak
    rcases joinLines_newline before (lastLine (withoutBlocks front) ++ c :: withoutBlocks txt) with
      ⟨sep', hsep', hall, hmore', -⟩
    have hfull : fullLines (lastLine (withoutBlocks front) ++ c :: withoutBlocks txt) ≠ [] :=
      runs_ne_nil (List.mem_append_right _ List.mem_cons_self) (by simpa using hbreak)
    have hcode := @joinLines_line_cons _ (withoutBlocks txt) _ hnone hline hslash hbreak
    have hjoin : joinLines (lastLine (withoutBlocks front)) = lastLine (withoutBlocks front) := by
      rw [joinLines_line hnone, cutLine_self hline]
    have hpart : withoutBlocks front ++ c :: withoutBlocks txt =
        before ++ '\n' :: (lastLine (withoutBlocks front) ++ c :: withoutBlocks txt) := by
      conv_lhs => rw [hsplit]
      simp
    rw [uncommented, uncommented, uncommented, hblocks c txt hslash hstar, withoutBlocks_other hslash,
      hpart, hall, hfront, hmore' hfull, hcode, hjoin]
    by_cases hbefore : fullLines before = []
    · by_cases hlast : fullLines (lastLine (withoutBlocks front)) = []
      · rw [hempty hlast]
        simp [hbefore]
      · rw [hmore hlast]
        simp [hbefore]
    · by_cases hlast : fullLines (lastLine (withoutBlocks front)) = []
      · have hnil : lastLine (withoutBlocks front) = [] := by
          by_contra hne
          rw [fullLines_line hne hnone] at hlast
          cases hlast
        rw [hempty hlast, hnil]
        simp [hbefore]
      · rw [hmore hlast]
        simp [hbefore]

/-! ## Characters in front -/

theorem uncommented_newline (txt : List Char) : uncommented ('\n' :: txt) = uncommented txt := by
  have hlines : fullLines ('\n' :: withoutBlocks txt) = fullLines (withoutBlocks txt) :=
    runs_cons_neg (by decide)
  rw [uncommented, withoutBlocks_other (by decide), joinLines, hlines]
  rfl

/-- A character that starts no comment stays in front. -/
theorem uncommented_cons {c : Char} (hslash : c ≠ '/') (hbreak : c ≠ '\n') (txt : List Char) :
    ∃ sep, IsBreak sep ∧ uncommented (c :: txt) = c :: (sep ++ uncommented txt) := by
  rw [uncommented, withoutBlocks_other hslash, uncommented, joinLines, fullLines_cons hbreak,
    List.map_cons, cutLine_cons fun h => hslash h.1]
  have hsplit := List.takeWhile_append_dropWhile (p := fun c => decide (c ≠ '\n'))
    (l := withoutBlocks txt)
  cases hline : (withoutBlocks txt).takeWhile fun c => decide (c ≠ '\n') with
  | nil =>
      rw [hline, List.nil_append] at hsplit
      rw [hsplit]
      rcases intercalate_append [[c]] ((fullLines (withoutBlocks txt)).map cutLine) with
        ⟨sep, hsep, heq, -⟩
      refine ⟨sep, hsep, ?_⟩
      rw [List.singleton_append, List.intercalate_singleton] at heq
      rw [cutLine_nil, heq, joinLines]
      simp
  | cons first line =>
      have hfirst : first ≠ '\n' := by
        have hmem : first ∈ (withoutBlocks txt).takeWhile fun c => decide (c ≠ '\n') := by
          rw [hline]
          exact List.mem_cons_self
        have hholds := List.mem_takeWhile_imp (p := fun c => decide (c ≠ '\n')) hmem
        exact of_decide_eq_true hholds
      refine ⟨[], Or.inl rfl, ?_⟩
      have hlines : fullLines (withoutBlocks txt) = (first :: line) ::
          fullLines ((withoutBlocks txt).dropWhile fun c => decide (c ≠ '\n')) := by
        cases htxt : withoutBlocks txt with
        | nil =>
            rw [htxt] at hline
            cases hline
        | cons d rest =>
            rw [htxt, List.takeWhile_cons] at hline
            split at hline
            · rename_i hd
              rw [fullLines_cons (of_decide_eq_true hd), hline,
                List.dropWhile_cons_of_pos (p := fun c => decide (c ≠ '\n')) hd]
            · cases hline
      rw [List.nil_append, joinLines, hlines, List.map_cons]
      cases (fullLines ((withoutBlocks txt).dropWhile fun c => decide (c ≠ '\n'))).map cutLine with
      | nil =>
          simp
      | cons next more =>
          rw [List.intercalate_cons_cons, List.intercalate_cons_cons]
          rfl

/-- The characters that are no blanks. -/
def solid (txt : List Char) : List Char := txt.filter fun c => !isBlank c

theorem solid_append (front txt : List Char) : solid (front ++ txt) = solid front ++ solid txt :=
  List.filter_append ..

theorem solid_eq_nil {txt : List Char} : solid txt = [] ↔ ∀ c ∈ txt, isBlank c := by
  simp [solid]

theorem solid_trim (txt : List Char) : solid (trim txt) = solid txt := by
  have hfront : solid (txt.takeWhile isBlank) = [] :=
    solid_eq_nil.2 fun c hc => List.mem_takeWhile_imp hc
  have hback : solid ((txt.dropWhile isBlank).rtakeWhile isBlank) = [] :=
    solid_eq_nil.2 fun c hc => List.mem_rtakeWhile_imp hc
  have hsplit := List.takeWhile_append_dropWhile (p := isBlank) (l := txt)
  have hrest := List.rdropWhile_append_rtakeWhile (p := isBlank) (l := txt.dropWhile isBlank)
  calc solid (trim txt) = solid (trim txt) ++ [] := (List.append_nil _).symm
    _ = solid (txt.dropWhile isBlank) := by rw [← hback, ← solid_append]; exact congrArg solid hrest
    _ = solid txt := by
        conv_rhs => rw [← hsplit, solid_append, hfront, List.nil_append]

/-- A text without its line breaks. -/
def withoutBreaks (txt : List Char) : List Char := txt.filter (· ≠ '\n')

theorem solid_withoutBreaks (txt : List Char) : solid (withoutBreaks txt) = solid txt := by
  rw [solid, withoutBreaks, List.filter_filter, solid]
  refine List.filter_congr fun c _ => ?_
  by_cases hc : c = '\n'
  · rw [hc]
    rfl
  · simp [hc]

/-- A text without `/` in front keeps its characters, but for line breaks. -/
theorem uncommented_front {front : List Char} (h : '/' ∉ front) (txt : List Char) :
    ∃ front', uncommented (front ++ txt) = front' ++ uncommented txt ∧
      withoutBreaks front' = withoutBreaks front := by
  induction front with
  | nil =>
      exact ⟨[], rfl, rfl⟩
  | cons c front ih =>
      rcases ih fun hmem => h (List.mem_cons_of_mem _ hmem) with ⟨front', heq, hbreaks⟩
      have hslash : c ≠ '/' := fun heq => h (heq ▸ List.mem_cons_self)
      by_cases hbreak : c = '\n'
      · refine ⟨front', ?_, ?_⟩
        · rw [hbreak, List.cons_append, uncommented_newline, heq]
        · rw [hbreaks, hbreak, withoutBreaks, withoutBreaks, List.filter_cons_of_neg (by decide)]
      · rcases uncommented_cons hslash hbreak (front ++ txt) with ⟨sep, hsep, hcons⟩
        refine ⟨c :: (sep ++ front'), ?_, ?_⟩
        · rw [List.cons_append, hcons, heq]
          simp
        · have hnone : withoutBreaks sep = [] := by
            rcases hsep with rfl | rfl <;> rfl
          have hkept : ∀ txt : List Char, withoutBreaks (c :: txt) = c :: withoutBreaks txt :=
            fun txt => List.filter_cons_of_pos (by simpa using hbreak)
          rw [hkept, hkept, withoutBreaks, List.filter_append, ← withoutBreaks, ← withoutBreaks, hnone,
            hbreaks, List.nil_append]

theorem solid_uncommented_front {front : List Char} (h : '/' ∉ front) (txt : List Char) :
    solid (uncommented (front ++ txt)) = solid front ++ solid (uncommented txt) := by
  rcases uncommented_front h txt with ⟨front', heq, hbreaks⟩
  rw [heq, solid_append, ← solid_withoutBreaks front', hbreaks, solid_withoutBreaks]

/-- Blanks in front stay blanks. -/
theorem uncommented_blanks {front : List Char} (h : ∀ c ∈ front, isBlank c) (txt : List Char) :
    ∃ front', (∀ c ∈ front', isBlank c) ∧ uncommented (front ++ txt) = front' ++ uncommented txt := by
  have hslash : '/' ∉ front := fun hmem => absurd (h _ hmem) (by decide)
  rcases uncommented_front hslash txt with ⟨front', heq, hbreaks⟩
  refine ⟨front', solid_eq_nil.1 ?_, heq⟩
  rw [← solid_withoutBreaks, hbreaks, solid_withoutBreaks]
  exact solid_eq_nil.2 h

theorem uncommented_dropNewlines (txt : List Char) :
    uncommented (txt.dropWhile (· = '\n')) = uncommented txt := by
  induction txt with
  | nil =>
      rfl
  | cons c txt ih =>
      by_cases hc : c = '\n'
      · rw [List.dropWhile_cons_of_pos (by simpa using hc), ih, hc, uncommented_newline]
      · rw [List.dropWhile_cons_of_neg (by simpa using hc)]

/-! ## What can be left -/

theorem withoutBlocks_sublist (txt : List Char) : (withoutBlocks txt).Sublist txt := by
  induction hsize : txt.length using Nat.strongRecOn generalizing txt with
  | ind n ih =>
      by_cases hopens : OpensBlock txt
      · rcases exists_block hopens with ⟨comment, rest, rfl, hshort, -, hremove⟩
        rw [(hremove rest).2]
        exact (ih rest.length (hsize ▸ hshort) rest rfl).trans (List.sublist_append_right _ _)
      · cases txt with
        | nil =>
            exact List.Sublist.refl _
        | cons c txt =>
            rw [withoutBlocks_cons hopens]
            exact (ih txt.length (by rw [← hsize]; exact Nat.lt_succ_self _) txt rfl).cons_cons c

/-- The last line of a text that is cut into lines. -/
theorem joinLines_sublist (txt : List Char) : (joinLines txt).Sublist txt := by
  have hline : ∀ line : List Char, (cutLine line).Sublist line := by
    intro line
    unfold cutLine
    cases plainFrom ['/', '/'] line with
    | none =>
        exact List.Sublist.refl _
    | some skipped =>
        exact List.take_sublist _ _
  induction hsize : txt.length using Nat.strongRecOn generalizing txt with
  | ind n ih =>
      rcases exists_lastLine txt with ⟨hnone, -⟩ | ⟨front, hsplit, hnone⟩
      · rw [joinLines_line hnone]
        exact hline txt
      · rcases joinLines_newline front (lastLine txt) with ⟨sep, hsep, heq, -⟩
        rw [← hsplit, joinLines_line hnone] at heq
        have hlength := congrArg List.length hsplit
        rw [List.length_append, List.length_cons] at hlength
        have hbreak : sep.Sublist ['\n'] := by
          rcases hsep with rfl | rfl <;> simp
        have hparts := ((ih front.length (by omega) front rfl).append hbreak).append (hline (lastLine txt))
        rw [← heq, List.append_assoc, List.singleton_append, ← hsplit] at hparts
        exact hparts

theorem uncommented_sublist (txt : List Char) : (uncommented txt).Sublist txt :=
  (joinLines_sublist _).trans (withoutBlocks_sublist txt)

/-- The number of characters that go. -/
def lost (txt : List Char) : Nat := txt.length - (uncommented txt).length

theorem lost_add_length (txt : List Char) : lost txt + (uncommented txt).length = txt.length :=
  Nat.sub_add_cancel (uncommented_sublist txt).length_le

/-! ## Clean texts -/

theorem infix_of_front {front txt word : List Char} {c : Char} (hfront : c ∉ front)
    (h : c :: word <:+: front ++ txt) : c :: word <:+: txt := by
  induction front with
  | nil =>
      exact h
  | cons d front ih =>
      rcases List.infix_cons_iff.1 h with hhere | hlater
      · have hc := (List.cons_prefix_cons.1 hhere).1
        exact absurd (hc ▸ List.mem_cons_self) hfront
      · exact ih (fun hmem => hfront (List.mem_cons_of_mem _ hmem)) hlater

/-- The last line of the text behind, with a part of the text in front when that has one line. -/
theorem lastLine_append (front txt : List Char) :
    ∃ part, part <:+ front ∧ lastLine (front ++ txt) = part ++ lastLine txt ∧
      ('\n' ∈ txt → part = []) := by
  induction txt using List.reverseRecOn with
  | nil =>
      exact ⟨lastLine front, List.rtakeWhile_suffix _ _, by rw [List.append_nil]; exact (List.append_nil _).symm,
        fun h => absurd h List.not_mem_nil⟩
  | append_singleton txt c ih =>
      by_cases hc : c = '\n'
      · have hlast : ∀ txt : List Char, lastLine (txt ++ [c]) = [] := fun txt =>
          List.rtakeWhile_concat_neg _ _ _ (by simp [hc])
        exact ⟨[], List.nil_suffix, by rw [← List.append_assoc, hlast, hlast]; rfl, fun _ => rfl⟩
      · have hlast : ∀ txt : List Char, lastLine (txt ++ [c]) = lastLine txt ++ [c] := fun txt =>
          List.rtakeWhile_concat_pos _ _ _ (by simpa using hc)
        rcases ih with ⟨part, hpart, heq, hnone⟩
        refine ⟨part, hpart, ?_, fun hmem => hnone ?_⟩
        · rw [← List.append_assoc, hlast, hlast, heq, List.append_assoc]
        · simpa [Ne.symm hc] using hmem

theorem Clean.behind {front txt : List Char} (hfront : '/' ∉ front) (h : Clean (front ++ txt)) :
    Clean txt := by
  have hblocks := h.blocks
  have hline := h.line
  rw [BlocksClosed, withoutBlocks_append hfront] at hblocks
  rw [withoutBlocks_append hfront] at hline
  refine ⟨fun hopen => hblocks (hopen.trans (List.suffix_append _ _).isInfix), fun hopen => hline ?_⟩
  rcases lastLine_append front (withoutBlocks txt) with ⟨part, -, heq, -⟩
  rw [heq]
  exact hopen.trans (List.suffix_append _ _).isInfix

theorem Clean.inFront {front txt : List Char} (hfront : '/' ∉ front) (h : Clean txt) :
    Clean (front ++ txt) := by
  refine ⟨fun hopen => h.blocks ?_, fun hopen => h.line ?_⟩
  · rw [withoutBlocks_append hfront] at hopen
    exact infix_of_front hfront hopen
  · rw [withoutBlocks_append hfront] at hopen
    rcases lastLine_append front (withoutBlocks txt) with ⟨part, hpart, heq, -⟩
    rw [heq] at hopen
    exact infix_of_front (fun hmem => hfront (hpart.subset hmem)) hopen

theorem clean_plain {txt : List Char} (h : '/' ∉ txt) : Clean txt := by
  have hnil : Clean [] := ⟨by rw [BlocksClosed]; decide +kernel, by decide +kernel⟩
  have hfront := hnil.inFront h
  rwa [List.append_nil] at hfront

/-- A line break at the end is not kept. -/
theorem uncommented_concat_newline (txt : List Char) : uncommented (txt ++ ['\n']) = uncommented txt := by
  rcases joinLines_newline (withoutBlocks txt) [] with ⟨sep, -, heq, -, hnone⟩
  rw [hnone rfl, List.append_nil] at heq
  rw [uncommented, withoutBlocks_concat (by decide), heq]
  exact List.append_nil _

theorem cutLine_open {line more : List Char} (h : ['/', '/'] <:+: line) :
    cutLine (line ++ more) = cutLine line := by
  induction line with
  | nil =>
      exact absurd (List.infix_nil.1 h) (by decide)
  | cons c line ih =>
      by_cases hhere : c = '/' ∧ line.head? = some '/'
      · rcases hhere with ⟨rfl, hhead⟩
        cases line with
        | nil =>
            cases hhead
        | cons d line =>
            have hd : d = '/' := Option.some.inj hhead
            rw [hd, List.cons_append, List.cons_append, cutLine_comment, cutLine_comment]
      · rcases List.infix_cons_iff.1 h with hstarts | hlater
        · rcases List.cons_prefix_cons.1 hstarts with ⟨rfl, hrest⟩
          rcases hrest with ⟨rest, rfl⟩
          exact absurd ⟨rfl, rfl⟩ hhere
        · have hne : line ≠ [] := by
            rintro rfl
            exact absurd (List.infix_nil.1 hlater) (by decide)
          have hmiss : ¬ (c = '/' ∧ (line ++ more).head? = some '/') := by
            rwa [List.head?_append_of_ne_nil _ hne]
          rw [List.cons_append, cutLine_cons hmiss, ih hlater, cutLine_cons hhere]

/-- Behind an open line comment nothing is kept. -/
theorem not_mem_uncommented_open {txt : List Char} {c : Char} (hslash : c ≠ '/') (hbreak : c ≠ '\n')
    (hopen : ['/', '/'] <:+: lastLine (withoutBlocks txt)) (hnone : c ∉ txt) :
    c ∉ uncommented (txt ++ [c]) := by
  have hpart : ∀ part : List Char, part.Sublist (withoutBlocks txt) → c ∉ part := fun part hpart hmem =>
    hnone ((hpart.trans (withoutBlocks_sublist txt)).subset hmem)
  have hline : ∀ line : List Char, line.Sublist (withoutBlocks txt) → ['/', '/'] <:+: line →
      c ∉ cutLine (line ++ [c]) := by
    intro line hsub hinside hmem
    rw [cutLine_open hinside] at hmem
    exact hpart line hsub (cutLine_subset hmem)
  rw [uncommented, withoutBlocks_concat hslash]
  rcases exists_lastLine (withoutBlocks txt) with ⟨hno, hlast⟩ | ⟨front, hsplit, hno⟩
  · rw [hlast] at hopen
    rw [joinLines_line (by simp [hno, Ne.symm hbreak])]
    exact hline _ (List.Sublist.refl _) hopen
  · rcases joinLines_newline front (lastLine (withoutBlocks txt) ++ [c]) with ⟨sep, hsep, heq, -⟩
    have hlast : '\n' ∉ lastLine (withoutBlocks txt) ++ [c] := by
      simp [hno, Ne.symm hbreak]
    rw [joinLines_line hlast] at heq
    have hwhole : withoutBlocks txt ++ [c] = front ++ '\n' :: (lastLine (withoutBlocks txt) ++ [c]) := by
      conv_lhs => rw [hsplit]
      simp
    have hsub : front.Sublist (withoutBlocks txt) := by
      conv_rhs => rw [hsplit]
      exact List.sublist_append_left _ _
    rw [hwhole, heq]
    intro hmem
    rcases List.mem_append.1 hmem with hmem | hmem
    · rcases List.mem_append.1 hmem with hmem | hmem
      · exact hpart _ ((joinLines_sublist front).trans hsub) hmem
      · rcases hsep with rfl | rfl
        · exact absurd hmem List.not_mem_nil
        · exact hbreak (List.mem_singleton.1 hmem)
    · exact hline _ (List.rtakeWhile_suffix _ _).sublist hopen hmem

end FfiDef
end LuajitTcpServer
