import LuajitTcpServer.FfiDef.Accounting

/-!
# Regenerate — a run over the result of a run

`ffi_def_create.lua` writes its definitions over an old target file: it keeps the text up to the
mark for the generated code, and cuts off what is behind.  The mark is read as a pattern, where its
dashes repeat what is in front of them, so that it is a run of dashes, the words, a run of blanks
and one dash.  The text that is kept contains the first of these marks, whatever comes behind it, so
a run over the result of a run starts from the same text (`regenerated_from_same`).
-/

namespace LuajitTcpServer
namespace FfiDef
namespace Generate

open Lua Loops

def generatedStart : List Char := "-- generated code start --".toList

/-- What is kept of a target file.  One character behind the mark is kept, which is the second dash
of the mark as it is written. -/
def keptCode (code : List Char) : Except Error (List Char) := do
  match ← find code generatedStart 1 false with
  | some (_, posEnd) => pure (sub code 1 (posEnd + 1 : Nat) ++ ['\n'])
  | none => pure code

/-! ## Marks -/

def markWord : List Char := " generated code start".toList

def markItems : List Item :=
  .minus (.char '-') ::
    ((markWord.map .char).map .one ++ [.minus (.char ' '), .one (.char '-')])

theorem parse_generatedStart : parse generatedStart = markItems := by decide +kernel

structure Mark (text : List Char) : Prop where
  exists_parts : ∃ dashes spaces, text = dashes ++ (markWord ++ (spaces ++ ['-'])) ∧
    (∀ c ∈ dashes, c = '-') ∧ ∀ c ∈ spaces, c = ' '

theorem holds_char_iff {c d : Char} : (Single.char c).holds d = true ↔ d = c := by
  simp [Single.holds, eq_comm]

theorem spells_markWord : Spells (markWord.map .char) markWord := by
  have hchars : ∀ word : List Char, Spells (word.map .char) word := by
    intro word
    induction word with
    | nil =>
        exact .nil
    | cons c word ih =>
        exact .cons (fun d => by simp [Single.holds, eq_comm]) ih
  exact hchars markWord

theorem Mark.reach {text : List Char} (h : Mark text) (other : List Char) :
    Lua.reach markItems (text ++ other) = some other := by
  rcases h.exists_parts with ⟨dashes, spaces, rfl, hdashes, hspaces⟩
  have hend : Lua.reach [.minus (.char ' '), .one (.char '-')] ((spaces ++ ['-']) ++ other) =
      some other := by
    rw [List.append_assoc]
    refine reachMin_eq (fun c hc => holds_char_iff.2 (hspaces c hc)) ?_ rfl
    intro first last heq hne
    rcases List.exists_cons_of_ne_nil hne with ⟨c, last, rfl⟩
    have hc : c = ' ' := hspaces c (by rw [heq]; simp)
    rw [hc]
    rfl
  have hword : ∀ rest, Lua.reach ((markWord.map .char).map .one ++
      [.minus (.char ' '), .one (.char '-')]) (markWord ++ rest) =
        Lua.reach [.minus (.char ' '), .one (.char '-')] rest := by
    intro rest
    rw [reach_ones, spells_markWord.append]
    rfl
  have htext : (dashes ++ (markWord ++ (spaces ++ ['-']))) ++ other =
      dashes ++ (markWord ++ ((spaces ++ ['-']) ++ other)) := by simp
  rw [htext]
  refine reachMin_eq (fun c hc => holds_char_iff.2 (hdashes c hc)) ?_ ((hword _).trans hend)
  intro first last heq hne
  rcases List.exists_cons_of_ne_nil hne with ⟨c, last, rfl⟩
  have hc : c = '-' := hdashes c (by rw [heq]; simp)
  rw [hc]
  rfl

theorem mark_of_reach {txt left : List Char} (h : Lua.reach markItems txt = some left) :
    ∃ text, Mark text ∧ txt = text ++ left := by
  rcases reachMin_some h with ⟨dashes, rest, rfl, hdashes, hrest⟩
  rw [reach_ones, Option.bind_eq_some_iff] at hrest
  rcases hrest with ⟨behind, hread, hbehind⟩
  rw [spells_markWord.eq_append hread]
  rcases reachMin_some hbehind with ⟨spaces, last, rfl, hspaces, hlast⟩
  cases last with
  | nil =>
      cases hlast
  | cons c last =>
      rw [Lua.reach] at hlast
      split at hlast
      · rename_i hc
        cases hlast
        rw [holds_char_iff.1 hc]
        exact ⟨dashes ++ (markWord ++ (spaces ++ ['-'])), ⟨dashes, spaces, rfl,
          fun c hc => holds_char_iff.1 (hdashes c hc),
          fun c hc => holds_char_iff.1 (hspaces c hc)⟩, by simp⟩
      · cases hlast

/-- The words of the mark do not overlap with themselves. -/
theorem markWord_no_border {front back rest more : List Char} (hfront : front ≠ [])
    (hback : back ≠ []) (hword : markWord = front ++ back) :
    back ++ rest ≠ markWord ++ more := by
  intro heq
  have hlength : (front ++ back).length = 21 := by
    rw [← hword]
    rfl
  have hpos : 0 < front.length := List.length_pos_iff.2 hfront
  have hpos' : 0 < back.length := List.length_pos_iff.2 hback
  rw [List.length_append] at hlength
  have hdrop : back = markWord.drop front.length := by
    rw [hword, List.drop_left]
  have htake : back = markWord.take back.length := by
    have hcut := congrArg (List.take back.length) heq
    rwa [List.take_left, List.take_append_of_le_length (by rw [hword, List.length_append]; omega)]
      at hcut
  have hall : ∀ d < 21, 0 < d → markWord.drop d ≠ markWord.take (21 - d) := by decide +kernel
  refine hall front.length (by omega) hpos ?_
  rw [← hdrop, show 21 - front.length = back.length by omega]
  exact htake

/-- Of two places of the words, the first is wholly in front of the second. -/
theorem words_apart {front rest more : List Char} (hfront : front ≠ [])
    (heq : front ++ (markWord ++ rest) = markWord ++ more) :
    ∃ behind, front = markWord ++ behind ∧ more = behind ++ (markWord ++ rest) := by
  rcases List.append_eq_append_iff.1 heq with ⟨back, hword, hback⟩ | ⟨behind, hfront', hmore⟩
  · by_cases hnil : back = []
    · subst hnil
      rw [List.append_nil] at hword
      exact ⟨[], by rw [List.append_nil, hword], hback.symm⟩
    · exact absurd hback.symm (markWord_no_border hfront hnil hword)
  · exact ⟨behind, hfront', hmore⟩

/-- The blanks and the dash behind the words are in front of the words that follow. -/
theorem blanks_apart {spaces behind rest left : List Char} (hspaces : ∀ c ∈ spaces, c = ' ')
    (heq : spaces ++ '-' :: left = behind ++ (markWord ++ rest)) :
    ∃ more, behind = spaces ++ '-' :: more := by
  rcases List.append_eq_append_iff.1 heq with ⟨cut, hbehind, hcut⟩ | ⟨cut, hblanks, hcut⟩
  · cases cut with
    | nil =>
        cases hcut
    | cons d cut =>
        rcases List.cons_eq_cons.1 hcut with ⟨rfl, -⟩
        exact ⟨cut, hbehind⟩
  · rcases cut with _ | ⟨d, _ | ⟨e, cut⟩⟩
    · cases hcut
    · cases hcut
    · -- the second character of the words is no blank
      have he : e = ' ' := hspaces e (by rw [hblanks]; simp)
      rw [he] at hcut
      cases hcut

/-- What starts a mark in front of another one is a mark already with what is up to that one. -/
theorem mark_local {q m text left other : List Char} (hm : Mark m) (htext : Mark text)
    (hq : q ≠ []) (heq : q ++ (m ++ other) = text ++ left) :
    ∃ text', Mark text' ∧ text' <+: q ++ m := by
  induction q generalizing text with
  | nil =>
      exact absurd rfl hq
  | cons c q ih =>
      rcases htext.exists_parts with ⟨dashes, spaces, rfl, hdashes, hspaces⟩
      cases dashes with
      | cons d dashes =>
          -- a dash more in front of the mark
          have hd : d = '-' := hdashes d List.mem_cons_self
          have htail : ∀ e ∈ dashes, e = '-' := fun e he => hdashes e (List.mem_cons_of_mem _ he)
          rw [List.cons_append, List.cons_append, List.cons_append] at heq
          rcases List.cons_eq_cons.1 heq with ⟨rfl, hrest⟩
          have hmore : ∃ text', Mark text' ∧ text' <+: q ++ m := by
            cases q with
            | nil =>
                exact ⟨m, hm, List.prefix_refl _⟩
            | cons e q =>
                exact ih ⟨dashes, spaces, rfl, htail, hspaces⟩ (List.cons_ne_nil _ _) hrest
          rcases hmore with ⟨text', htext', hprefix⟩
          rcases htext'.exists_parts with ⟨dashes', spaces', rfl, hdashes', hspaces'⟩
          refine ⟨c :: (dashes' ++ (markWord ++ (spaces' ++ ['-']))), ⟨c :: dashes', spaces', rfl,
            List.forall_mem_cons.2 ⟨hd, hdashes'⟩, hspaces'⟩, ?_⟩
          exact List.cons_prefix_cons.2 ⟨rfl, hprefix⟩
      | nil =>
          rcases hm.exists_parts with ⟨dashes', spaces', rfl, hdashes', hspaces'⟩
          have hparts : (c :: (q ++ dashes')) ++ (markWord ++ (spaces' ++ '-' :: other)) =
              markWord ++ (spaces ++ '-' :: left) := by
            simpa using heq
          rcases words_apart (List.cons_ne_nil _ _) hparts with ⟨behind, hbehind, hrest⟩
          rcases blanks_apart hspaces hrest with ⟨more, rfl⟩
          refine ⟨markWord ++ (spaces ++ ['-']), ⟨[], spaces, rfl, by simp, hspaces⟩,
            more ++ (markWord ++ (spaces' ++ ['-'])), ?_⟩
          have hwhole : c :: q ++ (dashes' ++ (markWord ++ (spaces' ++ ['-']))) =
              (c :: (q ++ dashes')) ++ (markWord ++ (spaces' ++ ['-'])) := by simp
          rw [hwhole, hbehind]
          simp

/-! ## The first mark -/

theorem Mark.ne_nil {m : List Char} (h : Mark m) : m ≠ [] := by
  rcases h.exists_parts with ⟨dashes, spaces, rfl, -, -⟩
  simp

/-- The first mark is the first one whatever stands behind it. -/
theorem firstReach_mark {txt left : List Char} {skipped : Nat}
    (h : firstReach markItems txt = some (skipped, left)) :
    ∃ front m, txt = front ++ (m ++ left) ∧ Mark m ∧
      ∀ other, firstReach markItems (front ++ (m ++ other)) = some (skipped, other) := by
  induction txt generalizing skipped with
  | nil =>
      rcases Option.map_eq_some_iff.1 h with ⟨left', hreach, -⟩
      rcases mark_of_reach hreach with ⟨m, hm, hnil⟩
      exact absurd (List.append_eq_nil_iff.1 hnil.symm).1 hm.ne_nil
  | cons c txt ih =>
      rw [firstReach] at h
      cases hreach : Lua.reach markItems (c :: txt) with
      | some left' =>
          rw [hreach] at h
          cases h
          rcases mark_of_reach hreach with ⟨m, hm, htxt⟩
          refine ⟨[], m, htxt, hm, fun other => ?_⟩
          have hmark := hm.reach other
          rcases List.exists_cons_of_ne_nil hm.ne_nil with ⟨d, tail, rfl⟩
          rw [List.nil_append, List.cons_append, firstReach]
          rw [List.cons_append] at hmark
          rw [hmark]
      | none =>
          rw [hreach] at h
          rcases Option.map_eq_some_iff.1 h with ⟨⟨skipped', left'⟩, hrest, heq⟩
          cases heq
          rcases ih hrest with ⟨front, m, rfl, hm, hall⟩
          refine ⟨c :: front, m, rfl, hm, fun other => ?_⟩
          have hmiss : Lua.reach markItems (c :: (front ++ (m ++ other))) = none := by
            cases hother : Lua.reach markItems (c :: (front ++ (m ++ other))) with
            | none =>
                rfl
            | some left' =>
                rcases mark_of_reach hother with ⟨text, htext, heq⟩
                rcases mark_local hm htext (List.cons_ne_nil c front) heq with
                  ⟨text', htext', rest, hprefix⟩
                have hwhole : c :: (front ++ (m ++ left)) = text' ++ (rest ++ left) := by
                  rw [← List.append_assoc text', hprefix]
                  simp
                rw [hwhole, htext'.reach] at hreach
                cases hreach
          rw [List.cons_append, firstReach, hmiss]
          simp only [hall other, Option.map_some]

theorem find_generatedStart (code : List Char) :
    find code generatedStart 1 false =
      .ok ((firstReach markItems code).map fun (skipped, left) =>
        (skipped + 1, code.length - left.length)) := by
  have hplain : isPlain 0 0 (parse generatedStart) := by
    rw [parse_generatedStart]
    decide
  rw [find_reach (by decide) (by decide) hplain, parse_generatedStart]

/-- The text that is kept is kept again, whatever is written behind it.  The mark does not end the
text: one character behind it is kept. -/
theorem keptCode_again {code : List Char} {posStart posEnd : Nat}
    (hfind : find code generatedStart 1 false = .ok (some (posStart, posEnd)))
    (hbehind : posEnd < code.length) :
    ∃ kept, keptCode code = .ok kept ∧ ∀ added, keptCode (kept ++ added) = .ok kept := by
  have hkept : keptCode code = .ok (sub code 1 (posEnd + 1 : Nat) ++ ['\n']) := by
    rw [keptCode, hfind]
    rfl
  refine ⟨_, hkept, fun added => ?_⟩
  rw [find_generatedStart, Except.ok.injEq, Option.map_eq_some_iff] at hfind
  rcases hfind with ⟨⟨skipped, left⟩, hfirst, heq⟩
  rcases firstReach_mark hfirst with ⟨front, m, rfl, hm, hall⟩
  have hend : posEnd = front.length + m.length := by
    have hlast := (Prod.mk.inj heq).2
    simp only [List.length_append] at hlast
    omega
  cases left with
  | nil =>
      rw [List.append_nil, List.length_append, hend] at hbehind
      exact absurd hbehind (Nat.lt_irrefl _)
  | cons c left =>
      have hcut : ∀ rest, sub (front ++ (m ++ c :: rest)) 1 (posEnd + 1 : Nat) =
          front ++ (m ++ [c]) := by
        intro rest
        have hlength : (front ++ (m ++ [c])).length = posEnd + 1 := by
          simp only [List.length_append, List.length_singleton]
          omega
        have hsub := sub_positions (front ++ (m ++ c :: rest)) 1 (posEnd + 1)
        rw [Nat.sub_self, List.drop_zero] at hsub
        have htext : front ++ (m ++ c :: rest) = (front ++ (m ++ [c])) ++ rest := by simp
        rw [htext] at hsub ⊢
        rwa [← hlength, List.take_left, hlength] at hsub
      rw [hcut]
      have htext : front ++ (m ++ [c]) ++ ['\n'] ++ added =
          front ++ (m ++ c :: ('\n' :: added)) := by simp
      have hagain : find (front ++ (m ++ c :: ('\n' :: added))) generatedStart 1 false =
          .ok (some (skipped + 1, posEnd)) := by
        rw [find_generatedStart, hall]
        simp only [Option.map_some, List.length_append, List.length_cons]
        congr 3
        omega
      rw [htext, keptCode, hagain]
      show Except.ok (sub (front ++ (m ++ c :: ('\n' :: added))) 1 (posEnd + 1 : Nat) ++ ['\n']) = _
      rw [hcut]

/-! ## Runs -/

/-- A run over the result of a run starts from the same text: what the first run has written, and
the report behind it, is cut off, and nothing else. -/
theorem regenerated_from_same {header code final : List Char} {files : List SourceFile}
    {g g' : Generator} {posStart posEnd : Nat}
    (hfind : find code generatedStart 1 false = .ok (some (posStart, posEnd)))
    (hbehind : posEnd < code.length) (hkept : keptCode code = .ok g.code)
    (h : Generates header files g g') (hfinal : g'.code <+: final) :
    keptCode final = .ok g.code := by
  rcases keptCode_again hfind hbehind with ⟨kept, hcode, hagain⟩
  have hsame : kept = g.code := Except.ok.inj (hcode.symm.trans hkept)
  rcases h.grows.code.trans hfinal with ⟨added, hadded⟩
  rw [← hadded, ← hsame]
  exact hagain added

theorem regenerated_from_same_sample : ∃ g', Generates sampleHeader [sampleFile] sampleStart g' ∧
    keptCode (g'.code ++ "--[[ report ]]".toList) = .ok sampleCode := by
  rcases generates_sample with ⟨g', h⟩
  have hfind : find sampleCode generatedStart 1 false = .ok (some (1, 25)) := by decide +kernel
  have hkept : keptCode sampleCode = .ok sampleStart.code := by decide +kernel
  exact ⟨g', h, regenerated_from_same hfind (by decide) hkept h (List.prefix_append _ _)⟩

end Generate
end FfiDef
end LuajitTcpServer
