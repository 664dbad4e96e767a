import LuajitTcpServer.Lib.Searches

/-!
# Replacing — what the replacements of Lua do

For items without frontiers, references and balances, where every capture that is closed was
opened before, the matcher is a function of the text alone (`reach`).  So a replacement is one by
the lengths of the matches (`replaceBy`).
-/

namespace Lua

/-! ## Matches without captures -/

def reachMax (holds : Char → Bool) (next : List Char → Option (List Char)) :
    List Char → Option (List Char)
  | [] => next []
  | c :: rest =>
      if holds c then (reachMax holds next rest).or (next (c :: rest)) else next (c :: rest)

def reachMin (holds : Char → Bool) (next : List Char → Option (List Char)) :
    List Char → Option (List Char)
  | [] => next []
  | c :: rest => (next (c :: rest)).or (if holds c then reachMin holds next rest else none)

/-- What is left of the text behind a match. -/
def reach : List Item → List Char → Option (List Char)
  | [], rest => some rest
  | .one _ :: _, [] => none
  | .one s :: items, c :: rest => if s.holds c then reach items rest else none
  | .star s :: items, rest => reachMax s.holds (reach items) rest
  | .minus s :: items, rest => reachMin s.holds (reach items) rest
  | .openCapture :: items, rest => reach items rest
  | .closeCapture :: items, rest => reach items rest
  | .endAnchor :: items, rest => if rest = [] then reach items rest else none
  | _, _ => none

/-- The items for which `reach` tells the match, with `opened` of the captures unfinished: all of
them are closed at the end. -/
def isPlain : Nat → Nat → List Item → Bool
  | opened, _, [] => opened = 0
  | opened, total, .one _ :: items => isPlain opened total items
  | opened, total, .star _ :: items => isPlain opened total items
  | opened, total, .minus _ :: items => isPlain opened total items
  | opened, total, .endAnchor :: items => isPlain opened total items
  | opened, total, .openCapture :: items =>
      total < maxCaptures && isPlain (opened + 1) (total + 1) items
  | opened + 1, total, .closeCapture :: items => isPlain opened total items
  | _, _, _ => false

def unfinished (captures : List Capture) : Nat := captures.countP fun c => !c.isFinished

theorem closeNewest_some {rest : List Char} {captures : List Capture} {opened : Nat}
    (h : unfinished captures = opened + 1) :
    ∃ closed, closeNewest rest captures = some closed ∧ closed.length = captures.length ∧
      unfinished closed = opened := by
  induction captures generalizing opened with
  | nil =>
      cases h
  | cons capture captures ih =>
      rw [closeNewest]
      rw [unfinished, List.countP_cons] at h
      split
      · rename_i hopen
        refine ⟨_, rfl, rfl, ?_⟩
        simp only [Capture.isFinished, hopen] at h
        rw [unfinished, List.countP_cons]
        simpa [Capture.isFinished] using h
      · rename_i hclosed
        have hfinished : capture.isFinished = true := by simpa [Capture.isFinished] using hclosed
        simp only [hfinished, Bool.not_true, Bool.false_eq_true, if_false, Nat.add_zero] at h
        rcases ih h with ⟨closed, hclose, hlength, hcount⟩
        refine ⟨capture :: closed, by rw [hclose]; rfl, by simp [hlength], ?_⟩
        rw [unfinished, List.countP_cons]
        simpa [hfinished, unfinished] using hcount

/-- The matcher gives what `reach` gives, and leaves no capture open. -/
theorem matchItems_reach {items : List Item} {previous : Char} {rest : List Char}
    {captures : List Capture} (h : isPlain (unfinished captures) captures.length items) :
    ∃ found, matchItems items previous rest captures = .ok found ∧
      found.map Match.rest = reach items rest ∧ ∀ m ∈ found, m.captures.all (·.isFinished) := by
  induction items generalizing previous rest captures with
  | nil =>
      refine ⟨_, rfl, rfl, ?_⟩
      rintro m ⟨⟩
      have hnone : unfinished captures = 0 := by simpa [isPlain] using h
      rw [unfinished, List.countP_eq_zero] at hnone
      simpa using hnone
  | cons item items ih =>
      cases item with
      | one s =>
          cases rest with
          | nil =>
              exact ⟨none, rfl, rfl, by simp⟩
          | cons c rest =>
              rw [matchItems, reach]
              split
              · exact ih h
              · exact ⟨none, rfl, rfl, by simp⟩
      | star s =>
          rw [matchItems, reach]
          induction rest generalizing previous with
          | nil =>
              exact ih h
          | cons c rest ihrest =>
              rw [maxExpand, reachMax]
              split
              · rcases @ihrest c with ⟨found, hfound, hreach, hfinished⟩
                rw [hfound]
                cases found with
                | none =>
                    rw [← hreach]
                    exact ih h
                | some found =>
                    exact ⟨some found, rfl, by rw [← hreach]; rfl, hfinished⟩
              · exact ih h
      | minus s =>
          rw [matchItems, reach]
          induction rest generalizing previous with
          | nil =>
              exact ih h
          | cons c rest ihrest =>
              rcases @ih previous (c :: rest) captures h with ⟨found, hfound, hreach, hfinished⟩
              rw [minExpand, reachMin, hfound]
              cases found with
              | none =>
                  rw [← hreach, Option.map_none, Option.none_or]
                  simp only
                  split
                  · exact @ihrest c
                  · exact ⟨none, rfl, rfl, by simp⟩
              | some found =>
                  exact ⟨some found, rfl, by rw [← hreach]; rfl, hfinished⟩
      | openCapture =>
          rw [isPlain, Bool.and_eq_true, decide_eq_true_eq] at h
          have hcaptures : isPlain (unfinished (⟨rest, .unfinished⟩ :: captures))
              (captures.length + 1) items := by
            rw [unfinished, List.countP_cons]
            exact h.2
          rw [matchItems, openNewest, if_pos h.1]
          exact ih hcaptures
      | closeCapture =>
          cases hopened : unfinished captures with
          | zero =>
              rw [hopened] at h
              cases h
          | succ opened =>
              rw [hopened, isPlain] at h
              rcases @closeNewest_some rest _ _ hopened with
                ⟨closed, hclosed, hlength, hcount⟩
              rw [matchItems, hclosed]
              refine ih ?_
              rw [hcount, hlength]
              exact h
      | endAnchor =>
          rw [matchItems, reach]
          split
          · exact ih h
          · exact ⟨none, rfl, rfl, by simp⟩
      | optional s =>
          cases h
      | plus s =>
          cases h
      | positionCapture =>
          cases h
      | backReference index =>
          cases h
      | balance opening closing =>
          cases h
      | frontier s =>
          cases h
      | malformed e =>
          cases h

section Reach

variable {items : List Item} {singles : List Single} {holds : Char → Bool} {txt rest left : List Char}
  {next : List Char → Option (List Char)}

theorem reach_ones : reach (singles.map .one ++ items) txt =
    (readSingles singles txt).bind (reach items) := by
  induction singles generalizing txt with
  | nil =>
      rfl
  | cons s singles ih =>
      cases txt with
      | nil =>
          rfl
      | cons c txt =>
          rw [List.map_cons, List.cons_append, reach, readSingles]
          split
          · exact ih
          · rfl

/-- The singles stand for one word only. -/
def Spells (singles : List Single) (word : List Char) : Prop :=
  List.Forall₂ (fun s w => ∀ c, s.holds c = decide (c = w)) singles word

theorem Spells.append {word : List Char} (h : Spells singles word) :
    readSingles singles (word ++ rest) = some rest := by
  induction h with
  | nil =>
      rfl
  | cons hs _ ih =>
      rw [List.cons_append, readSingles, hs, decide_eq_true rfl, if_pos rfl, ih]

theorem Spells.eq_append {word : List Char} (h : Spells singles word)
    (hread : readSingles singles txt = some rest) : txt = word ++ rest := by
  induction h generalizing txt with
  | nil =>
      cases hread
      rfl
  | cons hs _ ih =>
      cases txt with
      | nil =>
          cases hread
      | cons c txt =>
          rw [readSingles, hs] at hread
          split at hread
          · rename_i hc
            rw [of_decide_eq_true hc, List.cons_append, ih hread]
          · cases hread

/-- The first place behind `before` where `next` goes on. -/
theorem reachMin_eq {before : List Char} (hholds : ∀ c ∈ before, holds c)
    (hbefore : ∀ first last, before = first ++ last → last ≠ [] → next (last ++ rest) = none)
    (hnext : next rest = some left) : reachMin holds next (before ++ rest) = some left := by
  induction before with
  | nil =>
      cases rest with
      | nil =>
          exact hnext
      | cons c rest =>
          rw [List.nil_append, reachMin, hnext, Option.some_or]
  | cons c before ih =>
      have hhere := hbefore [] (c :: before) rfl (List.cons_ne_nil _ _)
      rw [List.cons_append] at hhere
      rw [List.cons_append, reachMin, hhere, Option.none_or, hholds c List.mem_cons_self, if_pos rfl]
      exact ih (fun d hd => hholds d (List.mem_cons_of_mem _ hd))
        fun first last heq => hbefore (c :: first) last (congrArg (c :: ·) heq)

theorem reachMin_some (h : reachMin holds next txt = some left) :
    ∃ before rest, txt = before ++ rest ∧ (∀ c ∈ before, holds c) ∧ next rest = some left := by
  induction txt with
  | nil =>
      exact ⟨[], [], rfl, by simp, h⟩
  | cons c txt ih =>
      rw [reachMin] at h
      cases hnext : next (c :: txt) with
      | some left' =>
          rw [hnext] at h
          cases h
          exact ⟨[], c :: txt, rfl, by simp, hnext⟩
      | none =>
          rw [hnext, Option.none_or] at h
          split at h
          · rename_i hc
            rcases ih h with ⟨before, rest, rfl, hall, hrest⟩
            refine ⟨c :: before, rest, rfl, ?_, hrest⟩
            intro d hd
            rcases List.mem_cons.1 hd with rfl | hd
            · exact hc
            · exact hall d hd
          · cases h

/-- The characters that hold are skipped when nothing goes on at them. -/
theorem reachMin_skip (h : ∀ c rest, holds c → next (c :: rest) = none) :
    reachMin holds next txt = next (txt.dropWhile holds) := by
  induction txt with
  | nil =>
      rfl
  | cons c txt ih =>
      rw [reachMin, List.dropWhile_cons]
      split
      · rename_i hc
        rw [h c txt hc, Option.none_or, ih]
      · rw [Option.or_none]

end Reach

/-! ## Replacements -/

/-- The characters that a match takes here. -/
def matchLength (items : List Item) (rest : List Char) : Option Nat :=
  (reach items rest).map fun left => rest.length - left.length

/-- The places where `lengthAt` gives a length are replaced, from left to right; `skip` characters
belong to the last one. -/
def replaceBy {α : Type} (lengthAt : List α → Option Nat) (replacement : List α) :
    Nat → List α → List α
  | _, [] => []
  | 0, c :: rest =>
      match lengthAt (c :: rest) with
      | none => c :: replaceBy lengthAt replacement 0 rest
      | some 0 => replacement ++ c :: replaceBy lengthAt replacement 0 rest
      | some (taken + 1) => replacement ++ replaceBy lengthAt replacement taken rest
  | skip + 1, _ :: rest => replaceBy lengthAt replacement skip rest

section ReplaceBy

variable {α : Type} {lengthAt : List α → Option Nat} {replacement : List α}

theorem replaceBy_nil : replaceBy lengthAt replacement 0 [] = [] := by
  rw [replaceBy]

theorem replaceBy_miss {c : α} {rest : List α} (h : lengthAt (c :: rest) = none) :
    replaceBy lengthAt replacement 0 (c :: rest) = c :: replaceBy lengthAt replacement 0 rest := by
  rw [replaceBy, h]

theorem replaceBy_skip {piece rest : List α} :
    replaceBy lengthAt replacement piece.length (piece ++ rest) =
      replaceBy lengthAt replacement 0 rest := by
  induction piece with
  | nil =>
      rfl
  | cons c piece ih =>
      rw [List.length_cons, List.cons_append, replaceBy, ih]

theorem replaceBy_hit {piece rest : List α} (hne : piece ≠ [])
    (h : lengthAt (piece ++ rest) = some piece.length) :
    replaceBy lengthAt replacement 0 (piece ++ rest) =
      replacement ++ replaceBy lengthAt replacement 0 rest := by
  cases piece with
  | nil =>
      exact absurd rfl hne
  | cons c piece =>
      rw [List.cons_append, List.length_cons] at h
      rw [List.cons_append, replaceBy, h]
      simp only [replaceBy_skip]

/-- Where nothing is found, nothing is replaced. -/
theorem replaceBy_miss_all {before rest : List α}
    (h : ∀ left right, before = left ++ right → right ≠ [] → lengthAt (right ++ rest) = none) :
    replaceBy lengthAt replacement 0 (before ++ rest) =
      before ++ replaceBy lengthAt replacement 0 rest := by
  induction before with
  | nil =>
      rfl
  | cons c before ih =>
      have hrest := ih fun left right heq => h (c :: left) right (congrArg (c :: ·) heq)
      have hhere : lengthAt (c :: (before ++ rest)) = none :=
        h [] (c :: before) rfl (List.cons_ne_nil _ _)
      rw [List.cons_append, replaceBy_miss hhere, hrest, List.cons_append]

theorem replaceBy_length_le (h : ∀ rest n, lengthAt rest = some n → replacement.length < n)
    (hle : ∀ rest n, lengthAt rest = some n → n ≤ rest.length) (skip : Nat) (txt : List α) :
    (replaceBy lengthAt replacement skip txt).length ≤ txt.length - skip := by
  induction txt generalizing skip with
  | nil =>
      cases skip <;> exact Nat.zero_le _
  | cons c txt ih =>
      cases skip with
      | succ skip =>
          rw [replaceBy, List.length_cons, Nat.add_sub_add_right]
          exact ih skip
      | zero =>
          have hrest := ih 0
          rw [replaceBy]
          cases hlength : lengthAt (c :: txt) with
          | none =>
              simp only [List.length_cons]
              omega
          | some n =>
              have hshort := h _ n hlength
              have hbound := hle _ n hlength
              rw [List.length_cons] at hbound
              cases n with
              | zero =>
                  omega
              | succ taken =>
                  have htaken := ih taken
                  simp only [List.length_append, List.length_cons]
                  omega

/-- Replacements that are shorter than what they replace make the text shorter. -/
theorem replaceBy_shorter (h : ∀ rest n, lengthAt rest = some n → replacement.length < n)
    (hle : ∀ rest n, lengthAt rest = some n → n ≤ rest.length) (txt : List α) :
    (replaceBy lengthAt replacement 0 txt).length < txt.length ∨
      ∀ before rest, txt = before ++ rest → rest ≠ [] → lengthAt rest = none := by
  induction txt with
  | nil =>
      refine Or.inr fun before rest heq hne => absurd ?_ hne
      exact (List.append_eq_nil_iff.1 heq.symm).2
  | cons c txt ih =>
      rw [replaceBy]
      cases hlength : lengthAt (c :: txt) with
      | none =>
          simp only [List.length_cons]
          refine ih.imp Nat.succ_lt_succ fun hnone before rest heq hne => ?_
          rcases List.cons_eq_append_iff.1 heq with ⟨-, rfl⟩ | ⟨before, -, htxt⟩
          · exact hlength
          · exact hnone before rest htxt hne
      | some n =>
          have hshort := h _ n hlength
          have hbound := hle _ n hlength
          rw [List.length_cons] at hbound
          cases n with
          | zero =>
              omega
          | succ taken =>
              have htaken := replaceBy_length_le h hle taken txt
              refine Or.inl ?_
              simp only [List.length_append, List.length_cons]
              omega

end ReplaceBy

section Plain

variable {items : List Item} {replacement txt pattern : List Char}

theorem gsubFrom_plain (hplain : isPlain 0 0 items) (hnil : reach items [] = none) (skip : Nat)
    (previous : Char) :
    gsubFrom items replacement skip previous txt =
      .ok (replaceBy (matchLength items) replacement skip txt) := by
  have hmatch : ∀ previous rest, ∃ found, matchItems items previous rest [] = .ok found ∧
      found.map (Match.taken rest) = matchLength items rest := by
    intro previous rest
    rcases @matchItems_reach _ previous rest [] hplain with
      ⟨found, hfound, hreach, -⟩
    refine ⟨found, hfound, ?_⟩
    rw [matchLength, ← hreach, Option.map_map]
    rfl
  induction txt generalizing skip previous with
  | nil =>
      rcases hmatch previous [] with ⟨found, hfound, hlength⟩
      have hnone : found = none := by
        rw [matchLength, hnil, Option.map_none, Option.map_eq_none_iff] at hlength
        exact hlength
      cases skip with
      | zero =>
          rw [gsubFrom, hfound, hnone]
          rfl
      | succ skip =>
          rfl
  | cons c txt ih =>
      cases skip with
      | succ skip =>
          rw [gsubFrom, replaceBy, ih]
      | zero =>
          rcases hmatch previous (c :: txt) with ⟨found, hfound, hlength⟩
          rw [gsubFrom, replaceBy, hfound, ← hlength]
          cases found with
          | none =>
              simp only [ih]
              rfl
          | some found =>
              simp only [Option.map_some]
              cases found.taken (c :: txt) with
              | zero =>
                  simp only [ih]
                  rfl
              | succ taken =>
                  simp only [ih]
                  rfl

theorem gsub_plain (hanchor : anchor pattern = (false, pattern))
    (hplain : isPlain 0 0 (parse pattern)) (hnil : reach (parse pattern) [] = none) :
    gsub txt pattern replacement =
      .ok (replaceBy (matchLength (parse pattern)) replacement 0 txt) := by
  rw [gsub, hanchor]
  exact gsubFrom_plain hplain hnil 0 _

/-- A pattern at the start of the text. -/
theorem gsub_anchored {anchored : List Char} (hanchor : anchor anchored = (true, pattern))
    (hplain : isPlain 0 0 (parse pattern)) :
    gsub txt anchored replacement =
      .ok ((reach (parse pattern) txt).elim txt fun rest => replacement ++ rest) := by
  rcases @matchItems_reach _ '\x00' txt [] hplain with
    ⟨found, hfound, hreach, -⟩
  rw [gsub, hanchor]
  simp only [hfound, ← hreach]
  cases found <;> rfl

/-- The first place where the items match, and what is left behind it. -/
def firstReach (items : List Item) : List Char → Option (Nat × List Char)
  | [] => (reach items []).map fun left => (0, left)
  | c :: rest =>
      match reach items (c :: rest) with
      | some left => some (0, left)
      | none => (firstReach items rest).map fun (skipped, left) => (skipped + 1, left)

theorem search_plain (hplain : isPlain 0 0 items) (previous : Char) :
    ∃ result, search items false previous txt = .ok result ∧
      result.map (fun (skipped, found) => (skipped, found.rest)) = firstReach items txt ∧
      ∀ skipped found, result = some (skipped, found) → found.captures.all (·.isFinished) := by
  induction txt generalizing previous with
  | nil =>
      rcases @matchItems_reach _ previous [] [] hplain with
        ⟨found, hfound, hreach, hfinished⟩
      rw [search, hfound, firstReach, ← hreach]
      cases found with
      | none =>
          exact ⟨none, rfl, rfl, by simp⟩
      | some found =>
          refine ⟨some (0, found), rfl, rfl, ?_⟩
          rintro skipped m ⟨⟩
          exact hfinished _ rfl
  | cons c txt ih =>
      rcases @matchItems_reach _ previous (c :: txt) [] hplain with
        ⟨found, hfound, hreach, hfinished⟩
      rw [search, hfound, firstReach, ← hreach]
      cases found with
      | none =>
          rcases ih c with ⟨result, hresult, hfirst, hall⟩
          refine ⟨result.map fun (skipped, found) => (skipped + 1, found), ?_, ?_, ?_⟩
          · simp only [orGoOn, Bool.false_eq_true, if_false, hresult]
            rfl
          · rw [Option.map_none, ← hfirst, Option.map_map, Option.map_map]
            rfl
          · intro skipped m hm
            rcases Option.map_eq_some_iff.1 hm with ⟨⟨skipped', found⟩, hsome, heq⟩
            cases heq
            exact hall skipped' _ hsome
      | some found =>
          refine ⟨some (0, found), rfl, rfl, ?_⟩
          rintro skipped m ⟨⟩
          exact hfinished _ rfl

/-- A search from the start of the text. -/
theorem find_reach (hspecial : pattern.any isSpecial = true)
    (hanchor : anchor pattern = (false, pattern)) (hplain : isPlain 0 0 (parse pattern)) :
    find txt pattern 1 false =
      .ok ((firstReach (parse pattern) txt).map fun (skipped, left) =>
        (skipped + 1, txt.length - left.length)) := by
  rcases @search_plain _ txt hplain '\x00' with ⟨result, hresult, hfirst, hall⟩
  simp only [find, hspecial, hanchor, Nat.sub_self, Nat.zero_min, List.take_zero, List.drop_zero,
    List.getLastD_nil, hresult, ← hfirst]
  cases result with
  | none =>
      rfl
  | some result =>
      rcases result with ⟨skipped, found⟩
      simp [hall skipped found rfl]

/-- A search for a pattern that is anchored. -/
theorem find_anchored {anchored : List Char} (hspecial : anchored.any isSpecial = true)
    (hanchor : anchor anchored = (true, pattern)) (hplain : isPlain 0 0 (parse pattern)) :
    find txt anchored 1 false =
      .ok ((reach (parse pattern) txt).map fun left => (1, txt.length - left.length)) := by
  rcases @matchItems_reach _ '\x00' txt [] hplain with
    ⟨found, hfound, hreach, hfinished⟩
  have hsearch : search (parse pattern) true '\x00' txt =
      .ok (found.map fun m => (0, m)) := by
    cases txt with
    | nil =>
        rw [search, hfound]
        cases found <;> rfl
    | cons c txt =>
        rw [search, hfound]
        cases found <;> rfl
  simp only [find, hspecial, hanchor, Nat.sub_self, Nat.zero_min, List.take_zero, List.drop_zero,
    List.getLastD_nil, hsearch, ← hreach]
  cases found with
  | none =>
      rfl
  | some found =>
      simp [hfinished found rfl]

theorem firstReach_none (h : firstReach items txt = none) {before rest : List Char}
    (heq : txt = before ++ rest) : reach items rest = none := by
  induction txt generalizing before with
  | nil =>
      rcases List.append_eq_nil_iff.1 heq.symm with ⟨-, rfl⟩
      rw [firstReach, Option.map_eq_none_iff] at h
      exact h
  | cons c txt ih =>
      rw [firstReach] at h
      cases hreach : reach items (c :: txt) with
      | some left =>
          rw [hreach] at h
          cases h
      | none =>
          rw [hreach] at h
          rcases List.cons_eq_append_iff.1 heq with ⟨-, rfl⟩ | ⟨before, -, htxt⟩
          · exact hreach
          · exact ih (Option.map_eq_none_iff.1 h) htxt

theorem firstReach_some {skipped : Nat} {left : List Char}
    (h : firstReach items txt = some (skipped, left)) :
    skipped ≤ txt.length ∧ reach items (txt.drop skipped) = some left := by
  induction txt generalizing skipped with
  | nil =>
      rw [firstReach] at h
      rcases Option.map_eq_some_iff.1 h with ⟨left', hreach, heq⟩
      cases heq
      exact ⟨Nat.le_refl _, hreach⟩
  | cons c txt ih =>
      rw [firstReach] at h
      cases hreach : reach items (c :: txt) with
      | some left' =>
          rw [hreach] at h
          cases h
          exact ⟨Nat.zero_le _, hreach⟩
      | none =>
          rw [hreach] at h
          rcases Option.map_eq_some_iff.1 h with ⟨⟨skipped', left'⟩, hrest, heq⟩
          cases heq
          rcases ih hrest with ⟨hle, hleft⟩
          exact ⟨Nat.succ_le_succ hle, hleft⟩

theorem firstReach_one {s : Single} :
    firstReach [.one s] txt = (txt.findIdx? s.holds).map fun k => (k, txt.drop (k + 1)) := by
  induction txt with
  | nil =>
      rfl
  | cons c txt ih =>
      rw [firstReach, reach, List.findIdx?_cons]
      cases hc : s.holds c with
      | true =>
          rfl
      | false =>
          simp only [Bool.false_eq_true, if_false, ih, Option.map_map]
          rfl

/-- A search for a character of a set. -/
theorem find_one {s : Single} (hspecial : pattern.any isSpecial = true)
    (hanchor : anchor pattern = (false, pattern)) (hparse : parse pattern = [.one s]) :
    find txt pattern 1 false = .ok ((txt.findIdx? s.holds).map fun k => (k + 1, k + 1)) := by
  have hplain : isPlain 0 0 (parse pattern) := by
    rw [hparse]
    rfl
  rw [find_reach hspecial hanchor hplain, hparse, firstReach_one]
  cases hidx : txt.findIdx? s.holds with
  | none =>
      rfl
  | some k =>
      have hlt := (List.findIdx?_eq_some_iff_getElem.1 hidx).1
      simp only [Option.map_some, List.length_drop]
      rw [show txt.length - (txt.length - (k + 1)) = k + 1 by omega]

end Plain

/-! ## Replacing a word -/

/-- Every `word` that is found from left to right is replaced. -/
def replaceAll (word replacement txt : List Char) : List Char :=
  replaceBy (fun rest => if word.isPrefixOf rest then some word.length else none) replacement 0 txt

section Words

variable {singles : List Single} {word replacement txt pattern : List Char}

theorem matchLength_spells (h : Spells singles word) :
    matchLength (singles.map .one) =
      fun rest => if word.isPrefixOf rest then some word.length else none := by
  funext rest
  have hreach := @reach_ones [] singles rest
  rw [List.append_nil] at hreach
  rw [matchLength, hreach]
  split
  · rename_i hword
    rcases List.isPrefixOf_iff_prefix.1 hword with ⟨left, rfl⟩
    rw [h.append]
    simp [reach]
  · rename_i hword
    cases hread : readSingles singles rest with
    | none =>
        rfl
    | some left =>
        refine absurd ?_ hword
        rw [h.eq_append hread]
        exact List.isPrefixOf_iff_prefix.2 (List.prefix_append _ _)

theorem isPlain_ones (singles : List Single) : isPlain 0 0 (singles.map .one) := by
  induction singles with
  | nil =>
      rfl
  | cons s singles ih =>
      exact ih

theorem gsub_spells (hanchor : anchor pattern = (false, pattern))
    (hparse : parse pattern = singles.map .one) (hspells : Spells singles word)
    (hne : word ≠ []) :
    gsub txt pattern replacement = .ok (replaceAll word replacement txt) := by
  have hnil : reach (singles.map .one) [] = none := by
    cases hspells with
    | nil =>
        exact absurd rfl hne
    | cons =>
        rfl
  rw [gsub_plain hanchor (by rw [hparse]; exact isPlain_ones singles) (by rw [hparse]; exact hnil),
    hparse, matchLength_spells hspells]
  rfl

/-- Nothing is matched when a single finds no character. -/
theorem reach_absent {items : List Item} {s : Single} (hs : .one s ∈ items)
    (h : ∀ c ∈ txt, s.holds c = false) : reach items txt = none := by
  induction items generalizing txt with
  | nil =>
      cases hs
  | cons item items ih =>
      have hitems : item ≠ .one s → ∀ {rest : List Char}, (∀ c ∈ rest, s.holds c = false) →
          reach items rest = none := by
        intro hne rest hrest
        exact ih ((List.mem_cons.1 hs).resolve_left hne.symm) hrest
      cases item with
      | one s' =>
          cases txt with
          | nil =>
              rfl
          | cons c txt =>
              rw [reach]
              split
              · rename_i hc
                refine hitems ?_ fun d hd => h d (List.mem_cons_of_mem _ hd)
                rintro heq
                rw [Item.one.inj heq, h c List.mem_cons_self] at hc
                cases hc
              · rfl
      | star s' =>
          rw [reach]
          induction txt with
          | nil =>
              exact hitems (by simp) h
          | cons c txt ihtxt =>
              have hrest := ihtxt fun d hd => h d (List.mem_cons_of_mem _ hd)
              have hhere := hitems (by simp) h
              rw [reachMax, hrest, hhere]
              simp
      | minus s' =>
          rw [reach]
          induction txt with
          | nil =>
              exact hitems (by simp) h
          | cons c txt ihtxt =>
              have hrest := ihtxt fun d hd => h d (List.mem_cons_of_mem _ hd)
              have hhere := hitems (by simp) h
              rw [reachMin, hrest, hhere]
              simp
      | openCapture =>
          exact hitems (by simp) h
      | closeCapture =>
          exact hitems (by simp) h
      | endAnchor =>
          rw [reach]
          split
          · exact hitems (by simp) h
          · rfl
      | optional s' =>
          rfl
      | plus s' =>
          rfl
      | positionCapture =>
          rfl
      | backReference index =>
          rfl
      | balance opening closing =>
          rfl
      | frontier s' =>
          rfl
      | malformed e =>
          rfl

/-- Nothing is replaced when a single of the pattern finds no character. -/
theorem gsub_absent {s : Single} (hanchor : anchor pattern = (false, pattern))
    (hplain : isPlain 0 0 (parse pattern)) (hs : .one s ∈ parse pattern)
    (h : ∀ c ∈ txt, s.holds c = false) : gsub txt pattern replacement = .ok txt := by
  rw [gsub_plain hanchor hplain (reach_absent hs (by simp))]
  have hmiss := @replaceBy_miss_all _ (matchLength (parse pattern)) replacement txt [] ?_
  · rw [List.append_nil, replaceBy_nil, List.append_nil] at hmiss
    rw [hmiss]
  · rintro left right rfl -
    have hright : ∀ c ∈ right ++ [], s.holds c = false := by
      intro c hc
      rw [List.append_nil] at hc
      exact h c (List.mem_append_right _ hc)
    rw [matchLength, reach_absent hs hright, Option.map_none]

theorem replaceAll_nil : replaceAll word replacement [] = [] := by
  rw [replaceAll, replaceBy]

theorem replaceAll_word (hne : word ≠ []) :
    replaceAll word replacement (word ++ txt) = replacement ++ replaceAll word replacement txt := by
  refine replaceBy_hit hne ?_
  rw [if_pos (List.isPrefixOf_iff_prefix.2 (List.prefix_append _ _))]

theorem replaceAll_cons {c : Char} (h : ¬ word <+: c :: txt) :
    replaceAll word replacement (c :: txt) = c :: replaceAll word replacement txt := by
  refine replaceBy_miss ?_
  rw [if_neg fun hword => h (List.isPrefixOf_iff_prefix.1 hword)]

/-- The text is taken apart into words that are replaced and characters that stay. -/
theorem replaceAll_induction (hne : word ≠ []) {motive : List Char → Prop} (nil : motive [])
    (here : ∀ txt, motive txt → motive (word ++ txt))
    (cons : ∀ c txt, ¬ word <+: c :: txt → motive txt → motive (c :: txt)) (txt : List Char) :
    motive txt := by
  induction hlength : txt.length using Nat.strongRecOn generalizing txt with
  | ind n ih =>
      cases txt with
      | nil =>
          exact nil
      | cons c txt =>
          by_cases hpart : word <+: c :: txt
          · rcases hpart with ⟨rest, heq⟩
            have hpos : 0 < word.length := List.length_pos_iff.2 hne
            have hshort := congrArg List.length heq
            rw [List.length_append] at hshort
            rw [← heq]
            exact here rest (ih rest.length (by omega) rest rfl)
          · rw [List.length_cons] at hlength
            exact cons c txt hpart (ih txt.length (by omega) txt rfl)

/-- What a filter makes of a word and of its replacement is the same: so it is for the text. -/
theorem filter_replaceAll {p : Char → Bool} (hne : word ≠ [])
    (h : replacement.filter p = word.filter p) (txt : List Char) :
    (replaceAll word replacement txt).filter p = txt.filter p := by
  induction txt using replaceAll_induction hne with
  | nil =>
      rw [replaceAll_nil]
  | here txt ih =>
      rw [replaceAll_word hne, List.filter_append, List.filter_append, ih, h]
  | cons c txt hpart ih =>
      rw [replaceAll_cons hpart, List.filter_cons, List.filter_cons, ih]

theorem replaceAll_char (c : Char) (txt : List Char) :
    replaceAll [c] [] txt = txt.filter (· ≠ c) := by
  have hself := @filter_replaceAll [c] [] (· ≠ c)
    (List.cons_ne_nil _ _) (by simp) txt
  have habsent : c ∉ replaceAll [c] [] txt := by
    clear hself
    induction txt using replaceAll_induction (List.cons_ne_nil c []) with
    | nil =>
        simp [replaceAll_nil]
    | here txt ih =>
        rwa [replaceAll_word (List.cons_ne_nil _ _)]
    | cons d txt hpart ih =>
        rw [replaceAll_cons hpart, List.mem_cons, not_or]
        refine ⟨?_, ih⟩
        rintro rfl
        exact hpart ⟨txt, rfl⟩
  rw [← hself, List.filter_eq_self.2]
  intro d hd
  refine decide_eq_true ?_
  rintro rfl
  exact habsent hd

theorem replaceAll_subset (hne : word ≠ []) (txt : List Char) :
    ∀ c ∈ replaceAll word replacement txt, c ∈ txt ∨ c ∈ replacement := by
  induction txt using replaceAll_induction hne with
  | nil =>
      simp [replaceAll_nil]
  | here txt ih =>
      intro c hc
      rw [replaceAll_word hne] at hc
      rcases List.mem_append.1 hc with hc | hc
      · exact Or.inr hc
      · exact (ih c hc).imp_left (List.mem_append_right _)
  | cons d txt hpart ih =>
      intro c hc
      rw [replaceAll_cons hpart] at hc
      rcases List.mem_cons.1 hc with rfl | hc
      · exact Or.inl List.mem_cons_self
      · exact (ih c hc).imp_left (List.mem_cons_of_mem _)

/-- No word stands across a character that it has not. -/
theorem prefix_append_cons {c : Char} {rest : List Char} (hc : c ∉ word) :
    word <+: txt ++ c :: rest ↔ word <+: txt := by
  induction word generalizing txt with
  | nil =>
      simp
  | cons d word ih =>
      cases txt with
      | nil =>
          rw [List.nil_append, List.cons_prefix_cons]
          refine iff_of_false ?_ (by simp)
          rintro ⟨rfl, -⟩
          exact hc List.mem_cons_self
      | cons e txt =>
          rw [List.cons_append, List.cons_prefix_cons, List.cons_prefix_cons,
            ih fun hmem => hc (List.mem_cons_of_mem _ hmem)]

theorem replaceAll_append_cons {c : Char} {rest : List Char} (hne : word ≠ []) (hc : c ∉ word)
    (txt : List Char) :
    replaceAll word replacement (txt ++ c :: rest) =
      replaceAll word replacement txt ++ c :: replaceAll word replacement rest := by
  induction txt using replaceAll_induction hne with
  | nil =>
      have hpart : ¬ word <+: c :: rest := by
        intro hpart
        have hnil := (@prefix_append_cons word [] c rest hc).1 hpart
        exact hne (List.prefix_nil.1 hnil)
      rw [List.nil_append, replaceAll_cons hpart, replaceAll_nil, List.nil_append]
  | here txt ih =>
      rw [List.append_assoc, replaceAll_word hne, replaceAll_word hne, ih, List.append_assoc]
  | cons d txt hpart ih =>
      have hpart' : ¬ word <+: d :: (txt ++ c :: rest) := fun h =>
        hpart ((@prefix_append_cons word (d :: txt) c rest hc).1 h)
      rw [List.cons_append, replaceAll_cons hpart', replaceAll_cons hpart, ih, List.cons_append]

/-- A text without the word stays. -/
theorem replaceAll_eq_self (h : ¬ word <:+: txt) :
    replaceAll word replacement txt = txt := by
  induction txt with
  | nil =>
      exact replaceAll_nil
  | cons c txt ih =>
      rw [replaceAll_cons fun hpart => h hpart.isInfix,
        ih fun hrest => h (hrest.trans (List.suffix_cons c txt).isInfix)]

end Words

/-! ## Runs of characters -/

/-- The longest runs of characters that hold. -/
def runs (holds : Char → Bool) (txt : List Char) : List (List Char) :=
  (txt.splitOnP fun c => !holds c).filter (· ≠ [])

section Runs

variable {holds : Char → Bool} {txt : List Char}

theorem runs_nil : runs holds [] = [] := rfl

theorem runs_cons_neg {c : Char} (hc : holds c = false) : runs holds (c :: txt) = runs holds txt := by
  have hsplit : (c :: txt).splitOnP (fun c => !holds c) = [] :: txt.splitOnP fun c => !holds c := by
    rw [List.splitOnP_cons_eq_if_modifyHead, hc]
    rfl
  rw [runs, hsplit, runs, List.filter_cons]
  simp

theorem runs_cons_pos {c : Char} (hc : holds c = true) :
    runs holds (c :: txt) = (c :: txt.takeWhile holds) :: runs holds (txt.dropWhile holds) := by
  have hrun : ∀ d ∈ c :: txt.takeWhile holds, (!holds d) = false := by
    intro d hd
    rcases List.mem_cons.1 hd with rfl | hd
    · rw [hc]
      rfl
    · rw [List.mem_takeWhile_imp hd]
      rfl
  have hne : c :: txt.takeWhile holds ≠ [] := List.cons_ne_nil _ _
  have hcut : c :: txt = (c :: txt.takeWhile holds) ++ txt.dropWhile holds := by
    rw [List.cons_append, List.takeWhile_append_dropWhile]
  cases hrest : txt.dropWhile holds with
  | nil =>
      rw [hcut, hrest, List.append_nil, runs, List.splitOnP_eq_singleton hrun, runs,
        List.splitOnP_nil]
      simp
  | cons d rest =>
      have hd : holds d = false := by
        have hhead := List.head?_dropWhile_not holds txt
        rw [hrest] at hhead
        exact hhead
      have hsplit := List.splitOnP_append_cons_of_forall_mem hrun d (by rw [hd]; rfl) rest
      rw [hcut, hrest, runs_cons_neg hd, runs, hsplit, List.filter_cons, if_pos (by simp), runs]

theorem runs_append_cons {before : List Char} {c : Char} (hc : holds c = false) :
    runs holds (before ++ c :: txt) = runs holds before ++ runs holds txt := by
  have hsep : (!holds c) = true := by
    rw [hc]
    rfl
  rw [runs, List.splitOnP_append_cons before txt hsep, List.filter_append]
  rfl

theorem runs_word {word : List Char} (hne : word ≠ []) (hword : ∀ c ∈ word, holds c) :
    runs holds word = [word] := by
  cases word with
  | nil =>
      exact absurd rfl hne
  | cons c word =>
      have hrest : ∀ d ∈ word, holds d := fun d hd => hword d (List.mem_cons_of_mem _ hd)
      rw [runs_cons_pos (hword c List.mem_cons_self), List.takeWhile_eq_self_iff.2 hrest,
        List.dropWhile_eq_nil_iff.2 hrest]
      rfl

theorem runs_eq_nil (h : ∀ c ∈ txt, holds c = false) : runs holds txt = [] := by
  induction txt with
  | nil =>
      rfl
  | cons c txt ih =>
      rw [runs_cons_neg (h c List.mem_cons_self), ih fun d hd => h d (List.mem_cons_of_mem _ hd)]

theorem runs_ne_nil {c : Char} (hmem : c ∈ txt) (hc : holds c = true) : runs holds txt ≠ [] := by
  induction txt with
  | nil =>
      cases hmem
  | cons d txt ih =>
      cases hd : holds d with
      | true =>
          rw [runs_cons_pos hd]
          exact List.cons_ne_nil _ _
      | false =>
          rw [runs_cons_neg hd]
          rcases List.mem_cons.1 hmem with rfl | hmem
          · rw [hc] at hd
            cases hd
          · exact ih hmem

/-- Characters that do not hold add no run at an end of the text. -/
theorem runs_trimmed {p : Char → Bool} (hp : ∀ c, p c → holds c = false) :
    runs holds ((txt.dropWhile p).rdropWhile p) = runs holds txt := by
  have hfront : runs holds (txt.dropWhile p) = runs holds txt := by
    induction txt with
    | nil =>
        rfl
    | cons c txt ih =>
        rw [List.dropWhile_cons]
        split
        · rename_i hc
          rw [ih, runs_cons_neg (hp c hc)]
        · rfl
  rw [← hfront]
  induction txt.dropWhile p using List.reverseRecOn with
  | nil =>
      rfl
  | append_singleton txt c ih =>
      by_cases hc : p c
      · rw [List.rdropWhile_concat_pos _ _ _ hc, ih, runs_append_cons (hp c hc), runs_nil,
          List.append_nil]
      · rw [List.rdropWhile_concat_neg _ _ _ hc]

theorem holds_of_mem_splitOnP {p : Char → Bool} {piece : List Char} (h : piece ∈ txt.splitOnP p) :
    ∀ c ∈ piece, p c = false := by
  induction txt generalizing piece with
  | nil =>
      rw [List.splitOnP_nil, List.mem_singleton] at h
      simp [h]
  | cons c txt ih =>
      rw [List.splitOnP_cons_eq_if_modifyHead] at h
      split at h
      · rcases List.mem_cons.1 h with rfl | h
        · simp
        · exact ih h
      · rename_i hc
        rcases List.exists_cons_of_ne_nil (List.splitOnP_ne_nil p txt) with ⟨first, more, hsplit⟩
        rw [hsplit, List.modifyHead_cons] at h
        rw [hsplit] at ih
        rcases List.mem_cons.1 h with rfl | h
        · intro d hd
          rcases List.mem_cons.1 hd with rfl | hd
          · exact Bool.not_eq_true _ ▸ hc
          · exact ih List.mem_cons_self d hd
        · exact ih (List.mem_cons_of_mem _ h)

theorem holds_of_mem_runs {run : List Char} (h : run ∈ runs holds txt) : ∀ c ∈ run, holds c := by
  intro c hc
  have hsplit := holds_of_mem_splitOnP (List.mem_filter.1 h).1 c hc
  simpa using hsplit

theorem ne_nil_of_mem_runs {run : List Char} (h : run ∈ runs holds txt) : run ≠ [] :=
  of_decide_eq_true (List.mem_filter.1 h).2

/-- `[set]+` takes a run. -/
theorem matchItems_plus {s : Single} {c : Char} (previous : Char) (hc : s.holds c = true) :
    ∃ last, matchItems [.plus s] previous (c :: txt) [] =
      .ok (some ⟨last, txt.dropWhile s.holds, []⟩) := by
  have hall : ∀ d ∈ txt.takeWhile s.holds, s.holds d := fun d hd => List.mem_takeWhile_imp hd
  have hstop : ∀ d ∈ (txt.dropWhile s.holds).head?, s.holds d = false := by
    intro d hd
    have hhead := List.head?_dropWhile_not s.holds txt
    rw [hd] at hhead
    exact hhead
  have hmax := @maxExpand_all _ (fun previous rest => matchItems [] previous rest []) _ _ c hall hstop
    fun previous => ⟨_, rfl⟩
  rw [List.takeWhile_append_dropWhile] at hmax
  rw [matchItems, hc, if_pos rfl, hmax]
  exact ⟨_, rfl⟩

theorem gmatchFrom_plus {s : Single} {total skip : Nat} {previous : Char} :
    gmatchFrom [.plus s] total skip previous txt = .ok (runs s.holds (txt.drop skip)) := by
  induction txt generalizing skip previous with
  | nil =>
      cases skip <;> simp [gmatchFrom, matchItems, runs]
  | cons c txt ih =>
      cases skip with
      | succ skip =>
          rw [gmatchFrom, ih, List.drop_succ_cons]
      | zero =>
          rw [gmatchFrom, List.drop_zero]
          cases hc : s.holds c with
          | false =>
              rw [matchItems, hc, runs_cons_neg hc]
              simp only [Bool.false_eq_true, if_false, ih, List.drop_zero]
          | true =>
              rcases @matchItems_plus txt _ _ previous hc with ⟨last, hmatch⟩
              have hlength := congrArg List.length
                (List.takeWhile_append_dropWhile (p := s.holds) (l := txt))
              rw [List.length_append] at hlength
              have htaken : (⟨last, txt.dropWhile s.holds, []⟩ : Match).taken (c :: txt) - 1 =
                  (txt.takeWhile s.holds).length := by
                simp only [Match.taken, List.length_cons]
                omega
              have hrun : txt.take (txt.takeWhile s.holds).length = txt.takeWhile s.holds :=
                (List.prefix_iff_eq_take.1 (List.takeWhile_prefix _)).symm
              have hdrop : txt.drop (txt.takeWhile s.holds).length = txt.dropWhile s.holds := by
                have hsplit := List.take_append_drop (txt.takeWhile s.holds).length txt
                rw [hrun] at hsplit
                exact List.append_cancel_left (hsplit.trans List.takeWhile_append_dropWhile.symm)
              have htake : (c :: txt).take ((c :: txt).length - (txt.dropWhile s.holds).length) =
                  c :: txt.takeWhile s.holds := by
                have hcount : (c :: txt).length - (txt.dropWhile s.holds).length =
                    (txt.takeWhile s.holds).length + 1 := by
                  rw [List.length_cons]
                  omega
                rw [hcount, List.take_succ_cons, hrun]
              have hvalue : (⟨last, txt.dropWhile s.holds, []⟩ : Match).value total (c :: txt) =
                  .ok (c :: txt.takeWhile s.holds) := by
                rw [← htake]
                rfl
              rw [hmatch, runs_cons_pos hc]
              simp only [hvalue, htaken, ih, hdrop]
              rfl

theorem gmatch_plus {s : Single} {pattern : List Char} (hparse : parse pattern = [.plus s]) :
    gmatch txt pattern = .ok (runs s.holds txt) := by
  rw [gmatch, hparse, gmatchFrom_plus, List.drop_zero]

end Runs

end Lua
