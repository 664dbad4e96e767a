import LuajitTcpServer.Lib.Patterns
import Mathlib.Data.List.Forall2
import Mathlib.Data.List.Infix

/-!
# Searches — what the searches of Lua find

* plain searches find the first place where a text stands (`StandsAt`);
* singles, one for each character (`readSingles`), alone or in front of the end of the text.
-/

namespace Lua

/-! ## Plain searches -/

/-- `part` stands in the text behind its first `k` characters. -/
def StandsAt (part txt : List Char) (k : Nat) : Prop :=
  k ≤ txt.length ∧ part <+: txt.drop k

section Plain

variable {part txt : List Char} {k : Nat}

theorem standsAt_zero : StandsAt part txt 0 ↔ part <+: txt := by
  simp [StandsAt]

theorem standsAt_succ {c : Char} : StandsAt part (c :: txt) (k + 1) ↔ StandsAt part txt k := by
  simp [StandsAt]

theorem standsAt_drop {start : Nat} (hstart : start ≤ txt.length) :
    StandsAt part (txt.drop start) k ↔ StandsAt part txt (start + k) := by
  have hlength : k ≤ txt.length - start ↔ start + k ≤ txt.length := by omega
  rw [StandsAt, StandsAt, List.length_drop, List.drop_drop, hlength]

theorem StandsAt.le (h : StandsAt part txt k) : k + part.length ≤ txt.length := by
  have hlength := h.2.length_le
  rw [List.length_drop] at hlength
  have hk := h.1
  omega

theorem StandsAt.append (h : StandsAt part txt k) (more : List Char) :
    StandsAt part (txt ++ more) k := by
  refine ⟨h.1.trans (by simp), ?_⟩
  rw [List.drop_append_of_le_length h.1]
  exact h.2.trans (List.prefix_append _ _)

theorem standsAt_isInfix (h : StandsAt part txt k) : part <:+: txt :=
  h.2.isInfix.trans (List.drop_suffix k txt).isInfix

theorem exists_standsAt (h : part <:+: txt) : ∃ k, StandsAt part txt k := by
  rcases h with ⟨before, after, rfl⟩
  refine ⟨before.length, by simp, ?_⟩
  simp

theorem plainFrom_some (h : plainFrom part txt = some k) :
    StandsAt part txt k ∧ ∀ j < k, ¬ StandsAt part txt j := by
  induction txt generalizing k with
  | nil =>
      unfold plainFrom at h
      split at h
      · rename_i hempty
        cases h
        simp [standsAt_zero, hempty]
      · cases h
  | cons c txt ih =>
      unfold plainFrom at h
      split at h
      · rename_i hpart
        cases h
        simpa [standsAt_zero] using hpart
      · rename_i hpart
        rcases Option.map_eq_some_iff.1 h with ⟨k, hfrom, rfl⟩
        rcases ih hfrom with ⟨hstands, hfirst⟩
        refine ⟨standsAt_succ.2 hstands, ?_⟩
        intro j hj
        cases j with
        | zero =>
            simpa [standsAt_zero] using hpart
        | succ j =>
            rw [standsAt_succ]
            exact hfirst j (Nat.lt_of_succ_lt_succ hj)

theorem plainFrom_none (h : plainFrom part txt = none) : ¬ StandsAt part txt k := by
  induction txt generalizing k with
  | nil =>
      unfold plainFrom at h
      split at h
      · cases h
      · simp_all [StandsAt]
  | cons c txt ih =>
      unfold plainFrom at h
      split at h
      · cases h
      · rename_i hpart
        cases k with
        | zero =>
            simpa [standsAt_zero] using hpart
        | succ k =>
            rw [standsAt_succ]
            exact ih (Option.map_eq_none_iff.1 h)

/-- A plain search: what stands first behind the start. -/
theorem find_plain {init : Nat} {plain : Bool} (h : plain || !part.any isSpecial) :
    find txt part init plain =
      .ok ((plainFrom part (txt.drop (min (init - 1) txt.length))).map fun skipped =>
        (min (init - 1) txt.length + skipped + 1,
          min (init - 1) txt.length + skipped + part.length)) := by
  rw [find]
  exact if_pos h

/-- A search from the start says whether the part is in the text. -/
theorem find_part (h : !part.any isSpecial) :
    ∃ found, find txt part 1 false = .ok found ∧ (found.isSome ↔ part <:+: txt) := by
  have hfind := @find_plain part txt 1 false h
  rw [Nat.sub_self, Nat.zero_min, List.drop_zero] at hfind
  refine ⟨_, hfind, ?_⟩
  rw [Option.isSome_map]
  cases hfrom : plainFrom part txt with
  | some k =>
      exact iff_of_true rfl (standsAt_isInfix (plainFrom_some hfrom).1)
  | none =>
      refine iff_of_false (by simp) ?_
      intro hpart
      rcases exists_standsAt hpart with ⟨k, hk⟩
      exact plainFrom_none hfrom hk

/-- A character is found where it stands first. -/
theorem plainFrom_char {c : Char} {before after : List Char} (h : c ∉ before) :
    plainFrom [c] (before ++ c :: after) = some before.length := by
  induction before with
  | nil =>
      simp [plainFrom]
  | cons d before ih =>
      have hd : d ≠ c := fun heq => h (heq ▸ List.mem_cons_self)
      have hpart : ¬ [c].isPrefixOf (d :: (before ++ c :: after)) := by
        simp [Ne.symm hd]
      rw [List.cons_append, plainFrom, if_neg hpart,
        ih fun hc => h (List.mem_cons_of_mem _ hc)]
      rfl

theorem plainFrom_char_none {c : Char} (h : c ∉ txt) : plainFrom [c] txt = none := by
  cases hfrom : plainFrom [c] txt with
  | none =>
      rfl
  | some k =>
      rcases (plainFrom_some hfrom).1.2 with ⟨after, hafter⟩
      have hmem : c ∈ txt.drop k := by
        rw [← hafter]
        exact List.mem_cons_self
      exact absurd (List.mem_of_mem_drop hmem) h

end Plain

/-! ## Sequences of single characters -/

/-- What is left behind a text that the singles stand for, one character each. -/
def readSingles : List Single → List Char → Option (List Char)
  | [], txt => some txt
  | _ :: _, [] => none
  | s :: singles, c :: txt => if s.holds c then readSingles singles txt else none

theorem matchItems_ones (singles : List Single) (items : List Item) (previous : Char)
    (txt : List Char) (captures : List Capture) :
    matchItems (singles.map .one ++ items) previous txt captures =
      (readSingles singles txt).elim (.ok none) fun rest =>
        matchItems items ((txt.take singles.length).getLastD previous) rest captures := by
  induction singles generalizing previous txt with
  | nil =>
      rfl
  | cons s singles ih =>
      cases txt with
      | nil =>
          rfl
      | cons c txt =>
          rw [List.map_cons, List.cons_append, matchItems, readSingles]
          split
          · rw [ih, List.length_cons, List.take_succ_cons, List.getLastD_cons]
          · rfl

/-- The singles stand for the last characters of the text. -/
def EndsWith (singles : List Single) (txt : List Char) : Prop :=
  ∃ before last, txt = before ++ last ∧ readSingles singles last = some []

/-- The singles stand for characters somewhere in the text. -/
def Contains (singles : List Single) (txt : List Char) : Prop :=
  ∃ before last, txt = before ++ last ∧ (readSingles singles last).isSome

section Singles

variable {singles : List Single} {txt rest : List Char}

theorem readSingles_length (h : readSingles singles txt = some rest) :
    txt.length = singles.length + rest.length := by
  induction singles generalizing txt with
  | nil =>
      cases h
      simp
  | cons s singles ih =>
      cases txt with
      | nil =>
          cases h
      | cons c txt =>
          rw [readSingles] at h
          split at h
          · rw [List.length_cons, List.length_cons, ih h]
            omega
          · cases h

theorem readSingles_append {last : List Char} (h : last.length = singles.length) :
    readSingles singles (last ++ rest) =
      if List.Forall₂ (fun s c => s.holds c) singles last then some rest else none := by
  induction singles generalizing last with
  | nil =>
      rw [List.length_nil, List.length_eq_zero_iff] at h
      simp [h, readSingles]
  | cons s singles ih =>
      cases last with
      | nil =>
          cases h
      | cons c last =>
          rw [List.length_cons, List.length_cons, Nat.add_right_cancel_iff] at h
          rw [List.cons_append, readSingles, ih h]
          by_cases hc : s.holds c <;> simp [hc]

/-- It is the last characters alone that decide. -/
theorem endsWith_append {before last : List Char} (h : last.length = singles.length) :
    EndsWith singles (before ++ last) ↔ List.Forall₂ (fun s c => s.holds c) singles last := by
  have hread : ∀ last : List Char, last.length = singles.length →
      (readSingles singles last = some [] ↔
        List.Forall₂ (fun s c => s.holds c) singles last) := by
    intro last hlength
    have happend := @readSingles_append _ [] _ hlength
    rw [List.append_nil] at happend
    rw [happend]
    split <;> simp_all
  constructor
  · rintro ⟨before', last', heq, hlast⟩
    have hlength := readSingles_length hlast
    rw [List.length_nil, Nat.add_zero] at hlength
    have hsame : last = last' := (List.append_inj' heq (h.trans hlength.symm)).2
    rw [← hread last h, hsame]
    exact hlast
  · intro hforall
    exact ⟨before, last, rfl, (hread last h).2 hforall⟩

theorem EndsWith.length_le (h : EndsWith singles txt) : singles.length ≤ txt.length := by
  rcases h with ⟨before, last, rfl, hlast⟩
  have hlength := readSingles_length hlast
  rw [List.length_nil] at hlength
  rw [List.length_append]
  omega

theorem endsWith_cons {c : Char} :
    EndsWith singles (c :: txt) ↔
      EndsWith singles txt ∨ readSingles singles (c :: txt) = some [] := by
  constructor
  · rintro ⟨before, last, heq, hlast⟩
    rcases List.cons_eq_append_iff.1 heq with ⟨-, rfl⟩ | ⟨before, -, rfl⟩
    · exact Or.inr hlast
    · exact Or.inl ⟨before, last, rfl, hlast⟩
  · rintro (⟨before, last, rfl, hlast⟩ | hread)
    · exact ⟨c :: before, last, rfl, hlast⟩
    · exact ⟨[], c :: txt, rfl, hread⟩

theorem contains_cons {c : Char} :
    Contains singles (c :: txt) ↔
      (readSingles singles (c :: txt)).isSome ∨ Contains singles txt := by
  constructor
  · rintro ⟨before, last, heq, hlast⟩
    rcases List.cons_eq_append_iff.1 heq with ⟨-, rfl⟩ | ⟨before, -, rfl⟩
    · exact Or.inl hlast
    · exact Or.inr ⟨before, last, rfl, hlast⟩
  · rintro (hread | ⟨before, last, rfl, hlast⟩)
    · exact ⟨[], c :: txt, rfl, hread⟩
    · exact ⟨c :: before, last, rfl, hlast⟩

theorem readSingles_reverse (h : txt.length = singles.length) :
    (readSingles singles.reverse txt.reverse).isSome ↔
      List.Forall₂ (fun s c => s.holds c) singles txt := by
  have hlength : txt.reverse.length = singles.reverse.length := by simp [h]
  have hread := @readSingles_append _ [] _ hlength
  rw [List.append_nil] at hread
  rw [hread]
  split
  · rename_i hforall
    exact iff_of_true rfl (List.forall₂_reverse_iff.1 hforall)
  · rename_i hforall
    exact iff_of_false Bool.false_ne_true fun h => hforall (List.forall₂_reverse_iff.2 h)

/-- The end of a text can be read from behind. -/
theorem endsWith_iff_reverse :
    EndsWith singles txt ↔ (readSingles singles.reverse txt.reverse).isSome := by
  by_cases hlong : singles.length ≤ txt.length
  · have hlength : (txt.drop (txt.length - singles.length)).length = singles.length := by
      rw [List.length_drop]
      omega
    have hsplit := List.take_append_drop (txt.length - singles.length) txt
    have hprefix : ∀ last first : List Char, last.length = singles.length →
        ((readSingles singles.reverse (last.reverse ++ first)).isSome ↔
          (readSingles singles.reverse last.reverse).isSome) := by
      intro last first hlast
      have hreverse : last.reverse.length = singles.reverse.length := by simp [hlast]
      have hnil := @readSingles_append _ [] _ hreverse
      rw [List.append_nil] at hnil
      rw [readSingles_append hreverse, hnil]
      split <;> simp
    rw [← hsplit, endsWith_append hlength, List.reverse_append, hprefix _ _ hlength,
      readSingles_reverse hlength]
  · have hends : ¬ EndsWith singles txt := fun h => hlong h.length_le
    have hread : ¬ (readSingles singles.reverse txt.reverse).isSome := by
      intro hsome
      rcases Option.isSome_iff_exists.1 hsome with ⟨rest, hrest⟩
      have hlength := readSingles_length hrest
      rw [List.length_reverse, List.length_reverse] at hlength
      omega
    exact iff_of_false hends hread

instance : Decidable (EndsWith singles txt) := decidable_of_iff _ endsWith_iff_reverse.symm

instance : Decidable (Contains singles txt) :=
  decidable_of_iff (∃ last ∈ txt.tails, (readSingles singles last).isSome) <| by
    constructor
    · rintro ⟨last, hlast, hread⟩
      rcases (List.mem_tails _ _).1 hlast with ⟨before, rfl⟩
      exact ⟨before, last, rfl, hread⟩
    · rintro ⟨before, last, rfl, hread⟩
      exact ⟨last, (List.mem_tails _ _).2 (List.suffix_append before last), hread⟩

/-- The last single stands for the last character. -/
theorem endsWith_concat {s : Single} {c : Char} :
    EndsWith (singles ++ [s]) (txt ++ [c]) ↔ s.holds c ∧ EndsWith singles txt := by
  rw [endsWith_iff_reverse, endsWith_iff_reverse, List.reverse_append, List.reverse_append]
  change (readSingles (s :: singles.reverse) (c :: txt.reverse)).isSome ↔ _
  rw [readSingles]
  cases s.holds c <;> simp

theorem endsWith_nil : EndsWith [] txt := ⟨txt, [], (List.append_nil txt).symm, rfl⟩

theorem endsWith_one {s : Single} {c : Char} : EndsWith [s] (txt ++ [c]) ↔ s.holds c := by
  have h := @endsWith_concat [] txt s c
  rwa [List.nil_append, and_iff_left endsWith_nil] at h

theorem endsWith_two {s s' : Single} {c : Char} :
    EndsWith [s, s'] (txt ++ [c]) ↔ s'.holds c ∧ EndsWith [s] txt :=
  @endsWith_concat [s] _ _ _

theorem endsWith_three {s s' s'' : Single} {c : Char} :
    EndsWith [s, s', s''] (txt ++ [c]) ↔ s''.holds c ∧ EndsWith [s, s'] txt :=
  @endsWith_concat [s, s'] _ _ _

/-- Nothing is read across a character that no single stands for. -/
theorem readSingles_stop {c : Char} (h : ∀ s ∈ singles, s.holds c = false) :
    (readSingles singles (txt ++ c :: rest)).isSome ↔ (readSingles singles txt).isSome := by
  induction singles generalizing txt with
  | nil =>
      exact Iff.rfl
  | cons s singles ih =>
      cases txt with
      | nil =>
          rw [List.nil_append, readSingles, readSingles, h s List.mem_cons_self]
          exact Iff.rfl
      | cons d txt =>
          rw [List.cons_append, readSingles, readSingles]
          split
          · exact ih fun s hs => h s (List.mem_cons_of_mem _ hs)
          · exact Iff.rfl

theorem not_contains {s : Single} (hs : s ∈ singles) (h : ∀ c ∈ txt, s.holds c = false) :
    ¬ Contains singles txt := by
  rintro ⟨before, last, rfl, hlast⟩
  have hall : ∀ c ∈ last, s.holds c = false := fun c hc => h c (List.mem_append_right _ hc)
  clear h
  induction singles generalizing last with
  | nil =>
      cases hs
  | cons first singles ih =>
      cases last with
      | nil =>
          cases hlast
      | cons c last =>
          rw [readSingles] at hlast
          split at hlast
          · rename_i hfirst
            rcases List.mem_cons.1 hs with rfl | hmem
            · rw [hall c List.mem_cons_self] at hfirst
              cases hfirst
            · exact ih hmem last hlast fun d hd => hall d (List.mem_cons_of_mem _ hd)
          · cases hlast

/-! ## Searches that end at the end of the text -/

theorem matchItems_ones_endAnchor (previous : Char) (captures : List Capture) :
    (readSingles singles txt = some [] →
      ∃ last, matchItems (singles.map .one ++ [.endAnchor]) previous txt captures =
        .ok (some ⟨last, [], captures⟩)) ∧
    (readSingles singles txt ≠ some [] →
      matchItems (singles.map .one ++ [.endAnchor]) previous txt captures = .ok none) := by
  rw [matchItems_ones]
  constructor
  · intro h
    rw [h]
    exact ⟨_, rfl⟩
  · intro h
    cases hread : readSingles singles txt with
    | none =>
        rfl
    | some rest =>
        have hrest : rest ≠ [] := by
          rintro rfl
          exact h hread
        rw [Option.elim_some, matchItems, if_neg hrest]

/-- `.*` tries every place of the text. -/
theorem matchItems_star_endAnchor (previous : Char) (captures : List Capture) :
    (EndsWith singles txt →
      ∃ last, matchItems (.star .any :: (singles.map .one ++ [.endAnchor])) previous txt captures =
        .ok (some ⟨last, [], captures⟩)) ∧
    (¬ EndsWith singles txt →
      matchItems (.star .any :: (singles.map .one ++ [.endAnchor])) previous txt captures =
        .ok none) := by
  rw [matchItems]
  induction txt generalizing previous with
  | nil =>
      have hends : EndsWith singles [] ↔ readSingles singles [] = some [] := by
        constructor
        · rintro ⟨before, last, heq, hlast⟩
          rw [(List.append_eq_nil_iff.1 heq.symm).2] at hlast
          exact hlast
        · intro h
          exact ⟨[], [], rfl, h⟩
      rw [hends, maxExpand]
      exact matchItems_ones_endAnchor previous captures
  | cons c txt ih =>
      rcases ih c with ⟨hmatch, hnone⟩
      have hhere := @matchItems_ones_endAnchor singles (c :: txt) previous
        captures
      rw [maxExpand, endsWith_cons]
      simp only [Single.holds, if_true]
      by_cases hrest : EndsWith singles txt
      · rcases hmatch hrest with ⟨last, hlast⟩
        rw [hlast]
        refine ⟨fun _ => ⟨last, rfl⟩, ?_⟩
        intro hnot
        exact absurd (Or.inl hrest) hnot
      · rw [hnone hrest]
        constructor
        · rintro (hends | hread)
          · exact absurd hends hrest
          · exact hhere.1 hread
        · intro hnot
          exact hhere.2 fun hread => hnot (Or.inr hread)

theorem search_none {items : List Item} {anchored : Bool} {previous : Char}
    (h : ∀ before rest, txt = before ++ rest → ∀ previous,
      matchItems items previous rest [] = .ok none) :
    search items anchored previous txt = .ok none := by
  induction txt generalizing previous with
  | nil =>
      rw [search, h [] [] rfl]
      rfl
  | cons c txt ih =>
      have hrest : search items anchored c txt = .ok none := by
        refine ih ?_
        rintro before rest rfl
        exact h (c :: before) rest rfl
      rw [search, h [] (c :: txt) rfl, hrest]
      cases anchored <;> rfl

theorem EndsWith.of_append {before : List Char} (h : EndsWith singles txt) :
    EndsWith singles (before ++ txt) := by
  rcases h with ⟨before', last, rfl, hlast⟩
  exact ⟨before ++ before', last, (List.append_assoc _ _ _).symm, hlast⟩

/-- `.*` and `$` around singles: the text, when they stand for its last characters. -/
theorem firstMatch_endsWith {pattern : List Char}
    (hpattern : anchor pattern = (false, pattern))
    (hparse : parse pattern = .star .any :: (singles.map .one ++ [.endAnchor])) :
    (EndsWith singles txt → firstMatch txt pattern = .ok (some txt)) ∧
      (¬ EndsWith singles txt → firstMatch txt pattern = .ok none) := by
  constructor
  · intro hends
    rcases (matchItems_star_endAnchor '\x00' []).1 hends with ⟨last, hmatch⟩
    have hsearch : search (parse pattern) false '\x00' txt = .ok (some (0, ⟨last, [], []⟩)) := by
      rw [hparse]
      cases txt <;> rw [search, hmatch] <;> rfl
    rw [firstMatch, hpattern]
    simp only [hsearch]
    simp [Match.value, Except.map]
  · intro hends
    have hsearch : search (parse pattern) false '\x00' txt = .ok none := by
      rw [hparse]
      refine search_none ?_
      rintro before rest rfl previous
      exact (matchItems_star_endAnchor previous []).2 fun h => hends h.of_append
    rw [firstMatch, hpattern]
    simp only [hsearch]

theorem matchItems_ones_nil (previous : Char) (captures : List Capture) :
    matchItems (singles.map .one) previous txt captures =
      .ok ((readSingles singles txt).map fun rest =>
        ⟨(txt.take singles.length).getLastD previous, rest, captures⟩) := by
  have h := matchItems_ones singles [] previous txt captures
  rw [List.append_nil] at h
  rw [h]
  cases readSingles singles txt <;> rfl

/-- Singles alone: whether they stand for characters somewhere in the text. -/
theorem search_ones (previous : Char) :
    (Contains singles txt →
      ∃ found, search (singles.map .one) false previous txt = .ok (some found)) ∧
      (¬ Contains singles txt → search (singles.map .one) false previous txt = .ok none) := by
  constructor
  · intro hcontains
    induction txt generalizing previous with
    | nil =>
        rcases hcontains with ⟨before, last, heq, hlast⟩
        rw [(List.append_eq_nil_iff.1 heq.symm).2] at hlast
        rcases Option.isSome_iff_exists.1 hlast with ⟨rest, hrest⟩
        rw [search, matchItems_ones_nil, hrest]
        exact ⟨_, rfl⟩
    | cons c txt ih =>
        rw [search, matchItems_ones_nil]
        cases hread : readSingles singles (c :: txt) with
        | some rest =>
            exact ⟨_, rfl⟩
        | none =>
            rcases contains_cons.1 hcontains with hhere | hthere
            · rw [hread] at hhere
              cases hhere
            · rcases ih c hthere with ⟨found, hfound⟩
              rw [hfound]
              exact ⟨_, rfl⟩
  · intro hcontains
    refine search_none ?_
    rintro before rest rfl previous
    rw [matchItems_ones_nil]
    cases hread : readSingles singles rest with
    | none =>
        rfl
    | some left =>
        exact absurd ⟨before, rest, rfl, by rw [hread]; rfl⟩ hcontains

theorem search_ones_captures {previous : Char} {skipped : Nat} {found : Match}
    (h : search (singles.map .one) false previous txt = .ok (some (skipped, found))) :
    found.captures = [] := by
  induction txt generalizing previous skipped with
  | nil =>
      rw [search, matchItems_ones_nil] at h
      cases hread : readSingles singles [] with
      | none =>
          rw [hread] at h
          cases h
      | some rest =>
          rw [hread] at h
          cases h
          rfl
  | cons c txt ih =>
      rw [search, matchItems_ones_nil] at h
      cases hread : readSingles singles (c :: txt) with
      | some rest =>
          rw [hread] at h
          cases h
          rfl
      | none =>
          rw [hread] at h
          simp only [orGoOn, Option.map_none, Bool.false_eq_true, if_false] at h
          cases hsearch : search (singles.map .one) false c txt with
          | error e =>
              rw [hsearch] at h
              cases h
          | ok result =>
              cases result with
              | none =>
                  rw [hsearch] at h
                  cases h
              | some result =>
                  rw [hsearch] at h
                  cases h
                  exact ih hsearch

theorem find_ones_none {pattern : List Char} {init : Nat}
    (hspecial : pattern.any isSpecial = true) (hpattern : anchor pattern = (false, pattern))
    (hparse : parse pattern = singles.map .one) (h : ¬ Contains singles txt) :
    find txt pattern init false = .ok none := by
  have hdrop : ¬ Contains singles (txt.drop (min (init - 1) txt.length)) := by
    rintro ⟨before, last, heq, hlast⟩
    refine h ⟨txt.take (min (init - 1) txt.length) ++ before, last, ?_, hlast⟩
    rw [List.append_assoc, ← heq, List.take_append_drop]
  simp only [find, hspecial, hpattern, hparse, (search_ones _).2 hdrop]
  rfl

theorem firstMatch_contains {pattern : List Char} (hpattern : anchor pattern = (false, pattern))
    (hparse : parse pattern = singles.map .one) :
    (Contains singles txt → ∃ value, firstMatch txt pattern = .ok (some value)) ∧
      (¬ Contains singles txt → firstMatch txt pattern = .ok none) := by
  constructor
  · intro hcontains
    rcases (search_ones '\x00').1 hcontains with ⟨⟨skipped, found⟩, hsearch⟩
    have hcaptures := search_ones_captures hsearch
    rw [firstMatch, hpattern]
    simp only [hparse, hsearch]
    refine ⟨(txt.drop skipped).take (found.taken (txt.drop skipped)), ?_⟩
    rw [Match.value, hcaptures]
    rfl
  · intro hcontains
    rw [firstMatch, hpattern]
    simp only [hparse, (search_ones '\x00').2 hcontains]

end Singles

/-! ## Trimming -/

/-- A text without the blanks around it. -/
def trim (txt : List Char) : List Char := (txt.dropWhile isBlank).rdropWhile isBlank

theorem dropWhile_append_cons {p : Char → Bool} {before after : List Char} {c : Char}
    (hc : ¬ p c) : (before ++ c :: after).dropWhile p = before.dropWhile p ++ c :: after := by
  induction before with
  | nil =>
      exact List.dropWhile_cons_of_neg hc
  | cons d before ih =>
      rw [List.cons_append, List.dropWhile_cons, List.dropWhile_cons]
      split
      · exact ih
      · rfl

/-- What `trim` does, as a pattern. -/
def trimPattern : List Char := "^%s*(.-)%s*$".toList

section Expand

variable {holds : Char → Bool} {next : Char → List Char → Found}

/-- All characters that hold are taken when what follows matches. -/
theorem maxExpand_all {before rest : List Char} {previous : Char} (hall : ∀ c ∈ before, holds c)
    (hstop : ∀ c ∈ rest.head?, holds c = false)
    (hnext : ∀ previous, ∃ found, next previous rest = .ok (some found)) :
    maxExpand holds next previous (before ++ rest) = next (before.getLastD previous) rest := by
  induction before generalizing previous with
  | nil =>
      cases rest with
      | nil =>
          rfl
      | cons c rest =>
          rw [List.nil_append, maxExpand, hstop c rfl]
          rfl
  | cons c before ih =>
      rcases hnext (before.getLastD c) with ⟨found, hfound⟩
      have hrest := @ih c fun d hd => hall d (List.mem_cons_of_mem _ hd)
      rw [hfound] at hrest
      rw [List.cons_append, maxExpand, hall c List.mem_cons_self, if_pos rfl, hrest,
        List.getLastD_cons, hfound]

end Expand

/-- Characters of a set up to the end of the text. -/
theorem matchItems_star_end {s : Single} (previous : Char) (txt : List Char)
    (captures : List Capture) :
    (txt.all s.holds → ∃ last, matchItems [.star s, .endAnchor] previous txt captures =
      .ok (some ⟨last, [], captures⟩)) ∧
    (txt.all s.holds = false →
      matchItems [.star s, .endAnchor] previous txt captures = .ok none) := by
  simp only [matchItems]
  induction txt generalizing previous with
  | nil =>
      exact ⟨fun _ => ⟨previous, rfl⟩, fun h => absurd h (by simp)⟩
  | cons c txt ih =>
      rcases ih c with ⟨hmatch, hnone⟩
      rw [List.all_cons, maxExpand]
      cases hc : s.holds c with
      | false =>
          exact ⟨fun h => absurd h (by simp), fun _ => rfl⟩
      | true =>
          rw [Bool.true_and, if_pos rfl]
          constructor
          · intro hall
            rcases hmatch hall with ⟨last, hlast⟩
            rw [hlast]
            exact ⟨last, rfl⟩
          · intro hall
            rw [hnone hall]
            rfl

theorem rtakeWhile_cons {p : Char → Bool} {c : Char} {txt : List Char} :
    (c :: txt).rtakeWhile p = if (c :: txt).all p then c :: txt else txt.rtakeWhile p := by
  split
  · rename_i hall
    rw [List.rtakeWhile_eq_self_iff]
    simpa using hall
  · rename_i hall
    rw [List.rtakeWhile, List.rtakeWhile, List.reverse_cons, List.takeWhile_append]
    split
    · rename_i hlength
      have hself : txt.reverse.takeWhile p = txt.reverse :=
        (List.takeWhile_prefix p).eq_of_length hlength
      have htxt : txt.all p := by
        rw [List.takeWhile_eq_self_iff] at hself
        simpa using hself
      have hc : p c = false := by
        simpa [htxt] using hall
      simp [hc, hself]
    · rfl

/-- A lazy capture in front of them takes everything else. -/
theorem minExpand_star_end {s : Single} (start txt : List Char) (previous : Char) :
    ∃ last, minExpand Single.any.holds
        (fun previous rest => matchItems [.closeCapture, .star s, .endAnchor] previous rest
          [⟨start, .unfinished⟩]) previous txt =
      .ok (some ⟨last, [],
        [⟨start, .closed (start.length - (txt.rtakeWhile s.holds).length)⟩]⟩) := by
  induction txt generalizing previous with
  | nil =>
      exact ⟨previous, rfl⟩
  | cons c txt ih =>
      rcases matchItems_star_end (s := s) previous (c :: txt)
        [⟨start, .closed (start.length - (c :: txt).length)⟩] with ⟨hmatch, hnone⟩
      rw [minExpand, matchItems, closeNewest, if_pos rfl, rtakeWhile_cons]
      cases hall : (c :: txt).all s.holds with
      | true =>
          rcases hmatch hall with ⟨last, hlast⟩
          refine ⟨last, ?_⟩
          simp only [hlast, if_true]
      | false =>
          rcases ih c with ⟨last, hlast⟩
          refine ⟨last, ?_⟩
          simp only [hnone hall]
          exact hlast

/-- A pattern such as `^%s*(.-)%s*$` gives the text without the characters of the set around it. -/
theorem firstMatch_strip {s : Single} {pattern anchored : List Char} (txt : List Char)
    (hanchor : anchor anchored = (true, pattern))
    (hparse : parse pattern =
      [.star s, .openCapture, .minus .any, .closeCapture, .star s, .endAnchor]) :
    firstMatch txt anchored = .ok (some ((txt.dropWhile s.holds).rdropWhile s.holds)) := by
  have hnext : ∀ previous, ∃ last, matchItems
      [.openCapture, .minus .any, .closeCapture, .star s, .endAnchor] previous
      (txt.dropWhile s.holds) [] = .ok (some ⟨last, [],
        [⟨txt.dropWhile s.holds, .closed ((txt.dropWhile s.holds).length -
          ((txt.dropWhile s.holds).rtakeWhile s.holds).length)⟩]⟩) :=
    fun previous => minExpand_star_end _ _ previous
  have hstop : ∀ c ∈ (txt.dropWhile s.holds).head?, s.holds c = false := by
    intro c hc
    have hhead := List.head?_dropWhile_not s.holds txt
    rw [hc] at hhead
    exact hhead
  have hall : ∀ c ∈ txt.takeWhile s.holds, s.holds c := fun c hc => List.mem_takeWhile_imp hc
  have hmatch := @maxExpand_all s.holds
    (fun previous rest => matchItems
      [.openCapture, .minus .any, .closeCapture, .star s, .endAnchor] previous rest [])
    (txt.takeWhile s.holds) (txt.dropWhile s.holds) '\x00' hall hstop
    fun previous => (hnext previous).elim fun last h => ⟨_, h⟩
  rw [List.takeWhile_append_dropWhile] at hmatch
  rcases hnext ((txt.takeWhile s.holds).getLastD '\x00') with ⟨last, hlast⟩
  simp only [hlast] at hmatch
  have hsearch : ∃ found, search (parse pattern) true '\x00' txt = .ok (some (0, found)) ∧
      found.captures = [⟨txt.dropWhile s.holds, .closed ((txt.dropWhile s.holds).length -
        ((txt.dropWhile s.holds).rtakeWhile s.holds).length)⟩] := by
    rw [hparse]
    cases txt <;> rw [search, matchItems, hmatch] <;> exact ⟨_, rfl, rfl⟩
  rcases hsearch with ⟨found, hsearch, hcaptures⟩
  have hbody : (txt.dropWhile s.holds).rdropWhile s.holds ++
      (txt.dropWhile s.holds).rtakeWhile s.holds = txt.dropWhile s.holds :=
    List.rdropWhile_append_rtakeWhile
  have hlength := congrArg List.length hbody
  rw [List.length_append] at hlength
  have htake : (txt.dropWhile s.holds).take ((txt.dropWhile s.holds).length -
      ((txt.dropWhile s.holds).rtakeWhile s.holds).length) =
      (txt.dropWhile s.holds).rdropWhile s.holds := by
    rw [← hlength, Nat.add_sub_cancel]
    nth_rewrite 2 [← hbody]
    exact List.take_left
  rw [firstMatch, hanchor]
  simp only [hsearch]
  rw [Match.value, hcaptures]
  simp [Capture.isFinished, Capture.text, htake, Except.map]

theorem firstMatch_trim (txt : List Char) : firstMatch txt trimPattern = .ok (some (trim txt)) :=
  @firstMatch_strip (.cls 's') "%s*(.-)%s*$".toList trimPattern txt (by decide +kernel)
    (by decide +kernel)

/-- Nothing is trimmed from a text without blanks at its ends. -/
theorem trim_eq_self {txt : List Char} (hfirst : ∀ c ∈ txt.head?, isBlank c = false)
    (hlast : ∀ c ∈ txt.getLast?, isBlank c = false) : trim txt = txt := by
  have hdrop : txt.dropWhile isBlank = txt := by
    cases txt with
    | nil =>
        rfl
    | cons c txt =>
        rw [List.dropWhile_cons, hfirst c rfl]
        rfl
  rw [trim, hdrop, List.rdropWhile_eq_self_iff]
  intro hne
  rw [hlast _ (List.getLast?_eq_some_getLast hne)]
  exact Bool.false_ne_true

theorem trim_blanks_append {blanks txt : List Char} (h : ∀ c ∈ blanks, isBlank c) :
    trim (blanks ++ txt) = trim txt := by
  rw [trim, trim, List.dropWhile_append_of_pos h]

theorem rdropWhile_append_blanks {blanks txt : List Char} (h : ∀ c ∈ blanks, isBlank c) :
    (txt ++ blanks).rdropWhile isBlank = txt.rdropWhile isBlank := by
  rw [List.rdropWhile, List.reverse_append, List.dropWhile_append_of_pos fun c hc =>
    h c (List.mem_reverse.1 hc), List.rdropWhile]

theorem trim_append_blanks {blanks txt : List Char} (h : ∀ c ∈ blanks, isBlank c) :
    trim (txt ++ blanks) = trim txt := by
  rw [trim, trim, List.dropWhile_append]
  split
  · rename_i hempty
    rw [List.isEmpty_iff.1 hempty, List.dropWhile_eq_nil_iff.2 h]
  · exact rdropWhile_append_blanks h

/-- Blanks that are taken from the ends first make no difference. -/
theorem trim_strip {p : Char → Bool} (hp : ∀ c, p c → isBlank c) (txt : List Char) :
    trim ((txt.dropWhile p).rdropWhile p) = trim txt := by
  have hfront : ∀ c ∈ txt.takeWhile p, isBlank c := fun c hc => hp c (List.mem_takeWhile_imp hc)
  have hback : ∀ c ∈ (txt.dropWhile p).rtakeWhile p, isBlank c := fun c hc =>
    hp c (List.mem_rtakeWhile_imp hc)
  calc trim ((txt.dropWhile p).rdropWhile p)
      = trim ((txt.dropWhile p).rdropWhile p ++ (txt.dropWhile p).rtakeWhile p) :=
        (trim_append_blanks hback).symm
    _ = trim (txt.dropWhile p) := by rw [List.rdropWhile_append_rtakeWhile]
    _ = trim (txt.takeWhile p ++ txt.dropWhile p) := (trim_blanks_append hfront).symm
    _ = trim txt := by rw [List.takeWhile_append_dropWhile]

theorem trim_trim (txt : List Char) : trim (trim txt) = trim txt := trim_strip (fun _ h => h) txt

/-- The text has characters that are no blanks at its ends. -/
def Solid (txt : List Char) : Prop :=
  (∃ c ∈ txt.head?, isBlank c = false) ∧ ∃ c ∈ txt.getLast?, isBlank c = false

theorem trim_append_solid {before txt : List Char} (h : Solid txt) :
    trim (before ++ txt) = before.dropWhile isBlank ++ txt := by
  rcases h with ⟨⟨c, hfirst, hc⟩, ⟨d, hlast, hd⟩⟩
  have hdrop : (before ++ txt).dropWhile isBlank = before.dropWhile isBlank ++ txt := by
    cases txt with
    | nil =>
        cases hfirst
    | cons c' rest =>
        cases hfirst
        exact dropWhile_append_cons (by simp [hc])
  rw [trim, hdrop, List.rdropWhile_eq_self_iff]
  intro hne
  have hend : (before.dropWhile isBlank ++ txt).getLast? = some d := by
    rw [List.getLast?_append_of_ne_nil _ (by rintro rfl; cases hlast)]
    exact hlast
  rw [List.getLast?_eq_some_getLast hne, Option.some.injEq] at hend
  rw [hend, hd]
  exact Bool.false_ne_true

/-- Only blanks are trimmed away. -/
theorem trim_append_eq_iff {before txt : List Char} (h : Solid txt) :
    trim (before ++ txt) = txt ↔ ∀ c ∈ before, isBlank c := by
  rw [trim_append_solid h, List.append_left_eq_self, List.dropWhile_eq_nil_iff]

theorem trim_drop_eq_iff {before txt : List Char} {k : Nat} (h : Solid txt) :
    trim ((before ++ txt).drop k) = txt ↔ k ≤ before.length ∧ ∀ c ∈ before.drop k, isBlank c := by
  by_cases hk : k ≤ before.length
  · rw [List.drop_append_of_le_length hk, trim_append_eq_iff h, and_iff_right hk]
  · refine iff_of_false (fun hsame => ?_) fun hle => hk hle.1
    have hshort : (trim ((before ++ txt).drop k)).length ≤ ((before ++ txt).drop k).length :=
      (List.rdropWhile_prefix _ _).length_le.trans (List.dropWhile_suffix _).length_le
    have hpos : 0 < txt.length := by
      rcases h.1 with ⟨c, hc, -⟩
      exact List.length_pos_iff.2 (by rintro rfl; cases hc)
    rw [hsame, List.length_drop, List.length_append] at hshort
    omega

/-! ## Parts of a text -/

section Parts

variable {txt : List Char}

theorem sub_from (txt : List Char) (start : Nat) : sub txt (start + 1) (-1) = txt.drop start := by
  have hfirst : ¬ (start : Int) + 1 < 0 := by omega
  have hstart : ((start : Int) + 1).toNat - 1 = start := by omega
  have hlast : ((-1 : Int) + txt.length + 1).toNat = txt.length := by omega
  simp only [sub, if_neg hfirst, hstart, if_pos (show (-1 : Int) < 0 by decide), hlast,
    List.take_length]

theorem sub_positions (txt : List Char) (first last : Nat) :
    sub txt first last = (txt.take last).drop (first - 1) := by
  have hfirst : ¬ (first : Int) < 0 := by omega
  have hlast : ¬ (last : Int) < 0 := by omega
  simp only [sub, if_neg hfirst, if_neg hlast, Int.toNat_natCast]

theorem sub_within (txt : List Char) (start stop : Nat) :
    sub txt (start + 1) stop = (txt.take stop).drop start := by
  have hfirst : ¬ (start : Int) + 1 < 0 := by omega
  have hlast : ¬ (stop : Int) < 0 := by omega
  have hstart : ((start : Int) + 1).toNat - 1 = start := by omega
  simp only [sub, if_neg hfirst, if_neg hlast, hstart, Int.toNat_natCast]

end Parts

end Lua
