import LuajitTcpServer.Lib.Searches

/-!
# Places — where the searches of Lua stop

What is left behind a match is an end of the text, so the positions that `find` gives lie in the
text (`find_bounds`), and a search from the place of a match finds that match again (`find_again`).
-/

namespace Lua

/-! ## What is left behind a match -/

/-- The matches that `next` finds leave an end of the text. -/
def LeavesEnd (next : Char → List Char → Found) : Prop :=
  ∀ previous rest m, next previous rest = .ok (some m) → m.rest <:+ rest

variable {next : Char → List Char → Found} {holds : Char → Bool}

theorem LeavesEnd.maxExpand (h : LeavesEnd next) : LeavesEnd (maxExpand holds next) := by
  intro previous rest m hfound
  induction rest generalizing previous with
  | nil =>
      exact h previous [] m hfound
  | cons c rest ih =>
      rw [Lua.maxExpand] at hfound
      split at hfound
      · split at hfound
        · exact h previous (c :: rest) m hfound
        · exact (ih c hfound).trans (List.suffix_cons c rest)
      · exact h previous (c :: rest) m hfound

theorem LeavesEnd.minExpand (h : LeavesEnd next) : LeavesEnd (minExpand holds next) := by
  intro previous rest m hfound
  induction rest generalizing previous with
  | nil =>
      exact h previous [] m hfound
  | cons c rest ih =>
      rw [Lua.minExpand] at hfound
      split at hfound
      · split at hfound
        · exact (ih c hfound).trans (List.suffix_cons c rest)
        · cases hfound
      · exact h previous (c :: rest) m hfound

theorem closeBalance_suffix {opening closing : Char} {depth : Nat} {rest left : List Char}
    (h : closeBalance opening closing depth rest = some left) : left <:+ rest := by
  induction rest generalizing depth with
  | nil =>
      cases h
  | cons c rest ih =>
      have hcons := List.suffix_cons c rest
      unfold closeBalance at h
      split at h
      · split at h
        · cases h
          exact hcons
        · exact (ih h).trans hcons
      · split at h
        · exact (ih h).trans hcons
        · exact (ih h).trans hcons

theorem backReference_suffix {index : Nat} {captures : List Capture}
    {rest captured left : List Char}
    (h : backReference index captures rest = .ok (some (captured, left))) : left <:+ rest := by
  unfold backReference at h
  split at h
  · cases h
  · cases h
  · cases h
  · cases h
  · simp only [Except.ok.injEq] at h
    split at h
    · cases h
      exact List.drop_suffix _ rest
    · cases h

theorem matchItems_suffix (items : List Item) (captures : List Capture) :
    LeavesEnd fun previous rest => matchItems items previous rest captures := by
  induction items generalizing captures with
  | nil =>
      intro previous rest m h
      cases h
      exact List.suffix_rfl
  | cons item items ih =>
      intro previous rest m h
      cases item with
      | one s =>
          cases rest with
          | nil =>
              cases h
          | cons c rest =>
              simp only [matchItems] at h
              split at h
              · exact (ih captures c rest m h).trans (List.suffix_cons c rest)
              · cases h
      | optional s =>
          cases rest with
          | nil =>
              exact ih captures previous [] m h
          | cons c rest =>
              simp only [matchItems] at h
              split at h
              · split at h
                · exact ih captures previous (c :: rest) m h
                · exact (ih captures c rest m h).trans (List.suffix_cons c rest)
              · exact ih captures previous (c :: rest) m h
      | star s =>
          exact (ih captures).maxExpand previous rest m h
      | plus s =>
          cases rest with
          | nil =>
              cases h
          | cons c rest =>
              simp only [matchItems] at h
              split at h
              · exact ((ih captures).maxExpand c rest m h).trans (List.suffix_cons c rest)
              · cases h
      | minus s =>
          exact (ih captures).minExpand previous rest m h
      | openCapture =>
          simp only [matchItems] at h
          cases hopen : openNewest rest .unfinished captures with
          | error e =>
              rw [hopen] at h
              cases h
          | ok opened =>
              rw [hopen] at h
              exact ih opened previous rest m h
      | positionCapture =>
          simp only [matchItems] at h
          cases hopen : openNewest rest .position captures with
          | error e =>
              rw [hopen] at h
              cases h
          | ok opened =>
              rw [hopen] at h
              exact ih opened previous rest m h
      | closeCapture =>
          simp only [matchItems] at h
          split at h
          · exact ih _ previous rest m h
          · cases h
      | backReference index =>
          simp only [matchItems] at h
          split at h
          · cases h
          · cases h
          · rename_i captured left hback
            exact (ih captures _ left m h).trans (backReference_suffix hback)
      | balance opening closing =>
          cases rest with
          | nil =>
              cases h
          | cons c rest =>
              simp only [matchItems] at h
              split at h
              · split at h
                · rename_i left hclose
                  exact ((ih captures _ left m h).trans (closeBalance_suffix hclose)).trans
                    (List.suffix_cons c rest)
                · cases h
              · cases h
      | frontier s =>
          simp only [matchItems] at h
          split at h
          · exact ih captures previous rest m h
          · cases h
      | endAnchor =>
          simp only [matchItems] at h
          split at h
          · exact ih captures previous rest m h
          · cases h
      | malformed e =>
          cases h

/-! ## The place of a match -/

/-- The match that a search stops at is one of the items there. -/
theorem search_matches {items : List Item} {anchored : Bool} {previous : Char}
    {rest : List Char} {skipped : Nat} {m : Match}
    (h : search items anchored previous rest = .ok (some (skipped, m))) :
    skipped ≤ rest.length ∧
      matchItems items ((rest.take skipped).getLastD previous) (rest.drop skipped) [] =
        .ok (some m) := by
  induction rest generalizing previous skipped with
  | nil =>
      rw [search] at h
      cases hfound : matchItems items previous [] [] with
      | error e =>
          rw [hfound] at h
          cases h
      | ok found =>
          rw [hfound] at h
          cases found with
          | none =>
              cases h
          | some found =>
              cases h
              exact ⟨Nat.zero_le _, hfound⟩
  | cons c rest ih =>
      rw [search] at h
      cases hfound : matchItems items previous (c :: rest) [] with
      | error e =>
          rw [hfound] at h
          cases h
      | ok found =>
          rw [hfound] at h
          cases found with
          | some found =>
              cases h
              exact ⟨Nat.zero_le _, hfound⟩
          | none =>
              simp only [orGoOn] at h
              split at h
              · cases h
              · cases hnext : search items anchored c rest with
                | error e =>
                    rw [hnext] at h
                    cases h
                | ok result =>
                    rw [hnext] at h
                    rcases result with _ | ⟨skipped', m'⟩
                    · cases h
                    · cases h
                      rcases ih hnext with ⟨hle, hmatch⟩
                      refine ⟨Nat.succ_le_succ hle, ?_⟩
                      rw [List.take_succ_cons, List.getLastD_cons]
                      exact hmatch

/-- A search stops where the items match. -/
theorem search_here {items : List Item} {anchored : Bool} {previous : Char} {rest : List Char}
    {m : Match} (h : matchItems items previous rest [] = .ok (some m)) :
    search items anchored previous rest = .ok (some (0, m)) := by
  cases rest with
  | nil =>
      rw [search, h]
      rfl
  | cons c rest =>
      rw [search, h]
      rfl

section Find

variable {txt pattern : List Char} {init s e : Nat}

/-- What a search for a pattern without an anchor has found: the items match there. -/
theorem find_matches (hspecial : pattern.any isSpecial) (hanchor : anchor pattern = (false, pattern))
    (h : find txt pattern init false = .ok (some (s, e))) :
    ∃ k m, k ≤ txt.length ∧ min (init - 1) txt.length ≤ k ∧ s = k + 1 ∧
      e = txt.length - m.rest.length ∧ m.captures.all (·.isFinished) ∧
      matchItems (parse pattern) ((txt.take k).getLastD '\x00') (txt.drop k) [] =
        .ok (some m) := by
  simp only [find, hspecial, hanchor, Bool.not_true, Bool.or_self, Bool.false_eq_true,
    if_false] at h
  split at h
  · cases h
  · cases h
  · rename_i skipped m hsearch
    split at h
    · rename_i hfinished
      cases h
      rcases search_matches hsearch with ⟨hle, hmatch⟩
      rw [List.length_drop] at hle
      refine ⟨min (init - 1) txt.length + skipped, m, by omega, by omega, rfl, rfl, hfinished, ?_⟩
      rw [List.drop_drop] at hmatch
      rw [List.take_add, ← hmatch]
      congr 1
      cases hskipped : (txt.drop (min (init - 1) txt.length)).take skipped using List.reverseRecOn with
      | nil =>
          rw [List.append_nil]
          rfl
      | append_singleton _ c _ =>
          rw [← List.append_assoc]
          simp
    · cases h

/-- The positions that a search gives: in the text, and not before the start. -/
theorem find_bounds (hspecial : pattern.any isSpecial) (hanchor : anchor pattern = (false, pattern))
    (h : find txt pattern init false = .ok (some (s, e))) :
    min init (txt.length + 1) ≤ s ∧ 1 ≤ s ∧ s ≤ e + 1 ∧ e ≤ txt.length := by
  rcases find_matches hspecial hanchor h with ⟨k, m, hk, hinit, rfl, rfl, -, hmatch⟩
  have hend := (matchItems_suffix _ _ _ _ m hmatch).length_le
  rw [List.length_drop] at hend
  omega

/-- The match is found again from its own place. -/
theorem find_again (hspecial : pattern.any isSpecial) (hanchor : anchor pattern = (false, pattern))
    (h : find txt pattern init false = .ok (some (s, e))) :
    find txt pattern s false = .ok (some (s, e)) := by
  rcases find_matches hspecial hanchor h with ⟨k, m, hk, -, rfl, rfl, hfinished, hmatch⟩
  have hstart : min (k + 1 - 1) txt.length = k := by omega
  simp only [find, hspecial, hanchor, Bool.not_true, Bool.or_self, Bool.false_eq_true, if_false,
    hstart, search_here hmatch, hfinished, if_true, Nat.add_zero]

end Find

/-! ## Patterns of plain characters -/

/-- The characters that a pattern does not take for themselves. -/
def isMagic (c : Char) : Bool := c ∈ ['(', ')', '%', '$', '[', '.', '?', '*', '+', '-']

theorem parseRepeat_literal {single : Single} {rest : List Char}
    (h : ∀ c ∈ rest.head?, isMagic c = false) : parseRepeat single rest = (.one single, rest) := by
  unfold parseRepeat
  split
  · exact absurd (h '?' rfl) (by decide)
  · exact absurd (h '*' rfl) (by decide)
  · exact absurd (h '+' rfl) (by decide)
  · exact absurd (h '-' rfl) (by decide)
  · rfl

theorem parseItem_literal {c : Char} {rest : List Char} (hc : isMagic c = false) :
    parseItem c rest = parseRepeat (.char c) rest := by
  have hsingle : parseSingle c rest = .ok (.char c, rest) := by
    unfold parseSingle
    split
    · exact absurd hc (by decide)
    · exact absurd hc (by decide)
    · exact absurd hc (by decide)
    · rfl
  unfold parseItem
  split
  · exact absurd hc (by decide)
  · exact absurd hc (by decide)
  · exact absurd hc (by decide)
  · exact absurd hc (by decide)
  · rw [parsePlain, hsingle]

/-- Plain characters stand for themselves, unless a repetition follows. -/
theorem parseItems_literals {word rest : List Char} {fuel : Nat}
    (hword : ∀ c ∈ word, isMagic c = false) (hrest : ∀ c ∈ rest.head?, isMagic c = false ∨ c = '[') :
    parseItems (word.length + fuel) (word ++ rest) =
      (word.map Single.char).map .one ++ parseItems fuel rest := by
  induction word with
  | nil =>
      rw [List.length_nil, Nat.zero_add]
      rfl
  | cons c word ih =>
      have hnext : parseRepeat (.char c) (word ++ rest) = (.one (.char c), word ++ rest) := by
        cases word with
        | cons d word =>
            refine parseRepeat_literal ?_
            rintro _ ⟨⟩
            exact hword d (List.mem_cons_of_mem _ List.mem_cons_self)
        | nil =>
            cases rest with
            | nil =>
                rfl
            | cons d rest =>
                rcases hrest d rfl with hd | rfl
                · refine parseRepeat_literal ?_
                  rintro _ ⟨⟩
                  exact hd
                · rfl
      have hfuel : (c :: word).length + fuel = word.length + fuel + 1 := by
        rw [List.length_cons]
        omega
      rw [hfuel, List.cons_append, parseItems, parseItem_literal (hword c List.mem_cons_self), hnext,
        ih fun d hd => hword d (List.mem_cons_of_mem _ hd)]
      rfl

/-! ## The place of a character -/

section FindChar

variable {txt : List Char} {c : Char} {init s e : Nat}

theorem standsAt_char {k : Nat} : StandsAt [c] txt k ↔ txt[k]? = some c := by
  constructor
  · rintro ⟨-, after, hafter⟩
    have hhead := congrArg List.head? hafter
    rw [List.head?_drop] at hhead
    exact hhead.symm
  · intro h
    rcases List.getElem?_eq_some_iff.1 h with ⟨hk, rfl⟩
    refine ⟨hk.le, txt.drop (k + 1), ?_⟩
    rw [List.singleton_append, List.getElem_cons_drop]

/-- The first place of a character that is not before the start. -/
theorem find_char (hplain : isSpecial c = false)
    (h : find txt [c] init false = .ok (some (s, e))) :
    e = s ∧ 1 ≤ s ∧ init ≤ s ∧ txt[s - 1]? = some c ∧
      ∀ p, init ≤ p → 1 ≤ p → p < s → txt[p - 1]? ≠ some c := by
  rw [find_plain (by simp [hplain])] at h
  simp only [Except.ok.injEq, Option.map_eq_some_iff, Prod.mk.injEq, List.length_singleton] at h
  rcases h with ⟨k, hfrom, rfl, rfl⟩
  rcases plainFrom_some hfrom with ⟨hstands, hfirst⟩
  have hle : min (init - 1) txt.length ≤ txt.length := Nat.min_le_right _ _
  have hat := (standsAt_drop hle).1 hstands
  have hlength := hat.le
  rw [List.length_singleton] at hlength
  refine ⟨rfl, by omega, by omega, standsAt_char.1 hat, ?_⟩
  intro p hinit hone hp hchar
  have hstart : min (init - 1) txt.length = init - 1 := by omega
  refine hfirst (p - 1 - (init - 1)) (by omega) ((standsAt_drop hle).2 ?_)
  rw [hstart, show init - 1 + (p - 1 - (init - 1)) = p - 1 by omega]
  exact standsAt_char.2 hchar

/-- No place from the start on. -/
theorem find_char_none (hplain : isSpecial c = false)
    (h : find txt [c] init false = .ok none) {p : Nat} (hinit : init ≤ p) (hone : 1 ≤ p) :
    txt[p - 1]? ≠ some c := by
  intro hchar
  rw [find_plain (by simp [hplain])] at h
  simp only [Except.ok.injEq, Option.map_eq_none_iff] at h
  rcases List.getElem?_eq_some_iff.1 hchar with ⟨hp, -⟩
  have hle : min (init - 1) txt.length ≤ txt.length := Nat.min_le_right _ _
  have hat : StandsAt [c] txt (min (init - 1) txt.length + (p - 1 - (init - 1))) := by
    rw [show min (init - 1) txt.length + (p - 1 - (init - 1)) = p - 1 by omega]
    exact standsAt_char.2 hchar
  exact plainFrom_none h ((standsAt_drop hle).2 hat)

/-- The first place behind the start. -/
theorem find_char_at {before after : List Char} (hplain : isSpecial c = false)
    (hinit : init ≤ before.length + 1) (hnone : c ∉ before.drop (init - 1)) :
    find (before ++ c :: after) [c] init false =
      .ok (some (before.length + 1, before.length + 1)) := by
  have hstart : min (init - 1) (before ++ c :: after).length = init - 1 := by
    rw [List.length_append, List.length_cons]
    omega
  have hplace : init - 1 + (before.length - (init - 1)) = before.length := by omega
  rw [find_plain (by simp [hplain]), hstart, List.drop_append_of_le_length (by omega),
    plainFrom_char hnone, Option.map_some, List.length_drop, List.length_singleton, hplace]

end FindChar

end Lua
