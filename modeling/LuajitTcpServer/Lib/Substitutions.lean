import LuajitTcpServer.Lib.Replacing

/-!
# Substitutions — replacements that depend on what they replace

`string.gsub` with a function: what it returns for a match takes the place of the match.
`substituteBy` is the scan without the pattern, as `replaceBy` is for a fixed replacement; for a
pattern that is a sequence of singles both agree (`gsubBy_ones`).
-/

namespace Lua

/-! ## Replacing by a function -/

/-- As `gsubFrom`, with a function of the first capture or of the whole match. -/
def gsubByFrom (items : List Item) (total : Nat) (f : List Char → List Char) :
    Nat → Char → List Char → Except Error (List Char)
  | 0, previous, [] =>
      match matchItems items previous [] [] with
      | .error e => .error e
      | .ok none => .ok []
      | .ok (some found) => (found.value total []).map f
  | _ + 1, _, [] => .ok []
  | 0, previous, c :: rest =>
      match matchItems items previous (c :: rest) [] with
      | .error e => .error e
      | .ok none => (gsubByFrom items total f 0 c rest).map (c :: ·)
      | .ok (some found) => do
          let value ← found.value total (c :: rest)
          match found.taken (c :: rest) with
          | 0 => (gsubByFrom items total f 0 c rest).map (f value ++ c :: ·)
          | taken + 1 => (gsubByFrom items total f taken c rest).map (f value ++ ·)
  | skip + 1, _, c :: rest => gsubByFrom items total f skip c rest

/-- The text of `string.gsub` with a function, for a pattern that is not anchored. -/
def gsubBy (txt pattern : List Char) (f : List Char → List Char) : Except Error (List Char) :=
  gsubByFrom (parse pattern) txt.length f 0 '\x00' txt

/-! ## The scan -/

/-- The places where `lengthAt` gives a length are replaced by what `f` makes of them. -/
def substituteBy {α : Type} (lengthAt : List α → Option Nat) (f : List α → List α) :
    Nat → List α → List α
  | _, [] => []
  | 0, c :: rest =>
      match lengthAt (c :: rest) with
      | none => c :: substituteBy lengthAt f 0 rest
      | some 0 => f [] ++ c :: substituteBy lengthAt f 0 rest
      | some (taken + 1) => f ((c :: rest).take (taken + 1)) ++ substituteBy lengthAt f taken rest
  | skip + 1, _ :: rest => substituteBy lengthAt f skip rest

section SubstituteBy

variable {α : Type} {lengthAt : List α → Option Nat} {f : List α → List α}

theorem substituteBy_nil : substituteBy lengthAt f 0 [] = [] := by
  rw [substituteBy]

theorem substituteBy_miss {c : α} {rest : List α} (h : lengthAt (c :: rest) = none) :
    substituteBy lengthAt f 0 (c :: rest) = c :: substituteBy lengthAt f 0 rest := by
  rw [substituteBy, h]

theorem substituteBy_skip {piece rest : List α} :
    substituteBy lengthAt f piece.length (piece ++ rest) = substituteBy lengthAt f 0 rest := by
  induction piece with
  | nil =>
      rfl
  | cons c piece ih =>
      rw [List.length_cons, List.cons_append, substituteBy, ih]

theorem substituteBy_hit {piece rest : List α} (hne : piece ≠ [])
    (h : lengthAt (piece ++ rest) = some piece.length) :
    substituteBy lengthAt f 0 (piece ++ rest) = f piece ++ substituteBy lengthAt f 0 rest := by
  cases piece with
  | nil =>
      exact absurd rfl hne
  | cons c piece =>
      have htake : (c :: (piece ++ rest)).take (piece.length + 1) = c :: piece := by
        rw [List.take_succ_cons, List.take_left]
      rw [List.cons_append, List.length_cons] at h
      rw [List.cons_append, substituteBy, h]
      simp only [htake, substituteBy_skip]

/-- Where nothing is found, nothing is replaced. -/
theorem substituteBy_miss_all {before rest : List α}
    (h : ∀ left right, before = left ++ right → right ≠ [] → lengthAt (right ++ rest) = none) :
    substituteBy lengthAt f 0 (before ++ rest) = before ++ substituteBy lengthAt f 0 rest := by
  induction before with
  | nil =>
      rfl
  | cons c before ih =>
      have hrest := ih fun left right heq => h (c :: left) right (congrArg (c :: ·) heq)
      have hhere : lengthAt (c :: (before ++ rest)) = none :=
        h [] (c :: before) rfl (List.cons_ne_nil _ _)
      rw [List.cons_append, substituteBy_miss hhere, hrest, List.cons_append]

end SubstituteBy

/-! ## Sequences of singles -/

/-- The singles hold for the characters of a text, one after the other. -/
def Spelled (singles : List Single) (piece : List Char) : Prop :=
  List.Forall₂ (fun s c => s.holds c = true) singles piece

/-- How far the singles stand for the first characters of the text. -/
def spellsAt (singles : List Single) (txt : List Char) : Option Nat :=
  (readSingles singles txt).map fun _ => singles.length

section Singles

variable {singles : List Single} {f : List Char → List Char} {txt pattern : List Char}

theorem gsubByFrom_ones (hne : singles ≠ []) (total skip : Nat) (previous : Char) :
    gsubByFrom (singles.map .one) total f skip previous txt =
      .ok (substituteBy (spellsAt singles) f skip txt) := by
  induction txt generalizing skip previous with
  | nil =>
      cases skip with
      | succ skip =>
          rfl
      | zero =>
          cases singles with
          | nil =>
              exact absurd rfl hne
          | cons s singles =>
              rfl
  | cons c txt ih =>
      cases skip with
      | succ skip =>
          exact ih skip c
      | zero =>
          rw [gsubByFrom, matchItems_ones_nil, substituteBy, spellsAt]
          cases hread : readSingles singles (c :: txt) with
          | none =>
              simp only [Option.map_none, ih]
              rfl
          | some rest =>
              have hlength := readSingles_length hread
              -- the match takes as many characters as there are singles
              have htaken : (c :: txt).length - rest.length = singles.length := by omega
              simp only [Option.map_some, Match.value, Match.taken, List.all_nil, if_true,
                List.getLast?_nil, htaken]
              cases hsingles : singles.length with
              | zero =>
                  exact absurd (List.length_eq_zero_iff.1 hsingles) hne
              | succ taken =>
                  change (gsubByFrom (singles.map .one) total f taken c txt).map _ = _
                  rw [ih]
                  rfl

theorem gsubBy_ones (hne : singles ≠ []) (hparse : parse pattern = singles.map .one) :
    gsubBy txt pattern f = .ok (substituteBy (spellsAt singles) f 0 txt) := by
  rw [gsubBy, hparse]
  exact gsubByFrom_ones hne _ _ _

theorem readSingles_eq_none {s : Single} {c : Char} (h : s.holds c = false) :
    readSingles (s :: singles) (c :: txt) = none := by
  rw [readSingles, if_neg (by rw [h]; decide)]

theorem readSingles_eq_append {rest : List Char} (h : readSingles singles txt = some rest) :
    ∃ piece, txt = piece ++ rest ∧ Spelled singles piece := by
  induction singles generalizing txt with
  | nil =>
      cases h
      exact ⟨[], rfl, .nil⟩
  | cons s singles ih =>
      cases txt with
      | nil =>
          cases h
      | cons c txt =>
          rw [readSingles] at h
          by_cases hc : s.holds c = true
          · rw [if_pos hc] at h
            rcases ih h with ⟨piece, rfl, hpiece⟩
            exact ⟨c :: piece, rfl, .cons hc hpiece⟩
          · rw [if_neg hc] at h
            cases h

theorem Spelled.read {piece rest : List Char} (h : Spelled singles piece) :
    readSingles singles (piece ++ rest) = some rest := by
  induction h with
  | nil =>
      rfl
  | cons hc _ ih =>
      rw [List.cons_append, readSingles, if_pos hc]
      exact ih

/-- A pattern of singles is not found where they do not stand, also when it is searched for as it
is. -/
theorem find_ones_missing (init : Nat) (hanchor : anchor pattern = (false, pattern))
    (hparse : parse pattern = singles.map .one)
    (hword : pattern.any isSpecial = true ∨ Spells singles pattern)
    (h : ¬ Contains singles txt) : find txt pattern init false = .ok none := by
  by_cases hspecial : pattern.any isSpecial = true
  · exact find_ones_none hspecial hanchor hparse h
  · have hspells := hword.resolve_left hspecial
    rw [find_plain (by simpa using hspecial)]
    cases hplain : plainFrom pattern (txt.drop (min (init - 1) txt.length)) with
    | none =>
        rfl
    | some k =>
        rcases (plainFrom_some hplain).1 with ⟨-, rest, heq⟩
        refine absurd ⟨txt.take (min (init - 1) txt.length + k), pattern ++ rest, ?_, ?_⟩ h
        · rw [heq, List.drop_drop, List.take_append_drop]
        · rw [hspells.append]
          rfl

theorem Spells.eq_of_spelled {word piece : List Char} (hword : Spells singles word)
    (hpiece : Spelled singles piece) : piece = word := by
  induction hword generalizing piece with
  | nil =>
      cases hpiece
      rfl
  | cons hs _ ih =>
      cases hpiece with
      | cons hc hpiece =>
          rw [hs, decide_eq_true_iff] at hc
          rw [hc, ih hpiece]

theorem find_ones_found (hanchor : anchor pattern = (false, pattern))
    (hparse : parse pattern = singles.map .one)
    (hword : pattern.any isSpecial = true ∨ Spells singles pattern)
    (h : Contains singles txt) : ∃ found, find txt pattern 1 false = .ok (some found) := by
  have hstart : min (1 - 1) txt.length = 0 := Nat.zero_min _
  by_cases hspecial : pattern.any isSpecial = true
  · rcases (search_ones ((txt.take 0).getLastD '\x00')).1 h with ⟨⟨skipped, found⟩, hsearch⟩
    have hcaptures := search_ones_captures hsearch
    simp only [find, hspecial, hanchor, hparse, hstart, List.drop_zero, hsearch, hcaptures]
    exact ⟨_, rfl⟩
  · have hspells := hword.resolve_left hspecial
    rcases h with ⟨before, last, rfl, hlast⟩
    rcases Option.isSome_iff_exists.1 hlast with ⟨rest, hread⟩
    rcases readSingles_eq_append hread with ⟨piece, rfl, hpiece⟩
    rw [hspells.eq_of_spelled hpiece] at *
    rw [find_plain (by simpa using hspecial), hstart, List.drop_zero]
    cases hplain : plainFrom pattern (before ++ (pattern ++ rest)) with
    | some k =>
        exact ⟨_, rfl⟩
    | none =>
        refine absurd ?_ (plainFrom_none (k := before.length) hplain)
        exact ⟨by simp, by simp⟩

end Singles

/-! ## What a substitution leaves -/

section Leaves

variable {singles singles' : List Single} {f : List Char → List Char} {txt : List Char}

/-- The singles `singles'` hold for no character of what is put in. -/
def Foreign (singles singles' : List Single) (f : List Char → List Char) : Prop :=
  ∀ piece, Spelled singles piece →
    f piece ≠ [] ∧ ∀ c ∈ f piece, ∀ s ∈ singles', s.holds c = false

theorem Foreign.readSingles {piece right rest : List Char} (hforeign : Foreign singles singles' f)
    (hne : singles' ≠ []) (hpiece : Spelled singles piece)
    (hright : right ≠ []) (hsuffix : right <:+ f piece) :
    Lua.readSingles singles' (right ++ rest) = none := by
  rcases List.exists_cons_of_ne_nil hright with ⟨c, right, rfl⟩
  rcases List.exists_cons_of_ne_nil hne with ⟨s, singles', rfl⟩
  exact readSingles_eq_none
    ((hforeign piece hpiece).2 c (hsuffix.subset List.mem_cons_self) s List.mem_cons_self)

theorem spellsAt_eq_some {n : Nat} (h : spellsAt singles txt = some n) :
    n = singles.length ∧ ∃ piece rest, txt = piece ++ rest ∧ piece.length = singles.length ∧
      Spelled singles piece := by
  rcases Option.map_eq_some_iff.1 h with ⟨rest, hread, rfl⟩
  rcases readSingles_eq_append hread with ⟨piece, rfl, hpiece⟩
  exact ⟨rfl, piece, rest, rfl, hpiece.length_eq.symm, hpiece⟩

/-- The two ways a substitution goes on at a place of the text. -/
theorem substituteBy_cases (hne : singles ≠ []) (txt : List Char) :
    (txt = [] ∧ substituteBy (spellsAt singles) f 0 txt = []) ∨
    (∃ c rest, txt = c :: rest ∧ spellsAt singles txt = none ∧
      substituteBy (spellsAt singles) f 0 txt = c :: substituteBy (spellsAt singles) f 0 rest) ∨
    ∃ piece rest, txt = piece ++ rest ∧ piece ≠ [] ∧
      Spelled singles piece ∧
      substituteBy (spellsAt singles) f 0 txt =
        f piece ++ substituteBy (spellsAt singles) f 0 rest := by
  cases txt with
  | nil =>
      exact Or.inl ⟨rfl, substituteBy_nil⟩
  | cons c rest =>
      cases hspells : spellsAt singles (c :: rest) with
      | none =>
          exact Or.inr (Or.inl ⟨c, rest, rfl, rfl, substituteBy_miss hspells⟩)
      | some n =>
          rcases spellsAt_eq_some hspells with ⟨rfl, piece, after, heq, hlength, hpiece⟩
          have hnil : piece ≠ [] := by
            rintro rfl
            exact hne (List.length_eq_zero_iff.1 hlength.symm)
          rw [heq] at hspells ⊢
          exact Or.inr (Or.inr ⟨piece, after, rfl, hnil, hpiece,
            substituteBy_hit hnil (by rw [hspells, hlength])⟩)

theorem mem_substituteBy {c : Char} (hne : singles ≠ [])
    (h : c ∈ substituteBy (spellsAt singles) f 0 txt) :
    c ∈ txt ∨ ∃ piece, Spelled singles piece ∧ c ∈ f piece := by
  induction hsize : txt.length using Nat.strongRecOn generalizing txt with
  | ind n ih =>
      rcases substituteBy_cases (f := f) hne txt with ⟨rfl, hsubst⟩ |
        ⟨d, rest, rfl, -, hsubst⟩ | ⟨piece, rest, rfl, hnil, hpiece, hsubst⟩
      · rw [hsubst] at h
        exact Or.inl h
      · rw [hsubst] at h
        rw [List.length_cons] at hsize
        rcases List.mem_cons.1 h with rfl | hrest
        · exact Or.inl List.mem_cons_self
        · exact (ih rest.length (by omega) hrest rfl).imp_left (List.mem_cons_of_mem _)
      · have hlength : 0 < piece.length := List.length_pos_iff.2 hnil
        rw [hsubst] at h
        rw [List.length_append] at hsize
        rcases List.mem_append.1 h with hvalue | hrest
        · exact Or.inr ⟨piece, hpiece, hvalue⟩
        · exact (ih rest.length (by omega) hrest rfl).imp_left (List.mem_append_right _)

theorem substituteBy_eq_self (h : ¬ Contains singles txt) :
    substituteBy (spellsAt singles) f 0 txt = txt := by
  have hmiss : ∀ left right, txt = left ++ right → right ≠ [] →
      spellsAt singles (right ++ []) = none := by
    intro left right heq _
    cases hread : readSingles singles right with
    | none =>
        rw [List.append_nil, spellsAt, hread]
        rfl
    | some rest =>
        exact absurd ⟨left, right, heq, by rw [hread]; rfl⟩ h
  have hall := substituteBy_miss_all (f := f) hmiss
  rwa [List.append_nil, substituteBy_nil, List.append_nil] at hall

/-- Where singles that are foreign to what is put in stand in the result, they stand behind a part
of the text. -/
theorem substituteBy_suffix {before last : List Char} (hne : singles ≠ []) (hne' : singles' ≠ [])
    (hforeign : Foreign singles singles' f)
    (heq : substituteBy (spellsAt singles) f 0 txt = before ++ last)
    (hlast : (readSingles singles' last).isSome) :
    ∃ left right, txt = left ++ right ∧ last = substituteBy (spellsAt singles) f 0 right := by
  induction hsize : txt.length using Nat.strongRecOn generalizing txt before with
  | ind n ih =>
      rcases substituteBy_cases (f := f) hne txt with ⟨rfl, hsubst⟩ |
        ⟨c, rest, rfl, -, hsubst⟩ | ⟨piece, rest, rfl, hnil, hpiece, hsubst⟩
      · rw [hsubst] at heq
        rw [(List.append_eq_nil_iff.1 heq.symm).2]
        exact ⟨[], [], rfl, hsubst.symm⟩
      · cases before with
        | nil =>
            exact ⟨[], c :: rest, rfl, heq.symm⟩
        | cons d before =>
            rw [hsubst] at heq
            rw [List.length_cons] at hsize
            rcases ih rest.length (by omega) (List.cons_eq_cons.1 heq).2 rfl with
              ⟨left, right, rfl, hright⟩
            exact ⟨c :: left, right, rfl, hright⟩
      · have hlength : 0 < piece.length := List.length_pos_iff.2 hnil
        rw [List.length_append] at hsize
        rw [hsubst] at heq
        rcases List.append_eq_append_iff.1 heq with ⟨middle, rfl, hrest⟩ | ⟨middle, hvalue, rfl⟩
        · rcases ih rest.length (by omega) hrest rfl with ⟨left, right, rfl, hright⟩
          exact ⟨piece ++ left, right, (List.append_assoc _ _ _).symm, hright⟩
        · cases middle with
          | nil =>
              exact ⟨piece, rest, rfl, rfl⟩
          | cons d middle =>
              rw [hforeign.readSingles hne' hpiece (List.cons_ne_nil _ _)
                ⟨before, hvalue.symm⟩] at hlast
              cases hlast

/-- What foreign singles read from the result, they read from the text. -/
theorem readSingles_substituteBy (hne : singles ≠ []) (hforeign : Foreign singles singles' f)
    (h : (readSingles singles' (substituteBy (spellsAt singles) f 0 txt)).isSome) :
    (readSingles singles' txt).isSome := by
  induction singles' generalizing txt with
  | nil =>
      rfl
  | cons s singles' ih =>
      have hforeign' : Foreign singles singles' f := fun piece hpiece =>
        ⟨(hforeign piece hpiece).1, fun c hc s hs =>
          (hforeign piece hpiece).2 c hc s (List.mem_cons_of_mem _ hs)⟩
      rcases substituteBy_cases (f := f) hne txt with ⟨rfl, hsubst⟩ |
        ⟨c, rest, rfl, -, hsubst⟩ | ⟨piece, rest, rfl, hnil, hpiece, hsubst⟩
      · rwa [hsubst] at h
      · rw [hsubst, readSingles] at h
        rw [readSingles]
        split at h
        · rename_i hs
          rw [if_pos hs]
          exact ih hforeign' h
        · cases h
      · rw [hsubst, hforeign.readSingles (List.cons_ne_nil _ _) hpiece (hforeign piece hpiece).1
          (List.suffix_refl _)] at h
        cases h

theorem not_contains_substituteBy (hne : singles ≠ []) (hne' : singles' ≠ [])
    (hforeign : Foreign singles singles' f) (h : ¬ Contains singles' txt) :
    ¬ Contains singles' (substituteBy (spellsAt singles) f 0 txt) := by
  rintro ⟨before, last, heq, hlast⟩
  rcases substituteBy_suffix hne hne' hforeign heq hlast with ⟨left, right, rfl, rfl⟩
  exact h ⟨left, right, rfl, readSingles_substituteBy hne hforeign hlast⟩

/-- Nothing is left of what is replaced. -/
theorem substituteBy_removes (hne : singles ≠ []) (hforeign : Foreign singles singles f) :
    ¬ Contains singles (substituteBy (spellsAt singles) f 0 txt) := by
  rintro ⟨before, last, heq, hlast⟩
  rcases substituteBy_suffix hne hne hforeign heq hlast with ⟨left, right, rfl, rfl⟩
  have hhere := readSingles_substituteBy hne hforeign hlast
  rcases substituteBy_cases (f := f) hne right with ⟨rfl, hsubst⟩ |
    ⟨c, rest, rfl, hnone, hsubst⟩ | ⟨piece, rest, rfl, hnil, hpiece, hsubst⟩
  · rcases List.exists_cons_of_ne_nil hne with ⟨s, singles, rfl⟩
    cases hhere
  · rw [Option.isSome_iff_exists] at hhere
    rcases hhere with ⟨after, hafter⟩
    rw [spellsAt, hafter] at hnone
    cases hnone
  · rw [hsubst, hforeign.readSingles hne hpiece (hforeign piece hpiece).1 (List.suffix_refl _)]
      at hlast
    cases hlast

end Leaves

end Lua
