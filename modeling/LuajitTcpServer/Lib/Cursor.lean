import LuajitTcpServer.Lib.Places
import LuajitTcpServer.Lib.Replacing

/-!
# Cursor — reading a text from a position on

A scanner of Lua keeps a position in its text and searches from there.  `At txt pos rest` says that
`rest` is what stands from the position on, and turns what is found by position into parts of
`rest`.
-/

namespace Lua

/-- `rest` is what the text has from position `pos` on; one position behind the end is allowed. -/
structure At (txt : List Char) (pos : Nat) (rest : List Char) : Prop where
  pos_pos : 0 < pos
  drop_eq : txt.drop (pos - 1) = rest
  le : pos ≤ txt.length + 1

section At

variable {txt pattern rest piece : List Char} {pos : Nat}

theorem At.start (txt : List Char) : At txt 1 txt where
  pos_pos := Nat.one_pos
  drop_eq := rfl
  le := Nat.succ_le_succ (Nat.zero_le _)

theorem At.length_eq (h : At txt pos rest) : txt.length + 1 = pos + rest.length := by
  have hlength := congrArg List.length h.drop_eq
  have hpos := h.pos_pos
  have hle := h.le
  rw [List.length_drop] at hlength
  omega

theorem At.advance (h : At txt pos (piece ++ rest)) : At txt (pos + piece.length) rest where
  pos_pos := Nat.lt_of_lt_of_le h.pos_pos (Nat.le_add_right _ _)
  drop_eq := by
    have hpos := h.pos_pos
    have hsum : pos + piece.length - 1 = pos - 1 + piece.length := by omega
    rw [hsum, ← List.drop_drop, h.drop_eq, List.drop_left]
  le := by
    have hlength := h.length_eq
    rw [List.length_append] at hlength
    omega

theorem At.piece_le (h : At txt pos (piece ++ rest)) : piece.length ≤ txt.length := by
  have hlength := h.length_eq
  have hpos := h.pos_pos
  rw [List.length_append] at hlength
  omega

theorem At.next {c : Char} (h : At txt pos (c :: rest)) : At txt (pos + 1) rest :=
  @At.advance txt rest [c] pos h

/-- The `count` characters from the position on. -/
theorem At.sub_eq (h : At txt pos rest) (count : Nat) :
    sub txt pos ((pos - 1 + count : Nat) : Int) = rest.take count := by
  rw [sub_positions, ← h.drop_eq, List.drop_take, Nat.add_sub_cancel_left]

theorem At.sub_here {c : Char} (h : At txt pos (c :: rest)) : sub txt pos pos = [c] := by
  have hone := h.sub_eq 1
  rwa [Nat.sub_add_cancel h.pos_pos] at hone

theorem At.find_reach (h : At txt pos rest) (hspecial : pattern.any isSpecial = true)
    (hanchor : anchor pattern = (false, pattern)) (hplain : isPlain 0 0 (parse pattern)) :
    find txt pattern pos false =
      .ok ((firstReach (parse pattern) rest).map fun (skipped, left) =>
        (pos + skipped, txt.length - left.length)) := by
  have hle := h.le
  have hstart : min (pos - 1) txt.length = pos - 1 := by omega
  rcases @search_plain _ rest hplain ((txt.take (pos - 1)).getLastD '\x00') with
    ⟨result, hresult, hfirst, hall⟩
  simp only [find, hspecial, hanchor, hstart, h.drop_eq, hresult, ← hfirst]
  cases result with
  | none =>
      rfl
  | some result =>
      rcases result with ⟨skipped, found⟩
      have hpos := h.pos_pos
      have hsum : pos - 1 + skipped + 1 = pos + skipped := by omega
      simp [hall skipped found rfl, hsum]

theorem At.find_one {s : Single} (h : At txt pos rest) (hspecial : pattern.any isSpecial = true)
    (hanchor : anchor pattern = (false, pattern)) (hparse : parse pattern = [.one s]) :
    find txt pattern pos false =
      .ok ((rest.findIdx? s.holds).map fun k => (pos + k, pos + k)) := by
  have hplain : isPlain 0 0 (parse pattern) := by
    rw [hparse]
    rfl
  have hlength := h.length_eq
  rw [h.find_reach hspecial hanchor hplain, hparse, firstReach_one]
  cases hidx : rest.findIdx? s.holds with
  | none =>
      rfl
  | some k =>
      have hlt := (List.findIdx?_eq_some_iff_getElem.1 hidx).1
      simp only [Option.map_some, List.length_drop]
      rw [show txt.length - (rest.length - (k + 1)) = pos + k by omega]

/-- A search for a pattern that is anchored to the position. -/
theorem At.find_anchored {anchored : List Char} (h : At txt pos rest)
    (hspecial : anchored.any isSpecial = true) (hanchor : anchor anchored = (true, pattern))
    (hplain : isPlain 0 0 (parse pattern)) :
    find txt anchored pos false =
      .ok ((reach (parse pattern) rest).map fun left => (pos, txt.length - left.length)) := by
  have hle := h.le
  have hpos := h.pos_pos
  have hstart : min (pos - 1) txt.length = pos - 1 := by omega
  have hone : pos - 1 + 0 + 1 = pos := by omega
  rcases @matchItems_reach _ ((txt.take (pos - 1)).getLastD '\x00') rest [] hplain with
    ⟨found, hfound, hreach, hfinished⟩
  have hsearch : search (parse pattern) true ((txt.take (pos - 1)).getLastD '\x00') rest =
      .ok (found.map fun m => (0, m)) := by
    cases rest with
    | nil =>
        rw [search, hfound]
        cases found <;> rfl
    | cons c rest =>
        rw [search, hfound]
        cases found <;> rfl
  simp only [find, hspecial, hanchor, hstart, h.drop_eq, hsearch, ← hreach]
  cases found with
  | none =>
      rfl
  | some found =>
      simp only [Option.map_some, hfinished found rfl, hone, if_true]
      rfl

/-- A pattern that is anchored is tried at the position alone. -/
theorem At.find_front {anchored : List Char} {found : Option Match} (h : At txt pos rest)
    (hspecial : anchored.any isSpecial = true) (hanchor : anchor anchored = (true, pattern))
    (hmatch : matchItems (parse pattern) ((txt.take (pos - 1)).getLastD '\x00') rest [] = .ok found)
    (hcaptures : ∀ m, found = some m → m.captures = []) :
    find txt anchored pos false =
      .ok (found.map fun m => (pos, txt.length - m.rest.length)) := by
  have hle := h.le
  have hpos := h.pos_pos
  have hstart : min (pos - 1) txt.length = pos - 1 := by omega
  have hone : pos - 1 + 0 + 1 = pos := by omega
  have hsearch : search (parse pattern) true ((txt.take (pos - 1)).getLastD '\x00') rest =
      .ok (found.map fun m => (0, m)) := by
    cases rest with
    | nil =>
        rw [search, hmatch]
        cases found <;> rfl
    | cons c rest =>
        rw [search, hmatch]
        cases found <;> rfl
  simp only [find, hspecial, hanchor, hstart, h.drop_eq, hsearch]
  cases found with
  | none =>
      rfl
  | some m =>
      simp only [Option.map_some, hcaptures m rfl, hone]
      rfl

end At

/-! ## Items that take as much as they can -/

/-- What is left of the text when each item takes as much as it can. -/
def greedy : List Item → List Char → Option (List Char)
  | [], rest => some rest
  | .one s :: items, c :: rest => if s.holds c then greedy items rest else none
  | .optional _ :: items, [] => greedy items []
  | .optional s :: items, c :: rest =>
      if s.holds c then greedy items rest else greedy items (c :: rest)
  | .star s :: items, rest => greedy items (rest.dropWhile s.holds)
  | .plus s :: items, c :: rest =>
      if s.holds c then greedy items (rest.dropWhile s.holds) else none
  | _, _ => none

theorem maxExpand_dropWhile {holds : Char → Bool} {next : Char → List Char → Found}
    {rest : List Char} (previous : Char)
    (hnext : ∀ previous, ∃ found, next previous (rest.dropWhile holds) = .ok (some found)) :
    ∃ last, maxExpand holds next previous rest = next last (rest.dropWhile holds) := by
  have hstop : ∀ d ∈ (rest.dropWhile holds).head?, holds d = false := by
    intro d hd
    have hhead := List.head?_dropWhile_not holds rest
    rw [hd] at hhead
    exact hhead
  have hmax := @maxExpand_all _ _ (rest.takeWhile holds) _ previous
    (fun d hd => List.mem_takeWhile_imp hd) hstop hnext
  rw [List.takeWhile_append_dropWhile] at hmax
  exact ⟨_, hmax⟩

/-- The first match that is tried is the one where each item takes as much as it can. -/
theorem matchItems_greedy (items : List Item) (captures : List Capture) :
    ∀ (rest left : List Char) (previous : Char), greedy items rest = some left →
      ∃ last, matchItems items previous rest captures = .ok (some ⟨last, left, captures⟩) := by
  induction items with
  | nil =>
      intro rest left previous h
      cases h
      exact ⟨previous, rfl⟩
  | cons item items ih =>
      intro rest left previous h
      have hdrop : ∀ (s : Single) (rest : List Char) (previous : Char),
          greedy items (rest.dropWhile s.holds) = some left → ∃ last,
            maxExpand s.holds (fun previous rest => matchItems items previous rest captures)
              previous rest = .ok (some ⟨last, left, captures⟩) := by
        intro s rest previous h
        have hnext : ∀ previous, ∃ found,
            matchItems items previous (rest.dropWhile s.holds) captures = .ok (some found) := by
          intro previous
          rcases ih _ left previous h with ⟨last, hlast⟩
          exact ⟨_, hlast⟩
        rcases @maxExpand_dropWhile s.holds
          (fun previous rest => matchItems items previous rest captures) rest previous hnext with
          ⟨last, hlast⟩
        rw [hlast]
        exact ih _ left last h
      cases item with
      | one s =>
          cases rest with
          | nil =>
              cases h
          | cons c rest =>
              simp only [greedy] at h
              split_ifs at h with hc
              rw [matchItems, if_pos hc]
              exact ih rest left c h
      | optional s =>
          cases rest with
          | nil =>
              rw [matchItems]
              exact ih [] left previous h
          | cons c rest =>
              simp only [greedy] at h
              rw [matchItems]
              by_cases hc : s.holds c = true
              · rw [if_pos hc] at h ⊢
                rcases ih rest left c h with ⟨last, hlast⟩
                rw [hlast]
                exact ⟨last, rfl⟩
              · rw [if_neg hc] at h ⊢
                exact ih _ left previous h
      | star s =>
          rw [matchItems]
          exact hdrop s rest previous h
      | plus s =>
          cases rest with
          | nil =>
              cases h
          | cons c rest =>
              simp only [greedy] at h
              split_ifs at h with hc
              rw [matchItems, if_pos hc]
              exact hdrop s rest c h
      | _ =>
          cases h

/-- A search for an anchored pattern whose items take as much as they can. -/
theorem At.find_greedy {txt anchored pattern rest left : List Char} {pos : Nat}
    (h : At txt pos rest) (hspecial : anchored.any isSpecial = true)
    (hanchor : anchor anchored = (true, pattern)) (hleft : greedy (parse pattern) rest = some left) :
    find txt anchored pos false = .ok (some (pos, txt.length - left.length)) := by
  rcases matchItems_greedy _ [] rest left ((txt.take (pos - 1)).getLastD '\x00') hleft with
    ⟨last, hmatch⟩
  exact h.find_front hspecial hanchor hmatch fun m hm => by rw [← Option.some.inj hm]

/-- What is found does not stand in front of the place where the search starts. -/
theorem find_from {txt pattern : List Char} {init s e : Nat} {plain : Bool}
    (h : find txt pattern init plain = .ok (some (s, e))) :
    1 ≤ s ∧ min init (txt.length + 1) ≤ s := by
  have hplace : ∃ skipped, s = min (init - 1) txt.length + skipped + 1 := by
    unfold find at h
    dsimp only at h
    split at h
    · rcases Option.map_eq_some_iff.1 (Except.ok.inj h) with ⟨skipped, -, heq⟩
      exact ⟨skipped, (Prod.mk.inj heq).1.symm⟩
    · split at h
      · cases h
      · cases h
      · rename_i skipped found _
        split_ifs at h
        · cases h
          exact ⟨skipped, rfl⟩
  rcases hplace with ⟨skipped, rfl⟩
  omega

theorem sub_ne_nil {txt : List Char} {s e : Nat} (hs : 1 ≤ s) (h : sub txt s e ≠ []) : s ≤ e := by
  by_contra hlt
  refine h ?_
  rw [sub_positions]
  refine List.drop_eq_nil_of_le ((List.length_take_le _ _).trans ?_)
  omega

/-- What is found for singles is as long as there are singles. -/
theorem find_ones_extent {singles : List Single} {txt pattern : List Char} {init s e : Nat}
    (hspecial : pattern.any isSpecial = true) (hanchor : anchor pattern = (false, pattern))
    (hparse : parse pattern = singles.map .one)
    (h : find txt pattern init false = .ok (some (s, e))) :
    s + singles.length = e + 1 ∧ e ≤ txt.length := by
  rcases find_matches hspecial hanchor h with ⟨k, m, hk, -, rfl, rfl, -, hmatch⟩
  rw [hparse, matchItems_ones_nil, Except.ok.injEq, Option.map_eq_some_iff] at hmatch
  rcases hmatch with ⟨rest, hread, rfl⟩
  have hlength := readSingles_length hread
  rw [List.length_drop] at hlength
  dsimp only
  omega

end Lua
