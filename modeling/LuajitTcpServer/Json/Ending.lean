import LuajitTcpServer.Json.Decoding

/-!
# Ending — `decode` comes to an end on every string

Whatever is read takes at least a character.  So values are nested no deeper than the string is
long, and a table has no more rounds than there are characters: the bounds of the model are never
used up (`decode_ends`).
-/

namespace LuajitTcpServer
namespace Json

open Lua Loops

theorem bind_ne_fuel {α β : Type} {x : Except Failure α} {f : α → Except Failure β}
    (hx : x ≠ .error .fuel) (hf : ∀ a, x = .ok a → f a ≠ .error .fuel) :
    x >>= f ≠ .error .fuel := by
  intro h
  rcases bind_error_iff.1 h with h | ⟨a, ha, h⟩
  · exact hx h
  · exact hf a ha h

theorem ok_ne_fuel {α : Type} (a : α) : (.ok a : Except Failure α) ≠ .error .fuel := by
  intro h
  cases h

/-! ## Blanks and strings -/

section Positions

variable {str : List Char} {pos p : Nat}

theorem scanwhite_bounds (h : scanwhite str pos = .ok (some p)) :
    1 ≤ p ∧ pos ≤ p ∧ p ≤ str.length := by
  refine @Loop.run_result _ _ (scanwhiteLoop str) (fun s => ∀ q, s = some q → pos ≤ q)
    (fun s => ∀ q, s = some q → 1 ≤ q ∧ pos ≤ q ∧ q ≤ str.length) _ _
    (fun q hq => Option.some.inj hq ▸ Nat.le_refl pos) h ?_ ?_ p rfl
  · intro s s' hs hround q hq
    cases s with
    | none =>
        cases hround
    | some start =>
        have hfrom := hs start rfl
        rcases scanwhiteRound_ok hround with hdone | ⟨p, -, hle, -, hagain | hdone⟩
        · cases hdone
        · cases hagain
          cases hq
          omega
        · cases hdone
  · intro s s' hs hround q hq
    cases s with
    | none =>
        cases hround
        cases hq
    | some start =>
        have hfrom := hs start rfl
        rcases scanwhiteRound_ok hround with hdone | ⟨p, hpos, hle, hlength, hagain | hdone⟩
        · cases hdone
          cases hq
        · cases hagain
        · cases hdone
          cases hq
          exact ⟨hpos, hfrom.trans hle, hlength⟩

theorem scanwhite_ne_fuel : scanwhite str pos ≠ .error .fuel := by
  intro h
  rcases (scanwhiteLoop str).run_error h with ⟨s, hs⟩
  cases s with
  | none =>
      cases hs
  | some q =>
      refine bind_ne_fuel (lifted_ne_fuel _) (fun found _ => ?_) hs
      cases found with
      | none =>
          exact ok_ne_fuel _
      | some found =>
          dsimp only
          split_ifs
          · exact ok_ne_fuel _
          · exact ok_ne_fuel _

theorem scanstring_lt {txt : List Char} {last : Nat} (h : scanstring str pos = .ok (txt, last)) :
    pos < last := by
  rw [scanstring] at h
  cases hrun : (scanStringLoop str pos).run ⟨pos + 1, []⟩ with
  | error e =>
      rw [hrun] at h
      cases h
  | ok s =>
      rw [hrun] at h
      cases h
      refine (scanStringLoop str pos).run_keeps (motive := fun s => pos < s.lastpos)
        (Nat.lt_succ_self pos) hrun fun s s' hs hround => ?_
      rcases hround with hround | hround
      · rcases scanStringRound_lt hround with ⟨s'', hlt, -, hagain | hdone⟩
        · cases hagain
          exact hs.trans hlt
        · cases hdone
      · rcases scanStringRound_lt hround with ⟨s'', hlt, -, hagain | hdone⟩
        · cases hagain
        · cases hdone
          exact hs.trans hlt

theorem scanstring_ne_fuel : scanstring str pos ≠ .error .fuel := by
  intro h
  rw [scanstring] at h
  cases hrun : (scanStringLoop str pos).run ⟨pos + 1, []⟩ with
  | ok s =>
      rw [hrun] at h
      cases h
  | error e =>
      rw [hrun] at h
      cases h
      rcases (scanStringLoop str pos).run_error hrun with ⟨s, hs⟩
      refine bind_ne_fuel (lifted_ne_fuel _) (fun found _ => ?_) hs
      cases found with
      | none =>
          intro h
          cases h
      | some found =>
          dsimp only
          split_ifs
          · exact ok_ne_fuel _
          · exact ok_ne_fuel _

end Positions

/-! ## Tables -/

/-- A reader that ends behind its start. -/
def Advances (scan : Heap → Nat → Except Failure Scanned) : Prop :=
  ∀ heap pos heap' v last, scan heap pos = .ok (heap', v, last) → pos < last

section Table

variable {str : List Char} {scan : Heap → Nat → Except Failure Scanned} {kind : Kind}
  {startpos pos p : Nat}

theorem nextInTable_bounds (h : nextInTable str kind startpos pos = .ok p) :
    1 ≤ p ∧ pos ≤ p ∧ p ≤ str.length := by
  rcases bind_ok_iff.1 h with ⟨found, hfound, hnext⟩
  cases found with
  | none =>
      cases hnext
  | some q =>
      cases hnext
      exact scanwhite_bounds hfound

theorem nextInTable_ne_fuel : nextInTable str kind startpos pos ≠ .error .fuel := by
  refine bind_ne_fuel scanwhite_ne_fuel fun found _ h => ?_
  cases found with
  | none =>
      cases h
  | some q =>
      cases h

theorem behindComma_le : pos ≤ behindComma str pos := by
  rw [behindComma]
  split_ifs
  · exact Nat.le_succ pos
  · exact Nat.le_refl pos

theorem scanRest_le (hscan : Advances scan) {s s' : TableScan} {val1 : Val}
    (h : scanRest str scan kind startpos s val1 pos = .ok s') : pos ≤ s'.pos := by
  rcases bind_ok_iff.1 h with ⟨p₁, hp₁, h⟩
  have hle₁ := (nextInTable_bounds hp₁).2.1
  split_ifs at h with hcolon hkey
  · rcases bind_ok_iff.1 h with ⟨p₂, hp₂, h⟩
    rcases bind_ok_iff.1 h with ⟨⟨heap, val2, p₃⟩, hp₃, h⟩
    rcases bind_ok_iff.1 h with ⟨p₄, hp₄, h⟩
    cases h
    have hle₂ := (nextInTable_bounds hp₂).2.1
    have hlt₃ := hscan _ _ _ _ _ hp₃
    have hle₄ := (nextInTable_bounds hp₄).2.1
    have hle₅ := @behindComma_le str p₄
    dsimp only
    omega
  · cases h
    exact hle₁.trans behindComma_le

theorem scanRest_ne_fuel (hscan : ∀ heap q, pos < q → q ≤ str.length → scan heap q ≠ .error .fuel)
    {s : TableScan} {val1 : Val} : scanRest str scan kind startpos s val1 pos ≠ .error .fuel := by
  refine bind_ne_fuel nextInTable_ne_fuel fun p₁ hp₁ => ?_
  have hle₁ := (nextInTable_bounds hp₁).2.1
  split_ifs with hcolon hkey
  · intro h
    cases h
  · refine bind_ne_fuel nextInTable_ne_fuel fun p₂ hp₂ => ?_
    have hbounds₂ := (nextInTable_bounds hp₂).2
    refine bind_ne_fuel (hscan _ _ (by omega) hbounds₂.2) fun scanned _ => ?_
    exact bind_ne_fuel nextInTable_ne_fuel fun p₄ _ => ok_ne_fuel _
  · exact ok_ne_fuel _

theorem scanRounds_le (hscan : Advances scan) {rounds : Nat} {s s' : TableScan}
    (h : scanRounds str scan kind startpos rounds s = .ok s') : s.pos ≤ s'.pos := by
  induction rounds generalizing s with
  | zero =>
      cases h
  | succ rounds ih =>
      rcases bind_ok_iff.1 h with ⟨p, hp, h⟩
      have hle := (nextInTable_bounds hp).2.1
      split_ifs at h with hclose
      · cases h
        exact Nat.le_succ_of_le hle
      · rcases bind_ok_iff.1 h with ⟨⟨heap, val1, last⟩, hlast, h⟩
        rcases bind_ok_iff.1 h with ⟨s₁, hs₁, h⟩
        -- the value is what makes the round longer than nothing
        have hlt := hscan _ _ _ _ _ hlast
        have hrest := scanRest_le hscan hs₁
        have hmore := ih h
        omega

/-- Each round reads a character, and a value that is read in it starts behind `low`. -/
theorem scanRounds_ne_fuel (hscan : Advances scan) {low : Nat}
    (hvalues : ∀ heap q, low ≤ q → q ≤ str.length → scan heap q ≠ .error .fuel) {rounds : Nat} :
    ∀ {s : TableScan}, low ≤ s.pos → str.length + 1 - s.pos < rounds →
      scanRounds str scan kind startpos rounds s ≠ .error .fuel := by
  induction rounds with
  | zero =>
      intro s _ hrounds
      cases hrounds
  | succ rounds ih =>
      intro s hlow hrounds
      refine bind_ne_fuel nextInTable_ne_fuel fun p hp => ?_
      have hbounds := (nextInTable_bounds hp).2
      split_ifs with hclose
      · exact ok_ne_fuel _
      · refine bind_ne_fuel (hvalues _ _ (by omega) hbounds.2) fun scanned hscanned => ?_
        rcases scanned with ⟨heap, val1, last⟩
        have hlt := hscan _ _ _ _ _ hscanned
        refine bind_ne_fuel (scanRest_ne_fuel fun heap q hq hq' => hvalues heap q (by omega) hq')
          fun s₁ hs₁ => ?_
        have hle := scanRest_le hscan hs₁
        exact ih (by omega) (by omega)

theorem scantable_lt {metaOf : Kind → Option Meta} (hscan : Advances scan) {heap heap' : Heap}
    {v : Val} {last : Nat}
    (h : scantable metaOf str scan kind startpos heap = .ok (heap', v, last)) : startpos < last := by
  rcases bind_ok_iff.1 h with ⟨s, hs, h⟩
  cases h
  exact scanRounds_le hscan hs

theorem scantable_ne_fuel {metaOf : Kind → Option Meta} (hscan : Advances scan)
    (hvalues : ∀ heap q, startpos < q → q ≤ str.length → scan heap q ≠ .error .fuel) (heap : Heap) :
    scantable metaOf str scan kind startpos heap ≠ .error .fuel := by
  refine bind_ne_fuel (scanRounds_ne_fuel hscan hvalues (Nat.le_refl _) ?_) fun s _ => ok_ne_fuel _
  dsimp only
  omega

end Table

/-! ## Values -/

section Value

variable {doubles : Doubles} {nullval : Val} {metaOf : Kind → Option Meta} {str : List Char}

theorem scanNumber_lt {pos last : Nat} {v : Val} (hle : pos ≤ str.length)
    (h : scanNumber doubles str pos = .ok (some (v, last))) : pos < last := by
  rcases bind_ok_iff.1 h with ⟨found, hfound, h⟩
  cases found with
  | none =>
      cases h
  | some found =>
      rcases found with ⟨pstart, pend⟩
      rcases Option.map_eq_some_iff.1 (Except.ok.inj h) with ⟨q, hq, hlast⟩
      have hfrom := find_from (lifted_ok hfound)
      -- the empty text is no numeral, so the match is not empty
      have hempty : tonumber [] = none := by decide
      have hsome : sub str pstart pend ≠ [] := by
        intro hnil
        rw [hnil, hempty] at hq
        cases hq
      have hends := sub_ne_nil hfrom.1 hsome
      cases hlast
      omega

theorem scanName_lt {pos last : Nat} {v : Val} (hle : pos ≤ str.length)
    (h : scanName nullval str pos = .ok (some (v, last))) : pos < last := by
  rcases bind_ok_iff.1 h with ⟨found, hfound, h⟩
  cases found with
  | none =>
      cases h
  | some found =>
      rcases found with ⟨pstart, pend⟩
      rcases Option.map_eq_some_iff.1 (Except.ok.inj h) with ⟨value, hvalue, hlast⟩
      have hfrom := find_from (lifted_ok hfound)
      -- nor is it a name
      have hempty : nameValue nullval [] = none := rfl
      have hsome : sub str pstart pend ≠ [] := by
        intro hnil
        rw [hnil, hempty] at hvalue
        cases hvalue
      have hends := sub_ne_nil hfrom.1 hsome
      cases hlast
      omega

theorem scanWord_lt {pos last : Nat} {heap heap' : Heap} {v : Val}
    (hle : pos ≤ str.length) (h : scanWord doubles nullval str heap pos = .ok (heap', v, last)) :
    pos < last := by
  rcases bind_ok_iff.1 h with ⟨number, hnumber, h⟩
  cases number with
  | some scanned =>
      rcases scanned with ⟨q, behind⟩
      cases h
      exact scanNumber_lt hle hnumber
  | none =>
      rcases bind_ok_iff.1 h with ⟨name, hname, h⟩
      cases name with
      | some scanned =>
          rcases scanned with ⟨q, behind⟩
          cases h
          exact scanName_lt hle hname
      | none =>
          cases h

theorem scanWord_ne_fuel (heap : Heap) (pos : Nat) :
    scanWord doubles nullval str heap pos ≠ .error .fuel := by
  have hnumber : scanNumber doubles str pos ≠ .error .fuel := by
    refine bind_ne_fuel (lifted_ne_fuel _) fun found _ => ?_
    cases found with
    | none =>
        exact ok_ne_fuel _
    | some found =>
        exact ok_ne_fuel _
  have hname : scanName nullval str pos ≠ .error .fuel := by
    refine bind_ne_fuel (lifted_ne_fuel _) fun found _ => ?_
    cases found with
    | none =>
        exact ok_ne_fuel _
    | some found =>
        exact ok_ne_fuel _
  refine bind_ne_fuel hnumber fun number _ => ?_
  cases number with
  | some scanned =>
      exact ok_ne_fuel _
  | none =>
      refine bind_ne_fuel hname fun name _ => ?_
      cases name with
      | some scanned =>
          exact ok_ne_fuel _
      | none =>
          intro h
          cases h

theorem scanvalue_advances (depth : Nat) :
    Advances (scanvalue doubles nullval metaOf str depth) := by
  induction depth with
  | zero =>
      intro heap pos heap' v last h
      cases h
  | succ depth ih =>
      intro heap pos heap' v last h
      rcases bind_ok_iff.1 h with ⟨found, hfound, h⟩
      cases found with
      | none =>
          cases h
      | some p =>
          rcases scanwhite_bounds hfound with ⟨hpos, hle, hlength⟩
          refine Nat.lt_of_le_of_lt hle ?_
          dsimp only at h
          split_ifs at h
          · exact scantable_lt ih h
          · exact scantable_lt ih h
          · rcases bind_ok_iff.1 h with ⟨⟨txt, behind⟩, hstring, h⟩
            cases h
            exact scanstring_lt hstring
          · exact scanWord_lt hlength h

/-- The values in a table start behind its bracket, so one call less is enough for them. -/
theorem scanvalue_ne_fuel {depth pos : Nat} (hdepth : str.length + 1 - max pos 1 < depth) (heap : Heap) :
    scanvalue doubles nullval metaOf str depth heap pos ≠ .error .fuel := by
  induction depth generalizing heap pos with
  | zero =>
      cases hdepth
  | succ depth ih =>
      refine bind_ne_fuel scanwhite_ne_fuel fun found hfound => ?_
      cases found with
      | none =>
          intro h
          cases h
      | some p =>
          rcases scanwhite_bounds hfound with ⟨hpos, hle, hlength⟩
          have hinner : ∀ heap q, p < q → q ≤ str.length →
              scanvalue doubles nullval metaOf str depth heap q ≠ .error .fuel :=
            fun heap q hq _ => ih (by omega) heap
          dsimp only
          split_ifs
          · exact scantable_ne_fuel (scanvalue_advances depth) hinner heap
          · exact scantable_ne_fuel (scanvalue_advances depth) hinner heap
          · exact bind_ne_fuel scanstring_ne_fuel fun scanned _ => ok_ne_fuel _
          · exact scanWord_ne_fuel heap p

end Value

end Json
end LuajitTcpServer
