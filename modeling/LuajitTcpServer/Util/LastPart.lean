import LuajitTcpServer.Lib.Searches

/-!
# LastPart — what follows the last occurrence of a text

`last_part` of `lib_util.lua` searches again from the position behind the last hit until nothing
is found.  The rounds of its loop are counted, since `string.find` clamps a start behind the end of
the text to the end, where an empty text is found again and again.
-/

namespace LuajitTcpServer
namespace Util

open Lua

/-- The loop with the last two results of `string.find`; `none` when the rounds are used up. -/
def lastPosLoop (txt search_string : List Char) :
    Nat → Option Nat → Option Nat → Option (Except Error (Option Nat))
  | _, lastPos, none => some (.ok lastPos)
  | 0, _, some _ => none
  | rounds + 1, _, some pos =>
      match find txt search_string (pos + 1) false with
      | .error e => some (.error e)
      | .ok hit => lastPosLoop txt search_string rounds (some pos) (hit.map Prod.fst)

def lastPart (rounds : Nat) (txt search_string : List Char) :
    Option (Except Error (List Char)) :=
  match find txt search_string 1 false with
  | .error e => some (.error e)
  | .ok hit =>
      (lastPosLoop txt search_string rounds none (hit.map Prod.fst)).map fun lastPos =>
        lastPos.map fun
          | some lastPos => txt.drop lastPos
          | none => []

example : lastPart 3 "src/lib/util.lua".toList ['/'] = some (.ok "util.lua".toList) := by
  decide +kernel

/-! ## What is asked for -/

/-- `tail` follows the last occurrence, or is empty when there is none. -/
def FollowsLast (txt search_string tail : List Char) : Prop :=
  (∃ k, StandsAt search_string txt k ∧ (∀ j, StandsAt search_string txt j → j ≤ k) ∧
    tail = txt.drop (k + search_string.length)) ∨
  (¬ search_string <:+: txt ∧ tail = [])

/-- The loop ends, and with the tail of the text. -/
def ReturnsTail (txt search_string : List Char) : Prop :=
  ∃ rounds tail, lastPart rounds txt search_string = some (.ok tail) ∧
    FollowsLast txt search_string tail

/-! ## The rounds -/

section Literal

variable {txt search_string : List Char} (hliteral : search_string.any isSpecial = false)

include hliteral

theorem find_literal {init : Nat} (hinit : init ≤ txt.length) :
    find txt search_string (init + 1) false =
      .ok ((plainFrom search_string (txt.drop init)).map fun skipped =>
        (init + skipped + 1, init + skipped + search_string.length)) := by
  have hmin : min (init + 1 - 1) txt.length = init := by omega
  rw [find_plain (by simp [hliteral]), hmin]

/-- From a hit on, the loop reaches the last one. -/
theorem lastPosLoop_ends (hne : search_string ≠ []) {pos : Nat}
    (hhit : StandsAt search_string txt pos) (lastPos : Option Nat) :
    ∃ rounds last, lastPosLoop txt search_string rounds lastPos (some (pos + 1)) =
        some (.ok (some (last + 1))) ∧
      StandsAt search_string txt last ∧ ∀ j, StandsAt search_string txt j → j ≤ last := by
  have hpositive : 0 < search_string.length := List.length_pos_iff.2 hne
  -- the induction is on how much of the text is left behind the hit
  induction hleft : txt.length - pos using Nat.strongRecOn generalizing pos lastPos with
  | ind left ih =>
      have hinside := hhit.le
      have hfind := @find_literal txt _ hliteral _ (show pos + 1 ≤ txt.length by omega)
      cases hfrom : plainFrom search_string (txt.drop (pos + 1)) with
      | none =>
          rw [hfrom, Option.map_none] at hfind
          refine ⟨1, pos, ?_, hhit, ?_⟩
          · rw [lastPosLoop, hfind]
            rfl
          · intro j hj
            by_contra hlater
            have hdrop : StandsAt search_string (txt.drop (pos + 1)) (j - (pos + 1)) := by
              rw [standsAt_drop (by omega)]
              rwa [show pos + 1 + (j - (pos + 1)) = j by omega]
            exact plainFrom_none hfrom hdrop
      | some skipped =>
          rw [hfrom, Option.map_some] at hfind
          have hnext : StandsAt search_string txt (pos + 1 + skipped) :=
            (standsAt_drop (by omega)).1 (plainFrom_some hfrom).1
          have hnextInside := hnext.le
          rcases ih (txt.length - (pos + 1 + skipped)) (by omega) hnext (some (pos + 1)) rfl with
            ⟨rounds, last, hloop, hlast⟩
          refine ⟨rounds + 1, last, ?_, hlast⟩
          rw [lastPosLoop, hfind]
          exact hloop

/-- An empty text is found at every start, at the end of the text again and again. -/
theorem lastPosLoop_empty (hempty : search_string = []) (rounds pos : Nat)
    (lastPos : Option Nat) :
    lastPosLoop txt search_string rounds lastPos (some pos) = none := by
  have hfound : ∀ rest : List Char, plainFrom search_string rest = some 0 := by
    intro rest
    cases rest <;> simp [plainFrom, hempty]
  induction rounds generalizing pos lastPos with
  | zero =>
      rfl
  | succ rounds ih =>
      rw [lastPosLoop, find_plain (by simp [hliteral]), hfound]
      exact ih _ _

/-! ## When the tail is returned -/

theorem lastPart_empty (hempty : search_string = []) (rounds : Nat) :
    lastPart rounds txt search_string = none := by
  have hfound : plainFrom search_string txt = some 0 := by
    cases txt <;> simp [plainFrom, hempty]
  rw [lastPart, find_literal hliteral (Nat.zero_le _), List.drop_zero, hfound]
  simp [lastPosLoop_empty hliteral hempty]

theorem lastPart_absent (habsent : ¬ search_string <:+: txt) (rounds : Nat) :
    lastPart rounds txt search_string = some (.ok []) := by
  have hnone : plainFrom search_string txt = none := by
    cases hfrom : plainFrom search_string txt with
    | none =>
        rfl
    | some k =>
        exact absurd (standsAt_isInfix (plainFrom_some hfrom).1) habsent
  have hloop : lastPosLoop txt search_string rounds none none = some (.ok none) := by
    cases rounds <;> rfl
  rw [lastPart, find_literal hliteral (Nat.zero_le _), List.drop_zero, hnone]
  simp only [Option.map_none, hloop, Option.map_some]
  rfl

/-- The text returned starts behind the first character of the last hit. -/
theorem lastPart_present (hne : search_string ≠ []) (hpresent : search_string <:+: txt) :
    ∃ rounds last, lastPart rounds txt search_string = some (.ok (txt.drop (last + 1))) ∧
      StandsAt search_string txt last ∧ ∀ j, StandsAt search_string txt j → j ≤ last := by
  cases hfrom : plainFrom search_string txt with
  | none =>
      rcases exists_standsAt hpresent with ⟨k, hk⟩
      exact absurd hk (plainFrom_none hfrom)
  | some pos =>
      rcases lastPosLoop_ends hliteral hne (plainFrom_some hfrom).1 none with
        ⟨rounds, last, hloop, hlast⟩
      refine ⟨rounds, last, ?_, hlast⟩
      rw [lastPart, find_literal hliteral (Nat.zero_le _), List.drop_zero, hfrom]
      simp only [Option.map_some, Nat.zero_add, hloop]
      rfl

end Literal

/-- More rounds give the same result. -/
theorem lastPosLoop_mono {txt search_string : List Char} {rounds more : Nat} (hle : rounds ≤ more)
    {lastPos pos : Option Nat} {result : Except Error (Option Nat)}
    (h : lastPosLoop txt search_string rounds lastPos pos = some result) :
    lastPosLoop txt search_string more lastPos pos = some result := by
  induction rounds generalizing more lastPos pos with
  | zero =>
      cases pos with
      | none =>
          cases more <;> simpa [lastPosLoop] using h
      | some pos =>
          cases h
  | succ rounds ih =>
      cases pos with
      | none =>
          cases more <;> simpa [lastPosLoop] using h
      | some pos =>
          cases more with
          | zero =>
              omega
          | succ more =>
              rw [lastPosLoop] at h ⊢
              split
              · rename_i hfind
                rw [hfind] at h
                exact h
              · rename_i hfind
                rw [hfind] at h
                exact ih (Nat.le_of_succ_le_succ hle) h

theorem lastPart_mono {txt search_string : List Char} {rounds more : Nat} (hle : rounds ≤ more)
    {result : Except Error (List Char)}
    (h : lastPart rounds txt search_string = some result) :
    lastPart more txt search_string = some result := by
  unfold lastPart at h ⊢
  split
  · rename_i hfind
    rw [hfind] at h
    exact h
  · rename_i hfind
    rw [hfind] at h
    rcases Option.map_eq_some_iff.1 h with ⟨lastPos, hloop, hresult⟩
    exact Option.map_eq_some_iff.2 ⟨lastPos, lastPosLoop_mono hle hloop, hresult⟩

theorem lastPart_unique {txt search_string tail tail' : List Char} {rounds rounds' : Nat}
    (h : lastPart rounds txt search_string = some (.ok tail))
    (h' : lastPart rounds' txt search_string = some (.ok tail')) : tail = tail' := by
  have hmax := lastPart_mono (Nat.le_max_left rounds rounds') h
  have hmax' := lastPart_mono (Nat.le_max_right rounds rounds') h'
  rw [hmax] at hmax'
  exact Except.ok.inj (Option.some.inj hmax')

/-- The tail is returned for one character to look for, and for a longer text that does not
occur: the loop never ends for an empty text, and what is returned of a longer one starts behind
its first character. -/
theorem returnsTail_iff {txt search_string : List Char}
    (hliteral : search_string.any isSpecial = false) :
    ReturnsTail txt search_string ↔
      search_string.length = 1 ∨ 2 ≤ search_string.length ∧ ¬ search_string <:+: txt := by
  cases search_string with
  | nil =>
      have hnever : ¬ ReturnsTail txt [] := by
        rintro ⟨rounds, tail, hlast, -⟩
        rw [lastPart_empty hliteral rfl] at hlast
        cases hlast
      simp [hnever]
  | cons c search_string =>
      by_cases hpresent : (c :: search_string) <:+: txt
      · rcases lastPart_present hliteral (List.cons_ne_nil _ _) hpresent with
          ⟨rounds, last, hpart, hstands, hmax⟩
        constructor
        · rintro ⟨rounds', tail, hpart', htail⟩
          have htext := lastPart_unique hpart hpart'
          rcases htail with ⟨k, hk, hkmax, hdrop⟩ | ⟨habsent, -⟩
          · -- both are cut behind the same hit, so they are cut at the same character
            have hsame : k = last := Nat.le_antisymm (hmax k hk) (hkmax last hstands)
            have hinside := hstands.le
            have hlength := congrArg List.length (htext.trans hdrop)
            rw [List.length_drop, List.length_drop, hsame] at hlength
            rw [List.length_cons] at hinside hlength ⊢
            omega
          · exact absurd hpresent habsent
        · rintro (hone | ⟨-, habsent⟩)
          · refine ⟨rounds, _, hpart, Or.inl ⟨last, hstands, hmax, ?_⟩⟩
            rw [hone]
          · exact absurd hpresent habsent
      · have hpart := lastPart_absent hliteral hpresent 0
        have hreturns : ReturnsTail txt (c :: search_string) :=
          ⟨0, [], hpart, Or.inr ⟨hpresent, rfl⟩⟩
        refine iff_of_true hreturns ?_
        rw [List.length_cons]
        rcases Nat.eq_zero_or_pos search_string.length with hzero | hpos
        · exact Or.inl (by omega)
        · exact Or.inr ⟨by omega, hpresent⟩

theorem returnsTail_slash : ReturnsTail "a/b/c".toList ['/'] :=
  (returnsTail_iff (by decide)).2 (Or.inl rfl)

/-- An empty text is looked for without end, in every text. -/
theorem empty_search_never_ends :
    ¬ ∀ txt search_string : List Char, search_string.any isSpecial = false →
      ReturnsTail txt search_string := by
  intro h
  rcases h ['a'] [] rfl with ⟨rounds, tail, hpart, -⟩
  rw [lastPart_empty rfl rfl] at hpart
  cases hpart

end Util
end LuajitTcpServer
