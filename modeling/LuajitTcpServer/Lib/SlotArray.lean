import Mathlib.Data.List.Perm.Basic
import Mathlib.Data.List.Nodup

/-!
# SlotArray — unordered arrays with removal by moving the last element

An unordered collection kept in the first slots of an array is searched from its end, and an
element leaves it by being overwritten with the last one.  `searchDown` is the search and
`swapErase` the removal; the second is a permutation of erasing the element in place.
-/

namespace SlotArray

variable {α : Type}

/-! ## Search from the end -/

/-- The greatest index below `n` with `p`. -/
def searchDown (p : Nat → Bool) : Nat → Option Nat
  | 0 => none
  | n + 1 => if p n then some n else searchDown p n

theorem searchDown_eq_some {p : Nat → Bool} {n i : Nat} (h : searchDown p n = some i) :
    i < n ∧ p i = true ∧ ∀ j, i < j → j < n → p j = false := by
  induction n with
  | zero =>
      simp [searchDown] at h
  | succ n ih =>
      cases hn : p n with
      | true =>
          have hi : n = i := by simpa [searchDown, hn] using h
          subst hi
          exact ⟨Nat.lt_succ_self n, hn, fun j hj hjn => by omega⟩
      | false =>
          have hrec : searchDown p n = some i := by simpa [searchDown, hn] using h
          rcases ih hrec with ⟨hin, hpi, hlast⟩
          refine ⟨by omega, hpi, fun j hij hjn => ?_⟩
          -- index `n` was a miss, so the last hit below it is the last hit
          by_cases hj : j = n
          · rwa [hj]
          · exact hlast j hij (by omega)

theorem searchDown_eq_none {p : Nat → Bool} {n : Nat} :
    searchDown p n = none ↔ ∀ j, j < n → p j = false := by
  induction n with
  | zero =>
      simp [searchDown]
  | succ n ih =>
      cases hn : p n with
      | true =>
          simp only [searchDown, hn, if_true, reduceCtorEq, false_iff, not_forall]
          exact ⟨n, Nat.lt_succ_self n, by simp [hn]⟩
      | false =>
          simp only [searchDown, hn, Bool.false_eq_true, if_false, ih]
          constructor
          · intro h j hj
            by_cases hjn : j = n
            · rwa [hjn]
            · exact h j (by omega)
          · intro h j hj
            exact h j (by omega)

/-! ## Fields an update leaves alone -/

/-- An update that keeps the field `g` of every element keeps it in every slot. -/
theorem map_getElem?_modify {β : Type} {g : α → β} {f : α → α} (hf : ∀ a, g (f a) = g a)
    (l : List α) (i j : Nat) : (l.modify i f)[j]?.map g = l[j]?.map g := by
  rw [List.getElem?_modify]
  cases l[j]? with
  | none =>
      rfl
  | some a =>
      by_cases hij : i = j
      · simp [hij, hf]
      · simp [hij]

/-! ## Removal by moving the last element -/

/-- Overwrite index `i` with `last`, then give up the last slot. -/
def swapErase (l : List α) (i : Nat) (last : α) : List α :=
  (l.set i last).dropLast

theorem swapErase_perm_eraseIdx (l : List α) {i : Nat} (hne : l ≠ []) (hi : i < l.length) :
    (swapErase l i (l.getLast hne)).Perm (l.eraseIdx i) := by
  obtain ⟨init, last, rfl⟩ : ∃ init last, l = init ++ [last] :=
    ⟨l.dropLast, l.getLast hne, (List.dropLast_append_getLast hne).symm⟩
  have hlast : (init ++ [last]).getLast hne = last := by simp
  rw [swapErase, hlast]
  by_cases hmid : i < init.length
  · -- the hole is filled by `last`, which in place would have stayed at the end
    rw [List.set_append_left _ _ hmid, List.dropLast_concat, List.eraseIdx_append_of_lt_length hmid,
      List.set_eq_take_append_cons_drop, if_pos hmid, List.eraseIdx_eq_take_drop_succ,
      List.append_assoc]
    exact (List.perm_append_singleton last (init.drop (i + 1))).symm.append_left _
  · have hend : i = init.length := by
      have := hi
      simp only [List.length_append, List.length_singleton] at this
      omega
    subst hend
    simp [List.eraseIdx_append_of_length_le]

/-- Together with the element it removed, `swapErase` is a permutation of the array. -/
theorem cons_swapErase_perm (l : List α) {i : Nat} (hne : l ≠ []) (hi : i < l.length) :
    (l[i] :: swapErase l i (l.getLast hne)).Perm l :=
  ((swapErase_perm_eraseIdx l hne hi).cons l[i]).trans (List.getElem_cons_eraseIdx_perm hi)

/-! ## Unique keys -/

/-- With unique keys, the elements with the key of `x` are `x` alone. -/
theorem filter_key_eq_singleton {β : Type} [DecidableEq β] {f : α → β} {l : List α} {x : α}
    (hnodup : (l.map f).Nodup) (hx : x ∈ l) : l.filter (fun y => f y = f x) = [x] := by
  induction l with
  | nil =>
      cases hx
  | cons y l ih =>
      rw [List.map_cons, List.nodup_cons] at hnodup
      rcases List.mem_cons.1 hx with rfl | hmem
      -- `x` is the head: its key does not occur in the tail
      · have hrest : l.filter (fun z => f z = f x) = [] := by
          refine List.filter_eq_nil_iff.2 fun z hz => ?_
          have hne : f z ≠ f x := fun heq => hnodup.1 (heq ▸ List.mem_map_of_mem hz)
          simpa using hne
        simp [hrest]
      · have hne : f y ≠ f x := fun heq => hnodup.1 (heq ▸ List.mem_map_of_mem hmem)
        simpa [hne] using ih hnodup.2 hmem

end SlotArray
