import Mathlib.Data.List.Basic
import Mathlib.Tactic.Common

/-!
# DefOrder — definitions before their uses

A text is a list of definitions.  Each has a name, and uses other names; a text is in order if what
a definition uses is defined above it (`InOrder`).

* In a text that is sorted, it is enough to compare a definition with those it uses
  (`inOrder_iff`).
* `LatestFirst` are the lists that grow at the front, each time with the name that has just been
  visited.
-/

namespace DefOrder

variable {δ ν : Type} {name : δ → ν} {uses : δ → ν → Prop} {text : List δ}

def InOrder (name : δ → ν) (uses : δ → ν → Prop) (text : List δ) : Prop :=
  ∀ pre d post, text = pre ++ d :: post → ∀ n, uses d n → ∃ d' ∈ pre, name d' = n

/-- In a text sorted by `R`, the definition of a name stands above a use if `R` puts it there. -/
theorem inOrder_iff {R : δ → δ → Prop} (hasymm : ∀ a b, R a b → ¬ R b a) (hsorted : text.Pairwise R) :
    InOrder name uses text ↔
      ∀ d ∈ text, ∀ n, uses d n → ∃ d' ∈ text, name d' = n ∧ R d' d := by
  constructor
  · intro h d hd n huses
    rcases List.append_of_mem hd with ⟨pre, post, rfl⟩
    rcases h pre d post rfl n huses with ⟨d', hd', hname⟩
    have hbefore := (List.pairwise_append.1 hsorted).2.2
    exact ⟨d', List.mem_append_left _ hd', hname, hbefore d' hd' d List.mem_cons_self⟩
  · rintro h pre d post rfl n huses
    rcases h d (List.mem_append_right _ List.mem_cons_self) n huses with ⟨d', hd', hname, hR⟩
    rcases List.mem_append.1 hd' with hpre | hrest
    · exact ⟨d', hpre, hname⟩
    · -- the definition itself and those below it are not above it
      rcases List.mem_cons.1 hrest with rfl | hpost
      · exact absurd hR (hasymm _ _ hR)
      · have hbelow := (List.pairwise_cons.1 (List.pairwise_append.1 hsorted).2.1).1 d' hpost
        exact absurd hR (hasymm _ _ hbelow)

section Visits

variable [DecidableEq ν] {visits : List ν} {d : δ} {w : ν}

/-- The names of the list were first visited from its end to its front. -/
def LatestFirst (name : δ → ν) (visits : List ν) (text : List δ) : Prop :=
  text.Pairwise fun d d' => visits.idxOf (name d') < visits.idxOf (name d)

/-- A visit does not change when the earlier ones were. -/
theorem LatestFirst.visit (h : LatestFirst name visits text) (hmem : ∀ d ∈ text, name d ∈ visits)
    (w : ν) : LatestFirst name (visits ++ [w]) text := by
  refine List.Pairwise.imp_of_mem (fun {d d'} hd hd' hlt => ?_) h
  rwa [List.idxOf_append_of_mem (hmem d hd), List.idxOf_append_of_mem (hmem d' hd')]

/-- A name that is visited for the first time goes to the front. -/
theorem LatestFirst.cons (h : LatestFirst name visits text) (hmem : ∀ d ∈ text, name d ∈ visits)
    (hname : name d = w) (hnew : w ∉ visits) : LatestFirst name (visits ++ [w]) (d :: text) := by
  refine List.pairwise_cons.2 ⟨fun d' hd' => ?_, h.visit hmem w⟩
  have hold : visits.idxOf (name d') < visits.length := List.idxOf_lt_length_iff.2 (hmem d' hd')
  rw [hname, List.idxOf_append_of_mem (hmem d' hd'), List.idxOf_append_of_notMem hnew]
  omega

end Visits

end DefOrder
