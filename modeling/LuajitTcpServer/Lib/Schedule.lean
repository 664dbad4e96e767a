import Mathlib.Data.Fintype.Order
import Mathlib.Order.Nat
import Mathlib.Tactic.Basic

/-!
# Schedule — processes that take their steps in any order

A system of processes `ρ` over a state `σ` is a function `step p`, the next step of process `p`.
A finite schedule is a list of turns, an infinite one a function from the naturals.

* `exec_invariant` and `trace_invariant` carry an invariant through a schedule.
* `Fair.all_reach` is the rule for progress: in a fair schedule, goals that each process reaches by
  a turn of its own are reached by all of them.
-/

namespace Schedule

variable {ρ σ α : Type} (step : ρ → σ → σ)

/-! ## Finite schedules -/

def exec (s : σ) (turns : List ρ) : σ := turns.foldl (fun s p => step p s) s

variable {step} {s : σ} {turns : List ρ}

@[simp] theorem exec_nil : exec step s [] = s := rfl

@[simp] theorem exec_cons {p : ρ} : exec step s (p :: turns) = exec step (step p s) turns := rfl

theorem exec_append (turns' : List ρ) :
    exec step s (turns ++ turns') = exec step (exec step s turns) turns' :=
  List.foldl_append

/-- What every step keeps, every schedule keeps. -/
theorem exec_invariant {Inv : σ → Prop} (hstep : ∀ p s, Inv s → Inv (step p s)) (hs : Inv s) :
    Inv (exec step s turns) := by
  induction turns generalizing s with
  | nil =>
      exact hs
  | cons p turns ih =>
      exact ih (hstep p s hs)

/-! ## Infinite schedules -/

variable (step s)

/-- The state after the first `n` turns. -/
def trace (turn : ℕ → ρ) : ℕ → σ
  | 0 => s
  | n + 1 => step (turn n) (trace turn n)

variable {step s} {turn : ℕ → ρ}

theorem trace_invariant {Inv : σ → Prop} (hstep : ∀ p s, Inv s → Inv (step p s)) (hs : Inv s)
    (n : ℕ) : Inv (trace step s turn n) := by
  induction n with
  | zero =>
      exact hs
  | succ n ih =>
      exact hstep (turn n) _ ih

/-- A state that every step keeps in `P` once it is there stays there. -/
theorem trace_stays {P : σ → Prop} (hstep : ∀ p s, P s → P (step p s)) {n m : ℕ} (hnm : n ≤ m)
    (hn : P (trace step s turn n)) : P (trace step s turn m) := by
  induction m, hnm using Nat.le_induction with
  | base =>
      exact hn
  | succ m _ ih =>
      exact hstep (turn m) _ ih

/-- Every process has a turn again and again. -/
def Fair (turn : ℕ → ρ) : Prop := ∀ p n, ∃ m, n ≤ m ∧ turn m = p

/-- If every turn of a process from `n` on takes it to its goal, and no step takes a process away
from its goal, then at some time all processes are at their goals together. -/
theorem Fair.all_reach [Finite ρ] (h : Fair turn) (n : ℕ) {Goal : ρ → σ → Prop}
    (hstays : ∀ p q s, Goal p s → Goal p (step q s))
    (hturn : ∀ p m, n ≤ m → turn m = p → Goal p (step p (trace step s turn m))) :
    ∃ m, ∀ p, Goal p (trace step s turn m) := by
  -- a turn of each process, and a time after all of them
  choose next hnext hown using fun p => h p n
  rcases Finite.exists_le fun p => next p + 1 with ⟨m, hm⟩
  refine ⟨m, fun p => ?_⟩
  have hreached : Goal p (trace step s turn (next p + 1)) := by
    rw [trace, hown p]
    exact hturn p (next p) (hnext p) (hown p)
  exact trace_stays (fun q s => hstays p q s) (hm p) hreached

end Schedule
