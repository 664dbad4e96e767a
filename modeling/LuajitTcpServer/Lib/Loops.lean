import Mathlib.Data.List.Basic

/-!
# Loops — loops that come to an end

A loop whose rounds may fail, with the measure that every round but the last makes smaller.
`Loop.run_eq` is the loop as it is written in a program: nothing in it bounds the rounds.
-/

namespace Loops

section Bind

variable {ε α β : Type} {x : Except ε α} {f : α → Except ε β}

theorem bind_ok_iff {b : β} : x >>= f = .ok b ↔ ∃ a, x = .ok a ∧ f a = .ok b := by
  cases x with
  | error e =>
      refine iff_of_false (fun h => nomatch h) ?_
      rintro ⟨a, h, -⟩
      cases h
  | ok a =>
      exact ⟨fun h => ⟨a, rfl, h⟩, fun ⟨_, ha, h⟩ => Except.ok.inj ha ▸ h⟩

theorem bind_error_iff {e : ε} :
    x >>= f = .error e ↔ x = .error e ∨ ∃ a, x = .ok a ∧ f a = .error e := by
  cases x with
  | error e' =>
      refine ⟨fun h => Or.inl (Except.error.inj h ▸ rfl), ?_⟩
      rintro (h | ⟨a, h, -⟩)
      · exact Except.error.inj h ▸ rfl
      · cases h
  | ok a =>
      refine ⟨fun h => Or.inr ⟨a, rfl, h⟩, ?_⟩
      rintro (h | ⟨_, ha, h⟩)
      · cases h
      · exact Except.ok.inj ha ▸ h

end Bind

/-- What a round says: there is another one, or it was the last one. -/
inductive Round (σ : Type) where
  | again (s : σ)
  | done (s : σ)

structure Loop (ε σ : Type) where
  round : σ → Except ε (Round σ)
  size : σ → Nat
  decreases : ∀ s s', round s = .ok (.again s') → size s' < size s

namespace Loop

variable {ε σ : Type} (l : Loop ε σ)

def runFor : Nat → σ → Except ε σ
  | 0, s => .ok s
  | rounds + 1, s =>
      match l.round s with
      | .error e => .error e
      | .ok (.done s) => .ok s
      | .ok (.again s) => runFor rounds s

def run (s : σ) : Except ε σ := l.runFor (l.size s + 1) s

/-- More rounds than the size give nothing new. -/
theorem runFor_eq {rounds : Nat} {s : σ} (h : l.size s < rounds) :
    l.runFor rounds s = l.runFor (l.size s + 1) s := by
  induction hsize : l.size s using Nat.strongRecOn generalizing rounds s with
  | ind n ih =>
      cases rounds with
      | zero =>
          omega
      | succ rounds =>
          rw [runFor, runFor]
          cases hround : l.round s with
          | error e =>
              rfl
          | ok round =>
              cases round with
              | done s' =>
                  rfl
              | again s' =>
                  have hlt := l.decreases s s' hround
                  calc l.runFor rounds s' = l.runFor (l.size s' + 1) s' :=
                        ih _ (by omega) (by omega) rfl
                    _ = l.runFor n s' := (ih _ (by omega) (by omega) rfl).symm

/-- The equation of the loop. -/
theorem run_eq (s : σ) :
    l.run s = match l.round s with
      | .error e => .error e
      | .ok (.done s') => .ok s'
      | .ok (.again s') => l.run s' := by
  rw [run, runFor]
  cases hround : l.round s with
  | error e =>
      rfl
  | ok round =>
      cases round with
      | done s' =>
          rfl
      | again s' =>
          exact l.runFor_eq (l.decreases s s' hround)

theorem run_done {s s' : σ} (h : l.round s = .ok (.done s')) : l.run s = .ok s' := by
  rw [run_eq, h]

theorem run_again {s s' : σ} (h : l.round s = .ok (.again s')) : l.run s = l.run s' := by
  rw [run_eq, h]

/-- What every round keeps holds at the end. -/
theorem run_invariant {motive : σ → Prop} {s : σ} (h : motive s)
    (hround : ∀ s, motive s → ∃ s', motive s' ∧
      (l.round s = .ok (.again s') ∨ l.round s = .ok (.done s'))) :
    ∃ s', l.run s = .ok s' ∧ motive s' := by
  induction hsize : l.size s using Nat.strongRecOn generalizing s with
  | ind n ih =>
      rcases hround s h with ⟨s', hs', hagain | hdone⟩
      · rcases ih (l.size s') (hsize ▸ l.decreases s s' hagain) hs' rfl with ⟨last, hrun, hlast⟩
        exact ⟨last, by rw [l.run_again hagain, hrun], hlast⟩
      · exact ⟨s', l.run_done hdone, hs'⟩

/-- What every round but the last one keeps, and what the last one makes of it. -/
theorem run_result {motive result : σ → Prop} {s last : σ} (h : motive s) (hrun : l.run s = .ok last)
    (hagain : ∀ s s', motive s → l.round s = .ok (.again s') → motive s')
    (hdone : ∀ s s', motive s → l.round s = .ok (.done s') → result s') : result last := by
  induction hsize : l.size s using Nat.strongRecOn generalizing s with
  | ind n ih =>
      rw [l.run_eq] at hrun
      cases hstep : l.round s with
      | error e =>
          rw [hstep] at hrun
          cases hrun
      | ok round =>
          rw [hstep] at hrun
          cases round with
          | done s' =>
              cases hrun
              exact hdone s last h hstep
          | again s' =>
              exact ih (l.size s') (hsize ▸ l.decreases s s' hstep) (hagain s s' h hstep) hrun rfl

/-- What every round that does not fail keeps holds of the result. -/
theorem run_keeps {motive : σ → Prop} {s last : σ} (h : motive s) (hrun : l.run s = .ok last)
    (hround : ∀ s s', motive s → l.round s = .ok (.again s') ∨ l.round s = .ok (.done s') →
      motive s') : motive last :=
  l.run_result h hrun (fun s s' hs hstep => hround s s' hs (Or.inl hstep))
    fun s s' hs hstep => hround s s' hs (Or.inr hstep)

/-- A loop fails where one of its rounds does. -/
theorem run_error {s : σ} {e : ε} (hrun : l.run s = .error e) : ∃ s', l.round s' = .error e := by
  induction hsize : l.size s using Nat.strongRecOn generalizing s with
  | ind n ih =>
      rw [l.run_eq] at hrun
      cases hstep : l.round s with
      | error e' =>
          rw [hstep] at hrun
          cases hrun
          exact ⟨s, hstep⟩
      | ok round =>
          rw [hstep] at hrun
          cases round with
          | done s' =>
              cases hrun
          | again s' =>
              exact ih (l.size s') (hsize ▸ l.decreases s s' hstep) hrun rfl

end Loop

end Loops
