import Mathlib.Tactic.Common
import LuajitTcpServer.Lib.Hoare

/-!
# Balance — programs that move a quantity by a known amount

`Moves m x d` says that a return of `x` moves the quantity `m` of the state by what `d` says of the
result.  The amounts of a sequence add up, so a program in which they cancel keeps the quantity.
-/

namespace Hoare

variable {ε σ α β : Type}

def Moves (m : σ → Int) (x : EStateM ε σ α) (d : α → Int) : Prop :=
  ∀ s a s', x.run s = .ok a s' → m s' = m s + d a

namespace Moves

variable {m : σ → Int} {x : EStateM ε σ α} {d d' : α → Int}

theorem congr (h : Moves m x d) (hd : ∀ a, d a = d' a) : Moves m x d' := by
  intro s a s' hrun
  rw [← hd a]
  exact h s a s' hrun

theorem pure (a : α) (h : d a = 0) : Moves m (Pure.pure a : EStateM ε σ α) d := by
  intro s a' s' hrun
  cases hrun
  omega

/-- What `x` has moved is taken off what is left for `f`. -/
theorem bind {f : α → EStateM ε σ β} {e : β → Int} (hx : Moves m x d)
    (hf : ∀ a, Moves m (f a) fun b => e b - d a) : Moves m (x >>= f) e := by
  intro s b s' hrun
  rw [EStateM.run_bind] at hrun
  cases hfirst : x.run s with
  | ok a s₁ =>
      rw [hfirst] at hrun
      have h₁ := hx s a s₁ hfirst
      have h₂ := hf a s₁ b s' hrun
      simp only at h₂
      omega
  | error e s₁ =>
      rw [hfirst] at hrun
      cases hrun

theorem ite {c : Prop} [Decidable c] {y : EStateM ε σ α} (hx : c → Moves m x d)
    (hy : ¬ c → Moves m y d) : Moves m (if c then x else y) d := by
  by_cases hc : c
  · rw [if_pos hc]
    exact hx hc
  · rw [if_neg hc]
    exact hy hc

theorem modify {f : σ → σ} {k : Int} (h : ∀ s, m (f s) = m s + k) :
    Moves m (modify f : EStateM ε σ Unit) fun _ => k := by
  intro s a s' hrun
  cases hrun
  exact h s

theorem get {d : σ → Int} (h : ∀ s, d s = 0) : Moves m (get : EStateM ε σ σ) d := by
  intro s a s' hrun
  cases hrun
  rw [h s, Int.add_zero]

/-- A loop whose body keeps the quantity keeps it. -/
theorem forUntil {body : Nat → EStateM ε σ Bool} (hbody : ∀ j, Moves m (body j) fun _ => 0) :
    ∀ k i, Moves m (Hoare.forUntil body k i) fun _ => 0
  | 0, _ => Moves.pure () rfl
  | k + 1, i => by
      refine Moves.bind (hbody i) fun stop => ?_
      cases stop with
      | true =>
          exact Moves.pure () rfl
      | false =>
          exact (Moves.forUntil hbody k (i + 1)).congr fun _ => rfl

end Moves

/-- A quantity that `x` keeps, stated for returns and raises. -/
theorem Keeps.moves {m : σ → Int} {x : EStateM ε σ α} (h : ∀ b, Keeps (fun s => m s = b) x) :
    Moves m x fun _ => 0 := by
  intro s a s' hrun
  have hkept := (h (m s)).ok rfl hrun
  rw [hkept, Int.add_zero]

end Hoare
