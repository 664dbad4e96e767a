import Mathlib.Tactic.Basic

/-!
# Hoare — pre- and postconditions for programs that can raise an error

A program over a state `σ` that either returns or raises is an `EStateM ε σ α`; a raise keeps
the state reached so far.  `Triple P x Q E` says that `x`, started in a state with `P`, returns
in a state with `Q` or raises in a state with `E`.

Besides the rules for the monad operations there is one for `forUntil`, a counted loop whose
body may break.
-/

namespace Hoare

variable {ε σ α β : Type}

/-! ## Runs -/

theorem run_ite {c : Prop} [Decidable c] (x y : EStateM ε σ α) (s : σ) :
    (if c then x else y).run s = if c then x.run s else y.run s := by
  split <;> rfl

/-- The first part of a sequence that raises is the last one that runs. -/
theorem run_bind_of_error {x : EStateM ε σ α} {f : α → EStateM ε σ β} {s s' : σ} {e : ε}
    (h : x.run s = .error e s') : (x >>= f).run s = .error e s' := by
  rw [EStateM.run_bind, h]

theorem run_bind_of_ok {x : EStateM ε σ α} {f : α → EStateM ε σ β} {s s' : σ} {a : α}
    (h : x.run s = .ok a s') : (x >>= f).run s = (f a).run s' := by
  rw [EStateM.run_bind, h]

/-! ## Triples -/

/-- From every state with `P`, a return meets `Q` and a raise meets `E`. -/
def Triple (P : σ → Prop) (x : EStateM ε σ α) (Q : α → σ → Prop) (E : ε → σ → Prop) : Prop :=
  ∀ s, P s →
    match x.run s with
    | .ok a s' => Q a s'
    | .error e s' => E e s'

namespace Triple

variable {P P' : σ → Prop} {x : EStateM ε σ α} {Q Q' : α → σ → Prop} {E E' : ε → σ → Prop}

/-- A return of `x` from a state with `P` meets the postcondition. -/
theorem ok (h : Triple P x Q E) {s s' : σ} {a : α} (hP : P s) (hrun : x.run s = .ok a s') :
    Q a s' := by
  have hs := h s hP
  rw [hrun] at hs
  exact hs

/-- A raise of `x` from a state with `P` meets the error postcondition. -/
theorem error (h : Triple P x Q E) {s s' : σ} {e : ε} (hP : P s) (hrun : x.run s = .error e s') :
    E e s' := by
  have hs := h s hP
  rw [hrun] at hs
  exact hs

theorem conseq (h : Triple P x Q E) (hP : ∀ s, P' s → P s) (hQ : ∀ a s, Q a s → Q' a s)
    (hE : ∀ e s, E e s → E' e s) : Triple P' x Q' E' := by
  intro s hs
  cases hrun : x.run s with
  | ok a s' =>
      exact hQ a s' (h.ok (hP s hs) hrun)
  | error e s' =>
      exact hE e s' (h.error (hP s hs) hrun)

theorem pure (a : α) (h : ∀ s, P s → Q a s) : Triple P (Pure.pure a : EStateM ε σ α) Q E := by
  intro s hs
  exact h s hs

theorem bind {f : α → EStateM ε σ β} {R : β → σ → Prop} (hx : Triple P x Q E)
    (hf : ∀ a, Triple (Q a) (f a) R E) : Triple P (x >>= f) R E := by
  intro s hs
  rw [EStateM.run_bind]
  cases hrun : x.run s with
  | ok a s' =>
      exact hf a s' (hx.ok hs hrun)
  | error e s' =>
      exact hx.error hs hrun

theorem ite {c : Prop} [Decidable c] {y : EStateM ε σ α} (hx : c → Triple P x Q E)
    (hy : ¬ c → Triple P y Q E) : Triple P (if c then x else y) Q E := by
  by_cases hc : c
  · simpa [hc] using hx hc
  · simpa [hc] using hy hc

end Triple

/-! ## Counted loops -/

/-- `for j = i, i + k - 1 do if body j then break end end`. -/
def forUntil (body : Nat → EStateM ε σ Bool) : Nat → Nat → EStateM ε σ Unit
  | 0, _ => Pure.pure ()
  | k + 1, i => do
      let stop ← body i
      if stop then Pure.pure () else forUntil body k (i + 1)

/-- Loop rule: `I j` holds when the body starts for `j`, and a body that does not break
re-establishes it for `j + 1`; a body that breaks establishes `R`. -/
theorem Triple.forUntil {body : Nat → EStateM ε σ Bool} {I : Nat → σ → Prop} {R : σ → Prop}
    {E : ε → σ → Prop} :
    ∀ (k i : Nat),
      (∀ j, i ≤ j → j < i + k →
        Triple (I j) (body j) (fun stop s => if stop then R s else I (j + 1) s) E) →
      (∀ s, I (i + k) s → R s) →
      Triple (I i) (forUntil body k i) (fun _ s => R s) E
  | 0, i, _, hend => Triple.pure () hend
  | k + 1, i, hbody, hend => by
      refine Triple.bind (hbody i (Nat.le_refl i) (by omega)) ?_
      intro stop
      cases stop with
      | true =>
          exact Triple.pure () (fun s hs => by simpa using hs)
      | false =>
          have hrest := Triple.forUntil k (i + 1)
            (fun j hj hjk => hbody j (by omega) (by omega))
            (fun s hs => hend s (by rwa [show i + (k + 1) = i + 1 + k by omega]))
          exact hrest.conseq (fun s hs => by simpa using hs) (fun _ _ h => h) (fun _ _ h => h)

/-! ## Kept properties -/

/-- `x` keeps `I`, whether it returns or raises. -/
def Keeps (I : σ → Prop) (x : EStateM ε σ α) : Prop := Triple I x (fun _ => I) (fun _ => I)

section Keeps

variable {I : σ → Prop} {x : EStateM ε σ α}

theorem keeps_pure (a : α) : Keeps I (pure a : EStateM ε σ α) := fun _ hs => hs

theorem keeps_get : Keeps I (get : EStateM ε σ σ) := fun _ hs => hs

theorem keeps_modify {f : σ → σ} (h : ∀ s, I s → I (f s)) : Keeps I (modify f : EStateM ε σ Unit) :=
  h

theorem Keeps.bind {f : α → EStateM ε σ β} (hx : Keeps I x) (hf : ∀ a, Keeps I (f a)) :
    Keeps I (x >>= f) := Triple.bind hx hf

theorem Keeps.ite {c : Prop} [Decidable c] {y : EStateM ε σ α} (hx : Keeps I x) (hy : Keeps I y) :
    Keeps I (if c then x else y) := Triple.ite (fun _ => hx) fun _ => hy

theorem Keeps.forUntil {body : Nat → EStateM ε σ Bool} (hbody : ∀ j, Keeps I (body j)) (k i : Nat) :
    Keeps I (forUntil body k i) := by
  have hloop : Triple ((fun _ => I) i) (Hoare.forUntil body k i) (fun _ => I) (fun _ => I) := by
    apply Triple.forUntil (I := fun _ => I)
    · intro j _ _
      exact (hbody j).conseq (fun _ hs => hs) (fun stop _ hs => by simpa using hs) fun _ _ hs => hs
    · intro s hs
      exact hs
  exact hloop

end Keeps

end Hoare
