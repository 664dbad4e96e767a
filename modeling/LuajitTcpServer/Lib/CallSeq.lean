import Mathlib.Data.List.Infix
import Mathlib.Tactic.Common

/-!
# CallSeq — sequences of calls that may be stopped

`step s c` is the state after call `c` in state `s`, or the reason why nothing can be said about
the state from there on.  `always_iff_guarded` turns a statement about every state a sequence
reaches into one about what each of its calls meets: if in good states a guard is exactly what
makes the next state exist and be good again, all reached states are good if and only if every
call meets its guard.  `guarded_congr` exchanges guards.  `eachStep_congr` and
`eachStep_iff_guarded` do the same for statements about the steps, from the state before a call to
the state after it.
-/

namespace CallSeq

variable {σ ι ε : Type} (step : σ → ι → Except ε σ)

/-- The state after a sequence of calls. -/
def runCalls : σ → List ι → Except ε σ
  | s, [] => .ok s
  | s, c :: cs =>
      match step s c with
      | .ok s' => runCalls s' cs
      | .error e => .error e

/-- Every prefix of the sequence ends in a state with `Good`. -/
def Always (Good : σ → Prop) (s : σ) (cs : List ι) : Prop :=
  ∀ pre, pre <+: cs → ∃ s', runCalls step s pre = .ok s' ∧ Good s'

/-- Every call of the sequence is made in a state that meets its `Guard`. -/
def Guarded (Guard : σ → ι → Prop) (s : σ) (cs : List ι) : Prop :=
  ∀ pre c s', pre ++ [c] <+: cs → runCalls step s pre = .ok s' → Guard s' c

/-- Every call of the sequence that succeeds makes a step with `P`. -/
def EachStep (P : σ → ι → σ → Prop) (s : σ) (cs : List ι) : Prop :=
  ∀ pre c s₁ s₂, pre ++ [c] <+: cs → runCalls step s pre = .ok s₁ → step s₁ c = .ok s₂ → P s₁ c s₂

variable {step} {s s' : σ} {c : ι} {cs : List ι} {Good : σ → Prop} {Guard : σ → ι → Prop}
  {P : σ → ι → σ → Prop}

theorem runCalls_cons_of_ok (h : step s c = .ok s') :
    runCalls step s (c :: cs) = runCalls step s' cs := by
  rw [runCalls, h]

/-- What the calls of a sequence keep holds after it. -/
theorem runCalls_invariant_of_mem {Inv : σ → Prop}
    (hstep : ∀ s c s', c ∈ cs → Inv s → step s c = .ok s' → Inv s') (h : Inv s)
    (hrun : runCalls step s cs = .ok s') : Inv s' := by
  induction cs generalizing s with
  | nil =>
      cases hrun
      exact h
  | cons c cs ih =>
      cases hc : step s c with
      | error e =>
          simp [runCalls, hc] at hrun
      | ok s₁ =>
          rw [runCalls_cons_of_ok hc] at hrun
          refine ih (fun s c' s' hmem => hstep s c' s' (List.mem_cons_of_mem _ hmem)) ?_ hrun
          exact hstep s c s₁ List.mem_cons_self h hc

/-- What every call keeps holds after every sequence. -/
theorem runCalls_invariant {Inv : σ → Prop}
    (hstep : ∀ s c s', Inv s → step s c = .ok s' → Inv s') (h : Inv s)
    (hrun : runCalls step s cs = .ok s') : Inv s' :=
  runCalls_invariant_of_mem (fun s c s' _ => hstep s c s') h hrun

/-- What no call of the sequence changes is the same after it. -/
theorem runCalls_keeps {α : Type} (f : σ → α)
    (hstep : ∀ s c s', c ∈ cs → step s c = .ok s' → f s' = f s)
    (hrun : runCalls step s cs = .ok s') : f s' = f s :=
  @runCalls_invariant_of_mem σ ι ε step s s' cs (fun s₁ => f s₁ = f s)
    (fun s₁ c s₂ hc h hcall => (hstep s₁ c s₂ hc hcall).trans h) rfl hrun

theorem always_cons_iff (hs : Good s) :
    Always step Good s (c :: cs) ↔ ∃ s', step s c = .ok s' ∧ Always step Good s' cs := by
  constructor
  · intro h
    cases hc : step s c with
    | error e =>
        rcases h [c] ⟨cs, rfl⟩ with ⟨s₁, hrun, -⟩
        simp [runCalls, hc] at hrun
    | ok s' =>
        refine ⟨s', rfl, fun pre hpre => ?_⟩
        have hcons := h (c :: pre) ((List.prefix_cons_inj c).2 hpre)
        rwa [runCalls_cons_of_ok hc] at hcons
  · rintro ⟨s', hc, h⟩ pre hpre
    cases pre with
    | nil =>
        exact ⟨s, rfl, hs⟩
    | cons c' pre =>
        rcases List.cons_prefix_cons.1 hpre with ⟨rfl, hpre'⟩
        rw [runCalls_cons_of_ok hc]
        exact h pre hpre'

theorem Guarded.head (h : Guarded step Guard s (c :: cs)) : Guard s c :=
  h [] c s ⟨cs, rfl⟩ rfl

theorem Guarded.tail (h : Guarded step Guard s (c :: cs)) (hc : step s c = .ok s') :
    Guarded step Guard s' cs := by
  intro pre c' s₁ hpre hrun
  refine h (c :: pre) c' s₁ ((List.prefix_cons_inj c).2 hpre) ?_
  rwa [runCalls_cons_of_ok hc]

theorem guarded_cons (hhead : Guard s c)
    (htail : ∀ s', step s c = .ok s' → Guarded step Guard s' cs) :
    Guarded step Guard s (c :: cs) := by
  intro pre c' s₁ hpre hrun
  cases pre with
  | nil =>
      rcases List.cons_prefix_cons.1 hpre with ⟨rfl, -⟩
      cases hrun
      exact hhead
  | cons c₀ pre =>
      -- the prefix begins with the call itself and goes on in the tail
      rcases List.cons_prefix_cons.1 hpre with ⟨rfl, hpre'⟩
      cases hc : step s c₀ with
      | error e =>
          simp [runCalls, hc] at hrun
      | ok s' =>
          rw [runCalls_cons_of_ok hc] at hrun
          exact htail s' hc pre c' s₁ hpre' hrun

/-- If in good states the guard is exactly what makes the next state exist and be good, a
sequence stays good if and only if it stays guarded. -/
theorem always_iff_guarded {Inv : σ → Prop}
    (hinv : ∀ s c s', Inv s → step s c = .ok s' → Inv s')
    (hguard : ∀ s c, Inv s → Good s → (Guard s c ↔ ∃ s', step s c = .ok s' ∧ Good s'))
    (hs : Inv s) (hgood : Good s) :
    Always step Good s cs ↔ Guarded step Guard s cs := by
  induction cs generalizing s with
  | nil =>
      constructor
      · intro _ pre c s' hpre _
        simp at hpre
      · intro _ pre hpre
        rw [List.prefix_nil.1 hpre]
        exact ⟨s, rfl, hgood⟩
  | cons c cs ih =>
      rw [always_cons_iff hgood]
      constructor
      · rintro ⟨s', hc, halways⟩
        -- the empty rest of the sequence ends in `s'`
        have hgood' : Good s' := by
          rcases halways [] (List.nil_prefix) with ⟨s₁, hrun, h₁⟩
          cases hrun
          exact h₁
        refine guarded_cons ((hguard s c hs hgood).2 ⟨s', hc, hgood'⟩) fun s₁ hc₁ => ?_
        rw [hc] at hc₁
        cases hc₁
        exact (ih (hinv s c s' hs hc) hgood').1 halways
      · intro h
        rcases (hguard s c hs hgood).1 h.head with ⟨s', hc, hgood'⟩
        exact ⟨s', hc, (ih (hinv s c s' hs hc) hgood').2 (h.tail hc)⟩

theorem guarded_cons_iff (hc : step s c = .ok s') :
    Guarded step Guard s (c :: cs) ↔ Guard s c ∧ Guarded step Guard s' cs := by
  constructor
  · intro h
    exact ⟨h.head, h.tail hc⟩
  · rintro ⟨hhead, htail⟩
    refine guarded_cons hhead fun s₁ hc₁ => ?_
    cases hc.symm.trans hc₁
    exact htail

/-- Two guards that mean the same for every call that succeeds guard the same sequences, among
those that run to their end. -/
theorem guarded_congr {Inv : σ → Prop} {Guard' : σ → ι → Prop}
    (hinv : ∀ s c s', Inv s → step s c = .ok s' → Inv s')
    (hiff : ∀ s c s', Inv s → step s c = .ok s' → (Guard s c ↔ Guard' s c))
    (hs : Inv s) (hrun : runCalls step s cs = .ok s') :
    Guarded step Guard s cs ↔ Guarded step Guard' s cs := by
  induction cs generalizing s with
  | nil =>
      constructor <;> intro _ pre c s₁ hpre _ <;> simp at hpre
  | cons c cs ih =>
      cases hc : step s c with
      | error e =>
          simp [runCalls, hc] at hrun
      | ok s₁ =>
          rw [runCalls_cons_of_ok hc] at hrun
          rw [guarded_cons_iff hc, guarded_cons_iff hc, hiff s c s₁ hs hc,
            ih (hinv s c s₁ hs hc) hrun]

/-! ## Steps -/

theorem EachStep.head (h : EachStep step P s (c :: cs)) (hc : step s c = .ok s') : P s c s' :=
  h [] c s s' ⟨cs, rfl⟩ rfl hc

theorem EachStep.tail (h : EachStep step P s (c :: cs)) (hc : step s c = .ok s') :
    EachStep step P s' cs := by
  intro pre c' s₁ s₂ hpre hrun hc'
  refine h (c :: pre) c' s₁ s₂ ((List.prefix_cons_inj c).2 hpre) ?_ hc'
  rwa [runCalls_cons_of_ok hc]

theorem eachStep_cons
    (h : ∀ s', step s c = .ok s' → P s c s' ∧ EachStep step P s' cs) :
    EachStep step P s (c :: cs) := by
  intro pre c' s₁ s₂ hpre hrun hc'
  cases pre with
  | nil =>
      rcases List.cons_prefix_cons.1 hpre with ⟨rfl, -⟩
      cases hrun
      exact (h s₂ hc').1
  | cons c₀ pre =>
      -- the prefix begins with the call itself and goes on in the tail
      rcases List.cons_prefix_cons.1 hpre with ⟨rfl, hpre'⟩
      cases hc : step s c₀ with
      | error e =>
          simp [runCalls, hc] at hrun
      | ok s' =>
          rw [runCalls_cons_of_ok hc] at hrun
          exact (h s' hc).2 pre c' s₁ s₂ hpre' hrun hc'

/-- What an invariant gives for one step holds for each step. -/
theorem eachStep_of_invariant (Inv : σ → Prop)
    (hstep : ∀ s c s', Inv s → step s c = .ok s' → P s c s' ∧ Inv s') (hs : Inv s) :
    EachStep step P s cs := by
  induction cs generalizing s with
  | nil =>
      intro pre c s₁ s₂ hpre _ _
      simp at hpre
  | cons c cs ih =>
      refine eachStep_cons fun s' hc => ?_
      rcases hstep s c s' hs hc with ⟨hP, hinv⟩
      exact ⟨hP, ih hinv⟩

/-- Two statements that mean the same for every step hold for each step of the same sequences.  The
invariant may use what has been shown of the steps so far. -/
theorem eachStep_congr (Inv : σ → Prop) {Q : σ → ι → σ → Prop}
    (hinv : ∀ s c s', Inv s → step s c = .ok s' → P s c s' → Inv s')
    (hiff : ∀ s c s', Inv s → step s c = .ok s' → (P s c s' ↔ Q s c s')) (hs : Inv s) :
    EachStep step P s cs ↔ EachStep step Q s cs := by
  induction cs generalizing s with
  | nil =>
      constructor <;> intro _ pre c s₁ s₂ hpre _ _ <;> simp at hpre
  | cons c cs ih =>
      constructor
      · intro h
        refine eachStep_cons fun s' hc => ?_
        have hstep := h.head hc
        exact ⟨(hiff s c s' hs hc).1 hstep, (ih (hinv s c s' hs hc hstep)).1 (h.tail hc)⟩
      · intro h
        refine eachStep_cons fun s' hc => ?_
        have hstep := (hiff s c s' hs hc).2 (h.head hc)
        exact ⟨hstep, (ih (hinv s c s' hs hc hstep)).2 (h.tail hc)⟩

/-- A guard that every call meets which does not succeed is a statement about the steps. -/
theorem eachStep_guard_iff (Inv : σ → Prop)
    (hinv : ∀ s c s', Inv s → step s c = .ok s' → Guard s c → Inv s')
    (herror : ∀ s c e, Inv s → step s c = .error e → Guard s c) (hs : Inv s) :
    EachStep step (fun s c _ => Guard s c) s cs ↔ Guarded step Guard s cs := by
  induction cs generalizing s with
  | nil =>
      constructor
      · intro _ pre c s' hpre _
        simp at hpre
      · intro _ pre c s₁ s₂ hpre _ _
        simp at hpre
  | cons c cs ih =>
      constructor
      · intro h
        cases hc : step s c with
        | error e =>
            refine guarded_cons (herror s c e hs hc) fun s' hc' => ?_
            rw [hc] at hc'
            cases hc'
        | ok s' =>
            have hhead : Guard s c := h.head hc
            have hs' := hinv s c s' hs hc hhead
            exact (guarded_cons_iff hc).2 ⟨hhead, (ih hs').1 (h.tail hc)⟩
      · intro h
        refine eachStep_cons fun s' hc => ?_
        exact ⟨h.head, (ih (hinv s c s' hs hc h.head)).2 (h.tail hc)⟩

/-- If the guard of a call is exactly what makes its step one with `P`, the steps of a sequence are
all with `P` if and only if it stays guarded.  The invariant may use what has been shown of the
steps so far. -/
theorem eachStep_iff_guarded (Inv : σ → Prop)
    (hinv : ∀ s c s', Inv s → step s c = .ok s' → P s c s' → Inv s')
    (hguard : ∀ s c s', Inv s → step s c = .ok s' → (P s c s' ↔ Guard s c))
    (herror : ∀ s c e, Inv s → step s c = .error e → Guard s c) (hs : Inv s) :
    EachStep step P s cs ↔ Guarded step Guard s cs := by
  have hcongr : EachStep step P s cs ↔ EachStep step (fun s c _ => Guard s c) s cs :=
    eachStep_congr Inv hinv hguard hs
  rw [hcongr]
  refine eachStep_guard_iff Inv (fun s c s' h hc hguarded => ?_) herror hs
  exact hinv s c s' h hc ((hguard s c s' h hc).2 hguarded)

end CallSeq
