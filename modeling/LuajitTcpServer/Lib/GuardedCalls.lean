import Mathlib.Tactic.Common

/-!
# GuardedCalls — calls that are made until one of them fails

A program makes a fixed list of calls, each of which may use the answer to the one before it, and
stops at the first answer it does not accept.  `Completed` and `Stopped` are the two records such a
program can leave; `Performs` says that it leaves one of them, and is composed from the parts of the
program by `Performs.append`.
-/

namespace GuardedCalls

variable {ι τ ε : Type}

abbrev Record (ι : Type) := List (ι × Int)

/-- A call, made from the answer to the one before it. -/
structure Step (ι τ : Type) where
  label : τ
  call : Int → ι
  accepts : Int → Bool

/-- Each step has been made, and its answer accepted. -/
inductive Completed : List (Step ι τ) → Int → Record ι → Prop
  | nil {prev : Int} : Completed [] prev []
  | cons {step : Step ι τ} {steps : List (Step ι τ)} {prev answer : Int} {record : Record ι} :
      step.accepts answer = true → Completed steps answer record →
      Completed (step :: steps) prev ((step.call prev, answer) :: record)

/-- The steps have been made up to `failed`, whose answer was the first that was not accepted. -/
inductive Stopped (failed : Step ι τ) (last : Int) : List (Step ι τ) → Int → Record ι → Prop
  | here {steps : List (Step ι τ)} {prev : Int} :
      failed.accepts last = false →
      Stopped failed last (failed :: steps) prev [(failed.call prev, last)]
  | later {step : Step ι τ} {steps : List (Step ι τ)} {prev answer : Int} {record : Record ι} :
      step.accepts answer = true → Stopped failed last steps answer record →
      Stopped failed last (step :: steps) prev ((step.call prev, answer) :: record)

/-- The answer before the next step. -/
def lastAnswer : Int → Record ι → Int
  | prev, [] => prev
  | _, (_, answer) :: record => lastAnswer answer record

section Records

variable {steps more : List (Step ι τ)} {prev : Int} {record rest : Record ι} {failed : Step ι τ}
  {last : Int}

theorem Completed.append (h : Completed steps prev record)
    (hmore : Completed more (lastAnswer prev record) rest) :
    Completed (steps ++ more) prev (record ++ rest) := by
  induction h with
  | nil =>
      exact hmore
  | cons haccept _ ih =>
      exact .cons haccept (ih hmore)

theorem Stopped.weaken (h : Stopped failed last steps prev record) :
    Stopped failed last (steps ++ more) prev record := by
  induction h with
  | here hrefuse =>
      exact .here hrefuse
  | later haccept _ ih =>
      exact .later haccept ih

theorem Completed.stopped (h : Completed steps prev record)
    (hmore : Stopped failed last more (lastAnswer prev record) rest) :
    Stopped failed last (steps ++ more) prev (record ++ rest) := by
  induction h with
  | nil =>
      exact hmore
  | cons haccept _ ih =>
      exact .later haccept (ih hmore)

/-- Every call on record is the call of a step. -/
theorem Completed.call_of_mem {c : ι} {r : Int} (h : Completed steps prev record)
    (hmem : (c, r) ∈ record) : ∃ step ∈ steps, ∃ before, c = step.call before := by
  induction h with
  | nil =>
      cases hmem
  | @cons step steps prev answer record _ _ ih =>
      rcases List.mem_cons.1 hmem with heq | hrest
      · cases heq
        exact ⟨step, List.mem_cons_self, prev, rfl⟩
      · rcases ih hrest with ⟨step', hstep, hcall⟩
        exact ⟨step', List.mem_cons_of_mem _ hstep, hcall⟩

theorem Stopped.call_of_mem {c : ι} {r : Int} (h : Stopped failed last steps prev record)
    (hmem : (c, r) ∈ record) : ∃ step ∈ steps, ∃ before, c = step.call before := by
  induction h with
  | @here steps prev _ =>
      cases List.mem_singleton.1 hmem
      exact ⟨failed, List.mem_cons_self, prev, rfl⟩
  | @later step steps prev answer record _ _ ih =>
      rcases List.mem_cons.1 hmem with heq | hrest
      · cases heq
        exact ⟨step, List.mem_cons_self, prev, rfl⟩
      · rcases ih hrest with ⟨step', hstep, hcall⟩
        exact ⟨step', List.mem_cons_of_mem _ hstep, hcall⟩

theorem Stopped.failed_mem (h : Stopped failed last steps prev record) : failed ∈ steps := by
  induction h with
  | here _ =>
      exact List.mem_cons_self
  | later _ _ ih =>
      exact List.mem_cons_of_mem _ ih

end Records

/-! ## Programs -/

/-- `x` makes the steps.  When one fails it raises, `ends` saying with what error and after which
further calls. -/
def Performs (ends : Step ι τ → Int → ε → Record ι → Prop) (steps : List (Step ι τ))
    (x : EStateM ε (Record ι) Unit) : Prop :=
  ∀ prev record,
    match x.run record with
    | .ok _ record' => ∃ new, record' = record ++ new ∧ Completed steps prev new
    | .error e record' => ∃ new failed last rest, record' = record ++ (new ++ rest) ∧
        Stopped failed last steps prev new ∧ ends failed last e rest

namespace Performs

variable {ends : Step ι τ → Int → ε → Record ι → Prop} {steps more : List (Step ι τ)}
  {x y : EStateM ε (Record ι) Unit}

theorem nil : Performs ends [] (pure () : EStateM ε (Record ι) Unit) :=
  fun _ record => ⟨[], (List.append_nil record).symm, .nil⟩

theorem append (hx : Performs ends steps x) (hy : Performs ends more y) :
    Performs ends (steps ++ more) (x >>= fun _ => y) := by
  intro prev record
  have hfirst := hx prev record
  rw [EStateM.run_bind]
  cases hrun : x.run record with
  | error e record' =>
      rw [hrun] at hfirst
      rcases hfirst with ⟨new, failed, last, rest, heq, hstopped, hends⟩
      exact ⟨new, failed, last, rest, heq, hstopped.weaken, hends⟩
  | ok a record' =>
      rw [hrun] at hfirst
      rcases hfirst with ⟨new, rfl, hcompleted⟩
      have hsecond := hy (lastAnswer prev new) (record ++ new)
      dsimp only
      cases hrun' : y.run (record ++ new) with
      | ok b record'' =>
          rw [hrun'] at hsecond
          rcases hsecond with ⟨new', rfl, hcompleted'⟩
          exact ⟨new ++ new', List.append_assoc _ _ _, hcompleted.append hcompleted'⟩
      | error e record'' =>
          rw [hrun'] at hsecond
          rcases hsecond with ⟨new', failed, last, rest, rfl, hstopped, hends⟩
          refine ⟨new ++ new', failed, last, rest, ?_, hcompleted.stopped hstopped, hends⟩
          simp only [List.append_assoc]

theorem ite {c : Prop} [Decidable c] (hx : c → Performs ends steps x)
    (hy : ¬ c → Performs ends more y) :
    Performs ends (if c then steps else more) (if c then x else y) := by
  by_cases hc : c
  · rw [if_pos hc, if_pos hc]
    exact hx hc
  · rw [if_neg hc, if_neg hc]
    exact hy hc

end Performs

end GuardedCalls
