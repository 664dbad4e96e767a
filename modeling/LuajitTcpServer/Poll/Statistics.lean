import LuajitTcpServer.Poll.Refinement

/-!
# Statistics — the counters of `lib_poll.lua` over sequences of calls

The server prints how many descriptors have been added and removed at its end, next to those that
are left.  `remove_fd` counts the removal before it has searched for the descriptor, so the counters
balance as long as every removed descriptor is registered (`statistics_balance_iff`).
-/

namespace LuajitTcpServer
namespace Poll

open CallSeq PollTable

/-- A call of which the caller catches the error that `remove_fd` raises, and no other. -/
def caught (t : PollTable) (c : Call) : Except Fault PollTable :=
  match c.exec.run t with
  | .ok _ t' => .ok t'
  | .error (.fdNotFound _ _) t' => .ok t'
  | .error e _ => .error e

def Call.Fails (t : PollTable) (c : Call) : Prop := ∃ e t', c.exec.run t = .error e t'

def Balanced (t : PollTable) : Prop := (fdAddCount t : Int) - fdRemoveCount t = fdCount t

instance (t : PollTable) : Decidable (Balanced t) := inferInstanceAs (Decidable (_ = _))

/-- A call that fails has changed neither the table nor a counter, and the counters balance. -/
structure Accounted (t : PollTable) (c : Call) (t' : PollTable) : Prop where
  unchanged : c.Fails t → t'.fds = t.fds ∧ t'.nfds = t.nfds ∧
    fdAddCount t' = fdAddCount t ∧ fdRemoveCount t' = fdRemoveCount t
  balanced : Balanced t'

/-- A removed descriptor is registered. -/
def Call.Known (t : PollTable) : Call → Prop
  | .add _ _ => True
  | .remove fd => fd ∈ t.registered

section Counters

variable {t t' : PollTable} {c : Call} {fd : Fd} {events : Events}

/-- A successful `add_fd` counts itself, in each of its branches. -/
theorem addFd_counts (h : t.Coherent) (hrun : (addFd fd events).run t = .ok () t') :
    t'.fdAddCount = t.fdAddCount + 1 ∧ t'.fdRemoveCount = t.fdRemoveCount := by
  by_cases hreg : fd ∈ t.registered
  · rw [addFd_run_registered h.sized hreg] at hrun
    split at hrun
    · cases hrun
      exact ⟨rfl, rfl⟩
    · cases hrun
  · by_cases hsize : t.nfds < t.fdsListSize
    · rw [addFd_run_fresh h.sized hreg hsize] at hrun
      split at hrun
      · cases hrun
        exact ⟨rfl, rfl⟩
      · split at hrun <;> cases hrun
    · cases hheap : t.heap (t.fdAddCount + 1) with
      | none =>
          rw [addFd_run_noMemory h.sized hreg (Nat.not_lt.1 hsize) hheap] at hrun
          cases hrun
      | some fresh =>
          rw [addFd_run_grow h hreg (Nat.not_lt.1 hsize) hheap] at hrun
          cases hrun
          exact ⟨rfl, rfl⟩

theorem removeFd_counts (h : t.Sized) (hreg : fd ∈ t.registered)
    (hrun : (removeFd fd).run t = .ok () t') :
    t'.fdAddCount = t.fdAddCount ∧ t'.fdRemoveCount = t.fdRemoveCount + 1 := by
  rcases removeFd_run_registered h hreg with ⟨idx, -, -, heq⟩
  rw [heq] at hrun
  cases hrun
  exact ⟨rfl, rfl⟩

/-! ## One call -/

theorem caught_coherent (h : t.Coherent) (hrun : caught t c = .ok t') : t'.Coherent := by
  apply pcall_coherent (c := c) h
  unfold caught at hrun
  unfold pcall
  split at hrun
  · rename_i heq
    cases hrun
    rw [heq]
  · rename_i heq
    cases hrun
    rw [heq]
  · cases hrun

/-- A successful call counts what it does. -/
theorem accounted_of_known (h : t.Coherent) (hbalanced : Balanced t) (hknown : c.Known t)
    (hrun : caught t c = .ok t') : Accounted t c t' := by
  unfold Balanced fdAddCount fdRemoveCount fdCount at hbalanced
  cases c with
  | add fd events =>
      rcases addFd_cases h fd events with ⟨t₁, heq, hadd, -⟩ | ⟨e, t₁, heq, he, -⟩ | ⟨t₁, heq, -⟩
      · simp only [caught, Call.exec, heq, Except.ok.injEq] at hrun
        subst hrun
        rcases addFd_counts h heq with ⟨hadds, hremoves⟩
        refine ⟨?_, ?_⟩
        · rintro ⟨e, t₂, hfail⟩
          rw [Call.exec, heq] at hfail
          cases hfail
        · rw [Balanced, fdAddCount, fdRemoveCount, fdCount, hadds, hremoves, hadd.nfds_eq]
          omega
      -- any other error is not caught
      · rcases he with rfl | rfl <;> simp [caught, Call.exec, heq] at hrun
      · simp [caught, Call.exec, heq] at hrun
  | remove fd =>
      rcases removeFd_cases h fd with ⟨hreg, t₁, heq, hrem⟩ | ⟨hreg, -⟩
      · simp only [caught, Call.exec, heq, Except.ok.injEq] at hrun
        subst hrun
        rcases removeFd_counts h.sized hreg heq with ⟨hadds, hremoves⟩
        refine ⟨?_, ?_⟩
        · rintro ⟨e, t₂, hfail⟩
          rw [Call.exec, heq] at hfail
          cases hfail
        · have hnfds := hrem.nfds_eq
          rw [Balanced, fdAddCount, fdRemoveCount, fdCount, hadds, hremoves]
          omega
      · exact absurd hknown hreg

/-- A failed `remove_fd` has been counted. -/
theorem known_of_accounted (h : t.Coherent) (hrun : caught t c = .ok t')
    (hstep : Accounted t c t') : c.Known t := by
  cases c with
  | add fd events =>
      exact trivial
  | remove fd =>
      rcases removeFd_cases h fd with ⟨hreg, -⟩ | ⟨-, heq⟩
      · exact hreg
      · exfalso
        simp only [caught, Call.exec, heq, Except.ok.injEq] at hrun
        subst hrun
        rcases hstep.unchanged ⟨_, _, heq⟩ with ⟨-, -, -, hcount⟩
        simp only [fdRemoveCount, countRemove] at hcount
        omega

theorem known_of_error {e : Fault} (h : t.Coherent) (hrun : caught t c = .error e) :
    c.Known t := by
  cases c with
  | add fd events =>
      exact trivial
  | remove fd =>
      rcases removeFd_cases h fd with ⟨hreg, -⟩ | ⟨-, heq⟩
      · exact hreg
      · simp [caught, Call.exec, heq] at hrun

end Counters

/-! ## Sequences -/

/-- Failed calls change nothing and the counters balance after every call, if and only if each
`remove_fd` is for a descriptor that is registered at that moment. -/
theorem statistics_balance_iff (heap : Nat → Option (Nat → PollFd)) (debugLevel : Int)
    (cs : List Call) :
    EachStep caught Accounted (started heap debugLevel) cs ↔
      Guarded caught (fun t c => c.Known t) (started heap debugLevel) cs := by
  refine eachStep_iff_guarded (fun t => t.Coherent ∧ Balanced t) ?_ ?_ ?_ ?_
  · rintro t c t' ⟨h, -⟩ hrun hstep
    exact ⟨caught_coherent h hrun, hstep.balanced⟩
  · rintro t c t' ⟨h, hbalanced⟩ hrun
    exact ⟨known_of_accounted h hrun, fun hknown => accounted_of_known h hbalanced hknown hrun⟩
  · rintro t c e ⟨h, -⟩ hrun
    exact known_of_error h hrun
  · exact ⟨started_coherent heap debugLevel, rfl⟩

/-- Removing descriptor 7 from the empty table. -/
theorem unknown_removal_counted :
    ¬ EachStep caught Accounted (started (fun _ => none) 0) [.remove 7] := by
  intro h
  have hstep := h [] (.remove 7) _ _ (List.prefix_refl _) rfl rfl
  exact absurd hstep.balanced (by decide)

end Poll
end LuajitTcpServer
