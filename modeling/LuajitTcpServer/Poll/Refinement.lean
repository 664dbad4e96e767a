import Mathlib.Data.Finmap
import LuajitTcpServer.Lib.CallSeq
import LuajitTcpServer.Poll.TableSpec

/-!
# Refinement — the poll table over sequences of calls

The table is meant to be a finite map from registered descriptors to their events.  This file
runs it next to such a map, a `Finmap`, through any sequence of `add_fd` and `remove_fd` calls,
whose Lua errors the caller may catch, and says

* when every slot the calls reach is allocated (`slots_allocated_iff`), and
* when the table is the map (`table_refines_map_iff`).

Both fail for the same reason: `add_fd` reports a descriptor that is already registered and then
stores it once more, and the growth check is in the branch for new descriptors only.
-/

namespace LuajitTcpServer
namespace Poll

open CallSeq PollTable

/-! ## Calls -/

inductive Call
  | add (fd : Fd) (events : Events)
  | remove (fd : Fd)
  deriving DecidableEq, Repr

def Call.exec : Call → PollM Unit
  | .add fd events => addFd fd events
  | .remove fd => removeFd fd

/-- A call whose Lua error is caught.  An out-of-bounds access is not an error Lua sees: the
result is the index, and nothing is known of the memory from there on. -/
def pcall (t : PollTable) (c : Call) : Except Nat PollTable :=
  match c.exec.run t with
  | .ok _ t' => .ok t'
  | .error (.outOfBounds idx) _ => .error idx
  | .error _ t' => .ok t'

/-- The module after `clear_all` and `debug_level_set`. -/
def started (heap : Nat → Option (Nat → PollFd)) (debugLevel : Int) : PollTable :=
  { clearAll heap with debugLevel := debugLevel }

theorem started_coherent (heap : Nat → Option (Nat → PollFd)) (debugLevel : Int) :
    (started heap debugLevel).Coherent :=
  ⟨Nat.le_refl 0, Nat.le_refl 0⟩

theorem pcall_coherent {t t' : PollTable} {c : Call} (h : t.Coherent) (hrun : pcall t c = .ok t') :
    t'.Coherent := by
  cases c with
  | add fd events =>
      rcases addFd_cases h fd events with ⟨t₁, heq, hadd, -⟩ | ⟨e, t₁, heq, he, hco, -⟩ |
        ⟨t₁, heq, -⟩
      · simp only [pcall, Call.exec, heq, Except.ok.injEq] at hrun
        rw [← hrun]
        exact hadd.coherent
      · rcases he with rfl | rfl <;>
          simp only [pcall, Call.exec, heq, Except.ok.injEq] at hrun <;> rwa [← hrun]
      · simp [pcall, Call.exec, heq] at hrun
  | remove fd =>
      rcases removeFd_cases h fd with ⟨-, t₁, heq, hrem⟩ | ⟨-, heq⟩
      · simp only [pcall, Call.exec, heq, Except.ok.injEq] at hrun
        rw [← hrun]
        exact hrem.coherent
      · simp only [pcall, Call.exec, heq, Except.ok.injEq] at hrun
        rw [← hrun]
        exact ⟨h.sized, h.size_le⟩

/-! ## Bounds -/

/-- The call is an `add_fd` that writes past the allocation. -/
def Call.Overruns (t : PollTable) : Call → Prop
  | .add fd _ => Poll.Overruns t fd
  | .remove _ => False

/-- The used slots lie in the allocation, and this is no larger than `fdsListSize`. -/
def WithinSize (t : PollTable) : Prop :=
  t.nfds ≤ t.fds.length ∧ t.fds.length ≤ t.fdsListSize

theorem not_overruns_iff_pcall {t : PollTable} {c : Call} (h : t.Coherent) :
    ¬ c.Overruns t ↔ ∃ t', pcall t c = .ok t' ∧ WithinSize t' := by
  constructor
  · intro hno
    cases hrun : pcall t c with
    | ok t' =>
        have hco := pcall_coherent h hrun
        exact ⟨t', rfl, hco.sized, hco.size_le⟩
    | error idx =>
        -- a call stops the sequence only by writing past the allocation
        exfalso
        cases c with
        | add fd events =>
            rcases addFd_cases h fd events with ⟨t₁, heq, -⟩ | ⟨e, t₁, heq, he, -⟩ | ⟨-, -, ho⟩
            · simp [pcall, Call.exec, heq] at hrun
            · rcases he with rfl | rfl <;> simp [pcall, Call.exec, heq] at hrun
            · exact hno ho
        | remove fd =>
            rcases removeFd_cases h fd with ⟨-, t₁, heq, -⟩ | ⟨-, heq⟩ <;>
              simp [pcall, Call.exec, heq] at hrun
  · rintro ⟨t', hrun, -⟩ ho
    cases c with
    | add fd events =>
        rcases addFd_cases h fd events with ⟨-, -, -, hno⟩ | ⟨-, -, -, -, -, -, hno, -⟩ |
          ⟨t₁, heq, -⟩
        · exact hno ho
        · exact hno ho
        · simp [pcall, Call.exec, heq] at hrun
    | remove fd =>
        exact ho

/-- Every slot the calls read or write is allocated, and `nfds` stays within the allocation, if
and only if no `add_fd` that skips the growth branch is made while all slots are in use. -/
theorem slots_allocated_iff (heap : Nat → Option (Nat → PollFd)) (debugLevel : Int)
    (cs : List Call) :
    Always pcall WithinSize (started heap debugLevel) cs ↔
      Guarded pcall (fun t c => ¬ c.Overruns t) (started heap debugLevel) cs :=
  always_iff_guarded (fun _ _ _ h hrun => pcall_coherent h hrun)
    (fun _ _ h _ => not_overruns_iff_pcall h) (started_coherent heap debugLevel)
    ⟨Nat.le_refl 0, Nat.le_refl 0⟩

/-- Ten descriptors fill the first allocation; adding one of them again writes slot 10. -/
theorem eleventh_add_overruns :
    ¬ Always pcall WithinSize (started (fun _ => some fun _ => ⟨0, 0, 0⟩) 0)
      ((List.range 10).map (fun i => Call.add (i + 3) 1) ++ [.add 3 1]) := by
  intro h
  rcases h _ (List.prefix_refl _) with ⟨t, hrun, -⟩
  have hstop : (runCalls pcall (started (fun _ => some fun _ => ⟨0, 0, 0⟩) 0)
      ((List.range 10).map (fun i => Call.add (i + 3) 1) ++ [.add 3 1])).toOption.isNone = true := by
    decide +kernel
  rw [hrun] at hstop
  cases hstop

/-! ## The finite map -/

/-- The purpose of the table: each registered descriptor with the events of its latest
`add_fd`. -/
abbrev FdMap := Finmap fun _ : Fd => Events

/-- What a successful call does to the map. -/
def Call.applied (known : FdMap) : Call → FdMap
  | .add fd events => known.insert fd events
  | .remove fd => known.erase fd

/-- The table next to the map it should be. -/
structure Tracked where
  table : PollTable
  known : FdMap

/-- One call on both; a call that fails leaves the map alone. -/
def Tracked.call (s : Tracked) (c : Call) : Except Nat Tracked :=
  match c.exec.run s.table with
  | .ok _ t => .ok { table := t, known := c.applied s.known }
  | .error (.outOfBounds idx) _ => .error idx
  | .error _ t => .ok { table := t, known := s.known }

def Tracked.started (heap : Nat → Option (Nat → PollFd)) (debugLevel : Int) : Tracked :=
  { table := Poll.started heap debugLevel, known := ∅ }

/-- The used slots hold every key of the map exactly once, with its events, and nothing else. -/
structure Tracked.Refines (s : Tracked) : Prop where
  nodup : s.table.registered.Nodup
  mem_iff : ∀ fd events, (fd, events) ∈ s.table.entries ↔ s.known.lookup fd = some events

namespace Tracked

variable {s s' : Tracked} {c : Call}

/-- The map does not influence the table. -/
theorem call_table (s : Tracked) (c : Call) :
    (s.call c).map Tracked.table = pcall s.table c := by
  simp only [call, pcall]
  split <;> rfl

theorem call_coherent (h : s.table.Coherent) (hrun : s.call c = .ok s') : s'.table.Coherent := by
  refine pcall_coherent (c := c) h ?_
  rw [← call_table, hrun]
  rfl

theorem Refines.mem_registered_iff (h : s.Refines) {fd : Fd} :
    fd ∈ s.table.registered ↔ fd ∈ s.known := by
  rw [Finmap.mem_iff, registered, List.mem_map]
  constructor
  · rintro ⟨⟨fd', events⟩, hmem, rfl⟩
    exact ⟨events, (h.mem_iff fd' events).1 hmem⟩
  · rintro ⟨events, hlookup⟩
    exact ⟨(fd, events), (h.mem_iff fd events).2 hlookup, rfl⟩

theorem refines_added {t' : PollTable} {fd : Fd} {events : Events} (h : s.Refines)
    (hadd : Added s.table t' fd events) (hfresh : fd ∉ s.known) :
    Refines { table := t', known := s.known.insert fd events } where
  nodup := by
    have hreg : fd ∉ s.table.registered := fun hmem => hfresh (h.mem_registered_iff.1 hmem)
    simp only [hadd.registered_eq]
    exact List.nodup_append_comm.1 (List.nodup_cons.2 ⟨hreg, h.nodup⟩)
  mem_iff := by
    intro fd' events'
    simp only [hadd.entries_eq, List.mem_append, List.mem_singleton]
    by_cases hfd : fd' = fd
    -- the key was not in the map, so its entry is the new one
    · subst hfd
      have hout : (fd', events') ∉ s.table.entries := fun hmem =>
        hfresh (h.mem_registered_iff.1 (mem_registered_of_mem_entries hmem))
      simp [hout, Finmap.lookup_insert, eq_comm]
    · rw [Finmap.lookup_insert_of_ne _ hfd, ← h.mem_iff]
      simp [hfd]

theorem refines_removed {t' : PollTable} {fd : Fd} (h : s.Refines)
    (hrem : Removed s.table t' fd) :
    Refines { table := t', known := s.known.erase fd } := by
  rcases hrem.perm with ⟨events, hperm⟩
  have hnodup := hrem.registered_nodup h.nodup
  refine ⟨hnodup.2, fun fd' events' => ?_⟩
  -- one entry was removed, and there was no second one
  by_cases hfd : fd' = fd
  · subst hfd
    have hout : (fd', events') ∉ t'.entries := fun hmem =>
      hnodup.1 (mem_registered_of_mem_entries hmem)
    simp [hout, Finmap.lookup_erase]
  · rw [Finmap.lookup_erase_ne hfd, ← h.mem_iff, ← hperm.mem_iff]
    simp [hfd]

/-- A second entry for a descriptor is never the map. -/
theorem not_refines_added {t' : PollTable} {fd : Fd} {events : Events} {known : FdMap}
    (hadd : Added s.table t' fd events) (hreg : fd ∈ s.table.registered) :
    ¬ Refines { table := t', known := known } := by
  intro h
  have hnodup : (s.table.registered ++ [fd]).Nodup := by
    have := h.nodup
    rwa [hadd.registered_eq] at this
  exact (List.nodup_append.1 hnodup).2.2 fd hreg fd (List.mem_singleton_self fd) rfl

/-- The calls for which the table behaves like the map: an added descriptor is new, and its slot
is allocated (it can only fail to be after a failed `realloc` whose error was caught). -/
def Regular (s : Tracked) : Call → Prop
  | .add fd _ => fd ∉ s.known ∧ ¬ Overruns s.table fd
  | .remove _ => True

theorem regular_iff_call (h : s.table.Coherent) (href : s.Refines) :
    s.Regular c ↔ ∃ s', s.call c = .ok s' ∧ s'.Refines := by
  cases c with
  | add fd events =>
      rcases addFd_cases h fd events with ⟨t', heq, hadd, hno⟩ |
        ⟨e, t', heq, he, -, hentries, hno, -, hreg⟩ | ⟨t', heq, ho⟩
      · simp only [Regular, call, Call.exec, heq, Call.applied]
        constructor
        · rintro ⟨hfresh, -⟩
          exact ⟨_, rfl, refines_added href hadd hfresh⟩
        · rintro ⟨s', hs', href'⟩
          cases hs'
          -- a descriptor that was in the map now has two entries
          refine ⟨fun hmem => ?_, hno⟩
          exact not_refines_added hadd (href.mem_registered_iff.2 hmem) href'
      -- the call has raised: table and map are as before
      · have hfresh : fd ∉ s.known := fun hmem => hreg (href.mem_registered_iff.2 hmem)
        have hcall : s.call (.add fd events) = .ok { table := t', known := s.known } := by
          rcases he with rfl | rfl <;> simp only [call, Call.exec, heq]
        refine ⟨fun _ => ⟨_, hcall, ?_, ?_⟩, fun _ => ⟨hfresh, hno⟩⟩
        · simpa only [registered, hentries] using href.nodup
        · simpa only [hentries] using href.mem_iff
      · simp only [Regular, call, Call.exec, heq]
        constructor
        · rintro ⟨-, hno⟩
          exact absurd ho hno
        · rintro ⟨s', hs', -⟩
          cases hs'
  | remove fd =>
      rcases removeFd_cases h fd with ⟨-, t', heq, hrem⟩ | ⟨-, heq⟩
      · simp only [Regular, call, Call.exec, heq, Call.applied, true_iff]
        exact ⟨_, rfl, refines_removed href hrem⟩
      · simp only [Regular, call, Call.exec, heq, true_iff]
        exact ⟨_, rfl, href.nodup, href.mem_iff⟩

theorem started_refines (heap : Nat → Option (Nat → PollFd)) (debugLevel : Int) :
    (Tracked.started heap debugLevel).Refines where
  nodup := List.nodup_nil
  mem_iff := by
    intro fd events
    simp [Tracked.started, Poll.started, clearAll, entries]

end Tracked

/-- The table is the finite map after every call of a sequence if and only if each `add_fd` in
it is for a descriptor that is not registered at that moment. -/
theorem table_refines_map_iff (heap : Nat → Option (Nat → PollFd)) (debugLevel : Int)
    (cs : List Call) :
    Always Tracked.call Tracked.Refines (Tracked.started heap debugLevel) cs ↔
      Guarded Tracked.call Tracked.Regular (Tracked.started heap debugLevel) cs := by
  have hinv : ∀ (s : Tracked) (c : Call) (s' : Tracked),
      s.table.Coherent → s.call c = .ok s' → s'.table.Coherent :=
    fun _ _ _ h hrun => Tracked.call_coherent h hrun
  exact always_iff_guarded hinv (fun _ _ h href => Tracked.regular_iff_call h href)
    (started_coherent heap debugLevel) (Tracked.started_refines heap debugLevel)

/-- Descriptor 5 added twice is in the table twice, first with its old events. -/
theorem second_add_duplicates :
    ¬ Always Tracked.call Tracked.Refines
      (Tracked.started (fun _ => some fun _ => ⟨0, 0, 0⟩) 0) [.add 5 1, .add 5 4] := by
  intro h
  rcases h _ (List.prefix_refl _) with ⟨s, hrun, href⟩
  have hentries : s.table.entries = [(5, 1), (5, 4)] := by
    cases hrun
    rfl
  have hnodup := href.nodup
  rw [registered, hentries] at hnodup
  exact absurd hnodup (by decide)

end Poll
end LuajitTcpServer
