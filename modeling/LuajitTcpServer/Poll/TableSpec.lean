import Mathlib.Tactic.Common
import LuajitTcpServer.Lib.SlotArray
import LuajitTcpServer.Poll.Table

/-!
# TableSpec — what one call does to the poll table

For a table whose used slots are allocated, every call is described by an equation for its run
and by its effect on `entries`, the registered descriptors with their events in slot order.
Callers use these and do not unfold `addFd` and `removeFd`.
-/

namespace LuajitTcpServer
namespace Poll

open Hoare SlotArray

namespace PollTable

/-! ## Views of the table -/

/-- The registered descriptors with their events, in slot order. -/
def entries (t : PollTable) : List (Fd × Events) :=
  (t.fds.take t.nfds).map fun slot => (slot.fd, slot.events)

/-- The registered descriptors in slot order. -/
def registered (t : PollTable) : List Fd :=
  t.entries.map Prod.fst

/-- The used slots are allocated. -/
def Sized (t : PollTable) : Prop := t.nfds ≤ t.fds.length

instance (t : PollTable) : Decidable t.Sized := inferInstanceAs (Decidable (_ ≤ _))

/-- What every sequence of calls keeps.  `fdsListSize` exceeds the allocation only after a
`realloc` that failed. -/
structure Coherent (t : PollTable) : Prop where
  sized : t.Sized
  size_le : t.fds.length ≤ t.fdsListSize

/-- Slot `idx` is allocated and holds `fd`. -/
def holds (t : PollTable) (fd : Fd) (idx : Nat) : Bool :=
  t.fds[idx]?.map PollFd.fd == some fd

variable {t : PollTable} {fd : Fd} {events : Events} {idx : Nat}

theorem registered_eq : t.registered = (t.fds.take t.nfds).map PollFd.fd := by
  rw [registered, entries, List.map_map]
  rfl

theorem entries_length (h : t.Sized) : t.entries.length = t.nfds := by
  rw [entries, List.length_map, List.length_take]
  exact Nat.min_eq_left h

theorem entries_getElem? (idx : Nat) :
    t.entries[idx]? =
      if idx < t.nfds then t.fds[idx]?.map fun slot => (slot.fd, slot.events) else none := by
  rw [entries, List.getElem?_map, List.getElem?_take]
  split <;> rfl

theorem holds_iff (h : idx < t.fds.length) : t.holds fd idx = true ↔ t.fds[idx].fd = fd := by
  simp [holds, h]

theorem holds_congr {t' : PollTable} (h : t'.fds[idx]? = t.fds[idx]?) :
    t'.holds fd idx = t.holds fd idx := by
  simp only [holds, h]

theorem holds_unique {fd' : Fd} (h : t.holds fd idx = true) (h' : t.holds fd' idx = true) :
    fd = fd' := by
  simp only [holds, beq_iff_eq] at h h'
  exact Option.some.inj (h.symm.trans h')

theorem registered_getElem? (h : t.holds fd idx = true) (hidx : idx < t.nfds) :
    t.registered[idx]? = some fd := by
  rw [registered_eq, List.getElem?_map, List.getElem?_take, if_pos hidx]
  simpa only [holds, beq_iff_eq] using h

theorem holds_inj {idx' : Nat} (h : t.Sized) (hnodup : t.registered.Nodup) (hidx : idx < t.nfds)
    (hidx' : idx' < t.nfds) (hhold : t.holds fd idx = true) (hhold' : t.holds fd idx' = true) :
    idx = idx' := by
  have hlen : idx < t.registered.length := by rwa [registered, List.length_map, entries_length h]
  have heq : t.registered[idx]? = t.registered[idx']? :=
    (registered_getElem? hhold hidx).trans (registered_getElem? hhold' hidx').symm
  exact (List.getElem?_inj hlen hnodup).1 heq

theorem mem_registered_iff (h : t.Sized) :
    fd ∈ t.registered ↔ ∃ idx, idx < t.nfds ∧ t.holds fd idx = true := by
  rw [registered_eq, List.mem_map]
  constructor
  · rintro ⟨slot, hmem, rfl⟩
    rcases List.mem_iff_getElem.1 hmem with ⟨idx, hidx, rfl⟩
    have hlt : idx < t.nfds := by
      rw [List.length_take] at hidx
      omega
    exact ⟨idx, hlt, by rw [holds_iff (Nat.lt_of_lt_of_le hlt h)]; simp⟩
  · rintro ⟨idx, hlt, hidx⟩
    have hlen : idx < t.fds.length := Nat.lt_of_lt_of_le hlt h
    refine ⟨t.fds[idx], ?_, (holds_iff hlen).1 hidx⟩
    exact List.mem_iff_getElem.2 ⟨idx, by rw [List.length_take]; omega, by simp⟩

theorem mem_registered_of_mem_entries (h : (fd, events) ∈ t.entries) : fd ∈ t.registered :=
  List.mem_map.2 ⟨(fd, events), h, rfl⟩

/-! ## States after a call -/

/-- The last allocated slot is filled with `fd` and `events`. -/
def appended (t : PollTable) (fd : Fd) (events : Events) : PollTable :=
  { t with
    fds := t.fds.modify t.nfds fun slot => { slot with fd := fd, events := events }
    nfds := t.nfds + 1 }

/-- The table after an expansion that found `fresh` on the heap. -/
def grown (t : PollTable) (fresh : Nat → PollFd) : PollTable :=
  { t with
    fdsListSize := t.fdsListSize + fdsListAddCount
    fds := reallocated t.fds fresh (t.fdsListSize + fdsListAddCount) }

/-- The table after `remove_fd` hit slot `idx`. -/
def removedAt (t : PollTable) (idx : Nat) : PollTable :=
  { t with
    fdRemoveCount := t.fdRemoveCount + 1
    nfds := t.nfds - 1
    fds :=
      if idx ≠ t.nfds - 1 then
        t.fds.modify idx fun slot =>
          { slot with
            fd := (t.fds.getD (t.nfds - 1) slot).fd
            events := (t.fds.getD (t.nfds - 1) slot).events }
      else
        t.fds.modify idx fun slot => { slot with fd := -1 } }

def countAdd (t : PollTable) : PollTable := { t with fdAddCount := t.fdAddCount + 1 }

def countRemove (t : PollTable) : PollTable := { t with fdRemoveCount := t.fdRemoveCount + 1 }

@[simp] theorem countAdd_fds : t.countAdd.fds = t.fds := rfl
@[simp] theorem countAdd_nfds : t.countAdd.nfds = t.nfds := rfl
@[simp] theorem countAdd_fdsListSize : t.countAdd.fdsListSize = t.fdsListSize := rfl
@[simp] theorem countRemove_fds : t.countRemove.fds = t.fds := rfl
@[simp] theorem countRemove_nfds : t.countRemove.nfds = t.nfds := rfl

/-! ### Appending -/

theorem appended_getElem?_of_ne {j : Nat} (h : j ≠ t.nfds) :
    (t.appended fd events).fds[j]? = t.fds[j]? := by
  simp [appended, Ne.symm h]

theorem appended_revents (j : Nat) :
    (t.appended fd events).fds[j]?.map PollFd.revents = t.fds[j]?.map PollFd.revents := by
  exact map_getElem?_modify (by intro _; rfl) _ _ _

theorem appended_sized (h : t.nfds < t.fds.length) : (t.appended fd events).Sized := by
  rw [Sized, appended, List.length_modify]
  exact h

theorem appended_entries (h : t.nfds < t.fds.length) :
    (t.appended fd events).entries = t.entries ++ [(fd, events)] := by
  have hlen : t.entries.length = t.nfds := entries_length (Nat.le_of_lt h)
  refine List.ext_getElem? fun j => ?_
  rw [entries_getElem?, List.getElem?_append, entries_getElem?, hlen]
  -- before, at and behind the new entry
  rcases Nat.lt_trichotomy j t.nfds with hj | hj | hj
  · rw [appended_getElem?_of_ne (Nat.ne_of_lt hj)]
    simp [appended, hj, Nat.lt_succ_of_lt hj]
  · subst hj
    simp [appended, h]
  · have hout : ¬ j < (t.appended fd events).nfds := by
      simp only [appended]
      omega
    rw [if_neg hout, if_neg (by omega), List.getElem?_eq_none (by simpa using by omega)]

/-! ### Growing -/

theorem reallocated_length (oldFds : List PollFd) (fresh : Nat → PollFd) (n : Nat) :
    (reallocated oldFds fresh n).length = n := by
  simp [reallocated]

/-- `realloc` keeps the old contents. -/
theorem reallocated_getElem? {oldFds : List PollFd} {fresh : Nat → PollFd} {n j : Nat}
    (hj : j < oldFds.length) (hn : j < n) : (reallocated oldFds fresh n)[j]? = oldFds[j]? := by
  simp [reallocated, hj, hn]

theorem grown_entries {fresh : Nat → PollFd} (h : t.Sized)
    (hsize : t.fds.length ≤ t.fdsListSize) : (t.grown fresh).entries = t.entries := by
  refine List.ext_getElem? fun j => ?_
  rw [entries_getElem?, entries_getElem?]
  by_cases hj : j < t.nfds
  -- a used slot is in the old allocation, which `realloc` copies
  · have hlen : j < t.fds.length := Nat.lt_of_lt_of_le hj h
    simp only [grown, hj, if_true]
    rw [reallocated_getElem? hlen (by omega)]
  · simp [grown, hj]

/-! ### Removing -/

theorem removedAt_length : (t.removedAt idx).fds.length = t.fds.length := by
  simp only [removedAt]
  split <;> simp

theorem removedAt_getElem?_of_ne {j : Nat} (h : j ≠ idx) :
    (t.removedAt idx).fds[j]? = t.fds[j]? := by
  simp only [removedAt]
  split <;> simp [Ne.symm h]

theorem removedAt_revents (j : Nat) :
    (t.removedAt idx).fds[j]?.map PollFd.revents = t.fds[j]?.map PollFd.revents := by
  simp only [removedAt]
  split <;> exact map_getElem?_modify (by intro _; rfl) _ _ _

theorem removedAt_sized (h : t.Sized) : (t.removedAt idx).Sized := by
  rw [Sized, removedAt_length]
  exact Nat.le_trans (Nat.sub_le _ _) h

/-- Removing from the table is `swapErase` on its entries, in both branches of `remove_fd`. -/
theorem removedAt_entries (h : t.Sized) (hidx : idx < t.nfds) (hne : t.entries ≠ []) :
    (t.removedAt idx).entries = swapErase t.entries idx (t.entries.getLast hne) := by
  have hlen : t.entries.length = t.nfds := entries_length h
  have hbound : idx < t.fds.length := Nat.lt_of_lt_of_le hidx h
  have hlast : t.nfds - 1 < t.fds.length := by
    have : t.nfds ≤ t.fds.length := h
    omega
  -- compared slot by slot: the hole, the other used slots, and the last one
  refine List.ext_getElem? fun j => ?_
  rw [entries_getElem?, swapErase, List.dropLast_eq_take, List.getElem?_take, List.getElem?_set,
    entries_getElem?, List.length_set, hlen]
  by_cases hj : j < t.nfds - 1
  · by_cases hji : idx = j
    · subst hji
      -- the hole gets the descriptor and the events of the last entry
      have hmid : idx ≠ t.nfds - 1 := Nat.ne_of_lt hj
      have hget : t.entries.getLast hne = (t.fds[t.nfds - 1].fd, t.fds[t.nfds - 1].events) := by
        have hmin : min t.nfds t.fds.length = t.nfds := Nat.min_eq_left h
        rw [List.getLast_eq_getElem]
        simp [entries, hmin]
      simp [removedAt, hj, hmid, hidx, hbound, hlast, hget]
    · rw [removedAt_getElem?_of_ne (Ne.symm hji)]
      simp [removedAt, hj, hji, show j < t.nfds by omega]
  · simp [removedAt, hj]

theorem removedAt_perm (h : t.Sized) (hidx : idx < t.nfds) (hholds : t.holds fd idx = true) :
    ∃ events, ((fd, events) :: (t.removedAt idx).entries).Perm t.entries := by
  have hlen : idx < t.entries.length := by rwa [entries_length h]
  have hne : t.entries ≠ [] := List.ne_nil_of_length_pos (Nat.zero_lt_of_lt hlen)
  have hbound : idx < t.fds.length := Nat.lt_of_lt_of_le hidx h
  have hget : t.entries[idx] = (fd, t.fds[idx].events) := by
    simp [entries, ← (holds_iff hbound).1 hholds]
  refine ⟨t.fds[idx].events, ?_⟩
  rw [removedAt_entries h hidx hne, ← hget]
  exact cons_swapErase_perm t.entries hne hlen

end PollTable

/-! ## Runs of the helpers -/

open PollTable

variable {t : PollTable} {fd : Fd} {events : Events} {idx : Nat}

theorem readSlot_run (h : idx < t.fds.length) : (readSlot idx).run t = .ok t.fds[idx] t := by
  simp [EStateM.run, readSlot, h]

/-- An access past the allocation, which `fds = nil` turns into a Lua error. -/
theorem readSlot_run_of_le (h : t.fds.length ≤ idx) :
    (readSlot idx).run t =
      if t.fds = [] then .error .nilTable t else .error (.outOfBounds idx) t := by
  simp [EStateM.run, readSlot, h]

theorem modifySlot_run (f : PollFd → PollFd) (h : idx < t.fds.length) :
    (modifySlot idx f).run t = .ok () { t with fds := t.fds.modify idx f } := by
  simp [modifySlot, readSlot_run h]

theorem fdArrIndexFrom_run {n : Nat} (h : n ≤ t.fds.length) :
    (fdArrIndexFrom fd n).run t = .ok (searchDown (t.holds fd) n) t := by
  induction n with
  | zero =>
      rfl
  | succ n ih =>
      have hn : n < t.fds.length := h
      rw [fdArrIndexFrom, EStateM.run_bind, readSlot_run hn]
      by_cases hfd : t.fds[n].fd = fd
      · simp [searchDown, hfd, (holds_iff hn).2 hfd]
      · have hmiss : t.holds fd n = false := by
          rw [← Bool.not_eq_true, holds_iff hn]
          exact hfd
        simp [searchDown, hfd, hmiss, ih (Nat.le_of_lt hn)]

theorem fdArrIndex_run (h : t.Sized) :
    (fdArrIndex fd).run t = .ok (searchDown (t.holds fd) t.nfds) t := by
  simp [fdArrIndex, fdArrIndexFrom_run h]

theorem searchDown_none_iff (h : t.Sized) :
    searchDown (t.holds fd) t.nfds = none ↔ fd ∉ t.registered := by
  rw [searchDown_eq_none, mem_registered_iff h]
  simp

theorem fdArrShowFrom_run {nfds k : Nat} {txt : String} (h : idx + k ≤ t.fds.length) :
    ∃ txt', (fdArrShowFrom nfds k idx txt).run t = .ok txt' t := by
  induction k generalizing idx txt with
  | zero =>
      exact ⟨txt, rfl⟩
  | succ k ih =>
      have hidx : idx < t.fds.length := by omega
      simp only [fdArrShowFrom, EStateM.run_bind, readSlot_run hidx]
      exact ih (by omega)

theorem fdArrShow_run (h : t.Sized) : ∃ txt, fdArrShow.run t = .ok txt t := by
  have hall : 0 + t.nfds ≤ t.fds.length := by rwa [Nat.zero_add]
  have hloop : ∃ txt, (fdArrShowFrom t.nfds t.nfds 0 "fds[").run t = .ok txt t :=
    fdArrShowFrom_run hall
  rcases hloop with ⟨txt, htxt⟩
  refine ⟨txt ++ "], nfds=" ++ toString t.nfds, ?_⟩
  simp only [fdArrShow, EStateM.run_bind, EStateM.run_get, htxt, EStateM.run_pure]

theorem debugShow_run (h : t.Sized) : debugShow.run t = .ok () t := by
  rcases fdArrShow_run h with ⟨txt, htxt⟩
  simp only [debugShow, EStateM.run_bind, EStateM.run_get, run_ite, htxt, EStateM.run_pure,
    ite_self]

theorem makeRoom_some_run (h : t.Sized) : (makeRoom (some idx)).run t = .ok () t := by
  rcases fdArrShow_run h with ⟨txt, htxt⟩
  simp only [makeRoom, EStateM.run_bind, htxt, EStateM.run_pure]

theorem growIfFull_run_of_lt (h : t.nfds < t.fdsListSize) : growIfFull.run t = .ok () t := by
  simp only [growIfFull, EStateM.run_bind, EStateM.run_get, ge_iff_le, Nat.not_le.2 h,
    if_false, EStateM.run_pure]

theorem growIfFull_run_of_full (h : t.fdsListSize ≤ t.nfds) :
    growIfFull.run t =
      match t.heap t.fdAddCount with
      | none => .error .noMemory { t with fdsListSize := t.fdsListSize + fdsListAddCount }
      | some fresh => .ok () (t.grown fresh) := by
  simp only [growIfFull, EStateM.run_bind, EStateM.run_get, ge_iff_le, h, if_true,
    EStateM.run_set, expandFds]
  cases hheap : t.heap t.fdAddCount with
  | none =>
      rfl
  | some fresh =>
      rfl

theorem appendSlot_run (h : t.nfds < t.fds.length) :
    (appendSlot fd events).run t = .ok () (t.appended fd events) := by
  simp only [appendSlot, EStateM.run_bind, EStateM.run_get, modifySlot_run _ h]
  rw [modifySlot_run _ (by simpa using h)]
  simp [appended, List.modify_modify_eq, Function.comp_def]

theorem appendSlot_run_of_full (h : t.fds.length ≤ t.nfds) :
    (appendSlot fd events).run t =
      if t.fds = [] then .error .nilTable t else .error (.outOfBounds t.nfds) t := by
  simp only [appendSlot, modifySlot, EStateM.run_bind, EStateM.run_get, readSlot_run_of_le h]
  by_cases hnil : t.fds = []
  · simp only [hnil, if_true]
  · simp only [hnil, if_false]

theorem fillHole_run (h : t.Sized) (hidx : idx < t.nfds) (hmid : idx ≠ t.nfds - 1) :
    (fillHole idx).run t.countRemove = .ok () (t.removedAt idx) := by
  have hlen : t.nfds ≤ t.fds.length := h
  have hshow : debugShow.run t.countRemove = .ok () t.countRemove := debugShow_run h
  have hlast : t.nfds - 1 < t.fds.length := by omega
  have hdone : debugShow.run (t.removedAt idx) = .ok () (t.removedAt idx) :=
    debugShow_run (removedAt_sized h)
  have hfilled : t.removedAt idx =
      { t.countRemove with
        nfds := t.nfds - 1
        fds := (t.fds.modify idx fun slot => { slot with fd := t.fds[t.nfds - 1].fd }).modify idx
          fun slot => { slot with events := t.fds[t.nfds - 1].events } } := by
    simp [removedAt, countRemove, hmid, hlast, List.modify_modify_eq, Function.comp_def]
  -- the two writes of `fd` and of `events` are one update of the slot
  rw [fillHole, run_bind_of_ok hshow]
  simp only [EStateM.run_bind, EStateM.run_modify, EStateM.run_get, countRemove_nfds]
  rw [readSlot_run (by simpa using hlast)]
  simp only [countRemove_fds]
  rw [modifySlot_run _ (by simpa using by omega)]
  simp only
  rw [modifySlot_run _ (by simpa using by omega)]
  rw [hfilled] at hdone ⊢
  exact hdone

theorem clearLast_run (h : t.Sized) (hidx : idx < t.nfds) (hend : idx = t.nfds - 1) :
    (clearLast idx).run t.countRemove = .ok () (t.removedAt idx) := by
  have hlen : idx < t.fds.length := Nat.lt_of_lt_of_le hidx h
  have hdone : debugShow.run (t.removedAt idx) = .ok () (t.removedAt idx) :=
    debugShow_run (removedAt_sized h)
  have hcleared : t.removedAt idx =
      { t.countRemove with
        nfds := t.nfds - 1
        fds := t.fds.modify idx fun slot => { slot with fd := -1 } } := by
    simp [removedAt, countRemove, hend]
  simp only [clearLast, EStateM.run_bind, EStateM.run_modify, countRemove_nfds]
  rw [modifySlot_run _ (by simpa using hlen)]
  rw [hcleared] at hdone ⊢
  exact hdone

/-! ## Runs of `add_fd` and `remove_fd` -/

theorem countAdd_run_bind (f : PollM Unit) (t : PollTable) :
    ((do modify fun t => { t with fdAddCount := t.fdAddCount + 1 }; f) : PollM Unit).run t =
      f.run t.countAdd := rfl

/-- A known descriptor is stored a second time, in the slot after the used ones. -/
theorem addFd_run_registered (h : t.Sized) (hreg : fd ∈ t.registered) :
    (addFd fd events).run t =
      if t.nfds < t.fds.length then .ok () (t.countAdd.appended fd events)
      else .error (.outOfBounds t.nfds) t.countAdd := by
  have hsized : t.countAdd.Sized := h
  obtain ⟨idx, hidx⟩ : ∃ idx, searchDown (t.countAdd.holds fd) t.countAdd.nfds = some idx := by
    rw [← Option.isSome_iff_exists, Option.isSome_iff_ne_none]
    exact fun hnone => (searchDown_none_iff hsized).1 hnone hreg
  rw [addFd, countAdd_run_bind, run_bind_of_ok (fdArrIndex_run hsized), hidx,
    run_bind_of_ok (makeRoom_some_run hsized)]
  by_cases hroom : t.nfds < t.fds.length
  · rw [if_pos hroom]
    exact appendSlot_run (t := t.countAdd) hroom
  -- the table holds `fd`, so it is not empty and the write itself fails
  · have hne : t.countAdd.fds ≠ [] := by
      intro hnil
      rw [registered_eq, show t.fds = [] from hnil] at hreg
      simp at hreg
    have hfull : t.countAdd.fds.length ≤ t.countAdd.nfds := Nat.not_lt.1 hroom
    rw [if_neg hroom, appendSlot_run_of_full hfull, if_neg hne, countAdd_nfds]

/-- A new descriptor when the growth check finds room. -/
theorem addFd_run_fresh (h : t.Sized) (hreg : fd ∉ t.registered) (hsize : t.nfds < t.fdsListSize) :
    (addFd fd events).run t =
      if t.nfds < t.fds.length then .ok () (t.countAdd.appended fd events)
      else if t.fds = [] then .error .nilTable t.countAdd
      else .error (.outOfBounds t.nfds) t.countAdd := by
  have hsized : t.countAdd.Sized := h
  have hidx : searchDown (t.countAdd.holds fd) t.countAdd.nfds = none :=
    (searchDown_none_iff hsized).2 hreg
  have hgrow : growIfFull.run t.countAdd = .ok () t.countAdd := growIfFull_run_of_lt hsize
  rw [addFd, countAdd_run_bind, run_bind_of_ok (fdArrIndex_run hsized), hidx, makeRoom,
    run_bind_of_ok hgrow]
  by_cases hroom : t.nfds < t.fds.length
  · rw [if_pos hroom]
    exact appendSlot_run (t := t.countAdd) hroom
  · have hfull : t.countAdd.fds.length ≤ t.countAdd.nfds := Nat.not_lt.1 hroom
    rw [if_neg hroom, appendSlot_run_of_full hfull, countAdd_fds, countAdd_nfds]

/-- A new descriptor when the table is full and `realloc` finds memory. -/
theorem addFd_run_grow {fresh : Nat → PollFd} (h : t.Coherent) (hreg : fd ∉ t.registered)
    (hsize : t.fdsListSize ≤ t.nfds) (hheap : t.heap (t.fdAddCount + 1) = some fresh) :
    (addFd fd events).run t = .ok () ((t.countAdd.grown fresh).appended fd events) := by
  have hsized : t.countAdd.Sized := h.sized
  have hidx : searchDown (t.countAdd.holds fd) t.countAdd.nfds = none :=
    (searchDown_none_iff hsized).2 hreg
  have hgrow : growIfFull.run t.countAdd = .ok () (t.countAdd.grown fresh) := by
    rw [growIfFull_run_of_full (t := t.countAdd) hsize]
    simp only [countAdd, hheap]
  have hroom : (t.countAdd.grown fresh).nfds < (t.countAdd.grown fresh).fds.length := by
    -- the new allocation has `fdsListAddCount` slots more than are in use
    have h₁ : t.nfds ≤ t.fds.length := h.sized
    have h₂ := h.size_le
    simp only [grown, reallocated_length, countAdd_nfds, countAdd_fdsListSize, fdsListAddCount]
    omega
  rw [addFd, countAdd_run_bind, run_bind_of_ok (fdArrIndex_run hsized), hidx, makeRoom,
    run_bind_of_ok hgrow, appendSlot_run hroom]

/-- A new descriptor when the table is full and `realloc` fails: `fdsListSize` has moved on. -/
theorem addFd_run_noMemory (h : t.Sized) (hreg : fd ∉ t.registered)
    (hsize : t.fdsListSize ≤ t.nfds) (hheap : t.heap (t.fdAddCount + 1) = none) :
    (addFd fd events).run t =
      .error .noMemory { t.countAdd with fdsListSize := t.fdsListSize + fdsListAddCount } := by
  have hsized : t.countAdd.Sized := h
  have hidx : searchDown (t.countAdd.holds fd) t.countAdd.nfds = none :=
    (searchDown_none_iff hsized).2 hreg
  have hgrow : growIfFull.run t.countAdd =
      .error .noMemory { t.countAdd with fdsListSize := t.fdsListSize + fdsListAddCount } := by
    rw [growIfFull_run_of_full (t := t.countAdd) hsize]
    simp only [countAdd, hheap]
  rw [addFd, countAdd_run_bind, run_bind_of_ok (fdArrIndex_run hsized), hidx, makeRoom,
    run_bind_of_error hgrow]

theorem removeFd_run_unregistered (h : t.Sized) (hreg : fd ∉ t.registered) :
    (removeFd fd).run t = .error (.fdNotFound fd t.nfds) t.countRemove := by
  have hsized : t.countRemove.Sized := h
  have hidx : searchDown (t.countRemove.holds fd) t.countRemove.nfds = none :=
    (searchDown_none_iff hsized).2 hreg
  have hfind : (fdArrIndex fd).run t.countRemove =
      .ok (searchDown (t.countRemove.holds fd) t.countRemove.nfds) t.countRemove :=
    fdArrIndex_run hsized
  rw [hidx] at hfind
  simp only [removeFd, EStateM.run_bind, EStateM.run_modify]
  rw [show { t with fdRemoveCount := t.fdRemoveCount + 1 } = t.countRemove from rfl, hfind]
  rfl

theorem removeFd_run_registered (h : t.Sized) (hreg : fd ∈ t.registered) :
    ∃ idx, idx < t.nfds ∧ t.holds fd idx = true ∧
      (removeFd fd).run t = .ok () (t.removedAt idx) := by
  have hsized : t.countRemove.Sized := h
  obtain ⟨idx, hidx⟩ : ∃ idx, searchDown (t.countRemove.holds fd) t.countRemove.nfds = some idx := by
    rw [← Option.isSome_iff_exists, Option.isSome_iff_ne_none]
    exact fun hnone => (searchDown_none_iff hsized).1 hnone hreg
  rcases searchDown_eq_some hidx with ⟨hlt, hholds, -⟩
  have hfind : (fdArrIndex fd).run t.countRemove =
      .ok (searchDown (t.countRemove.holds fd) t.countRemove.nfds) t.countRemove :=
    fdArrIndex_run hsized
  rw [hidx] at hfind
  refine ⟨idx, hlt, hholds, ?_⟩
  simp only [removeFd, EStateM.run_bind, EStateM.run_modify]
  rw [show { t with fdRemoveCount := t.fdRemoveCount + 1 } = t.countRemove from rfl, hfind]
  simp only [EStateM.run_get]
  -- the last entry is cleared in place, any other one is filled with it
  by_cases hmid : idx ≠ t.countRemove.nfds - 1
  · rw [if_pos hmid]
    exact fillHole_run h hlt hmid
  · rw [if_neg hmid]
    exact clearLast_run h hlt (not_not.1 hmid)

/-! ## Effects for callers -/

/-- What a successful `add_fd` has done. -/
structure Added (t t' : PollTable) (fd : Fd) (events : Events) : Prop where
  coherent : t'.Coherent
  nfds_eq : t'.nfds = t.nfds + 1
  entries_eq : t'.entries = t.entries ++ [(fd, events)]
  /-- Only the slot after the used ones is written. -/
  slots : ∀ j, j ≠ t.nfds → j < t.fds.length → t'.fds[j]? = t.fds[j]?
  revents_eq : ∀ j, j < t.fds.length →
    t'.fds[j]?.map PollFd.revents = t.fds[j]?.map PollFd.revents
  exact_size : t.fds.length = t.fdsListSize → t'.fds.length = t'.fdsListSize

/-- What a successful `remove_fd` has done. -/
structure Removed (t t' : PollTable) (fd : Fd) : Prop where
  coherent : t'.Coherent
  nfds_eq : t'.nfds + 1 = t.nfds
  perm : ∃ events, ((fd, events) :: t'.entries).Perm t.entries
  /-- Only the slot the search hit is written. -/
  slots : ∃ idx, idx < t.nfds ∧ t.holds fd idx = true ∧ ∀ j, j ≠ idx → t'.fds[j]? = t.fds[j]?
  revents_eq : ∀ j : Nat, t'.fds[j]?.map PollFd.revents = t.fds[j]?.map PollFd.revents
  length_eq : t'.fds.length = t.fds.length
  size_eq : t'.fdsListSize = t.fdsListSize

/-- The table at which `add_fd fd` writes past the allocation: every slot is in use and the
growth branch is not taken. -/
def Overruns (t : PollTable) (fd : Fd) : Prop :=
  t.fds ≠ [] ∧ t.nfds = t.fds.length ∧ (fd ∈ t.registered ∨ t.nfds < t.fdsListSize)

theorem added_of_room (h : t.Coherent) (hroom : t.nfds < t.fds.length) :
    Added t (t.countAdd.appended fd events) fd events where
  coherent := ⟨appended_sized hroom, by simpa [appended] using h.size_le⟩
  nfds_eq := rfl
  entries_eq := appended_entries hroom
  slots := fun j hj _ => appended_getElem?_of_ne hj
  revents_eq := fun j _ => appended_revents j
  exact_size := fun hsize => by simpa [appended] using hsize

theorem added_of_grown {fresh : Nat → PollFd} (h : t.Coherent) (hsize : t.fdsListSize ≤ t.nfds) :
    Added t ((t.countAdd.grown fresh).appended fd events) fd events := by
  have hsized : t.nfds ≤ t.fds.length := h.sized
  have hle := h.size_le
  have hroom : (t.countAdd.grown fresh).nfds < (t.countAdd.grown fresh).fds.length := by
    simp only [grown, reallocated_length, countAdd_nfds, countAdd_fdsListSize, fdsListAddCount]
    omega
  have hlen : (t.countAdd.grown fresh).fds.length = t.fdsListSize + fdsListAddCount :=
    reallocated_length _ _ _
  have hkept : ∀ j, j < t.fds.length → (t.countAdd.grown fresh).fds[j]? = t.fds[j]? :=
    fun j hj => reallocated_getElem? hj (by simp only [countAdd_fdsListSize]; omega)
  refine ⟨⟨appended_sized hroom, ?_⟩, rfl, ?_, fun j hj hjlen => ?_, fun j hj => ?_, fun _ => ?_⟩
  · exact Nat.le_of_eq (by rw [appended, List.length_modify, hlen]; rfl)
  · have hgrown : (t.countAdd.grown fresh).entries = t.entries :=
      grown_entries (t := t.countAdd) h.sized hle
    rw [appended_entries hroom, hgrown]
  · have hsame : ((t.countAdd.grown fresh).appended fd events).fds[j]? =
        (t.countAdd.grown fresh).fds[j]? := appended_getElem?_of_ne hj
    rw [hsame, hkept j hjlen]
  · rw [appended_revents, hkept j hj]
  · rw [appended, List.length_modify, hlen]
    rfl

theorem removed_of_holds (h : t.Coherent) (hidx : idx < t.nfds) (hholds : t.holds fd idx = true) :
    Removed t (t.removedAt idx) fd where
  coherent := ⟨removedAt_sized h.sized, by rw [removedAt_length]; exact h.size_le⟩
  nfds_eq := by simp only [removedAt]; omega
  perm := removedAt_perm h.sized hidx hholds
  slots := ⟨idx, hidx, hholds, fun _ hj => removedAt_getElem?_of_ne hj⟩
  revents_eq := removedAt_revents
  length_eq := removedAt_length
  size_eq := rfl

theorem Added.registered_eq {t t' : PollTable} (h : Added t t' fd events) :
    t'.registered = t.registered ++ [fd] := by
  simp only [registered, h.entries_eq, List.map_append, List.map_cons, List.map_nil]

theorem Removed.registered_perm {t t' : PollTable} (h : Removed t t' fd) :
    (fd :: t'.registered).Perm t.registered := by
  rcases h.perm with ⟨events, hperm⟩
  exact hperm.map Prod.fst

theorem Removed.registered_nodup {t t' : PollTable} (h : Removed t t' fd)
    (hnodup : t.registered.Nodup) : fd ∉ t'.registered ∧ t'.registered.Nodup :=
  List.nodup_cons.1 (h.registered_perm.nodup_iff.2 hnodup)

theorem Removed.registered_iff {t t' : PollTable} (h : Removed t t' fd)
    (hnodup : t.registered.Nodup) (fd' : Fd) :
    fd' ∈ t'.registered ↔ fd' ≠ fd ∧ fd' ∈ t.registered := by
  rw [← h.registered_perm.mem_iff, List.mem_cons]
  constructor
  · intro hmem
    refine ⟨fun heq => ?_, .inr hmem⟩
    exact (h.registered_nodup hnodup).1 (heq ▸ hmem)
  · rintro ⟨hne, hmem⟩
    exact hmem.resolve_left hne

/-- The outcomes of `add_fd`.  The Lua errors leave the entries alone. -/
theorem addFd_cases (h : t.Coherent) (fd : Fd) (events : Events) :
    (∃ t', (addFd fd events).run t = .ok () t' ∧ Added t t' fd events ∧ ¬ Overruns t fd) ∨
    (∃ e t', (addFd fd events).run t = .error e t' ∧ (e = .noMemory ∨ e = .nilTable) ∧
      t'.Coherent ∧ t'.entries = t.entries ∧ ¬ Overruns t fd ∧
      (t.fds.length = t.fdsListSize → e = .noMemory) ∧ fd ∉ t.registered) ∨
    (∃ t', (addFd fd events).run t = .error (.outOfBounds t.nfds) t' ∧ Overruns t fd) := by
  have hsized : t.nfds ≤ t.fds.length := h.sized
  have hle := h.size_le
  by_cases hroom : t.nfds < t.fds.length
  · -- the slot after the used ones is allocated, whichever branch was taken before
    have hno : ¬ Overruns t fd := fun ho => Nat.ne_of_lt hroom ho.2.1
    refine .inl ⟨_, ?_, added_of_room h hroom, hno⟩
    by_cases hreg : fd ∈ t.registered
    · rw [addFd_run_registered h.sized hreg, if_pos hroom]
    · rw [addFd_run_fresh h.sized hreg (Nat.lt_of_lt_of_le hroom hle), if_pos hroom]
  · have hfull : t.nfds = t.fds.length := Nat.le_antisymm hsized (Nat.not_lt.1 hroom)
    by_cases hreg : fd ∈ t.registered
    -- a known descriptor skips the growth branch
    · have hne : t.fds ≠ [] := by
        intro hnil
        rw [registered_eq, hnil] at hreg
        simp at hreg
      refine .inr (.inr ⟨t.countAdd, ?_, hne, hfull, .inl hreg⟩)
      rw [addFd_run_registered h.sized hreg, if_neg hroom]
    · by_cases hsize : t.nfds < t.fdsListSize
      -- `fdsListSize` is ahead of the allocation after a failed `realloc`
      · have hrun : (addFd fd events).run t =
            if t.fds = [] then .error .nilTable t.countAdd
            else .error (.outOfBounds t.nfds) t.countAdd := by
          rw [addFd_run_fresh h.sized hreg hsize, if_neg hroom]
        by_cases hnil : t.fds = []
        · rw [if_pos hnil] at hrun
          refine .inr (.inl ⟨_, _, hrun, .inr rfl, ⟨h.sized, hle⟩, rfl, fun ho => ho.1 hnil, ?_,
            hreg⟩)
          intro hexact
          omega
        · rw [if_neg hnil] at hrun
          exact .inr (.inr ⟨_, hrun, hnil, hfull, .inr hsize⟩)
      · have hno : ¬ Overruns t fd := by
          rintro ⟨-, -, hin | hlt⟩
          · exact hreg hin
          · exact hsize hlt
        -- the table grows, if `realloc` finds memory
        cases hheap : t.heap (t.fdAddCount + 1) with
        | none =>
            refine .inr (.inl ⟨_, _, addFd_run_noMemory h.sized hreg (Nat.not_lt.1 hsize) hheap,
              .inl rfl, ⟨h.sized, ?_⟩, rfl, hno, fun _ => rfl, hreg⟩)
            exact Nat.le_trans hle (Nat.le_add_right _ _)
        | some fresh =>
            exact .inl ⟨_, addFd_run_grow h hreg (Nat.not_lt.1 hsize) hheap,
              added_of_grown h (Nat.not_lt.1 hsize), hno⟩

/-- The outcomes of `remove_fd`. -/
theorem removeFd_cases (h : t.Coherent) (fd : Fd) :
    (fd ∈ t.registered ∧ ∃ t', (removeFd fd).run t = .ok () t' ∧ Removed t t' fd) ∨
    (fd ∉ t.registered ∧ (removeFd fd).run t = .error (.fdNotFound fd t.nfds) t.countRemove) := by
  by_cases hreg : fd ∈ t.registered
  · rcases removeFd_run_registered h.sized hreg with ⟨idx, hidx, hholds, hrun⟩
    exact .inl ⟨hreg, _, hrun, removed_of_holds h hidx hholds⟩
  · exact .inr ⟨hreg, removeFd_run_unregistered h.sized hreg⟩

end Poll
end LuajitTcpServer
