import LuajitTcpServer.SharedMemory.Opening

/-!
# OpenResult — what the pointer that `sharedMemoryOpen` returns says about the call

Every exit of `sharedMemoryOpen` returns the entry of its table.  All failures clear the entry first
but one: a connect that `shm_open` refuses returns what an earlier call has left there
(`open_reports_own_iff`).
-/

namespace LuajitTcpServer
namespace SharedMemory
namespace Posix

open CallSeq ResourceLog Session

/-! ## Results of the system calls -/

/-- The results that `sharedMemoryOpen` looks at. -/
def Syscall.Succeeded : Syscall → Prop
  | .shmOpen _ _ fd => fd ≥ 0
  | .ftruncate _ _ ret => ret = 0
  | .mmap _ _ _ _ addr => addr ≠ MAP_FAILED
  | _ => True

def AllSucceeded (events : List Syscall) : Prop := ∀ event ∈ events, event.Succeeded

/-- The system calls made from one state to another. -/
def newCalls (s s' : Shm) : List Syscall := s'.log.drop s.log.length

/-- The result of an open reports its own system calls: it is a pointer if all of them have succeeded,
and then the new mapping.  Otherwise the table has no entry, and what the call has acquired is
released. -/
structure ReportsOwn (s : Shm) (filename : String) (result : Option Int) (s' : Shm) : Prop where
  some_iff : result ≠ none ↔ AllSucceeded (newCalls s s')
  own : ∀ addr, result = some addr →
    ∃ size, ⟨filename, addr, size⟩ ∈ (newCalls s s').filterMap mappings.acquired
  cleared : ¬ AllSucceeded (newCalls s s') → s'.sharedMemory filename = none
  no_descriptor : ¬ AllSucceeded (newCalls s s') →
    ∀ d ∈ (newCalls s s').filterMap descriptors.acquired, d ∉ held descriptors s'.log
  no_mapping : ¬ AllSucceeded (newCalls s s') →
    ∀ m ∈ (newCalls s s').filterMap mappings.acquired, m ∉ held mappings s'.log

/-- A connect is refused while the table has an address for its name. -/
def RefusedOverOld (s : Shm) (filename : String) (create : Bool) (kernel : Kernel) : Prop :=
  create = false ∧ kernel.shmOpen < 0 ∧ s.sharedMemory filename ≠ none

section Exits

variable {filename : String} {size : Option Int} {create : Bool} {kernel : Kernel} {s s' : Shm}
  {events : List Syscall}

theorem newCalls_eq (hlog : s'.log = s.log ++ events) : newCalls s s' = events := by
  rw [newCalls, hlog, List.drop_left]

theorem acquired_clearCalls : (clearCalls filename s).filterMap mappings.acquired = [] := by
  unfold clearCalls
  cases s.sharedMemory filename <;> cases s.shFD filename <;> cases s.shmName filename <;> rfl

/-- The system calls up to `mmap`. -/
def readyCalls (filename : String) (size : Option Int) (create : Bool) (kernel : Kernel) (s : Shm) :
    List Syscall :=
  .shmOpen filename create kernel.shmOpen ::
    if create then [.ftruncate kernel.shmOpen (s.sizeAfter size) kernel.ftruncate] else []

theorem log_readyToMap : (s.readyToMap filename size create kernel).log =
    s.log ++ readyCalls filename size create kernel s := by
  rw [readyToMap_eq]
  cases create with
  | true =>
      simp [Shm.call, Shm.openObject, readyCalls]
  | false =>
      rfl

theorem acquired_readyCalls :
    (readyCalls filename size create kernel s).filterMap mappings.acquired = [] := by
  cases create <;> rfl

theorem allSucceeded_readyCalls (hfd : kernel.shmOpen ≥ 0)
    (hret : ¬ (create = true ∧ kernel.ftruncate ≠ 0)) :
    AllSucceeded (readyCalls filename size create kernel s) := by
  intro event hevent
  rcases List.mem_cons.1 hevent with rfl | hevent
  · exact hfd
  · cases create with
    | true =>
        cases List.mem_singleton.1 hevent
        show kernel.ftruncate = 0
        exact Decidable.not_not.1 fun hne => hret ⟨rfl, hne⟩
    | false =>
        cases hevent

/-- The system calls after `mmap`. -/
def finishCalls (create : Bool) (kernel : Kernel) (addr size : Int) : List Syscall :=
  (if create then [.fill addr size] else []) ++ [.close kernel.shmOpen]

theorem log_finishOpen {addr : Int} : (s.finishOpen create kernel addr).log =
    s.log ++ finishCalls create kernel addr s.shmemSize := by
  cases create with
  | true =>
      simp [Shm.finishOpen, Shm.call, finishCalls]
  | false =>
      rfl

theorem allSucceeded_finishCalls {addr n : Int} :
    AllSucceeded (finishCalls create kernel addr n) := by
  intro event hevent
  cases create with
  | true =>
      rcases List.mem_cons.1 hevent with rfl | hevent
      · exact trivial
      · cases List.mem_singleton.1 hevent
        exact trivial
  | false =>
      cases List.mem_singleton.1 hevent
      exact trivial

/-- A failure that leaves no entry in the table, and has mapped nothing. -/
theorem reportsOwn_failed (hlog : s'.log = s.log ++ events) (hnone : NoDescriptor s')
    (hfailed : ¬ AllSucceeded events) (hmaps : events.filterMap mappings.acquired = [])
    (htable : s'.sharedMemory filename = none) :
    ReportsOwn s filename (s'.sharedMemory filename) s' := by
  constructor
  · rw [newCalls_eq hlog]
    exact iff_of_false (fun h => h htable) hfailed
  · intro addr haddr
    cases htable.symm.trans haddr
  · exact fun _ => htable
  · intro _ d _ hheld
    rw [hnone] at hheld
    cases hheld
  · intro _ m hm
    rw [newCalls_eq hlog, hmaps] at hm
    cases hm

/-- The failures that end in `shared_memory_clear`. -/
theorem reportsOwn_cleared {s₁ : Shm} (hnone : NoDescriptor (s₁.sharedMemoryClear filename))
    (hlog : s₁.log = s.log ++ events) (hfailed : ¬ AllSucceeded events)
    (hmaps : events.filterMap mappings.acquired = []) :
    ReportsOwn s filename ((s₁.sharedMemoryClear filename).sharedMemory filename)
      (s₁.sharedMemoryClear filename) := by
  have hall : (s₁.sharedMemoryClear filename).log = s.log ++ (events ++ clearCalls filename s₁) := by
    rw [clear_log, hlog, List.append_assoc]
  refine reportsOwn_failed hall hnone ?_ ?_ clear_sharedMemory
  · exact fun h => hfailed fun event hevent => h event (List.mem_append_left _ hevent)
  · rw [List.filterMap_append, hmaps, acquired_clearCalls, List.nil_append]

/-- A success returns the mapping that it has made. -/
theorem reportsOwn_mapped (hfd : kernel.shmOpen ≥ 0)
    (hret : ¬ (create = true ∧ kernel.ftruncate ≠ 0))
    (hok : (s.readyToMap filename size create kernel).mmapAnswer kernel.mmap ≠ MAP_FAILED) :
    ReportsOwn s filename
      ((s.sharedMemoryOpen filename size create kernel).2.sharedMemory filename)
      (s.sharedMemoryOpen filename size create kernel).2 := by
  rw [Shm.open_mapped hfd hret hok]
  have hready := @log_readyToMap filename size create kernel s
  generalize s.readyToMap filename size create kernel = s₁ at hok hready ⊢
  have hevent : mappings.acquired
      (.mmap filename s₁.shmemSize create kernel.shmOpen (s₁.mmapAnswer kernel.mmap)) =
      some ⟨filename, s₁.mmapAnswer kernel.mmap, s₁.shmemSize⟩ := if_neg hok
  have hlog : ((s₁.mapObject filename create kernel).finishOpen create kernel
      (s₁.mmapAnswer kernel.mmap)).log = s.log ++ (readyCalls filename size create kernel s ++
        .mmap filename s₁.shmemSize create kernel.shmOpen (s₁.mmapAnswer kernel.mmap) ::
          finishCalls create kernel (s₁.mmapAnswer kernel.mmap) s₁.shmemSize) := by
    rw [log_finishOpen, mapObject_log, hready]
    simp only [List.append_assoc, List.singleton_append]
    rfl
  have htable : ((s₁.mapObject filename create kernel).finishOpen create kernel
      (s₁.mmapAnswer kernel.mmap)).sharedMemory filename = some (s₁.mmapAnswer kernel.mmap) := by
    rw [(mappings_finishOpen create kernel _ _).2.1]
    exact Function.update_self _ _ _
  have hall : AllSucceeded (newCalls s ((s₁.mapObject filename create kernel).finishOpen create kernel
      (s₁.mmapAnswer kernel.mmap))) := by
    rw [newCalls_eq hlog]
    intro event hmem
    rcases List.mem_append.1 hmem with hbegun | hrest
    · exact allSucceeded_readyCalls hfd hret event hbegun
    · rcases List.mem_cons.1 hrest with rfl | hend
      · exact hok
      · exact allSucceeded_finishCalls event hend
  constructor
  · rw [htable]
    exact iff_of_true (Option.some_ne_none _) hall
  · intro addr haddr
    cases htable.symm.trans haddr
    refine ⟨s₁.shmemSize, ?_⟩
    rw [newCalls_eq hlog]
    exact List.mem_filterMap.2 ⟨_, List.mem_append_right _ List.mem_cons_self, hevent⟩
  · exact fun hfailed => absurd hall hfailed
  · exact fun hfailed => absurd hall hfailed
  · exact fun hfailed => absurd hall hfailed

/-- A connect that `shm_open` refuses touches neither the table nor the address space. -/
theorem reportsOwn_refused_connect_iff (hnone : NoDescriptor s) (hfd : kernel.shmOpen < 0) :
    ReportsOwn s filename
      ((s.sharedMemoryOpen filename size false kernel).2.sharedMemory filename)
      (s.sharedMemoryOpen filename size false kernel).2 ↔ s.sharedMemory filename = none := by
  have hrefused : ¬ kernel.shmOpen ≥ 0 := Int.not_le.2 hfd
  have hafter := (@balanced_open filename size false kernel s hnone).nothing_held
  rw [Shm.open_refused hrefused] at hafter ⊢
  have hlog : (s.openObject filename size false kernel).log =
      s.log ++ [.shmOpen filename false kernel.shmOpen] := rfl
  have hfailed : ¬ AllSucceeded [.shmOpen filename false kernel.shmOpen] :=
    fun h => hrefused (h _ (List.mem_singleton_self _))
  constructor
  · intro h
    rw [← newCalls_eq hlog] at hfailed
    exact h.cleared hfailed
  · intro htable
    exact reportsOwn_failed hlog hafter hfailed rfl htable

theorem reportsOwn_open_iff (hnone : NoDescriptor s) :
    ReportsOwn s filename (s.sharedMemoryOpen filename size create kernel).1
      (s.sharedMemoryOpen filename size create kernel).2 ↔
      ¬ RefusedOverOld s filename create kernel := by
  have hafter := (@balanced_open filename size create kernel s hnone).nothing_held
  rw [open_result]
  by_cases hfd : kernel.shmOpen ≥ 0
  · refine iff_of_true ?_ fun hold => Int.not_le.2 hold.2.1 hfd
    by_cases hret : create = true ∧ kernel.ftruncate ≠ 0
    · -- `ftruncate` has failed
      rw [Shm.open_not_truncated hfd hret] at hafter ⊢
      refine reportsOwn_cleared hafter log_readyToMap (fun h => hret.2 ?_) acquired_readyCalls
      rcases hret with ⟨rfl, -⟩
      exact h _ (List.mem_cons_of_mem _ (List.mem_singleton_self _))
    · by_cases hok : (s.readyToMap filename size create kernel).mmapAnswer kernel.mmap = MAP_FAILED
      · -- `mmap` has failed
        rw [Shm.open_not_mapped hfd hret hok] at hafter ⊢
        have hready := @log_readyToMap filename size create kernel s
        generalize s.readyToMap filename size create kernel = s₁ at hok hready hafter ⊢
        have hevent : mappings.acquired
            (.mmap filename s₁.shmemSize create kernel.shmOpen (s₁.mmapAnswer kernel.mmap)) = none :=
          if_pos hok
        have hlog : (s₁.mapObject filename create kernel).log =
            s.log ++ (readyCalls filename size create kernel s ++
              [.mmap filename s₁.shmemSize create kernel.shmOpen (s₁.mmapAnswer kernel.mmap)]) := by
          rw [mapObject_log, hready, List.append_assoc]
        refine reportsOwn_cleared hafter hlog (fun h => ?_) ?_
        · exact h _ (List.mem_append_right _ (List.mem_singleton_self _)) hok
        · rw [List.filterMap_append, acquired_readyCalls, List.filterMap_cons_none hevent]
          rfl
      · exact reportsOwn_mapped hfd hret hok
  · have hneg : kernel.shmOpen < 0 := Int.not_le.1 hfd
    cases create with
    | true =>
        refine iff_of_true ?_ fun hold => Bool.noConfusion hold.1
        rw [Shm.open_refused hfd] at hafter ⊢
        have hlog : (s.openObject filename size true kernel).log =
            s.log ++ [.shmOpen filename true kernel.shmOpen] := rfl
        exact reportsOwn_cleared hafter hlog (fun h => hfd (h _ (List.mem_singleton_self _))) rfl
    | false =>
        rw [reportsOwn_refused_connect_iff hnone hneg]
        exact ⟨fun htable hold => hold.2.2 htable, fun hnot =>
          Decidable.not_not.1 fun htable => hnot ⟨rfl, hneg, htable⟩⟩

end Exits

/-! ## Sequences of calls -/

theorem noDescriptor_foldl (calls : List Call) {s : Shm} (h : NoDescriptor s) :
    NoDescriptor (calls.foldl Call.exec s) := by
  induction calls generalizing s with
  | nil =>
      exact h
  | cons c calls ih =>
      exact ih (balanced_exec h c).nothing_held

/-- After any sequence of opens, disconnects and deletes, the result of an open reports its own
system calls, unless a connect is refused while the table has an address for its name. -/
theorem open_reports_own_iff (calls : List Call) (filename : String) (size : Option Int)
    (create : Bool) (kernel : Kernel) :
    ReportsOwn (calls.foldl Call.exec start) filename
        ((calls.foldl Call.exec start).sharedMemoryOpen filename size create kernel).1
        ((calls.foldl Call.exec start).sharedMemoryOpen filename size create kernel).2 ↔
      ¬ RefusedOverOld (calls.foldl Call.exec start) filename create kernel :=
  reportsOwn_open_iff (noDescriptor_foldl calls noDescriptor_start)

/-- Two connects to one name, the second of which is refused. -/
theorem refused_connect_returns_old :
    ¬ ∀ (calls : List Call) (filename : String) (size : Option Int) (create : Bool) (kernel : Kernel),
      ReportsOwn (calls.foldl Call.exec start) filename
        ((calls.foldl Call.exec start).sharedMemoryOpen filename size create kernel).1
        ((calls.foldl Call.exec start).sharedMemoryOpen filename size create kernel).2 := by
  intro h
  have hreports := h [.openSegment "in" (some 16) false ⟨3, 0, 65536⟩] "in" (some 16) false ⟨-1, 0, 0⟩
  have hall := hreports.some_iff.1 (by decide +kernel)
  have hrefused : Syscall.shmOpen "in" false (-1) ∈ newCalls
      ([Call.openSegment "in" (some 16) false ⟨3, 0, 65536⟩].foldl Call.exec start)
      (([Call.openSegment "in" (some 16) false ⟨3, 0, 65536⟩].foldl Call.exec start).sharedMemoryOpen
        "in" (some 16) false ⟨-1, 0, 0⟩).2 := by
    decide +kernel
  have hnonneg : (-1 : Int) ≥ 0 := hall _ hrefused
  exact absurd hnonneg (by decide)

end Posix
end SharedMemory
end LuajitTcpServer
