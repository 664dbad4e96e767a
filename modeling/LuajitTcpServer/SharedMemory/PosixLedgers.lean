import Mathlib.Data.List.Pairwise
import LuajitTcpServer.SharedMemory.Posix

/-!
# PosixLedgers — descriptors and mappings over sequences of calls

Every `sharedMemoryOpen` closes the descriptor that it was given before it returns, so nothing is
held between two calls; but the number stays in `shFD`, and `sharedMemoryDelete` closes it once
more (`descriptor_ledger_iff`).

A mapping is recorded by its address only.  Its length is that of `shmemSize` when it was made,
while it is released with the `shmemSize` of that moment (`mapping_ledger_iff`).
-/

namespace LuajitTcpServer
namespace SharedMemory
namespace Posix

open CallSeq ResourceLog

/-! ## Descriptors -/

section Descriptors

variable {filename : String} {size : Option Int} {create : Bool} {kernel : Kernel} {s : Shm}
  {fd : Int}

theorem descriptors_munmap (filename : String) (s : Shm) :
    Neutral descriptors s.log (s.munmap filename).log := by
  unfold Shm.munmap
  split
  · exact neutral_snoc rfl rfl
  · exact Neutral.refl _

theorem descriptors_unlink (filename : String) (s : Shm) :
    Neutral descriptors s.log (s.unlink filename).log := by
  unfold Shm.unlink
  split
  · exact neutral_snoc rfl rfl
  · exact Neutral.refl _

theorem shFD_munmap (filename : String) (s : Shm) : (s.munmap filename).shFD = s.shFD := by
  unfold Shm.munmap
  split <;> rfl

theorem log_close (hfd : s.shFD filename = some fd) :
    (s.close filename).log = s.log ++ [Syscall.close fd] := by
  simp [Shm.close, hfd, Shm.call]

/-- `shared_memory_clear` closes the number in the table. -/
theorem descriptors_clear (hfd : s.shFD filename = some fd) :
    held descriptors (s.sharedMemoryClear filename).log =
      (held descriptors s.log).filter (fun r => r.2 ≠ fd) ∧
    (ReleasesHeld descriptors (s.sharedMemoryClear filename).log ↔
      ReleasesHeld descriptors s.log ∧ ∃ r ∈ held descriptors s.log, r.2 = fd) := by
  have hunmap := descriptors_munmap filename s
  have hclose : ((s.munmap filename).close filename).log =
      (s.munmap filename).log ++ [Syscall.close fd] := log_close (by rw [shFD_munmap, hfd])
  have hunlink := descriptors_unlink filename ((s.munmap filename).close filename)
  rw [hclose] at hunlink
  constructor
  · calc held descriptors (s.sharedMemoryClear filename).log
        = held descriptors ((s.munmap filename).log ++ [Syscall.close fd]) := hunlink.held_eq
      _ = (held descriptors s.log).filter (fun r => r.2 ≠ fd) := by
          rw [held_snoc_release rfl rfl, hunmap.held_eq]
          rfl
  · calc ReleasesHeld descriptors (s.sharedMemoryClear filename).log
        ↔ ReleasesHeld descriptors ((s.munmap filename).log ++ [Syscall.close fd]) := hunlink.releases_iff
      _ ↔ ReleasesHeld descriptors s.log ∧ ∃ r ∈ held descriptors s.log, r.2 = fd := by
          rw [releasesHeld_snoc_release rfl, hunmap.releases_iff, hunmap.held_eq]
          rfl

theorem shFD_openObject : (s.openObject filename size create kernel).shFD filename =
    some kernel.shmOpen := by
  simp [Shm.openObject]

theorem readyToMap_eq : s.readyToMap filename size create kernel =
    if create then
      (s.openObject filename size create kernel).call
        (.ftruncate kernel.shmOpen (s.sizeAfter size) kernel.ftruncate)
    else s.openObject filename size create kernel := by
  cases create <;> rfl

theorem descriptors_readyToMap :
    Neutral descriptors (s.openObject filename size create kernel).log
      (s.readyToMap filename size create kernel).log := by
  rw [readyToMap_eq]
  split
  · exact neutral_snoc rfl rfl
  · exact Neutral.refl _

theorem shFD_readyToMap : (s.readyToMap filename size create kernel).shFD filename =
    some kernel.shmOpen := by
  rw [readyToMap_eq]
  split <;> exact @shFD_openObject filename size create kernel s

/-- After `shm_open`, the descriptor it has returned is the only one held. -/
theorem descriptors_openObject (hnone : held descriptors s.log = []) :
    held descriptors (s.openObject filename size create kernel).log =
      (if kernel.shmOpen ≥ 0 then [(filename, kernel.shmOpen)] else []) ∧
    (ReleasesHeld descriptors (s.openObject filename size create kernel).log ↔
      ReleasesHeld descriptors s.log) := by
  constructor
  · by_cases hfd : kernel.shmOpen ≥ 0
    · have hacq : descriptors.acquired (.shmOpen filename create kernel.shmOpen) =
          some (filename, kernel.shmOpen) := if_pos hfd
      rw [if_pos hfd, Shm.openObject, held_snoc_acquire hacq rfl, hnone, List.nil_append]
    · have hacq : descriptors.acquired (.shmOpen filename create kernel.shmOpen) = none :=
        if_neg hfd
      rw [if_neg hfd, Shm.openObject, held_snoc_neutral hacq rfl, hnone]
  · exact releasesHeld_snoc_neutral rfl

/-- A state between two calls holds no descriptor. -/
def NoDescriptor (s : Shm) : Prop := held descriptors s.log = []

/-- What a call does to the descriptors: it closes all it has opened, and `Safe` says when it closes
nothing else. -/
structure Balanced (s s' : Shm) (Safe : Prop) : Prop where
  nothing_held : NoDescriptor s'
  releases_iff : ReleasesHeld descriptors s'.log ↔ ReleasesHeld descriptors s.log ∧ Safe

/-- The failures of an open once it has a descriptor. -/
theorem balanced_clear {s' : Shm} (hfd : s'.shFD filename = some fd)
    (hheld : held descriptors s'.log = [(filename, fd)])
    (hreleases : ReleasesHeld descriptors s'.log ↔ ReleasesHeld descriptors s.log) :
    Balanced s (s'.sharedMemoryClear filename) True := by
  rcases descriptors_clear hfd with ⟨hheld', hreleases'⟩
  constructor
  · simp [NoDescriptor, hheld', hheld]
  · rw [hreleases', hreleases, hheld]
    simp

theorem balanced_open (hnone : NoDescriptor s) :
    Balanced s (s.sharedMemoryOpen filename size create kernel).2
      (¬ (create = true ∧ kernel.shmOpen < 0)) := by
  rcases @descriptors_openObject filename size create kernel s hnone with ⟨hheld, hreleases⟩
  by_cases hfd : kernel.shmOpen ≥ 0
  · have hready := @descriptors_readyToMap filename size create kernel s
    have hone : held descriptors (s.readyToMap filename size create kernel).log =
        [(filename, kernel.shmOpen)] := by
      rw [hready.held_eq, hheld, if_pos hfd]
    have hsame := hready.releases_iff.trans hreleases
    have hsafe : (¬ (create = true ∧ kernel.shmOpen < 0)) = True := by
      simp
      omega
    rw [hsafe]
    by_cases hret : create = true ∧ kernel.ftruncate ≠ 0
    · rw [Shm.open_not_truncated hfd hret]
      exact balanced_clear shFD_readyToMap hone hsame
    · have hmap : Neutral descriptors (s.readyToMap filename size create kernel).log
          ((s.readyToMap filename size create kernel).mapObject filename create kernel).log :=
        neutral_snoc rfl rfl
      have hone' := hmap.held_eq.trans hone
      have hsame' := hmap.releases_iff.trans hsame
      by_cases haddr : (s.readyToMap filename size create kernel).mmapAnswer kernel.mmap = MAP_FAILED
      · rw [Shm.open_not_mapped hfd hret haddr]
        exact balanced_clear shFD_readyToMap hone' hsame'
      · -- success: the descriptor is closed, although its number stays in the table
        rw [Shm.open_mapped hfd hret haddr]
        have hfill : ∀ (addr : Int) (s' : Shm), Neutral descriptors s'.log
            (if create then s'.call (.fill addr s'.shmemSize) else s').log := by
          intro addr s'
          split
          · exact neutral_snoc rfl rfl
          · exact Neutral.refl _
        have hlast := hfill ((s.readyToMap filename size create kernel).mmapAnswer kernel.mmap)
          ((s.readyToMap filename size create kernel).mapObject filename create kernel)
        constructor
        · rw [NoDescriptor, Shm.finishOpen, Shm.call, held_snoc_release rfl rfl, hlast.held_eq, hone']
          simp [descriptors]
        · rw [Shm.finishOpen, Shm.call, releasesHeld_snoc_release rfl, hlast.held_eq,
            hlast.releases_iff, hone', hsame']
          simp [descriptors]
  · rw [if_neg hfd] at hheld
    rw [Shm.open_refused hfd]
    cases create with
    | true =>
        -- the -1 that `shm_open` has returned is closed
        rcases descriptors_clear (@shFD_openObject filename size true kernel s) with ⟨hheld', hreleases'⟩
        constructor
        · simp [NoDescriptor, hheld', hheld]
        · simp [hreleases', hheld]
          omega
    | false =>
        constructor
        · simpa [NoDescriptor] using hheld
        · simpa using hreleases

theorem balanced_disconnect (hnone : NoDescriptor s) :
    Balanced s (s.sharedMemoryDisconnect filename).2 True := by
  have hunmap := descriptors_munmap filename s
  have hunlink := descriptors_unlink filename ((s.munmap filename).forget filename)
  have hall := hunmap.trans hunlink
  constructor
  · exact hall.held_eq.trans hnone
  · exact hall.releases_iff.trans (and_true _).symm.to_iff

/-- Without a number in the table nothing is closed; with one, it is none that is held. -/
theorem balanced_delete (hnone : NoDescriptor s) :
    Balanced s (s.sharedMemoryDelete filename).2 (s.shFD filename = none) := by
  have hunmap := descriptors_munmap filename s
  have hsame : ((s.munmap filename).forget filename).shFD filename = s.shFD filename := by
    rw [Shm.forget, shFD_munmap]
  have hunlink : Neutral descriptors (((s.munmap filename).forget filename).close filename).log
      (s.sharedMemoryDelete filename).2.log := neutral_snoc rfl rfl
  cases hfd : s.shFD filename with
  | none =>
      have hclose : ((s.munmap filename).forget filename).close filename =
          (s.munmap filename).forget filename := by
        simp [Shm.close, hsame, hfd]
      rw [hclose] at hunlink
      have hall := hunmap.trans hunlink
      constructor
      · exact hall.held_eq.trans hnone
      · simpa using hall.releases_iff
  | some fd =>
      have hclose : (((s.munmap filename).forget filename).close filename).log =
          (s.munmap filename).log ++ [Syscall.close fd] := log_close (hsame.trans hfd)
      rw [hclose] at hunlink
      have hnone' : held descriptors (s.munmap filename).log = [] := hunmap.held_eq.trans hnone
      constructor
      · rw [NoDescriptor, hunlink.held_eq, held_snoc_release rfl rfl, hnone']
        rfl
      · rw [hunlink.releases_iff, releasesHeld_snoc_release rfl, hnone']
        simp

/-- The calls that close no descriptor but their own: not a create that `shm_open` refuses, and no
`sharedMemoryDelete` of a name with a number in `shFD`. -/
def ClosesOwn (s : Shm) : Call → Prop
  | .openSegment _ _ create kernel => ¬ (create = true ∧ kernel.shmOpen < 0)
  | .disconnect _ => True
  | .delete filename => s.shFD filename = none

theorem balanced_exec (hnone : NoDescriptor s) (c : Call) :
    Balanced s (c.exec s) (ClosesOwn s c) := by
  cases c with
  | openSegment filename size create kernel =>
      exact balanced_open hnone
  | disconnect filename =>
      exact balanced_disconnect hnone
  | delete filename =>
      exact balanced_delete hnone

end Descriptors

/-- Every `C.close` so far was for a descriptor that `shm_open` had returned and that was not
closed. -/
def ClosesHeld (s : Shm) : Prop := ReleasesHeld descriptors s.log

/-- After `sharedMemoryDelete` of a name, no descriptor returned for it is held. -/
def ClosedByDelete (calls : List Call) : Prop :=
  ∀ pre filename s, pre ++ [.delete filename] <+: calls →
    runCalls step start (pre ++ [.delete filename]) = .ok s →
    ∀ fd, (filename, fd) ∉ held descriptors s.log

theorem noDescriptor_start : NoDescriptor start := rfl

theorem noDescriptor_step (s : Shm) (c : Call) (s' : Shm) (h : NoDescriptor s)
    (hstep : step s c = .ok s') : NoDescriptor s' := by
  cases hstep
  exact (balanced_exec h c).nothing_held

/-- The descriptors of the module are balanced in a sequence of calls if and only if it has no
create that `shm_open` refuses and no `sharedMemoryDelete` of a name with a number in `shFD`. -/
theorem descriptor_ledger_iff (calls : List Call) :
    (Always step ClosesHeld start calls ∧ ClosedByDelete calls) ↔
      Guarded step ClosesOwn start calls := by
  have hclosed : ClosedByDelete calls := by
    intro pre filename s _ hrun fd hmem
    have hnone : NoDescriptor s := runCalls_invariant noDescriptor_step noDescriptor_start hrun
    rw [hnone] at hmem
    cases hmem
  have hguard : ∀ s c, NoDescriptor s → ClosesHeld s →
      (ClosesOwn s c ↔ ∃ s', step s c = .ok s' ∧ ClosesHeld s') := by
    intro s c hnone hgood
    have hiff := (balanced_exec hnone c).releases_iff
    constructor
    · intro hsafe
      exact ⟨c.exec s, rfl, hiff.2 ⟨hgood, hsafe⟩⟩
    · rintro ⟨s', hstep, hgood'⟩
      cases hstep
      exact (hiff.1 hgood').2
  have halways : Always step ClosesHeld start calls ↔ Guarded step ClosesOwn start calls :=
    always_iff_guarded noDescriptor_step hguard noDescriptor_start releasesHeld_nil
  rw [halways]
  exact and_iff_left hclosed

/-- Create and delete one segment: its descriptor 3 is closed twice. -/
def createAndDelete : List Call :=
  [.openSegment "seg" (some 100) true ⟨3, 0, 65536⟩, .delete "seg"]

theorem delete_closes_twice :
    ¬ ∀ calls : List Call, Always step ClosesHeld start calls ∧ ClosedByDelete calls := by
  intro h
  rcases (h createAndDelete).1 createAndDelete (List.prefix_refl _) with ⟨s, hrun, hgood⟩
  cases hrun
  have hlast := hgood
    [.shmOpen "seg" true 3, .ftruncate 3 100 0, .mmap "seg" 100 true 3 65536, .fill 65536 100,
      .close 3, .munmap 65536 100] (.close 3) 3 ⟨[.shmUnlink "seg"], by decide +kernel⟩ rfl
  have hnone : held descriptors
      [.shmOpen "seg" true 3, .ftruncate 3 100 0, .mmap "seg" 100 true 3 65536, .fill 65536 100,
        .close 3, .munmap 65536 100] = [] := by decide +kernel
  rw [hnone] at hlast
  rcases hlast with ⟨r, hmem, -⟩
  cases hmem

/-! ## Mappings -/

def Mapping.Apart (m m' : Mapping) : Prop :=
  m.addr + m.size ≤ m'.addr ∨ m'.addr + m'.size ≤ m.addr

instance : Std.Symm Mapping.Apart := ⟨fun _ _ => Or.symm⟩

/-- What holds of the table and the live mappings after any calls. -/
structure Mapped (s : Shm) : Prop where
  size_pos : 0 < s.shmemSize
  sizes_pos : ∀ m ∈ s.live, 0 < m.size
  apart : s.live.Pairwise Mapping.Apart
  not_failed : ∀ m ∈ s.live, m.addr ≠ MAP_FAILED
  /-- An address in the table is that of a live mapping, unless a wrong `C.munmap` has taken it. -/
  recorded : ReleasesHeld mappings s.log → ∀ filename addr, s.sharedMemory filename = some addr →
    ∃ m ∈ s.live, m.name = filename ∧ m.addr = addr

/-- Every `C.munmap` so far named a live mapping with the length it was mapped with, and every live
mapping is in the table under its file name. -/
structure AllKnown (s : Shm) : Prop where
  releases : ReleasesHeld mappings s.log
  known : ∀ m ∈ s.live, s.sharedMemory m.name = some m.addr

/-- A state in which a name's mapping has been unmapped and forgotten. -/
structure Dropped (filename : String) (s s' : Shm) : Prop where
  log_neutral : Neutral mappings (s.munmap filename).log s'.log
  table_eq : s'.sharedMemory = Function.update s.sharedMemory filename none
  size_eq : s'.shmemSize = s.shmemSize

/-- `shmemSize` is the length of the mapping of that name, if there is one. -/
def FitsSize (filename : String) (size : Int) (s : Shm) : Prop :=
  ∀ m ∈ s.live, m.name = filename → m.size = size

section Mappings

variable {filename : String} {size : Option Int} {create : Bool} {kernel : Kernel} {s s' : Shm}

theorem Mapped.disjoint (h : Mapped s) {m m' : Mapping} (hm : m ∈ s.live) (hm' : m' ∈ s.live)
    (hne : m ≠ m') : m.Apart m' :=
  h.apart.forall hm hm' hne

theorem Mapped.eq_of_addr_eq (h : Mapped s) {m m' : Mapping} (hm : m ∈ s.live) (hm' : m' ∈ s.live)
    (haddr : m.addr = m'.addr) : m = m' := by
  by_contra hne
  have hsize := h.sizes_pos m hm
  have hsize' := h.sizes_pos m' hm'
  rcases h.disjoint hm hm' hne with hbelow | habove <;> omega

/-- Unmapping a live mapping with its own length takes it, and it only. -/
theorem Mapped.spared_iff (h : Mapped s) {m m' : Mapping} (hm : m ∈ s.live) (hm' : m' ∈ s.live) :
    m.spared m'.addr m'.size = true ↔ m ≠ m' := by
  have hsize := h.sizes_pos m' hm'
  have hvalid := h.not_failed m' hm'
  rw [Mapping.spared, decide_eq_true_iff]
  constructor
  · intro hspared heq
    rw [heq] at hspared
    rcases hspared with hfail | hbelow | habove
    · exact hvalid hfail
    · omega
    · omega
  · exact fun hne => .inr (h.disjoint hm hm' hne)

/-- Calls that concern no mapping, between two states with one table. -/
theorem Mapped.neutral (h : Mapped s) (hlog : Neutral mappings s.log s'.log)
    (htable : s'.sharedMemory = s.sharedMemory) (hsize : 0 < s'.shmemSize) : Mapped s' := by
  have hlive : s'.live = s.live := hlog.held_eq
  constructor
  · exact hsize
  · rw [hlive]
    exact h.sizes_pos
  · rw [hlive]
    exact h.apart
  · rw [hlive]
    exact h.not_failed
  · rw [hlive, htable, hlog.releases_iff]
    exact h.recorded

theorem AllKnown.neutral (h : AllKnown s) (hlog : Neutral mappings s.log s'.log)
    (htable : s'.sharedMemory = s.sharedMemory) : AllKnown s' := by
  have hlive : s'.live = s.live := hlog.held_eq
  constructor
  · exact hlog.releases_iff.2 h.releases
  · rw [hlive, htable]
    exact h.known

/-- Without an address in the table nothing is unmapped. -/
theorem munmap_of_none (hnone : s.sharedMemory filename = none) : s.munmap filename = s := by
  simp [Shm.munmap, hnone]

theorem log_munmap {addr : Int} (haddr : s.sharedMemory filename = some addr) :
    (s.munmap filename).log = s.log ++ [Syscall.munmap addr s.shmemSize] := by
  simp [Shm.munmap, haddr, Shm.call]

theorem live_munmap {addr : Int} (haddr : s.sharedMemory filename = some addr) :
    (s.munmap filename).live = s.live.filter (·.spared addr s.shmemSize) := by
  rw [Shm.live, log_munmap haddr, held_snoc_release rfl rfl]
  rfl

theorem releases_munmap {addr : Int} (haddr : s.sharedMemory filename = some addr) :
    ReleasesHeld mappings (s.munmap filename).log ↔
      ReleasesHeld mappings s.log ∧ ∃ m ∈ s.live, (m.addr, m.size) = (addr, s.shmemSize) := by
  rw [log_munmap haddr, releasesHeld_snoc_release rfl]
  rfl

theorem Dropped.live_subset (d : Dropped filename s s') : ∀ m ∈ s'.live, m ∈ s.live := by
  have hlive : s'.live = (s.munmap filename).live := d.log_neutral.held_eq
  intro m hm
  rw [hlive] at hm
  cases haddr : s.sharedMemory filename with
  | none =>
      rwa [munmap_of_none haddr] at hm
  | some addr =>
      rw [live_munmap haddr] at hm
      exact (List.mem_filter.1 hm).1

theorem Dropped.mapped (d : Dropped filename s s') (h : Mapped s) : Mapped s' := by
  have hlive : s'.live = (s.munmap filename).live := d.log_neutral.held_eq
  have hsub := d.live_subset
  constructor
  · rw [d.size_eq]
    exact h.size_pos
  · exact fun m hm => h.sizes_pos m (hsub m hm)
  · rw [hlive]
    cases haddr : s.sharedMemory filename with
    | none =>
        rw [munmap_of_none haddr]
        exact h.apart
    | some addr =>
        rw [live_munmap haddr]
        exact h.apart.filter _
  · exact fun m hm => h.not_failed m (hsub m hm)
  · intro hreleases filename' addr' htable
    rw [d.log_neutral.releases_iff] at hreleases
    rw [d.table_eq] at htable
    have hne : filename' ≠ filename := by
      intro heq
      simp [heq] at htable
    rw [Function.update_of_ne hne] at htable
    rw [hlive]
    cases haddr : s.sharedMemory filename with
    | none =>
        rw [munmap_of_none haddr] at hreleases ⊢
        exact h.recorded hreleases filename' addr' htable
    | some addr =>
        rw [releases_munmap haddr] at hreleases
        rcases hreleases with ⟨hbefore, m₁, hm₁, hkey⟩
        rcases Prod.mk.inj hkey with ⟨haddr₁, hsize₁⟩
        rcases h.recorded hbefore filename' addr' htable with ⟨m, hm, hname, haddr'⟩
        refine ⟨m, ?_, hname, haddr'⟩
        rw [live_munmap haddr, ← haddr₁, ← hsize₁]
        refine List.mem_filter.2 ⟨hm, (h.spared_iff hm hm₁).2 fun heq => ?_⟩
        -- the mapping that goes has the other name
        rcases h.recorded hbefore filename addr haddr with ⟨m', hm', hname', haddr''⟩
        have hsame := h.eq_of_addr_eq hm₁ hm' (haddr₁.trans haddr''.symm)
        rw [← hname, heq, hsame] at hne
        exact hne hname'

/-- Dropping a mapping is right exactly if it is unmapped with its own length. -/
theorem Dropped.allKnown_iff (d : Dropped filename s s') (h : Mapped s) (hknown : AllKnown s) :
    AllKnown s' ↔ FitsSize filename s.shmemSize s := by
  have hlive : s'.live = (s.munmap filename).live := d.log_neutral.held_eq
  cases haddr : s.sharedMemory filename with
  | none =>
      -- no mapping has this name, since each is in the table
      have hnoname : ∀ m ∈ s.live, m.name ≠ filename := by
        intro m hm heq
        have hin := hknown.known m hm
        rw [heq, haddr] at hin
        cases hin
      rw [munmap_of_none haddr] at hlive
      have hlog : Neutral mappings s.log s'.log := munmap_of_none haddr ▸ d.log_neutral
      constructor
      · exact fun _ m hm heq => absurd heq (hnoname m hm)
      · intro _
        constructor
        · exact hlog.releases_iff.2 hknown.releases
        · intro m hm
          rw [hlive] at hm
          rw [d.table_eq, Function.update_of_ne (hnoname m hm)]
          exact hknown.known m hm
  | some addr =>
      rcases h.recorded hknown.releases filename addr haddr with ⟨m₀, hm₀, hname₀, haddr₀⟩
      have honly : ∀ m ∈ s.live, m.name = filename → m = m₀ := by
        intro m hm heq
        have hin := hknown.known m hm
        rw [heq, haddr] at hin
        cases hin
        exact h.eq_of_addr_eq hm hm₀ haddr₀.symm
      have hreleases := d.log_neutral.releases_iff.trans (releases_munmap haddr)
      constructor
      · intro hafter m hm heq
        rcases (hreleases.1 hafter.releases).2 with ⟨m₁, hm₁, hkey⟩
        rcases Prod.mk.inj hkey with ⟨haddr₁, hsize₁⟩
        -- the mapping that was named is the one of this name
        rw [honly m hm heq, h.eq_of_addr_eq hm₀ hm₁ (haddr₀.trans haddr₁.symm), hsize₁]
      · intro hfits
        have hsize₀ : m₀.size = s.shmemSize := hfits m₀ hm₀ hname₀
        constructor
        · exact hreleases.2 ⟨hknown.releases, m₀, hm₀, by rw [haddr₀, hsize₀]⟩
        · intro m hm
          rw [hlive, live_munmap haddr, ← haddr₀, ← hsize₀] at hm
          rcases List.mem_filter.1 hm with ⟨hold, hspared⟩
          have hne : m.name ≠ filename :=
            fun heq => (h.spared_iff hold hm₀).1 hspared (honly m hold heq)
          rw [d.table_eq, Function.update_of_ne hne]
          exact hknown.known m hold

theorem mappings_close (filename : String) (s : Shm) :
    Neutral mappings s.log (s.close filename).log := by
  unfold Shm.close
  split
  · exact neutral_snoc rfl rfl
  · exact Neutral.refl _

theorem mappings_unlink (filename : String) (s : Shm) :
    Neutral mappings s.log (s.unlink filename).log := by
  unfold Shm.unlink
  split
  · exact neutral_snoc rfl rfl
  · exact Neutral.refl _

/-- Closing a descriptor and unlinking a name leave the variables alone. -/
theorem sharedMemory_close (filename : String) (s : Shm) :
    (s.close filename).sharedMemory = s.sharedMemory ∧ (s.close filename).shmemSize = s.shmemSize := by
  unfold Shm.close
  split <;> exact ⟨rfl, rfl⟩

theorem sharedMemory_unlink (filename : String) (s : Shm) :
    (s.unlink filename).sharedMemory = s.sharedMemory ∧
      (s.unlink filename).shmemSize = s.shmemSize := by
  unfold Shm.unlink
  split <;> exact ⟨rfl, rfl⟩

theorem sharedMemory_munmap (filename : String) (s : Shm) :
    (s.munmap filename).sharedMemory = s.sharedMemory ∧
      (s.munmap filename).shmemSize = s.shmemSize := by
  unfold Shm.munmap
  split <;> exact ⟨rfl, rfl⟩

theorem dropped_clear (filename : String) (s : Shm) :
    Dropped filename s (s.sharedMemoryClear filename) := by
  have hunmap := sharedMemory_munmap filename s
  have hclose := sharedMemory_close filename (s.munmap filename)
  have hunlink := sharedMemory_unlink filename ((s.munmap filename).close filename)
  constructor
  · exact (mappings_close filename _).trans (mappings_unlink filename _)
  · rw [Shm.sharedMemoryClear, Shm.forget, hunlink.1, hclose.1, hunmap.1]
  · rw [Shm.sharedMemoryClear, Shm.forget, hunlink.2, hclose.2, hunmap.2]

theorem dropped_disconnect (filename : String) (s : Shm) :
    Dropped filename s (s.sharedMemoryDisconnect filename).2 := by
  have hunmap := sharedMemory_munmap filename s
  have hunlink := sharedMemory_unlink filename ((s.munmap filename).forget filename)
  constructor
  · exact mappings_unlink filename ((s.munmap filename).forget filename)
  · calc (s.sharedMemoryDisconnect filename).2.sharedMemory
        = ((s.munmap filename).forget filename).sharedMemory := hunlink.1
      _ = Function.update s.sharedMemory filename none := by rw [Shm.forget, hunmap.1]
  · exact hunlink.2.trans hunmap.2

theorem dropped_delete (filename : String) (s : Shm) :
    Dropped filename s (s.sharedMemoryDelete filename).2 := by
  have hunmap := sharedMemory_munmap filename s
  have hclose := sharedMemory_close filename ((s.munmap filename).forget filename)
  constructor
  · exact (mappings_close filename ((s.munmap filename).forget filename)).trans
      (neutral_snoc rfl rfl)
  · calc (s.sharedMemoryDelete filename).2.sharedMemory
        = ((s.munmap filename).forget filename).sharedMemory := hclose.1
      _ = Function.update s.sharedMemory filename none := by rw [Shm.forget, hunmap.1]
  · exact hclose.2.trans hunmap.2

/-! ### Opening -/

theorem sizeAfter_pos (h : 0 < s.shmemSize) : 0 < s.sizeAfter size := by
  unfold Shm.sizeAfter
  split
  · split
    · assumption
    · exact h
  · exact h

/-- What an open has done when it comes to `mmap`, or fails before it. -/
structure Begun (size : Option Int) (s s' : Shm) : Prop where
  log_neutral : Neutral mappings s.log s'.log
  table_eq : s'.sharedMemory = s.sharedMemory
  size_eq : s'.shmemSize = s.sizeAfter size

theorem begun_openObject : Begun size s (s.openObject filename size create kernel) :=
  ⟨neutral_snoc rfl rfl, rfl, rfl⟩

theorem begun_readyToMap : Begun size s (s.readyToMap filename size create kernel) := by
  rw [readyToMap_eq]
  split
  · exact ⟨(neutral_snoc rfl rfl).trans (neutral_snoc rfl rfl), rfl, rfl⟩
  · exact begun_openObject

theorem Begun.mapped (b : Begun size s s') (h : Mapped s) : Mapped s' :=
  h.neutral b.log_neutral b.table_eq (by rw [b.size_eq]; exact sizeAfter_pos h.size_pos)

theorem Begun.live_eq (b : Begun size s s') : s'.live = s.live := b.log_neutral.held_eq

/-- An open that fails before `mmap` unmaps the mapping that the name already has. -/
theorem Begun.clear_iff (b : Begun size s s') (h : Mapped s) (hknown : AllKnown s) :
    AllKnown (s'.sharedMemoryClear filename) ↔ FitsSize filename (s.sizeAfter size) s := by
  rw [(dropped_clear filename s').allKnown_iff (b.mapped h) (hknown.neutral b.log_neutral b.table_eq),
    FitsSize, FitsSize, b.live_eq, b.size_eq]

/-- A range that `mmap` returns is made of whole pages, and free. -/
theorem admits_of_mapped {answer : Int} (hok : s.mmapAnswer answer ≠ MAP_FAILED) :
    0 < s.mmapAnswer answer ∧ 4096 ∣ s.mmapAnswer answer ∧
      ∀ m ∈ s.live, m.addr + m.size ≤ s.mmapAnswer answer ∨
        s.mmapAnswer answer + s.shmemSize ≤ m.addr := by
  unfold Shm.mmapAnswer at hok ⊢
  split at hok
  · rename_i hadmits
    rw [if_pos hadmits]
    simpa [Shm.admits] using hadmits
  · exact absurd rfl hok

theorem mmapAnswer_fresh (h : Mapped s) {answer : Int} (hok : s.mmapAnswer answer ≠ MAP_FAILED) :
    ∀ m ∈ s.live, m.addr ≠ s.mmapAnswer answer := by
  intro m hm
  rcases admits_of_mapped hok with ⟨-, -, hfree⟩
  have hsize := h.sizes_pos m hm
  have hown := h.size_pos
  rcases hfree m hm with hbelow | habove <;> omega

theorem live_mapObject (hok : s.mmapAnswer kernel.mmap ≠ MAP_FAILED) :
    (s.mapObject filename create kernel).live =
      s.live ++ [⟨filename, s.mmapAnswer kernel.mmap, s.shmemSize⟩] := by
  have hacq : mappings.acquired
      (.mmap filename s.shmemSize create kernel.shmOpen (s.mmapAnswer kernel.mmap)) =
        some ⟨filename, s.mmapAnswer kernel.mmap, s.shmemSize⟩ := if_neg hok
  rw [Shm.live, Shm.mapObject, held_snoc_acquire hacq rfl]
  rfl

theorem mapped_mapObject (h : Mapped s) (hok : s.mmapAnswer kernel.mmap ≠ MAP_FAILED) :
    Mapped (s.mapObject filename create kernel) := by
  have hlive := @live_mapObject filename create kernel s hok
  rcases admits_of_mapped hok with ⟨-, -, hfree⟩
  constructor
  · exact h.size_pos
  · rw [hlive]
    exact List.forall_mem_append.2 ⟨h.sizes_pos, by simpa using h.size_pos⟩
  · rw [hlive, List.pairwise_append]
    refine ⟨h.apart, List.pairwise_singleton _ _, ?_⟩
    intro m hm m' hm'
    rw [List.mem_singleton.1 hm']
    exact hfree m hm
  · rw [hlive]
    exact List.forall_mem_append.2 ⟨h.not_failed, by simpa using hok⟩
  · intro hreleases filename' addr htable
    rw [hlive]
    by_cases hname : filename' = filename
    · rw [hname] at htable ⊢
      simp only [Shm.mapObject, Function.update_self, Option.some.injEq] at htable
      exact ⟨_, List.mem_append_right _ (List.mem_singleton_self _), rfl, htable⟩
    · simp only [Shm.mapObject, Function.update_of_ne hname] at htable
      rcases h.recorded ((releasesHeld_snoc_neutral rfl).1 hreleases) filename' addr htable with
        ⟨m, hm, hm'⟩
      exact ⟨m, List.mem_append_left _ hm, hm'⟩

/-- A new mapping is right exactly if the name had none: the table has room for one. -/
theorem allKnown_mapObject_iff (h : Mapped s) (hok : s.mmapAnswer kernel.mmap ≠ MAP_FAILED)
    (hknown : AllKnown s) :
    AllKnown (s.mapObject filename create kernel) ↔ s.sharedMemory filename = none := by
  have hlive := @live_mapObject filename create kernel s hok
  have hfresh := mmapAnswer_fresh h hok
  constructor
  · intro hafter
    by_contra hsome
    rcases Option.ne_none_iff_exists'.1 hsome with ⟨addr, haddr⟩
    rcases h.recorded hknown.releases filename addr haddr with ⟨m, hm, hname, -⟩
    -- the old mapping is still live, and the table now has the new address
    have hin := hafter.known m (by rw [hlive]; exact List.mem_append_left _ hm)
    simp only [Shm.mapObject, hname, Function.update_self, Option.some.injEq] at hin
    exact hfresh m hm hin.symm
  · intro hnone
    constructor
    · exact (releasesHeld_snoc_neutral rfl).2 hknown.releases
    · intro m hm
      rw [hlive] at hm
      rcases List.mem_append.1 hm with hold | hnew
      · have hin := hknown.known m hold
        have hne : m.name ≠ filename := by
          intro heq
          rw [heq, hnone] at hin
          cases hin
        simpa [Shm.mapObject, hne] using hin
      · rw [List.mem_singleton.1 hnew]
        simp [Shm.mapObject]

theorem mappings_finishOpen (create : Bool) (kernel : Kernel) (addr : Int) (s : Shm) :
    Neutral mappings s.log (s.finishOpen create kernel addr).log ∧
      (s.finishOpen create kernel addr).sharedMemory = s.sharedMemory ∧
      (s.finishOpen create kernel addr).shmemSize = s.shmemSize := by
  cases create with
  | true =>
      exact ⟨(neutral_snoc rfl rfl).trans (neutral_snoc rfl rfl), rfl, rfl⟩
  | false =>
      exact ⟨neutral_snoc rfl rfl, rfl, rfl⟩

theorem sharedMemory_mapFailed (hfail : s.mmapAnswer kernel.mmap = MAP_FAILED) :
    (s.mapObject filename create kernel).sharedMemory filename = some MAP_FAILED := by
  simp [Shm.mapObject, hfail]

theorem mappings_mapFailed (hfail : s.mmapAnswer kernel.mmap = MAP_FAILED) :
    Neutral mappings s.log (s.mapObject filename create kernel).log :=
  neutral_snoc (if_pos hfail) rfl

/-- After an `mmap` that has failed, `MAP_FAILED` itself is unmapped. -/
theorem live_mapFailed_clear (hfail : s.mmapAnswer kernel.mmap = MAP_FAILED) :
    ((s.mapObject filename create kernel).sharedMemoryClear filename).live = s.live := by
  have hlive : (s.mapObject filename create kernel).live = s.live := (mappings_mapFailed hfail).held_eq
  have htable := @sharedMemory_mapFailed filename create kernel s hfail
  have hdrop := dropped_clear filename (s.mapObject filename create kernel)
  calc ((s.mapObject filename create kernel).sharedMemoryClear filename).live
      = ((s.mapObject filename create kernel).munmap filename).live := hdrop.log_neutral.held_eq
    _ = s.live := by
        rw [live_munmap htable, hlive]
        exact List.filter_eq_self.2 fun m _ => decide_eq_true (.inl rfl)

theorem not_releases_mapFailed_clear (h : Mapped s) (hfail : s.mmapAnswer kernel.mmap = MAP_FAILED) :
    ¬ ReleasesHeld mappings
      ((s.mapObject filename create kernel).sharedMemoryClear filename).log := by
  have htable := @sharedMemory_mapFailed filename create kernel s hfail
  have hdrop := dropped_clear filename (s.mapObject filename create kernel)
  intro hreleases
  rw [hdrop.log_neutral.releases_iff, releases_munmap htable] at hreleases
  rcases hreleases.2 with ⟨m, hm, hkey⟩
  rw [Shm.live, (mappings_mapFailed hfail).held_eq] at hm
  exact h.not_failed m hm (Prod.mk.inj hkey).1

theorem not_mapped_clear (h : Mapped s) (hfail : s.mmapAnswer kernel.mmap = MAP_FAILED) :
    Mapped ((s.mapObject filename create kernel).sharedMemoryClear filename) ∧
      ¬ AllKnown ((s.mapObject filename create kernel).sharedMemoryClear filename) := by
  have hdrop := dropped_clear filename (s.mapObject filename create kernel)
  have hlive := @live_mapFailed_clear filename create kernel s hfail
  have hwrong := @not_releases_mapFailed_clear filename create kernel s h hfail
  constructor
  · constructor
    · rw [hdrop.size_eq]
      exact h.size_pos
    · rw [hlive]
      exact h.sizes_pos
    · rw [hlive]
      exact h.apart
    · rw [hlive]
      exact h.not_failed
    · exact fun hreleases => absurd hreleases hwrong
  · exact fun hafter => hwrong hafter.releases

/-- The calls that unmap with the right length and overwrite no mapping: `Disconnect`, `Delete`
and the failures of a create meet a `shmemSize` that is still the length of the name's mapping, and
an open that comes to `mmap` is for a name without one, and is not refused. -/
def FitsMappings (s : Shm) : Call → Prop
  | .openSegment filename size create kernel =>
      if kernel.shmOpen ≥ 0 ∧ ¬ (create = true ∧ kernel.ftruncate ≠ 0) then
        s.sharedMemory filename = none ∧
          (s.readyToMap filename size create kernel).mmapAnswer kernel.mmap ≠ MAP_FAILED
      else create = true → FitsSize filename (s.sizeAfter size) s
  | .disconnect filename => FitsSize filename s.shmemSize s
  | .delete filename => FitsSize filename s.shmemSize s

theorem mapped_open (h : Mapped s) :
    Mapped (s.sharedMemoryOpen filename size create kernel).2 ∧
      (AllKnown s → (AllKnown (s.sharedMemoryOpen filename size create kernel).2 ↔
        FitsMappings s (.openSegment filename size create kernel))) := by
  have hopen := @begun_openObject filename size create kernel s
  have hready := @begun_readyToMap filename size create kernel s
  by_cases hfd : kernel.shmOpen ≥ 0
  · by_cases hret : create = true ∧ kernel.ftruncate ≠ 0
    · rw [Shm.open_not_truncated hfd hret]
      refine ⟨(dropped_clear filename _).mapped (hready.mapped h), fun hknown => ?_⟩
      rw [hready.clear_iff h hknown, FitsMappings, if_neg (fun hboth => hboth.2 hret)]
      exact ⟨fun hfits _ => hfits, fun hfits => hfits hret.1⟩
    · by_cases haddr : (s.readyToMap filename size create kernel).mmapAnswer kernel.mmap = MAP_FAILED
      · rw [Shm.open_not_mapped hfd hret haddr]
        rcases @not_mapped_clear filename create kernel _ (hready.mapped h) haddr with
          ⟨hmapped, hnot⟩
        refine ⟨hmapped, fun _ => ?_⟩
        rw [FitsMappings, if_pos ⟨hfd, hret⟩]
        exact ⟨fun hafter => absurd hafter hnot, fun hfits => absurd haddr hfits.2⟩
      · rw [Shm.open_mapped hfd hret haddr]
        rcases mappings_finishOpen create kernel
            ((s.readyToMap filename size create kernel).mmapAnswer kernel.mmap)
            ((s.readyToMap filename size create kernel).mapObject filename create kernel) with
          ⟨hlog, htable, hsize⟩
        have hmapped := @mapped_mapObject filename create kernel _ (hready.mapped h) haddr
        refine ⟨hmapped.neutral hlog htable (hsize ▸ hmapped.size_pos), fun hknown => ?_⟩
        have hknown' := hknown.neutral hready.log_neutral hready.table_eq
        have hiff := @allKnown_mapObject_iff filename create kernel _ (hready.mapped h) haddr hknown'
        rw [hready.table_eq] at hiff
        rw [FitsMappings, if_pos ⟨hfd, hret⟩, and_iff_left haddr, ← hiff]
        constructor
        · intro hafter
          have hlive := hlog.held_eq
          constructor
          · exact hlog.releases_iff.1 hafter.releases
          · intro m hm
            have hin := hafter.known m (by rw [Shm.live, hlive]; exact hm)
            rwa [htable] at hin
        · exact fun hbefore => hbefore.neutral hlog htable
  · have hfits : FitsMappings s (.openSegment filename size create kernel) =
        (create = true → FitsSize filename (s.sizeAfter size) s) := if_neg fun hboth => hfd hboth.1
    rw [Shm.open_refused hfd, hfits]
    cases create with
    | true =>
        refine ⟨(dropped_clear filename _).mapped (hopen.mapped h), fun hknown => ?_⟩
        rw [if_pos rfl, hopen.clear_iff h hknown]
        exact ⟨fun hfits _ => hfits, fun hfits => hfits rfl⟩
    | false =>
        refine ⟨hopen.mapped h, fun hknown => ?_⟩
        have hafter := hknown.neutral hopen.log_neutral hopen.table_eq
        exact ⟨fun _ hcreate => absurd hcreate Bool.false_ne_true, fun _ => hafter⟩

theorem mapped_exec (h : Mapped s) (c : Call) :
    Mapped (c.exec s) ∧ (AllKnown s → (AllKnown (c.exec s) ↔ FitsMappings s c)) := by
  cases c with
  | openSegment filename size create kernel =>
      exact mapped_open h
  | disconnect filename =>
      have hdrop := dropped_disconnect filename s
      exact ⟨hdrop.mapped h, hdrop.allKnown_iff h⟩
  | delete filename =>
      have hdrop := dropped_delete filename s
      exact ⟨hdrop.mapped h, hdrop.allKnown_iff h⟩

theorem mapped_step (s : Shm) (c : Call) (s' : Shm) (h : Mapped s) (hstep : step s c = .ok s') :
    Mapped s' := by
  cases hstep
  exact (mapped_exec h c).1

theorem mapped_start : Mapped start where
  size_pos := by decide
  sizes_pos := by
    intro m hm
    cases hm
  apart := List.Pairwise.nil
  not_failed := by
    intro m hm
    cases hm
  recorded := by
    intro _ filename addr htable
    cases htable

theorem allKnown_start : AllKnown start where
  releases := releasesHeld_nil
  known := by
    intro m hm
    cases hm

end Mappings

/-- Throughout a sequence of calls every `munmap` names a live mapping with its own length and all
live mappings are in the table, if and only if every call fits the mappings it meets. -/
theorem mapping_ledger_iff (calls : List Call) :
    Always step AllKnown start calls ↔ Guarded step FitsMappings start calls := by
  refine always_iff_guarded mapped_step (fun s c h hknown => ?_) mapped_start allKnown_start
  have hiff := (mapped_exec h c).2 hknown
  constructor
  · intro hfits
    exact ⟨c.exec s, rfl, hiff.2 hfits⟩
  · rintro ⟨s', hstep, hknown'⟩
    cases hstep
    exact hiff.1 hknown'

/-- Two segments of different size, as the application maps them, and the first is disconnected. -/
def twoSizes : List Call :=
  [.openSegment "out" (some 100) true ⟨3, 0, 65536⟩,
    .openSegment "in" (some 50) false ⟨3, 0, 131072⟩, .disconnect "out"]

theorem shared_size_misfits : ¬ ∀ calls : List Call, Always step AllKnown start calls := by
  intro h
  rcases h twoSizes twoSizes (List.prefix_refl _) with ⟨s, hrun, hgood⟩
  cases hrun
  have hlast := hgood.releases
    [.shmOpen "out" true 3, .ftruncate 3 100 0, .mmap "out" 100 true 3 65536, .fill 65536 100,
      .close 3, .shmOpen "in" false 3, .mmap "in" 50 false 3 131072, .close 3]
    (.munmap 65536 50) (65536, 50) ⟨[.shmUnlink "out"], by decide +kernel⟩ rfl
  have hlive : held mappings
      [.shmOpen "out" true 3, .ftruncate 3 100 0, .mmap "out" 100 true 3 65536, .fill 65536 100,
        .close 3, .shmOpen "in" false 3, .mmap "in" 50 false 3 131072, .close 3] =
      [⟨"out", 65536, 100⟩, ⟨"in", 131072, 50⟩] := by decide +kernel
  rw [hlive] at hlast
  simp [mappings] at hlast

end Posix
end SharedMemory
end LuajitTcpServer
