import Mathlib.Logic.Function.Basic
import LuajitTcpServer.Lib.CallSeq
import LuajitTcpServer.Lib.ResourceLog

/-!
# Windows — the segments of `lib_shared_memory.lua` under Windows

A segment is a handle of a file mapping and the address of a view of it; both are kept in
`un[filename]`.  `sharedMemoryDisconnect` passes the handle to `UnmapViewOfFile` and the address to
`CloseHandle`, and keeps the record (`handle_ledger_iff`).

* The results of `UnmapViewOfFile` and `CloseHandle` are not looked at by the code.
* What is printed is left out.
-/

namespace LuajitTcpServer
namespace SharedMemory
namespace Windows

open CallSeq ResourceLog

/-! ## System calls -/

inductive Syscall
  | createFileMapping (name globalName : String) (size : Int) (handle : Option Int)
  | openFileMapping (name globalName : String) (handle : Option Int)
  | mapViewOfFile (name : String) (handle : Int) (addr : Option Int)
  /-- `ffi.fill(addr, size, 0)`. -/
  | fill (addr size : Int)
  | unmapViewOfFile (addr : Int)
  | closeHandle (handle : Int)
  deriving DecidableEq, Repr

/-- Views are returned by `MapViewOfFile`, for a file name, and released by their address. -/
def views : Accounts Syscall (String × Int) Int where
  acquired := fun
    | .mapViewOfFile name _ (some addr) => some (name, addr)
    | _ => none
  released := fun
    | .unmapViewOfFile addr => some addr
    | _ => none
  key := Prod.snd

/-- Handles are returned by `CreateFileMappingA` and `OpenFileMappingA`. -/
def handles : Accounts Syscall (String × Int) Int where
  acquired := fun
    | .createFileMapping name _ _ (some handle) => some (name, handle)
    | .openFileMapping name _ (some handle) => some (name, handle)
    | _ => none
  released := fun
    | .closeHandle handle => some handle
    | _ => none
  key := Prod.snd

/-! ## State -/

/-- `un[filename]`. -/
structure Segment where
  memptr : Option Int
  map : Option Int
  deriving DecidableEq, Repr

/-- The global variables of the module. -/
structure Shm where
  un : String → Option Segment
  shmName : String → Option String
  log : List Syscall

/-- After the module has been loaded. -/
def start : Shm :=
  { un := fun _ => none
    shmName := fun _ => none
    log := [] }

/-- The answers in one `sharedMemoryOpen`; `none` is a null pointer. -/
structure Kernel where
  fileMapping : Option Int
  mapView : Option Int

/-- The Lua error of indexing `nil`. -/
inductive LuaError
  | indexNil
  deriving DecidableEq, Repr

/-- The name of the file mapping: separators become underscores, and a drive is left out. -/
def globalName (filename : String) : String := (filename.replace "\\" "_").replace "C:_" ""

namespace Shm

def call (event : Syscall) (s : Shm) : Shm := { s with log := s.log ++ [event] }

/-! ## Opening -/

/-- `C.CreateFileMappingA(..)` or `C.OpenFileMappingA(..)`. -/
def openMapping (filename : String) (size : Int) (create : Bool) (kernel : Kernel) (s : Shm) :
    Shm :=
  let s := { s with shmName := Function.update s.shmName filename (some filename) }
  if create then
    s.call (.createFileMapping filename (globalName filename) size kernel.fileMapping)
  else s.call (.openFileMapping filename (globalName filename) kernel.fileMapping)

/-- After a successful `MapViewOfFile`. -/
def keepSegment (filename : String) (size : Int) (create : Bool) (handle addr : Int) (s : Shm) :
    Shm :=
  let s := if create then s.call (.fill addr size) else s
  { s with un := Function.update s.un filename (some ⟨some addr, some handle⟩) }

def sharedMemoryOpen (filename : String) (size : Int) (create : Bool) (kernel : Kernel)
    (s : Shm) : Option Int × Shm :=
  let size := if size < 65536 then 65536 else size
  let s := s.openMapping filename size create kernel
  match kernel.fileMapping with
  | none => (none, s)
  | some hMapFile =>
      let s := s.call (.mapViewOfFile filename hMapFile kernel.mapView)
      match kernel.mapView with
      | none => (none, s.call (.closeHandle hMapFile))
      | some pMem => (some pMem, s.keepSegment filename size create hMapFile pMem)

/-! ## Closing -/

/-- `C.UnmapViewOfFile(un[filename].map)`. -/
def unmapView (segment : Segment) (s : Shm) : Int × Shm :=
  match segment.map with
  | some handle => (0, s.call (.unmapViewOfFile handle))
  | none => (-1, s)

/-- `C.CloseHandle(un[filename].memptr)`. -/
def closeMapping (segment : Segment) (ret : Int) (s : Shm) : Int × Shm :=
  match segment.memptr with
  | some addr => (ret, s.call (.closeHandle addr))
  | none => (ret + -2, s)

def sharedMemoryDisconnect (filename : String) (s : Shm) : Except LuaError (Int × Shm) :=
  match s.un filename with
  | none => .error .indexNil
  | some segment =>
      let (ret, s) := s.unmapView segment
      .ok (s.closeMapping segment ret)

def sharedMemoryDelete (filename : String) (s : Shm) : Except LuaError (Int × Shm) :=
  s.sharedMemoryDisconnect filename

end Shm

/-! ## Sequences of calls -/

inductive Call
  | openSegment (filename : String) (size : Int) (create : Bool) (kernel : Kernel)
  | disconnect (filename : String)
  | delete (filename : String)

/-- The name that a call releases. -/
def Call.releases : Call → Option String
  | .openSegment _ _ _ _ => none
  | .disconnect filename => some filename
  | .delete filename => some filename

def Call.exec (s : Shm) : Call → Except LuaError Shm
  | .openSegment filename size create kernel =>
      .ok (s.sharedMemoryOpen filename size create kernel).2
  | .disconnect filename => (s.sharedMemoryDisconnect filename).map Prod.snd
  | .delete filename => (s.sharedMemoryDelete filename).map Prod.snd

/-- The module after a sequence of calls, with the last of them. -/
structure Run where
  shm : Shm
  last : Option Call

def step (run : Run) (c : Call) : Except LuaError Run :=
  (c.exec run.shm).map fun shm => ⟨shm, some c⟩

/-! ## The ledger -/

/-- Nothing is held for that name. -/
structure Released (filename : String) (s : Shm) : Prop where
  views : ∀ addr, (filename, addr) ∉ held views s.log
  handles : ∀ handle, (filename, handle) ∉ held handles s.log

/-- Views and handles were released by what releases them, while they were held, and the name that
the last call has released has none left. -/
structure Balanced (run : Run) : Prop where
  views : ReleasesHeld views run.shm.log
  handles : ReleasesHeld handles run.shm.log
  released : ∀ c filename, run.last = some c → c.releases = some filename →
    Released filename run.shm

/-- By coincidence the handle in the record is the address of a live view, the address in it is an
open handle, and there is no other view or handle of that name. -/
structure Coincides (filename : String) (addr handle : Int) (s : Shm) : Prop where
  view_live : ∃ r ∈ held views s.log, r.2 = handle
  handle_open : ∃ r ∈ held handles s.log, r.2 = addr
  only_view : ∀ r ∈ held views s.log, r.1 = filename → r.2 = handle
  only_handle : ∀ r ∈ held handles s.log, r.1 = filename → r.2 = addr

/-- An open is always right; a release is right by coincidence. -/
def FitsHandles (run : Run) (c : Call) : Prop :=
  ∀ filename, c.releases = some filename →
    ∃ addr handle, run.shm.un filename = some ⟨some addr, some handle⟩ ∧
      Coincides filename addr handle run.shm

/-- A record has both an address and a handle. -/
def Complete (run : Run) : Prop :=
  ∀ filename segment, run.shm.un filename = some segment →
    ∃ addr handle, segment = ⟨some addr, some handle⟩

section Steps

variable {filename : String} {size : Int} {create : Bool} {kernel : Kernel} {s : Shm}
  {addr handle : Int}

theorem views_openMapping :
    Neutral views s.log (s.openMapping filename size create kernel).log := by
  unfold Shm.openMapping
  split
  · exact neutral_snoc rfl rfl
  · exact neutral_snoc rfl rfl

theorem views_keepSegment :
    Neutral views s.log (s.keepSegment filename size create handle addr).log := by
  cases create with
  | true =>
      exact neutral_snoc rfl rfl
  | false =>
      exact Neutral.refl _

theorem handles_keepSegment :
    Neutral handles s.log (s.keepSegment filename size create handle addr).log := by
  cases create with
  | true =>
      exact neutral_snoc rfl rfl
  | false =>
      exact Neutral.refl _

/-- Opening a file mapping releases nothing, and a handle that is returned is held. -/
theorem handles_openMapping :
    (ReleasesHeld handles (s.openMapping filename size create kernel).log ↔
      ReleasesHeld handles s.log) ∧
    ∀ h, kernel.fileMapping = some h →
      (filename, h) ∈ held handles (s.openMapping filename size create kernel).log := by
  constructor
  · cases create with
    | true =>
        exact releasesHeld_snoc_neutral rfl
    | false =>
        exact releasesHeld_snoc_neutral rfl
  · intro h hkernel
    have hheld : held handles (s.openMapping filename size create kernel).log =
        held handles s.log ++ [(filename, h)] := by
      cases create with
      | true =>
          have hacq : handles.acquired (.createFileMapping filename (globalName filename) size
              kernel.fileMapping) = some (filename, h) := by
            rw [hkernel]
            rfl
          exact held_snoc_acquire hacq rfl
      | false =>
          have hacq : handles.acquired (.openFileMapping filename (globalName filename)
              kernel.fileMapping) = some (filename, h) := by
            rw [hkernel]
            rfl
          exact held_snoc_acquire hacq rfl
    rw [hheld]
    exact List.mem_append_right _ (List.mem_singleton_self _)

/-- An open releases at most the handle that it has just been given. -/
theorem releases_open (hviews : ReleasesHeld views s.log) (hhandles : ReleasesHeld handles s.log) :
    ReleasesHeld views (s.sharedMemoryOpen filename size create kernel).2.log ∧
      ReleasesHeld handles (s.sharedMemoryOpen filename size create kernel).2.log := by
  unfold Shm.sharedMemoryOpen
  generalize (if size < 65536 then 65536 else size) = size'
  have hviews' := (@views_openMapping filename size' create kernel s).releases_iff.2 hviews
  rcases @handles_openMapping filename size' create kernel s with ⟨hsame, hheld⟩
  have hhandles' := hsame.2 hhandles
  cases hmap : kernel.fileMapping with
  | none =>
      exact ⟨hviews', hhandles'⟩
  | some h =>
      have hmapped : ReleasesHeld views ((s.openMapping filename size' create kernel).call
          (.mapViewOfFile filename h kernel.mapView)).log :=
        (releasesHeld_snoc_neutral rfl).2 hviews'
      have hmapped' : Neutral handles (s.openMapping filename size' create kernel).log
          ((s.openMapping filename size' create kernel).call
            (.mapViewOfFile filename h kernel.mapView)).log := neutral_snoc rfl rfl
      cases hview : kernel.mapView with
      | none =>
          rw [hview] at hmapped hmapped'
          refine ⟨(releasesHeld_snoc_neutral rfl).2 hmapped, (releasesHeld_snoc_release rfl).2 ?_⟩
          refine ⟨hmapped'.releases_iff.2 hhandles', (filename, h), ?_, rfl⟩
          rw [hmapped'.held_eq]
          exact hheld h hmap
      | some pMem =>
          rw [hview] at hmapped hmapped'
          exact ⟨views_keepSegment.releases_iff.2 hmapped,
            handles_keepSegment.releases_iff.2 (hmapped'.releases_iff.2 hhandles')⟩

/-- The record of a name that is released, and the calls that release it. -/
theorem disconnect_run (hseg : s.un filename = some ⟨some addr, some handle⟩) :
    s.sharedMemoryDisconnect filename =
      .ok (0, (s.call (.unmapViewOfFile handle)).call (.closeHandle addr)) := by
  simp [Shm.sharedMemoryDisconnect, hseg, Shm.unmapView, Shm.closeMapping]

/-- After a release the handle is gone from the views, and the address from the handles. -/
theorem held_disconnect :
    held views ((s.call (.unmapViewOfFile handle)).call (.closeHandle addr)).log =
      (held views s.log).filter (fun r => r.2 ≠ handle) ∧
    held handles ((s.call (.unmapViewOfFile handle)).call (.closeHandle addr)).log =
      (held handles s.log).filter (fun r => r.2 ≠ addr) := by
  constructor
  · calc held views ((s.call (.unmapViewOfFile handle)).call (.closeHandle addr)).log
        = held views (s.call (.unmapViewOfFile handle)).log := held_snoc_neutral rfl rfl
      _ = (held views s.log).filter (fun r => r.2 ≠ handle) := held_snoc_release rfl rfl
  · calc held handles ((s.call (.unmapViewOfFile handle)).call (.closeHandle addr)).log
        = (held handles (s.call (.unmapViewOfFile handle)).log).filter (fun r => r.2 ≠ addr) :=
          held_snoc_release rfl rfl
      _ = (held handles s.log).filter (fun r => r.2 ≠ addr) := by
          rw [Shm.call, held_snoc_neutral rfl rfl]

theorem releases_disconnect :
    (ReleasesHeld views ((s.call (.unmapViewOfFile handle)).call (.closeHandle addr)).log ↔
      ReleasesHeld views s.log ∧ ∃ r ∈ held views s.log, r.2 = handle) ∧
    (ReleasesHeld handles ((s.call (.unmapViewOfFile handle)).call (.closeHandle addr)).log ↔
      ReleasesHeld handles s.log ∧ ∃ r ∈ held handles s.log, r.2 = addr) := by
  have hneutral : Neutral handles s.log (s.call (.unmapViewOfFile handle)).log :=
    neutral_snoc rfl rfl
  constructor
  · calc ReleasesHeld views ((s.call (.unmapViewOfFile handle)).call (.closeHandle addr)).log
        ↔ ReleasesHeld views (s.call (.unmapViewOfFile handle)).log := releasesHeld_snoc_neutral rfl
      _ ↔ ReleasesHeld views s.log ∧ ∃ r ∈ held views s.log, r.2 = handle :=
          releasesHeld_snoc_release rfl
  · calc ReleasesHeld handles ((s.call (.unmapViewOfFile handle)).call (.closeHandle addr)).log
        ↔ ReleasesHeld handles (s.call (.unmapViewOfFile handle)).log ∧
            ∃ r ∈ held handles (s.call (.unmapViewOfFile handle)).log, r.2 = addr :=
          releasesHeld_snoc_release rfl
      _ ↔ ReleasesHeld handles s.log ∧ ∃ r ∈ held handles s.log, r.2 = addr := by
          rw [hneutral.releases_iff, hneutral.held_eq]

theorem mem_filter_ne_iff {resources : List (String × Int)} {k : Int} :
    (∀ n, (filename, n) ∉ resources.filter fun r => r.2 ≠ k) ↔
      ∀ r ∈ resources, r.1 = filename → r.2 = k := by
  constructor
  · intro h r hr hname
    by_contra hne
    exact h r.2 (List.mem_filter.2 ⟨hname ▸ hr, by simpa using hne⟩)
  · intro h n hmem
    rcases List.mem_filter.1 hmem with ⟨hr, hne⟩
    have heq : n = k := h (filename, n) hr rfl
    simp [heq] at hne

theorem balanced_disconnect {run : Run} {c : Call} (hbalanced : Balanced run)
    (hc : c.releases = some filename) :
    Balanced ⟨(run.shm.call (.unmapViewOfFile handle)).call (.closeHandle addr), some c⟩ ↔
      Coincides filename addr handle run.shm := by
  rcases @held_disconnect run.shm addr handle with ⟨hviews, hhandles⟩
  rcases @releases_disconnect run.shm addr handle with ⟨hreleases, hreleases'⟩
  constructor
  · intro hafter
    have hgone := hafter.released c filename rfl hc
    constructor
    · exact (hreleases.1 hafter.views).2
    · exact (hreleases'.1 hafter.handles).2
    · exact mem_filter_ne_iff.1 (hviews ▸ hgone.views)
    · exact mem_filter_ne_iff.1 (hhandles ▸ hgone.handles)
  · intro hfits
    constructor
    · exact hreleases.2 ⟨hbalanced.views, hfits.view_live⟩
    · exact hreleases'.2 ⟨hbalanced.handles, hfits.handle_open⟩
    · intro c' filename' hlast hc'
      cases hlast
      cases hc.symm.trans hc'
      constructor
      · exact hviews ▸ mem_filter_ne_iff.2 hfits.only_view
      · exact hhandles ▸ mem_filter_ne_iff.2 hfits.only_handle

/-- A call that releases a name is the same with either function. -/
theorem step_releases {run : Run} {c : Call} (hc : c.releases = some filename) :
    step run c = (run.shm.sharedMemoryDisconnect filename).map fun r => ⟨r.2, some c⟩ := by
  cases c with
  | openSegment =>
      cases hc
  | disconnect filename' | delete filename' =>
      cases hc
      rw [step, Call.exec]
      cases h : run.shm.sharedMemoryDisconnect filename <;>
        simp [Shm.sharedMemoryDelete, h, Except.map]

theorem un_open : ∀ filename' segment,
    (s.sharedMemoryOpen filename size create kernel).2.un filename' = some segment →
      s.un filename' = some segment ∨
        ∃ addr handle, segment = ⟨some addr, some handle⟩ ∧ kernel.fileMapping = some handle := by
  intro filename' segment hseg
  have hopen : ∀ size', (s.openMapping filename size' create kernel).un = s.un := by
    intro size'
    unfold Shm.openMapping
    split <;> rfl
  unfold Shm.sharedMemoryOpen at hseg
  generalize (if size < 65536 then 65536 else size) = size' at hseg
  cases hmap : kernel.fileMapping with
  | none =>
      simp only [hmap, hopen] at hseg
      exact .inl hseg
  | some h =>
      cases hview : kernel.mapView with
      | none =>
          simp only [hmap, hview, Shm.call, hopen] at hseg
          exact .inl hseg
      | some pMem =>
          have hkeep : ∀ s' : Shm, (s'.keepSegment filename size' create h pMem).un =
              Function.update s'.un filename (some ⟨some pMem, some h⟩) := by
            intro s'
            cases create <;> rfl
          simp only [hmap, hview, hkeep, Shm.call, hopen] at hseg
          by_cases hname : filename' = filename
          · rw [hname, Function.update_self] at hseg
            cases hseg
            exact .inr ⟨pMem, h, rfl, rfl⟩
          · rw [Function.update_of_ne hname] at hseg
            exact .inl hseg

theorem complete_step (run : Run) (c : Call) (run' : Run) (h : Complete run)
    (hstep : step run c = .ok run') : Complete run' := by
  cases hc : c.releases with
  | none =>
      cases c with
      | openSegment filename size create kernel =>
          cases hstep
          intro filename' segment hseg
          rcases un_open filename' segment hseg with hold | ⟨addr, handle, hnew, -⟩
          · exact h filename' segment hold
          · exact ⟨addr, handle, hnew⟩
      | disconnect | delete =>
          cases hc
  | some filename =>
      rw [step_releases hc] at hstep
      cases hun : run.shm.un filename with
      | none =>
          simp [Shm.sharedMemoryDisconnect, hun, Except.map] at hstep
      | some segment =>
          rcases h filename segment hun with ⟨addr, handle, rfl⟩
          rw [disconnect_run hun] at hstep
          cases hstep
          -- the table is left as it is
          exact h

theorem fits_iff_step {run : Run} (hcomplete : Complete run) (hbalanced : Balanced run) (c : Call) :
    FitsHandles run c ↔ ∃ run', step run c = .ok run' ∧ Balanced run' := by
  cases hc : c.releases with
  | none =>
      have hfits : FitsHandles run c := by
        intro filename hsome
        rw [hc] at hsome
        cases hsome
      refine ⟨fun _ => ?_, fun _ => hfits⟩
      cases c with
      | openSegment filename size create kernel =>
          rcases @releases_open filename size create kernel run.shm hbalanced.views
            hbalanced.handles with ⟨hviews, hhandles⟩
          refine ⟨_, rfl, hviews, hhandles, ?_⟩
          intro c' filename' hlast hc'
          cases hlast
          cases hc'
      | disconnect | delete =>
          cases hc
  | some filename =>
      rw [step_releases hc]
      constructor
      · intro hfits
        rcases hfits filename hc with ⟨addr, handle, hun, hcoincides⟩
        rw [disconnect_run hun]
        exact ⟨_, rfl, (balanced_disconnect hbalanced hc).2 hcoincides⟩
      · rintro ⟨run', hstep, hafter⟩ filename' hc'
        cases hc.symm.trans hc'
        cases hun : run.shm.un filename with
        | none =>
            simp [Shm.sharedMemoryDisconnect, hun, Except.map] at hstep
        | some segment =>
            rcases hcomplete filename segment hun with ⟨addr, handle, rfl⟩
            rw [disconnect_run hun] at hstep
            cases hstep
            exact ⟨addr, handle, rfl, (balanced_disconnect hbalanced hc).1 hafter⟩

end Steps

/-! ## Handles that are not addresses -/

/-- A handle that the kernel returns in the sequence. -/
def IsHandle (calls : List Call) (n : Int) : Prop :=
  ∃ filename size create kernel, .openSegment filename size create kernel ∈ calls ∧
    kernel.fileMapping = some n

/-- An address of a view that the kernel returns in the sequence. -/
def IsView (calls : List Call) (n : Int) : Prop :=
  ∃ filename size create kernel, .openSegment filename size create kernel ∈ calls ∧
    kernel.mapView = some n

/-- No number is returned both as a handle and as an address. -/
def Apart (calls : List Call) : Prop := ∀ n, ¬ (IsHandle calls n ∧ IsView calls n)

/-- Handles and addresses in use are those of the sequence. -/
structure Origins (calls : List Call) (run : Run) : Prop where
  stored : ∀ filename addr handle, run.shm.un filename = some ⟨some addr, some handle⟩ →
    IsHandle calls handle
  live : ∀ r ∈ held views run.shm.log, IsView calls r.2

theorem views_open {filename : String} {size : Int} {create : Bool} {kernel : Kernel} {s : Shm} :
    ∀ r ∈ held views (s.sharedMemoryOpen filename size create kernel).2.log,
      r ∈ held views s.log ∨ kernel.mapView = some r.2 := by
  unfold Shm.sharedMemoryOpen
  generalize (if size < 65536 then 65536 else size) = size'
  have hopen := (@views_openMapping filename size' create kernel s).held_eq
  cases hmap : kernel.fileMapping with
  | none =>
      intro r hr
      exact .inl (hopen ▸ hr)
  | some h =>
      cases hview : kernel.mapView with
      | none =>
          intro r hr
          -- neither the call that fails nor the one that closes the handle concerns a view
          have hsame : held views (((s.openMapping filename size' create kernel).call
              (.mapViewOfFile filename h none)).call (.closeHandle h)).log = held views s.log := by
            calc held views (((s.openMapping filename size' create kernel).call
                  (.mapViewOfFile filename h none)).call (.closeHandle h)).log
                = held views ((s.openMapping filename size' create kernel).call
                    (.mapViewOfFile filename h none)).log := held_snoc_neutral rfl rfl
              _ = held views (s.openMapping filename size' create kernel).log :=
                  held_snoc_neutral rfl rfl
              _ = held views s.log := hopen
          exact .inl (hsame ▸ hr)
      | some pMem =>
          intro r hr
          have hmapped : held views ((s.openMapping filename size' create kernel).call
              (.mapViewOfFile filename h (some pMem))).log = held views s.log ++ [(filename, pMem)] := by
            rw [← hopen]
            exact held_snoc_acquire rfl rfl
          simp only [views_keepSegment.held_eq, hmapped, List.mem_append, List.mem_singleton] at hr
          exact hr.imp_right fun hnew => by rw [hnew]

theorem origins_step {calls : List Call} (run : Run) (c : Call) (run' : Run) (hc : c ∈ calls)
    (h : Complete run ∧ Origins calls run) (hstep : step run c = .ok run') :
    Complete run' ∧ Origins calls run' := by
  refine ⟨complete_step run c run' h.1 hstep, ?_⟩
  cases hrel : c.releases with
  | none =>
      cases c with
      | openSegment filename size create kernel =>
          cases hstep
          constructor
          · intro filename' addr handle hun
            rcases un_open filename' _ hun with hold | ⟨addr', handle', hnew, hkernel⟩
            · exact h.2.stored filename' addr handle hold
            · cases hnew
              exact ⟨filename, size, create, kernel, hc, hkernel⟩
          · intro r hr
            rcases views_open r hr with hold | hnew
            · exact h.2.live r hold
            · exact ⟨filename, size, create, kernel, hc, hnew⟩
      | disconnect | delete =>
          cases hrel
  | some filename =>
      rw [step_releases hrel] at hstep
      cases hun : run.shm.un filename with
      | none =>
          simp [Shm.sharedMemoryDisconnect, hun, Except.map] at hstep
      | some segment =>
          rcases h.1 filename segment hun with ⟨addr, handle, rfl⟩
          rw [disconnect_run hun] at hstep
          cases hstep
          constructor
          · exact h.2.stored
          · intro r hr
            have hviews := (@held_disconnect run.shm addr handle).1
            exact h.2.live r (List.mem_filter.1 (hviews ▸ hr)).1

/-- With handles apart from addresses no release is right. -/
theorem not_fits_of_apart {calls : List Call} {run : Run} {c : Call} {filename : String}
    (hapart : Apart calls) (h : Origins calls run) (hc : c.releases = some filename) :
    ¬ FitsHandles run c := by
  intro hfits
  rcases hfits filename hc with ⟨addr, handle, hun, hcoincides⟩
  rcases hcoincides.view_live with ⟨r, hr, heq⟩
  exact hapart handle ⟨h.stored filename addr handle hun, heq ▸ h.live r hr⟩

def atStart : Run := ⟨start, none⟩

theorem balanced_start : Balanced atStart where
  views := releasesHeld_nil
  handles := releasesHeld_nil
  released := by
    intro c filename hlast
    cases hlast

theorem complete_start : Complete atStart := by
  intro filename segment hun
  cases hun

theorem origins_start (calls : List Call) : Origins calls atStart where
  stored := by
    intro filename addr handle hun
    cases hun
  live := by
    intro r hr
    cases hr

/-- A segment with handle 92 and a view at 1048576 is opened and disconnected. -/
def openAndDisconnect : List Call :=
  [.openSegment "seg" 100 true ⟨some 92, some 1048576⟩, .disconnect "seg"]

end Windows
end SharedMemory
end LuajitTcpServer
