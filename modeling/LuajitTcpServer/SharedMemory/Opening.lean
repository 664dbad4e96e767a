import LuajitTcpServer.SharedMemory.Mmap
import LuajitTcpServer.SharedMemory.PosixLedgers
import LuajitTcpServer.SharedMemory.Windows

/-!
# Opening — what a process sees after `sharedMemoryOpen`

The `mmap` functions take a new segment from `sharedMemoryOpen`, of which there is one for Windows
and one for OSX and Linux.  `Outcome` is what both promise, whatever the kernel answers: a new
mapping beside all others, or a failure.  A `Backend` comes with the proof of it (`posix`,
`windows`).
-/

namespace LuajitTcpServer
namespace SharedMemory
namespace Session

open ByteMemory Mmap ResourceLog

/-! ## Outcomes -/

/-- A range of addresses that a segment is mapped at. -/
structure Range where
  addr : Int
  length : Int
  deriving DecidableEq, Repr

def Range.Apart (r r' : Range) : Prop := r.addr + r.length ≤ r'.addr ∨ r'.addr + r'.length ≤ r.addr

instance (r r' : Range) : Decidable (r.Apart r') := inferInstanceAs (Decidable (_ ∨ _))

/-- Nothing is seen at page 0. -/
def NullPage (space : Space Cell) : Prop := ∀ a, 0 ≤ a → a < 4096 → space a = none

/-- A new mapping beside all others. -/
structure Opens (ranges : List Range) (space : Space Cell) (size : Int) (create : Bool)
    (object : String) (opened : Opened) (ranges' : List Range) (r : Range) : Prop where
  address_eq : opened.address = some r.addr
  page : 4096 ≤ r.addr
  holds : create = true → 0 < size → size ≤ r.length
  apart : ∀ r' ∈ ranges, r'.Apart r
  ranges_eq : ranges' = ranges ++ [r]
  space_eq : opened.space = mapAt r.addr object r.length space

/-- A new mapping; a create that has failed; a connect that has failed and changed nothing the
process sees. -/
inductive Outcome (ranges : List Range) (space : Space Cell) (size : Int) (create : Bool)
    (object : String) (opened : Opened) (ranges' : List Range) : Prop
  | mapped (r : Range) : Opens ranges space size create object opened ranges' r →
      Outcome ranges space size create object opened ranges'
  | createFailed : create = true → opened.address = none → NullPage opened.space →
      Outcome ranges space size create object opened ranges'
  | connectFailed : create = false → ranges' = ranges → opened.space = space →
      Outcome ranges space size create object opened ranges'

/-- One of the two `sharedMemoryOpen`, with the variables and the kernel's answers it works on.
`object` is what the kernel has behind the name.  No result stands for a call that does not
return. -/
structure Backend where
  Shm : Type
  Kernel : Type
  start : Shm
  ranges : Shm → List Range
  openSegment : Shm → Space Cell → String → Int → Bool → Kernel → String → Option (Opened × Shm)
  outcome : ∀ s space filename size create kernel object opened s', NullPage space →
    openSegment s space filename size create kernel object = some (opened, s') →
    Outcome (ranges s) space size create object opened (ranges s')

theorem nullPage_mapAt {addr size : Int} {object : String} {space : Space Cell}
    (h : NullPage space) (haddr : 4096 ≤ addr) : NullPage (mapAt addr object size space) := by
  intro a ha hlt
  have hout : ¬ (addr ≤ a ∧ a < addr + size) := by omega
  simpa only [mapAt, if_neg hout] using h a ha hlt

/-- The address space after an open still has nothing at page 0. -/
theorem Outcome.nullPage {ranges ranges' : List Range} {space : Space Cell} {size : Int}
    {create : Bool} {object : String} {opened : Opened}
    (h : Outcome ranges space size create object opened ranges') (hnull : NullPage space) :
    NullPage opened.space := by
  cases h with
  | mapped r hopens =>
      rw [hopens.space_eq]
      exact nullPage_mapAt hnull hopens.page
  | createFailed _ _ hspace =>
      exact hspace
  | connectFailed _ _ hspace =>
      rw [hspace]
      exact hnull

/-! ## OSX and Linux -/

section PosixBackend

variable {filename : String} {size : Int} {create : Bool} {kernel : Posix.Kernel} {object : String}
  {s : Posix.Shm} {space : Space Cell}

/-- What a system call changes in the address space; `object` is what `shm_open` has opened.  Whole
pages are unmapped. -/
def seen (object : String) (space : Space Cell) : Posix.Syscall → Space Cell
  | .mmap _ size _ _ addr =>
      if addr = Posix.MAP_FAILED then space else mapAt addr object size space
  | .munmap addr size =>
      if addr = Posix.MAP_FAILED then space
      else fun a => if addr ≤ a ∧ a / 4096 * 4096 < addr + size then none else space a
  | _ => space

/-- `sharedMemoryOpen` returns the entry of its table. -/
theorem open_result (size : Option Int) :
    (s.sharedMemoryOpen filename size create kernel).1 =
      (s.sharedMemoryOpen filename size create kernel).2.sharedMemory filename := by
  unfold Posix.Shm.sharedMemoryOpen
  generalize s.openObject filename size create kernel = s₁
  by_cases hfd : kernel.shmOpen ≥ 0
  · by_cases hret : (s₁.truncate create kernel).1 = 0
    · by_cases haddr : (s₁.truncate create kernel).2.mmapAnswer kernel.mmap ≠ Posix.MAP_FAILED
      · simp [hfd, hret, haddr]
      · simp [hfd, hret, haddr]
    · simp [hfd, hret]
  · simp [hfd]

def posixRanges (s : Posix.Shm) : List Range := s.live.map fun m => ⟨m.addr, m.size⟩

/-- `sharedMemoryOpen`, and what the process sees after it. -/
def posixOpen (s : Posix.Shm) (space : Space Cell) (filename : String) (size : Int) (create : Bool)
    (kernel : Posix.Kernel) (object : String) : Opened × Posix.Shm :=
  let (address, s') := s.sharedMemoryOpen filename (some size) create kernel
  (⟨address, (s'.log.drop s.log.length).foldl (seen object) space⟩, s')

theorem posixOpen_address :
    (posixOpen s space filename size create kernel object).1.address =
      (posixOpen s space filename size create kernel object).2.sharedMemory filename :=
  open_result (some size)

/-- The process sees what the new system calls have changed. -/
theorem posixOpen_space {events : List Posix.Syscall}
    (hlog : (posixOpen s space filename size create kernel object).2.log = s.log ++ events) :
    (posixOpen s space filename size create kernel object).1.space =
      events.foldl (seen object) space := by
  have hnew : (s.sharedMemoryOpen filename (some size) create kernel).2.log = s.log ++ events := hlog
  simp only [posixOpen, hnew, List.drop_left]

/-- The system calls of `shared_memory_clear`. -/
def clearCalls (filename : String) (s : Posix.Shm) : List Posix.Syscall :=
  (match s.sharedMemory filename with
    | some addr => [.munmap addr s.shmemSize]
    | none => []) ++
  (match s.shFD filename with
    | some fd => [.close fd]
    | none => []) ++
  (match s.shmName filename with
    | some name => [.shmUnlink name]
    | none => [])

theorem clear_log : (s.sharedMemoryClear filename).log = s.log ++ clearCalls filename s := by
  unfold Posix.Shm.sharedMemoryClear clearCalls
  cases haddr : s.sharedMemory filename <;> cases hfd : s.shFD filename <;>
    cases hname : s.shmName filename <;>
    simp [Posix.Shm.munmap, Posix.Shm.close, Posix.Shm.unlink, Posix.Shm.forget, Posix.Shm.call,
      haddr, hfd, hname]

theorem clear_sharedMemory : (s.sharedMemoryClear filename).sharedMemory filename = none := by
  simp [Posix.Shm.sharedMemoryClear, Posix.Shm.forget]

/-- `shared_memory_clear` maps nothing. -/
theorem nullPage_clear {space : Space Cell} (h : NullPage space) :
    NullPage ((clearCalls filename s).foldl (seen object) space) := by
  have hunmap : ∀ addr n, NullPage (seen object space (.munmap addr n)) := by
    intro addr n a ha hlt
    by_cases hfail : addr = Posix.MAP_FAILED
    · simpa [seen, hfail] using h a ha hlt
    · simp [seen, hfail, h a ha hlt]
  unfold clearCalls
  cases s.sharedMemory filename <;> cases s.shFD filename <;> cases s.shmName filename <;>
    first | exact h | exact hunmap _ _

/-- Without an address in the table, or with `MAP_FAILED` there, the address space stays. -/
theorem seen_clear {space : Space Cell}
    (hfail : s.sharedMemory filename = some Posix.MAP_FAILED) :
    (clearCalls filename s).foldl (seen object) space = space := by
  unfold clearCalls
  rw [hfail]
  cases s.shFD filename <;> cases s.shmName filename <;> simp [seen]

/-- System calls that leave the address space alone. -/
def Unseen (events : List Posix.Syscall) : Prop :=
  ∀ object space, events.foldl (seen object) space = space

theorem readyToMap_log (size : Option Int) :
    ∃ events, (s.readyToMap filename size create kernel).log = s.log ++ events ∧ Unseen events := by
  cases create with
  | true =>
      refine ⟨[.shmOpen filename true kernel.shmOpen,
        .ftruncate kernel.shmOpen (s.sizeAfter size) kernel.ftruncate], ?_, fun _ _ => rfl⟩
      simp [Posix.Shm.readyToMap, Posix.Shm.truncate, Posix.Shm.openObject, Posix.Shm.call]
  | false =>
      exact ⟨[.shmOpen filename false kernel.shmOpen], rfl, fun _ _ => rfl⟩

theorem mapObject_log : (s.mapObject filename create kernel).log =
    s.log ++ [.mmap filename s.shmemSize create kernel.shmOpen (s.mmapAnswer kernel.mmap)] := rfl

theorem finishOpen_log (addr : Int) :
    ∃ events, (s.finishOpen create kernel addr).log = s.log ++ events ∧ Unseen events := by
  cases create with
  | true =>
      refine ⟨[.fill addr s.shmemSize, .close kernel.shmOpen], ?_, fun _ _ => rfl⟩
      simp [Posix.Shm.finishOpen, Posix.Shm.call]
  | false =>
      exact ⟨[.close kernel.shmOpen], rfl, fun _ _ => rfl⟩

/-- An open that ends in `shared_memory_clear`, after calls that have changed nothing the process
sees, returns nothing and maps nothing. -/
theorem posixOpen_cleared {s' : Posix.Shm} (hnull : NullPage space) {events : List Posix.Syscall}
    (hshm : (posixOpen s space filename size create kernel object).2 = s'.sharedMemoryClear filename)
    (hlog : s'.log = s.log ++ events) (hunseen : events.foldl (seen object) space = space) :
    (posixOpen s space filename size create kernel object).1.address = none ∧
      NullPage (posixOpen s space filename size create kernel object).1.space := by
  have hall : (posixOpen s space filename size create kernel object).2.log =
      s.log ++ (events ++ clearCalls filename s') := by
    rw [hshm, clear_log, hlog, List.append_assoc]
  constructor
  · rw [posixOpen_address, hshm, clear_sharedMemory]
  · rw [posixOpen_space hall, List.foldl_append, hunseen]
    exact nullPage_clear hnull

theorem posix_refused (hnull : NullPage space) (hfd : ¬ kernel.shmOpen ≥ 0) :
    Outcome (posixRanges s) space size create object
      (posixOpen s space filename size create kernel object).1
      (posixRanges (posixOpen s space filename size create kernel object).2) := by
  have hshm := @Posix.Shm.open_refused filename (some size) create kernel s hfd
  cases create with
  | true =>
      rcases @posixOpen_cleared filename size true kernel object s space _ hnull
          [.shmOpen filename true kernel.shmOpen] hshm rfl rfl with ⟨haddress, hspace⟩
      exact .createFailed rfl haddress hspace
  | false =>
      refine .connectFailed rfl ?_ ?_
      · have hlive : (posixOpen s space filename size false kernel object).2.live = s.live := by
          calc (posixOpen s space filename size false kernel object).2.live
              = (s.openObject filename (some size) false kernel).live := congrArg Posix.Shm.live hshm
            _ = s.live := Posix.begun_openObject.live_eq
        rw [posixRanges, posixRanges, hlive]
      · exact @posixOpen_space filename size false kernel object s space
          [.shmOpen filename false kernel.shmOpen] (congrArg Posix.Shm.log hshm)

theorem posix_not_mapped (hnull : NullPage space) (hfd : kernel.shmOpen ≥ 0)
    (hret : ¬ (create = true ∧ kernel.ftruncate ≠ 0))
    (hfail : (s.readyToMap filename (some size) create kernel).mmapAnswer kernel.mmap =
      Posix.MAP_FAILED) :
    Outcome (posixRanges s) space size create object
      (posixOpen s space filename size create kernel object).1
      (posixRanges (posixOpen s space filename size create kernel object).2) := by
  have hshm := Posix.Shm.open_not_mapped hfd hret hfail
  rcases @readyToMap_log filename create kernel s (some size) with ⟨events, hlog, hunseen⟩
  -- the `mmap` that has failed leaves the address space alone
  let failed : Posix.Syscall := .mmap filename
    (s.readyToMap filename (some size) create kernel).shmemSize create kernel.shmOpen
    ((s.readyToMap filename (some size) create kernel).mmapAnswer kernel.mmap)
  have hlog' : ((s.readyToMap filename (some size) create kernel).mapObject filename create
      kernel).log = s.log ++ (events ++ [failed]) := by
    rw [mapObject_log, hlog, List.append_assoc]
  have hunseen' : (events ++ [failed]).foldl (seen object) space = space := by
    rw [List.foldl_append, hunseen]
    simp [failed, seen, hfail]
  cases create with
  | true =>
      rcases posixOpen_cleared hnull hshm hlog' hunseen' with ⟨haddress, hspace⟩
      exact .createFailed rfl haddress hspace
  | false =>
      refine .connectFailed rfl ?_ ?_
      · have hlive : (posixOpen s space filename size false kernel object).2.live = s.live := by
          calc (posixOpen s space filename size false kernel object).2.live
              = (((s.readyToMap filename (some size) false kernel).mapObject filename false
                  kernel).sharedMemoryClear filename).live := congrArg Posix.Shm.live hshm
            _ = (s.readyToMap filename (some size) false kernel).live :=
                Posix.live_mapFailed_clear hfail
            _ = s.live := Posix.begun_readyToMap.live_eq
        rw [posixRanges, posixRanges, hlive]
      · have hall : (posixOpen s space filename size false kernel object).2.log = s.log ++
            (events ++ [failed] ++ clearCalls filename
              ((s.readyToMap filename (some size) false kernel).mapObject filename false
                kernel)) := by
          rw [← List.append_assoc, ← hlog', ← clear_log]
          exact congrArg Posix.Shm.log hshm
        rw [posixOpen_space hall, List.foldl_append, hunseen']
        exact seen_clear (Posix.sharedMemory_mapFailed hfail)

theorem posix_mapped (hfd : kernel.shmOpen ≥ 0)
    (hret : ¬ (create = true ∧ kernel.ftruncate ≠ 0))
    (hok : (s.readyToMap filename (some size) create kernel).mmapAnswer kernel.mmap ≠
      Posix.MAP_FAILED) :
    Opens (posixRanges s) space size create object
      (posixOpen s space filename size create kernel object).1
      (posixRanges (posixOpen s space filename size create kernel object).2)
      ⟨(s.readyToMap filename (some size) create kernel).mmapAnswer kernel.mmap,
        s.sizeAfter (some size)⟩ := by
  have hshm := Posix.Shm.open_mapped hfd hret hok
  have hready := @Posix.begun_readyToMap filename (some size) create kernel s
  rcases @readyToMap_log filename create kernel s (some size) with ⟨events, hlog, hunseen⟩
  generalize s.readyToMap filename (some size) create kernel = s₁ at hshm hready hlog hok ⊢
  rcases Posix.admits_of_mapped hok with ⟨hpos, hpage, hfree⟩
  rcases Posix.mappings_finishOpen create kernel (s₁.mmapAnswer kernel.mmap)
    (s₁.mapObject filename create kernel) with ⟨hneutral, htable, -⟩
  rcases @finishOpen_log create kernel (s₁.mapObject filename create kernel)
    (s₁.mmapAnswer kernel.mmap) with ⟨events', hlog', hunseen'⟩
  constructor
  · rw [posixOpen_address]
    calc (posixOpen s space filename size create kernel object).2.sharedMemory filename
        = (s₁.mapObject filename create kernel).sharedMemory filename :=
          congrFun ((congrArg Posix.Shm.sharedMemory hshm).trans htable) filename
      _ = some (s₁.mmapAnswer kernel.mmap) := Function.update_self _ _ _
  · show 4096 ≤ s₁.mmapAnswer kernel.mmap
    omega
  · exact fun _ hsize => Int.le_of_eq (if_pos hsize).symm
  · intro r hr
    rcases List.mem_map.1 hr with ⟨m, hm, rfl⟩
    rw [← hready.live_eq] at hm
    rw [← hready.size_eq]
    exact hfree m hm
  · have hlive : (posixOpen s space filename size create kernel object).2.live =
        s₁.live ++ [⟨filename, s₁.mmapAnswer kernel.mmap, s₁.shmemSize⟩] := by
      calc (posixOpen s space filename size create kernel object).2.live
          = (s₁.mapObject filename create kernel).live :=
            (congrArg Posix.Shm.live hshm).trans hneutral.held_eq
        _ = s₁.live ++ [⟨filename, s₁.mmapAnswer kernel.mmap, s₁.shmemSize⟩] :=
            Posix.live_mapObject hok
    rw [posixRanges, posixRanges, hlive, hready.live_eq, hready.size_eq, List.map_append]
    rfl
  · have hall : (posixOpen s space filename size create kernel object).2.log = s.log ++
        (events ++ [.mmap filename s₁.shmemSize create kernel.shmOpen (s₁.mmapAnswer kernel.mmap)] ++
          events') := by
      calc (posixOpen s space filename size create kernel object).2.log
          = (s₁.mapObject filename create kernel).log ++ events' :=
            (congrArg Posix.Shm.log hshm).trans hlog'
        _ = _ := by simp only [mapObject_log, hlog, List.append_assoc]
    rw [posixOpen_space hall, List.foldl_append, List.foldl_append, hunseen, hunseen',
      ← hready.size_eq]
    simp [seen, hok]

theorem posix_outcome (hnull : NullPage space) :
    Outcome (posixRanges s) space size create object
      (posixOpen s space filename size create kernel object).1
      (posixRanges (posixOpen s space filename size create kernel object).2) := by
  by_cases hfd : kernel.shmOpen ≥ 0
  · by_cases hret : create = true ∧ kernel.ftruncate ≠ 0
    · -- a create whose `ftruncate` fails
      rcases @readyToMap_log filename create kernel s (some size) with ⟨events, hlog, hunseen⟩
      rcases posixOpen_cleared hnull (Posix.Shm.open_not_truncated hfd hret) hlog
        (hunseen object space) with ⟨haddress, hspace⟩
      exact .createFailed hret.1 haddress hspace
    · by_cases hok : (s.readyToMap filename (some size) create kernel).mmapAnswer kernel.mmap =
          Posix.MAP_FAILED
      · exact posix_not_mapped hnull hfd hret hok
      · exact .mapped _ (posix_mapped hfd hret hok)
  · exact posix_refused hnull hfd

end PosixBackend

def posix : Backend where
  Shm := Posix.Shm
  Kernel := Posix.Kernel
  start := Posix.start
  ranges := posixRanges
  openSegment s space filename size create kernel object :=
    some (posixOpen s space filename size create kernel object)
  outcome := by
    intro s space filename size create kernel object opened s' hnull hopen
    rw [Option.some.injEq] at hopen
    have houtcome := @posix_outcome filename size create kernel object s space hnull
    rwa [hopen] at houtcome

/-! ## Windows -/

section WindowsBackend

/-- The module, and the views it has mapped. -/
structure WindowsShm where
  shm : Windows.Shm
  views : List Range

/-- `viewSize` is the size of the file mapping.  A create of a name that exists opens the old one,
with the size it has. -/
structure WindowsKernel where
  fileMapping : Option Int
  mapView : Option Int
  viewSize : Int

/-- The kernel maps a view in a free range, and never at page 0. -/
def WindowsKernel.viewAnswer (kernel : WindowsKernel) (views : List Range) : Option Int :=
  kernel.mapView.filter fun addr =>
    decide (4096 ≤ addr ∧ ∀ r ∈ views, r.Apart ⟨addr, kernel.viewSize⟩)

/-- `sharedMemoryOpen`, and what the process sees after it.  `ffi.fill` does not return if it comes
to the end of the view. -/
def windowsOpen (s : WindowsShm) (space : Space Cell) (filename : String) (size : Int)
    (create : Bool) (kernel : WindowsKernel) (object : String) : Option (Opened × WindowsShm) :=
  let (address, shm) := s.shm.sharedMemoryOpen filename size create
    ⟨kernel.fileMapping, kernel.viewAnswer s.views⟩
  match address with
  | none => some (⟨none, space⟩, { s with shm := shm })
  | some addr =>
      if create = true ∧ kernel.viewSize < (if size < 65536 then 65536 else size) then none
      else
        some (⟨some addr, mapAt addr object kernel.viewSize space⟩,
          ⟨shm, s.views ++ [⟨addr, kernel.viewSize⟩]⟩)

variable {filename : String} {size : Int} {create : Bool} {object : String} {space : Space Cell}

theorem windows_address {s : Windows.Shm} {kernel : Windows.Kernel} {addr : Int}
    (haddr : (s.sharedMemoryOpen filename size create kernel).1 = some addr) :
    kernel.mapView = some addr := by
  rcases kernel with ⟨fileMapping, mapView⟩
  cases fileMapping with
  | none =>
      simp [Windows.Shm.sharedMemoryOpen] at haddr
  | some handle =>
      cases mapView with
      | none =>
          simp [Windows.Shm.sharedMemoryOpen] at haddr
      | some pMem =>
          simpa [Windows.Shm.sharedMemoryOpen] using haddr

theorem windows_outcome {s s' : WindowsShm} {kernel : WindowsKernel} {opened : Opened}
    (hnull : NullPage space)
    (hopen : windowsOpen s space filename size create kernel object = some (opened, s')) :
    Outcome s.views space size create object opened s'.views := by
  unfold windowsOpen at hopen
  rcases Option.eq_none_or_eq_some (s.shm.sharedMemoryOpen filename size create
    ⟨kernel.fileMapping, kernel.viewAnswer s.views⟩).1 with hnone | ⟨addr, haddr⟩
  · simp only [hnone, Option.some.injEq, Prod.mk.injEq] at hopen
    rcases hopen with ⟨rfl, rfl⟩
    cases create with
    | true =>
        exact .createFailed rfl rfl hnull
    | false =>
        exact .connectFailed rfl rfl rfl
  · have hview : kernel.viewAnswer s.views = some addr := windows_address haddr
    rcases Option.filter_eq_some_iff.1 hview with ⟨-, hfree⟩
    rcases of_decide_eq_true hfree with ⟨hpage, hapart⟩
    by_cases hfill : create = true ∧ kernel.viewSize < (if size < 65536 then 65536 else size)
    · simp only [haddr, if_pos hfill] at hopen
      cases hopen
    · simp only [haddr, if_neg hfill, Option.some.injEq, Prod.mk.injEq] at hopen
      rcases hopen with ⟨rfl, rfl⟩
      refine .mapped ⟨addr, kernel.viewSize⟩ ⟨rfl, hpage, fun hcreate _ => ?_, hapart, rfl, rfl⟩
      -- a create has filled the size it was asked for
      have hfilled := Int.not_lt.1 fun hlt => hfill ⟨hcreate, hlt⟩
      show size ≤ kernel.viewSize
      split at hfilled <;> omega

end WindowsBackend

def windows : Backend where
  Shm := WindowsShm
  Kernel := WindowsKernel
  start := ⟨Windows.start, []⟩
  ranges s := s.views
  openSegment := windowsOpen
  outcome _ _ _ _ _ _ _ _ _ := windows_outcome

end Session
end SharedMemory
end LuajitTcpServer
