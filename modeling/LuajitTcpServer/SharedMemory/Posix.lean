import Mathlib.Logic.Function.Basic
import LuajitTcpServer.Lib.CallSeq
import LuajitTcpServer.Lib.ResourceLog

/-!
# Posix — the segments of `lib_shared_memory.lua` under OSX and Linux

The module keeps three tables, indexed by file name, and one size for all segments.  The system
calls it makes are recorded in `log`, with the kernel's answers; the program never reads it.

* `util.cstr(filename)` is the text of the file name.
* Results of `munmap`, `close` and `shm_unlink` are not looked at by the code.
* What is printed is left out.
-/

namespace LuajitTcpServer
namespace SharedMemory
namespace Posix

open ResourceLog

/-! ## System calls -/

def MAP_FAILED : Int := -1

inductive Syscall
  | shmOpen (name : String) (create : Bool) (fd : Int)
  | ftruncate (fd size ret : Int)
  | mmap (name : String) (size : Int) (create : Bool) (fd addr : Int)
  /-- `ffi.fill(addr, size, 0)`. -/
  | fill (addr size : Int)
  | munmap (addr size : Int)
  | close (fd : Int)
  | shmUnlink (name : String)
  deriving DecidableEq, Repr

/-- A range of addresses that `mmap` has returned for a file name. -/
structure Mapping where
  name : String
  addr : Int
  size : Int
  deriving DecidableEq, Repr

/-- Descriptors are returned by `shm_open`, for a file name, and released by their number. -/
def descriptors : Accounts Syscall (String × Int) Int where
  acquired := fun
    | .shmOpen name _ fd => if fd ≥ 0 then some (name, fd) else none
    | _ => none
  released := fun
    | .close fd => some fd
    | _ => none
  key := Prod.snd

/-- The kernel unmaps all that touches the range; at `MAP_FAILED` no page begins. -/
def Mapping.spared (m : Mapping) (addr size : Int) : Bool :=
  decide (addr = MAP_FAILED ∨ m.addr + m.size ≤ addr ∨ addr + size ≤ m.addr)

/-- Mappings are returned by `mmap` and released by their address and length. -/
def mappings : Accounts Syscall Mapping (Int × Int) where
  acquired := fun
    | .mmap name size _ _ addr => if addr = MAP_FAILED then none else some ⟨name, addr, size⟩
    | _ => none
  released := fun
    | .munmap addr size => some (addr, size)
    | _ => none
  key := fun m => (m.addr, m.size)
  spares := fun (addr, size) m => m.spared addr size

/-! ## State -/

/-- The global variables of the module. -/
structure Shm where
  shmemSize : Int
  sharedMemory : String → Option Int
  shFD : String → Option Int
  shmName : String → Option String
  log : List Syscall

/-- After the module has been loaded. -/
def start : Shm :=
  { shmemSize := 4096
    sharedMemory := fun _ => none
    shFD := fun _ => none
    shmName := fun _ => none
    log := [] }

/-- The kernel's answers in one `sharedMemoryOpen`. -/
structure Kernel where
  shmOpen : Int
  ftruncate : Int
  mmap : Int

namespace Shm

def call (event : Syscall) (s : Shm) : Shm := { s with log := s.log ++ [event] }

/-- The live mappings of the process. -/
def live (s : Shm) : List Mapping := held mappings s.log

/-- The kernel maps whole pages, never page 0, in a range that is free; any other answer is a
failure. -/
def admits (s : Shm) (answer : Int) : Bool :=
  decide (0 < answer ∧ 4096 ∣ answer ∧
    ∀ m ∈ s.live, m.addr + m.size ≤ answer ∨ answer + s.shmemSize ≤ m.addr)

def mmapAnswer (s : Shm) (answer : Int) : Int := if s.admits answer then answer else MAP_FAILED

/-! ## Closing -/

/-- `C.munmap(sharedMemory[filename], shmemSize)`, if there is an address in the table. -/
def munmap (filename : String) (s : Shm) : Shm :=
  match s.sharedMemory filename with
  | some addr => s.call (.munmap addr s.shmemSize)
  | none => s

/-- `C.close(shFD[filename])`, if there is a number in the table. -/
def close (filename : String) (s : Shm) : Shm :=
  match s.shFD filename with
  | some fd => s.call (.close fd)
  | none => s

/-- `C.shm_unlink(shmName[filename])`, if there is a name in the table. -/
def unlink (filename : String) (s : Shm) : Shm :=
  match s.shmName filename with
  | some name => s.call (.shmUnlink name)
  | none => s

def forget (filename : String) (s : Shm) : Shm :=
  { s with sharedMemory := Function.update s.sharedMemory filename none }

/-- `shared_memory_clear`.  It is only called when `shFD[filename]` is set; comparing `nil` with 0
would raise. -/
def sharedMemoryClear (filename : String) (s : Shm) : Shm :=
  (((s.munmap filename).close filename).unlink filename).forget filename

def sharedMemoryDisconnect (filename : String) (s : Shm) : Int × Shm :=
  let ret : Int := if s.sharedMemory filename = none then -1 else 0
  let ret := if s.shmName filename = none then -2 else ret
  let s := (s.munmap filename).forget filename
  let s := s.unlink filename
  (ret, { s with shmName := Function.update s.shmName filename none })

/-- The last assignment of the source, to `shmName[filename]`, has a new C string as its key by
then, and changes no entry. -/
def sharedMemoryDelete (filename : String) (s : Shm) : Int × Shm :=
  let ret : Int := if s.sharedMemory filename = none then -1 else 0
  let ret := if s.shFD filename = none then -2 else ret
  let s := (s.munmap filename).forget filename
  let s := s.close filename
  let s := { s with shFD := Function.update s.shFD filename none }
  (ret, s.call (.shmUnlink filename))

/-! ## Opening -/

/-- The size that an open leaves in `shmemSize`. -/
def sizeAfter (size : Option Int) (s : Shm) : Int :=
  match size with
  | some n => if n > 0 then n else s.shmemSize
  | none => s.shmemSize

/-- Up to the call of `shm_open`. -/
def openObject (filename : String) (size : Option Int) (create : Bool) (kernel : Kernel)
    (s : Shm) : Shm :=
  { s with
    shmName := Function.update s.shmName filename (some filename)
    shmemSize := s.sizeAfter size
    shFD := Function.update s.shFD filename (some kernel.shmOpen)
    log := s.log ++ [.shmOpen filename create kernel.shmOpen] }

/-- `ret = C.ftruncate(..)`, or 0. -/
def truncate (create : Bool) (kernel : Kernel) (s : Shm) : Int × Shm :=
  if create then
    (kernel.ftruncate, s.call (.ftruncate kernel.shmOpen s.shmemSize kernel.ftruncate))
  else (0, s)

/-- `sharedMemory[filename] = C.mmap(..)`. -/
def mapObject (filename : String) (create : Bool) (kernel : Kernel) (s : Shm) : Shm :=
  { s with
    sharedMemory :=
      Function.update s.sharedMemory filename (some (s.mmapAnswer kernel.mmap))
    log := s.log ++
      [.mmap filename s.shmemSize create kernel.shmOpen (s.mmapAnswer kernel.mmap)] }

/-- After a successful `mmap`. -/
def finishOpen (create : Bool) (kernel : Kernel) (addr : Int) (s : Shm) : Shm :=
  let s := if create then s.call (.fill addr s.shmemSize) else s
  s.call (.close kernel.shmOpen)

def sharedMemoryOpen (filename : String) (size : Option Int) (create : Bool) (kernel : Kernel)
    (s : Shm) : Option Int × Shm :=
  let s := s.openObject filename size create kernel
  if kernel.shmOpen ≥ 0 then
    let (ret, s) := s.truncate create kernel
    if ret = 0 then
      let addr := s.mmapAnswer kernel.mmap
      let s := s.mapObject filename create kernel
      if addr ≠ MAP_FAILED then
        let s := s.finishOpen create kernel addr
        (s.sharedMemory filename, s)
      else
        let s := s.sharedMemoryClear filename
        (s.sharedMemory filename, s)
    else
      let s := s.sharedMemoryClear filename
      (s.sharedMemory filename, s)
  else
    let s := if create then s.sharedMemoryClear filename else s
    (s.sharedMemory filename, s)

end Shm

/-! ## Sequences of calls -/

inductive Call
  | openSegment (filename : String) (size : Option Int) (create : Bool) (kernel : Kernel)
  | disconnect (filename : String)
  | delete (filename : String)

def Call.exec (s : Shm) : Call → Shm
  | .openSegment filename size create kernel => (s.sharedMemoryOpen filename size create kernel).2
  | .disconnect filename => (s.sharedMemoryDisconnect filename).2
  | .delete filename => (s.sharedMemoryDelete filename).2

/-- No call of the module raises. -/
def step (s : Shm) (c : Call) : Except Empty Shm := .ok (c.exec s)

/-! ## The cases of an open -/

namespace Shm

variable {filename : String} {size : Option Int} {create : Bool} {kernel : Kernel} {s : Shm}

/-- The state in which `mmap` is called. -/
def readyToMap (filename : String) (size : Option Int) (create : Bool) (kernel : Kernel)
    (s : Shm) : Shm :=
  ((s.openObject filename size create kernel).truncate create kernel).2

theorem open_refused (hfd : ¬ kernel.shmOpen ≥ 0) :
    (s.sharedMemoryOpen filename size create kernel).2 =
      if create then (s.openObject filename size create kernel).sharedMemoryClear filename
      else s.openObject filename size create kernel := by
  simp [sharedMemoryOpen, hfd]

theorem open_not_truncated (hfd : kernel.shmOpen ≥ 0)
    (hret : create = true ∧ kernel.ftruncate ≠ 0) :
    (s.sharedMemoryOpen filename size create kernel).2 =
      (s.readyToMap filename size create kernel).sharedMemoryClear filename := by
  simp [sharedMemoryOpen, readyToMap, truncate, hfd, hret]

theorem open_not_mapped (hfd : kernel.shmOpen ≥ 0)
    (hret : ¬ (create = true ∧ kernel.ftruncate ≠ 0))
    (haddr : (s.readyToMap filename size create kernel).mmapAnswer kernel.mmap = MAP_FAILED) :
    (s.sharedMemoryOpen filename size create kernel).2 =
      ((s.readyToMap filename size create kernel).mapObject filename create kernel).sharedMemoryClear
        filename := by
  have hzero : ((s.openObject filename size create kernel).truncate create kernel).1 = 0 := by
    cases create with
    | true =>
        simpa [truncate] using hret
    | false =>
        rfl
  rw [readyToMap] at haddr
  simp [sharedMemoryOpen, readyToMap, hfd, hzero, haddr]

theorem open_mapped (hfd : kernel.shmOpen ≥ 0)
    (hret : ¬ (create = true ∧ kernel.ftruncate ≠ 0))
    (haddr : (s.readyToMap filename size create kernel).mmapAnswer kernel.mmap ≠ MAP_FAILED) :
    (s.sharedMemoryOpen filename size create kernel).2 =
      ((s.readyToMap filename size create kernel).mapObject filename create kernel).finishOpen create
        kernel ((s.readyToMap filename size create kernel).mmapAnswer kernel.mmap) := by
  have hzero : ((s.openObject filename size create kernel).truncate create kernel).1 = 0 := by
    cases create with
    | true =>
        simpa [truncate] using hret
    | false =>
        rfl
  rw [readyToMap] at haddr
  simp [sharedMemoryOpen, readyToMap, hfd, hzero, haddr]

end Shm

end Posix
end SharedMemory
end LuajitTcpServer
