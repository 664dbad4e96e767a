import LuajitTcpServer.Lib.Hoare

/-!
# Table — the `struct pollfd` array of `lib_poll.lua`

The module keeps its registered descriptors in a C array `fds` of `fdsListSize` slots, the first
`nfds` of which are in use.  This file embeds the functions that change the array (`add_fd`,
`remove_fd`, `expand_fds`) and the ones they search and print it with.

* A slot is only reached through `readSlot` and `modifySlot`.  An index past the allocation is
  undefined behaviour in C; here it stops the program with `Fault.outOfBounds`.
* A Lua error keeps the state reached so far, as it does in the source.
* `print` has no effect on the state and is left out, but what is read to print it is not.
-/

namespace LuajitTcpServer
namespace Poll

/-! ## Data -/

/-- A descriptor, a C `int` that never leaves the range in which Lua numbers agree with it. -/
abbrev Fd := Int

/-- The `short` bit sets `events` and `revents`. -/
abbrev Events := BitVec 16

/-- `struct pollfd`. -/
structure PollFd where
  fd : Fd
  events : Events
  revents : Events
  deriving DecidableEq, Repr

/-- What ends a call early: the errors the sources raise, and the accesses C leaves undefined. -/
inductive Fault
  /-- `remove_fd` did not find its descriptor. -/
  | fdNotFound (fd : Fd) (nfds : Nat)
  /-- `realloc` returned `NULL` in `expand_fds`. -/
  | noMemory
  /-- `fds[idx]` while `fds` is still `nil`. -/
  | nilTable
  /-- `socket.cleanup` was called with an error text. -/
  | socketError (errtext : String) (errnum : Int)
  /-- `fds[idx]` past the allocated slots. -/
  | outOfBounds (idx : Nat)
  deriving DecidableEq, Repr

/-- The text a Lua error carries; an out-of-bounds access raises none. -/
def Fault.text (errortext : Int → String) : Fault → Option String
  | .fdNotFound fd nfds =>
      some ("ERR: Fd was not found from array (poll.remove_fd): fd=" ++ toString fd ++
        ", nfds=" ++ toString nfds)
  | .noMemory => some "Cannot re-allocate memory (poll.expand_fds)"
  | .nilTable => some "attempt to index upvalue 'fds' (a nil value)"
  | .socketError errtext errnum =>
      some ("  SOCKET ERROR: " ++ errtext ++ "(" ++ toString errnum ++ ") " ++ errortext errnum)
  | .outOfBounds _ => none

/-- The module variables of `lib_poll.lua`. -/
structure PollTable where
  /-- The allocated slots, `[]` while `fds` is `nil`. -/
  fds : List PollFd
  nfds : Nat
  pollCount : Nat
  fdsListSize : Nat
  timeout : Int
  debugLevel : Int
  fdAddCount : Nat
  fdRemoveCount : Nat
  /-- What `realloc` answers during the `k`-th `add_fd`: `NULL`, or the bytes it leaves in the
  slots it adds. -/
  heap : Nat → Option (Nat → PollFd)

/-- How many slots one expansion adds. -/
def fdsListAddCount : Nat := 10

/-- The state after `clear_all`. -/
def clearAll (heap : Nat → Option (Nat → PollFd)) : PollTable :=
  { fds := []
    nfds := 0
    pollCount := 0
    fdsListSize := 0
    timeout := 0
    debugLevel := 0
    fdAddCount := 0
    fdRemoveCount := 0
    heap := heap }

abbrev PollM := EStateM Fault PollTable

/-! ## Slot access -/

/-- `fds[idx]` as a value. -/
def readSlot (idx : Nat) : PollM PollFd := fun t =>
  match t.fds[idx]? with
  | some slot => .ok slot t
  | none => if t.fds = [] then .error .nilTable t else .error (.outOfBounds idx) t

/-- `fds[idx]` as the target of an assignment. -/
def modifySlot (idx : Nat) (f : PollFd → PollFd) : PollM Unit := do
  let _ ← readSlot idx
  modify fun t => { t with fds := t.fds.modify idx f }

/-! ## Searching and printing -/

/-- The loop of `fd_arr_index` over the indices below `n`, from the last one down. -/
def fdArrIndexFrom (fd : Fd) : Nat → PollM (Option Nat)
  | 0 => pure none
  | idx + 1 => do
      let slot ← readSlot idx
      if slot.fd = fd then pure (some idx) else fdArrIndexFrom fd idx

/-- `fd_arr_index`; `none` is its `-1`. -/
def fdArrIndex (fd : Fd) : PollM (Option Nat) := do
  let t ← get
  fdArrIndexFrom fd t.nfds

/-- The loop of `fd_arr_show` over `k` slots from `idx` on. -/
def fdArrShowFrom (nfds : Nat) : Nat → Nat → String → PollM String
  | 0, _, txt => pure txt
  | k + 1, idx, txt => do
      let slot ← readSlot idx
      let txt := txt ++ toString slot.fd
      fdArrShowFrom nfds k (idx + 1) (if idx + 1 < nfds then txt ++ ", " else txt)

def fdArrShow : PollM String := do
  let t ← get
  let txt ← fdArrShowFrom t.nfds t.nfds 0 "fds["
  pure (txt ++ "], nfds=" ++ toString t.nfds)

/-- `if debug_level > 0 then print(...fd_arr_show()) end`. -/
def debugShow : PollM Unit := do
  let t ← get
  if t.debugLevel > 0 then
    let _ ← fdArrShow
    pure ()
  else
    pure ()

/-! ## Adding -/

/-- The slots of a `realloc` to `countFds`: the old contents, then whatever the heap held. -/
def reallocated (oldFds : List PollFd) (fresh : Nat → PollFd) (countFds : Nat) : List PollFd :=
  (List.range countFds).map fun i => oldFds.getD i (fresh i)

def expandFds (oldFds : List PollFd) (countFds : Nat) : PollM (List PollFd) := do
  let t ← get
  match t.heap t.fdAddCount with
  | none => throw .noMemory
  | some fresh => pure (reallocated oldFds fresh countFds)

/-- The growth check of `add_fd`.  `fdsListSize` is advanced before `expand_fds` is called. -/
def growIfFull : PollM Unit := do
  let t ← get
  if t.nfds ≥ t.fdsListSize then
    set { t with fdsListSize := t.fdsListSize + fdsListAddCount }
    let fds ← expandFds t.fds (t.fdsListSize + fdsListAddCount)
    modify fun t => { t with fds := fds }
  else
    pure ()

/-- The branch of `add_fd` on the search result: a known descriptor is only reported, and the
growth check belongs to the other branch. -/
def makeRoom : Option Nat → PollM Unit
  | some _ => do
      let _ ← fdArrShow
      pure ()
  | none => growIfFull

/-- The assignments that end `add_fd`; `revents` is not set. -/
def appendSlot (fd : Fd) (events : Events) : PollM Unit := do
  let t ← get
  modifySlot t.nfds fun slot => { slot with fd := fd }
  modifySlot t.nfds fun slot => { slot with events := events }
  modify fun t => { t with nfds := t.nfds + 1 }

def addFd (fd : Fd) (events : Events) : PollM Unit := do
  modify fun t => { t with fdAddCount := t.fdAddCount + 1 }
  let idx ← fdArrIndex fd
  makeRoom idx
  appendSlot fd events

/-! ## Removing -/

/-- The middle branch of `remove_fd`: the last entry's `fd` and `events` fill the hole.  Its
`revents` stay where they are. -/
def fillHole (idx : Nat) : PollM Unit := do
  debugShow
  modify fun t => { t with nfds := t.nfds - 1 }
  let t ← get
  let last ← readSlot t.nfds
  modifySlot idx fun slot => { slot with fd := last.fd }
  modifySlot idx fun slot => { slot with events := last.events }
  debugShow

/-- The end branch of `remove_fd`. -/
def clearLast (idx : Nat) : PollM Unit := do
  modify fun t => { t with nfds := t.nfds - 1 }
  modifySlot idx fun slot => { slot with fd := -1 }
  debugShow

def removeFd (fd : Fd) : PollM Unit := do
  modify fun t => { t with fdRemoveCount := t.fdRemoveCount + 1 }
  let idx ← fdArrIndex fd
  let t ← get
  match idx with
  | none => throw (.fdNotFound fd t.nfds)
  | some idx => if idx ≠ t.nfds - 1 then fillHole idx else clearLast idx

/-! ## Counters -/

def fdCount (t : PollTable) : Nat := t.nfds

def fdAddCount (t : PollTable) : Nat := t.fdAddCount

def fdRemoveCount (t : PollTable) : Nat := t.fdRemoveCount

end Poll
end LuajitTcpServer
