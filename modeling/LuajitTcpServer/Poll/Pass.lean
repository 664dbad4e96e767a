import LuajitTcpServer.Socket

/-!
# Pass — one call of `poll()`

`poll` asks the kernel for the events of the registered descriptors and calls `poll_event` for
each slot that has some.  The callbacks are the application's: they may add and remove
descriptors while the loop runs, but the loop keeps the bound `nfds` had when it started and
reads the slots as they are when it comes to them.
-/

namespace LuajitTcpServer
namespace Poll

open Hoare

variable {α : Type}

/-! ## Events -/

def POLLIN : Events := 0x001
def POLLOUT : Events := 0x004
def POLLERR : Events := 0x008
def POLLHUP : Events := 0x010
def POLLNVAL : Events := 0x020

/-- `band(evt, flag) ~= 0`. -/
def has (evt flag : Events) : Bool := evt &&& flag != 0

structure Callbacks (α : Type) where
  inCallback : Fd → Prog α Unit
  outCallback : Fd → Prog α Unit
  closeCallback : Fd → Prog α Unit
  errorCallback : Fd → String → Prog α Unit

/-- `poll_event`.  The debug version makes the same tests and only prints more. -/
def pollEvent (cb : Callbacks α) (evt : Events) (fd : Fd) : Prog α Unit := do
  let w ← get
  record (.pollEvent evt fd ((w.table.fds.take w.table.nfds).map PollFd.fd))
  if has evt POLLHUP then cb.closeCallback fd
  else if has evt POLLIN then cb.inCallback fd
  else if has evt POLLOUT then cb.outCallback fd
  else if has evt POLLNVAL then cb.errorCallback fd "POLLNVAL"
  else if has evt POLLERR then cb.errorCallback fd "POLLERR"
  else pure ()

/-! ## The kernel -/

/-- What `poll(2)` does: fail, or write `revents` into each slot it was given. -/
inductive KernelAnswer
  | failed
  | ready (revents : Nat → Events)

/-- The slots among the first `nfds` that get events; their number is what `poll(2)` returns. -/
def readySlots (nfds : Nat) (revents : Nat → Events) : List Nat :=
  (List.range nfds).filter fun i => revents i != 0

/-- The slots after the kernel has written `revents` into the first `nfds`. -/
def writeRevents (fds : List PollFd) (nfds : Nat) (revents : Nat → Events) : List PollFd :=
  fds.mapIdx fun i slot => if i < nfds then { slot with revents := revents i } else slot

/-- The kernel writes these events into the slots from 0 on. -/
def written (evts : List Events) (i : Nat) : Events := evts.getD i 0

def socketPoll (answer : KernelAnswer) (nfds : Nat) (_timeout : Int) : PollM Int :=
  match answer with
  | .failed => pure (-1)
  | .ready revents => do
      modify fun t => { t with fds := writeRevents t.fds nfds revents }
      pure (readySlots nfds revents).length

/-! ## The pass -/

/-- The body of the loop of `poll` for slot `i`. -/
def serveSlot (cb : Callbacks α) (i : Nat) : Prog α Unit := do
  modify fun w => { w with cursor := i }
  let slot ← onTable (readSlot i)
  let evt := slot.revents
  if evt ≠ 0 then do
    let slot ← onTable (readSlot i)
    pollEvent cb evt slot.fd
  else pure ()

/-- The loop of `poll`.  `served` stays 0, so `served == ret` never ends it early. -/
def serveSlots (cb : Callbacks α) (ret : Int) (nfds : Nat) : Prog α Unit :=
  let served : Int := 0
  forUntil (fun i => do
    serveSlot cb i
    pure (decide (served = ret))) nfds 0

def poll (cb : Callbacks α) (answer : KernelAnswer) : Prog α Int := do
  onTable (modify fun t => { t with pollCount := t.pollCount + 1 })
  let t ← onTable get
  let ret ← onTable (socketPoll answer t.nfds t.timeout)
  if ret = -1 then do
    let slot ← onTable (readSlot 0)
    Socket.cleanup (some slot.fd) ret "socket.poll failed with error: "
  else pure ()
  if ret = 0 then
    pure 0
  else do
    let t ← onTable get
    serveSlots cb ret t.nfds
    pure ret

end Poll
end LuajitTcpServer
