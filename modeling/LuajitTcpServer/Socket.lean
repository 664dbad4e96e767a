import LuajitTcpServer.Poll.Table

/-!
# Socket — the process around the poll table, and the calls of `lib_socket.lua` it makes

A `World` is the poll module's table, the descriptors the operating system has open for the
process, and the variables of the application.  The system calls of a pass are answered from
lists: `Os` holds the answers still to be given, and a list that is used up is answered with -1,
as a non-blocking socket with nothing to report is.

`log` is a record of what was called, in order.  The program never reads it.
-/

namespace LuajitTcpServer

open Poll

/-! ## State -/

inductive Event
  /-- `poll_event` was called, with these descriptors registered at that moment. -/
  | pollEvent (evt : Events) (fd : Fd) (registered : List Fd)
  | accepted (fd : Fd)
  | closed (fd : Fd)
  | received (fd : Fd) (asked : Nat) (result : Int)
  | sent (fd : Fd) (data : List UInt8) (result : Int)
  deriving DecidableEq, Repr

/-- What the operating system knows of the process, and its answers to come. -/
structure Os where
  opened : List Fd
  acceptAnswers : List Int
  recvAnswers : List Int
  sendAnswers : List Int

structure World (α : Type) where
  table : PollTable
  os : Os
  app : α
  /-- The slot the running pass is at. -/
  cursor : Nat
  log : List Event

abbrev Prog (α β : Type) := EStateM Fault (World α) β

variable {α β : Type}

/-- A function of `lib_poll.lua`, run on the table of the process. -/
def onTable (x : PollM β) : Prog α β := fun w =>
  match x.run w.table with
  | .ok b t => .ok b { w with table := t }
  | .error e t => .error e { w with table := t }

def record (event : Event) : Prog α Unit :=
  modify fun w => { w with log := w.log ++ [event] }

/-! ## System calls -/

namespace Os

/-- The kernel never hands out a descriptor that is open; any other answer is a failure. -/
def admits (os : Os) (answer : Int) : Bool :=
  decide (0 < answer) && !os.opened.contains answer

def accept (os : Os) : Int × Os :=
  match os.acceptAnswers with
  | [] => (-1, os)
  | answer :: rest =>
      if os.admits answer then
        (answer, { os with acceptAnswers := rest, opened := answer :: os.opened })
      else
        (-1, { os with acceptAnswers := rest })

/-- The answer the next `recv` gets. -/
def nextRecv (os : Os) : Int := os.recvAnswers.headD (-1)

/-- The answer the next `send` gets. -/
def nextSend (os : Os) : Int := os.sendAnswers.headD (-1)

def close (os : Os) (fd : Fd) : Os :=
  { os with opened := os.opened.filter fun fd' => fd' ≠ fd }

end Os

/-! ## `lib_socket.lua` -/

namespace Socket

def accept (_listenSocket : Fd) : Prog α Int := do
  let w ← get
  let (answer, os) := w.os.accept
  set { w with os := os }
  if answer > 0 then record (.accepted answer)
  pure answer

def recv (sock : Fd) (length : Nat) : Prog α Int := do
  let w ← get
  set { w with os := { w.os with recvAnswers := w.os.recvAnswers.tail } }
  record (.received sock length w.os.nextRecv)
  pure w.os.nextRecv

def send (sock : Fd) (data : List UInt8) : Prog α Int := do
  let w ← get
  set { w with os := { w.os with sendAnswers := w.os.sendAnswers.tail } }
  record (.sent sock data w.os.nextSend)
  pure w.os.nextSend

def close (sock : Fd) : Prog α Unit := do
  modify fun w => { w with os := w.os.close sock }
  record (.closed sock)

/-- Closes the socket it is given, then raises unless the text is empty. -/
def cleanup (socket : Option Fd) (errnum : Int) (errtext : String) : Prog α Unit := do
  if let some sock := socket then close sock
  if errtext.length > 0 then throw (.socketError errtext errnum)

end Socket

/-! ## Runs -/

/-- The world in which a program ends, whether it returns or raises. -/
def endState : EStateM.Result Fault (World α) β → World α
  | .ok _ w => w
  | .error _ w => w

def returns : EStateM.Result Fault (World α) β → Bool
  | .ok _ _ => true
  | .error _ _ => false

theorem eq_ok_of_returns {r : EStateM.Result Fault (World α) β} (h : returns r = true) :
    ∃ b, r = .ok b (endState r) := by
  cases r with
  | ok b w =>
      exact ⟨b, rfl⟩
  | error e w =>
      cases h

/-- The outcomes of `accept`: a descriptor that was not open, or a failure. -/
theorem Os.accept_cases (os : Os) :
    (∃ fd, 0 < fd ∧ fd ∉ os.opened ∧ os.accept.1 = fd ∧ os.accept.2.opened = fd :: os.opened ∧
      os.accept.2.acceptAnswers.length < os.acceptAnswers.length) ∨
    (os.accept.1 = -1 ∧ os.accept.2.opened = os.opened) := by
  unfold Os.accept
  cases hanswers : os.acceptAnswers with
  | nil =>
      exact .inr ⟨rfl, rfl⟩
  | cons answer rest =>
      by_cases hadmits : os.admits answer
      · have hopen : 0 < answer ∧ answer ∉ os.opened := by simpa [Os.admits] using hadmits
        refine .inl ⟨answer, hopen.1, hopen.2, ?_⟩
        simp [hadmits]
      · simp [hadmits]

namespace Socket

theorem accept_run (listenSocket : Fd) (w : World α) :
    (accept listenSocket).run w =
      .ok w.os.accept.1
        { w with
          os := w.os.accept.2
          log := if w.os.accept.1 > 0 then w.log ++ [.accepted w.os.accept.1] else w.log } := by
  by_cases hpos : w.os.accept.1 > 0
  · simp only [accept, EStateM.run_bind, EStateM.run_get, EStateM.run_set, hpos, if_true]
    rfl
  · simp only [accept, EStateM.run_bind, EStateM.run_get, EStateM.run_set, hpos, if_false]
    rfl

end Socket

end LuajitTcpServer
