import LuajitTcpServer.Lib.Balance
import LuajitTcpServer.AppServer.Dispatch

/-!
# Totals — the counters of the server are tallies of what happened

The application counts answers, bytes and the callbacks of each kind; `lib_poll.lua` counts the
descriptors that are added and removed.  The counts are spread over the callbacks, some before the
call they count and some after it, and a callback that raises leaves them half done.  At every call
of `poll.poll()` they are what one gets by adding up over the calls on record
(`counters_eq_totals`).
-/

namespace LuajitTcpServer
namespace AppServer

open Hoare Poll

/-! ## What is counted -/

/-- The counters that the server prints at its end. -/
inductive Total
  | answers
  | pollIn
  | pollOut
  | pollClose
  | pollErr
  | bytesReceived
  | bytesSent
  | fdAdds
  | fdRemoves
  deriving DecidableEq, Repr

def Total.shown : Total → Server → Int
  | .answers, w => w.app.answerCount
  | .pollIn, w => w.app.pollInCount
  | .pollOut, w => w.app.pollOutCount
  | .pollClose, w => w.app.pollCloseCount
  | .pollErr, w => w.app.pollErrCount
  | .bytesReceived, w => w.app.totalBytesReceived
  | .bytesSent, w => w.app.totalBytesSent
  | .fdAdds, w => fdAddCount w.table
  | .fdRemoves, w => fdRemoveCount w.table

/-- The callback that the event bits call for: the first one of the bits decides. -/
def calledFor (evt : Events) : Option Total :=
  if has evt POLLHUP then some .pollClose
  else if has evt POLLIN then some .pollIn
  else if has evt POLLOUT then some .pollOut
  else if has evt POLLNVAL || has evt POLLERR then some .pollErr
  else none

/-- One, for the counter that is meant. -/
def Total.one (total meant : Total) : Int := if total = meant then 1 else 0

/-- The positive part of the result of a transfer. -/
def bytes (result : Int) : Int := if result > 0 then result else 0

/-- What an event adds to a counter. -/
def Total.share (total : Total) : Event → Int
  | .pollEvent evt _ _ =>
      match calledFor evt with
      | some meant => total.one meant
      | none => 0
  | .accepted _ => total.one .fdAdds
  | .closed _ => total.one .fdRemoves
  | .received _ _ result => total.one .answers + total.one .bytesReceived * bytes result
  | .sent _ _ result => total.one .bytesSent * bytes result

def Total.tally (total : Total) : List Event → Int
  | [] => 0
  | event :: log => total.share event + total.tally log

theorem Total.tally_append (total : Total) (log : List Event) (event : Event) :
    total.tally (log ++ [event]) = total.tally log + total.share event := by
  induction log with
  | nil =>
      simp [Total.tally]
  | cons first log ih =>
      rw [List.cons_append, Total.tally, Total.tally, ih, Int.add_assoc]

/-- How far a counter is ahead of the tally. -/
def Total.ahead (total : Total) (w : Server) : Int := total.shown w - total.tally w.log

/-! ## The table -/

section Table

variable {n k : Nat}

/-- The counters of the table that are compared. -/
def Counts (n k : Nat) (t : PollTable) : Prop := t.fdAddCount = n ∧ t.fdRemoveCount = k

theorem keeps_readSlot {I : PollTable → Prop} (idx : Nat) : Keeps I (readSlot idx) := by
  intro t ht
  simp only [EStateM.run, readSlot]
  cases t.fds[idx]? with
  | some slot =>
      exact ht
  | none =>
      by_cases hnil : t.fds = []
      · rw [if_pos hnil]
        exact ht
      · rw [if_neg hnil]
        exact ht

theorem keeps_modifySlot (idx : Nat) (f : PollFd → PollFd) :
    Keeps (Counts n k) (modifySlot idx f) :=
  Keeps.bind (keeps_readSlot idx) fun _ => keeps_modify fun _ ht => ht

theorem keeps_fdArrIndexFrom {I : PollTable → Prop} (fd : Fd) (idx : Nat) :
    Keeps I (fdArrIndexFrom fd idx) := by
  induction idx with
  | zero =>
      exact keeps_pure none
  | succ idx ih =>
      exact Keeps.bind (keeps_readSlot idx) fun _ => Keeps.ite (keeps_pure _) ih

theorem keeps_fdArrIndex {I : PollTable → Prop} (fd : Fd) : Keeps I (fdArrIndex fd) :=
  Keeps.bind keeps_get fun t => keeps_fdArrIndexFrom fd t.nfds

theorem keeps_fdArrShowFrom {I : PollTable → Prop} (nfds : Nat) :
    ∀ (count idx : Nat) (txt : String), Keeps I (fdArrShowFrom nfds count idx txt)
  | 0, _, txt => keeps_pure txt
  | count + 1, idx, _ =>
      Keeps.bind (keeps_readSlot idx) fun _ => keeps_fdArrShowFrom nfds count (idx + 1) _

theorem keeps_fdArrShow {I : PollTable → Prop} : Keeps I fdArrShow :=
  Keeps.bind keeps_get fun t =>
    Keeps.bind (keeps_fdArrShowFrom t.nfds t.nfds 0 "fds[") fun _ => keeps_pure _

theorem keeps_debugShow {I : PollTable → Prop} : Keeps I debugShow :=
  Keeps.bind keeps_get fun _ =>
    Keeps.ite (Keeps.bind keeps_fdArrShow fun _ => keeps_pure ()) (keeps_pure ())

theorem keeps_expandFds {I : PollTable → Prop} (oldFds : List PollFd) (countFds : Nat) :
    Keeps I (expandFds oldFds countFds) := by
  refine Keeps.bind keeps_get fun t => ?_
  cases t.heap t.fdAddCount with
  | none =>
      exact fun _ ht => ht
  | some fresh =>
      exact keeps_pure _

theorem keeps_growIfFull : Keeps (Counts n k) growIfFull := by
  intro t ht
  simp only [growIfFull, EStateM.run_bind, EStateM.run_get]
  by_cases hfull : t.nfds ≥ t.fdsListSize
  · rw [if_pos hfull]
    -- the state is written back with the counters it was read with
    have hset : Counts n k { t with fdsListSize := t.fdsListSize + fdsListAddCount } := ht
    have hrest : Keeps (Counts n k) (do
        let fds ← expandFds t.fds (t.fdsListSize + fdsListAddCount)
        modify fun t => { t with fds := fds }) :=
      Keeps.bind (keeps_expandFds _ _) fun _ => keeps_modify fun _ ht => ht
    exact hrest _ hset
  · rw [if_neg hfull]
    exact ht

theorem keeps_makeRoom (idx : Option Nat) : Keeps (Counts n k) (makeRoom idx) := by
  cases idx with
  | none =>
      exact keeps_growIfFull
  | some idx =>
      exact Keeps.bind keeps_fdArrShow fun _ => keeps_pure ()

theorem keeps_appendSlot (fd : Fd) (events : Events) : Keeps (Counts n k) (appendSlot fd events) :=
  Keeps.bind keeps_get fun _ => Keeps.bind (keeps_modifySlot _ _) fun _ =>
    Keeps.bind (keeps_modifySlot _ _) fun _ => keeps_modify fun _ ht => ht

theorem keeps_fillHole (idx : Nat) : Keeps (Counts n k) (fillHole idx) :=
  Keeps.bind keeps_debugShow fun _ => Keeps.bind (keeps_modify fun _ ht => ht) fun _ =>
    Keeps.bind keeps_get fun _ => Keeps.bind (keeps_readSlot _) fun _ =>
      Keeps.bind (keeps_modifySlot _ _) fun _ => Keeps.bind (keeps_modifySlot _ _) fun _ =>
        keeps_debugShow

theorem keeps_clearLast (idx : Nat) : Keeps (Counts n k) (clearLast idx) :=
  Keeps.bind (keeps_modify fun _ ht => ht) fun _ =>
    Keeps.bind (keeps_modifySlot _ _) fun _ => keeps_debugShow

theorem addFd_counted {t t' : PollTable} {fd : Fd} {events : Events}
    (hrun : (addFd fd events).run t = .ok () t') :
    t'.fdAddCount = t.fdAddCount + 1 ∧ t'.fdRemoveCount = t.fdRemoveCount := by
  -- the first statement counts the call, and nothing after it counts again
  have hrest : Keeps (Counts (t.fdAddCount + 1) t.fdRemoveCount) (do
      let idx ← fdArrIndex fd
      makeRoom idx
      appendSlot fd events) :=
    Keeps.bind (keeps_fdArrIndex fd) fun idx =>
      Keeps.bind (keeps_makeRoom idx) fun _ => keeps_appendSlot fd events
  exact hrest.ok (s := { t with fdAddCount := t.fdAddCount + 1 }) ⟨rfl, rfl⟩ hrun

theorem removeFd_counted {t t' : PollTable} {fd : Fd} (hrun : (removeFd fd).run t = .ok () t') :
    t'.fdAddCount = t.fdAddCount ∧ t'.fdRemoveCount = t.fdRemoveCount + 1 := by
  have htriple : Triple (Counts t.fdAddCount t.fdRemoveCount) (removeFd fd)
      (fun _ => Counts t.fdAddCount (t.fdRemoveCount + 1))
      (fun _ => Counts t.fdAddCount (t.fdRemoveCount + 1)) := by
    refine Triple.bind (Q := fun _ => Counts t.fdAddCount (t.fdRemoveCount + 1))
      (fun s hs => ⟨hs.1, congrArg (· + 1) hs.2⟩) fun _ => ?_
    refine Keeps.bind (keeps_fdArrIndex fd) fun idx => Keeps.bind keeps_get fun t₁ => ?_
    cases idx with
    | none =>
        exact fun _ ht => ht
    | some idx =>
        exact Keeps.ite (keeps_fillHole idx) (keeps_clearLast idx)
  exact htriple.ok ⟨rfl, rfl⟩ hrun

end Table

/-! ## Single calls -/

section Calls

variable {total : Total} {β : Type}

theorem moves_count {f : Counters → Counters} {k : Int}
    (h : ∀ w : Server, total.shown { w with app := f w.app } = total.shown w + k) :
    Moves total.ahead (count f) fun _ => k := by
  refine Moves.modify fun w => ?_
  rw [Total.ahead, Total.ahead, h w]
  dsimp only
  omega

theorem moves_record {total : Total} (event : Event) :
    Moves total.ahead (record event) fun _ => -total.share event := by
  refine Moves.modify fun w => ?_
  have hshown : total.shown { w with log := w.log ++ [event] } = total.shown w := by
    cases total <;> rfl
  rw [Total.ahead, Total.ahead, hshown, Total.tally_append]
  omega

/-- A function of the poll module that returns changes what is shown of the table. -/
theorem moves_onTable {x : PollM β} {k : Int}
    (h : ∀ (w : Server) (t : PollTable) (b : β), x.run w.table = .ok b t →
      total.shown { w with table := t } = total.shown w + k) :
    Moves total.ahead (onTable x : Prog Counters β) fun _ => k := by
  intro w b w' hrun
  cases htable : x.run w.table with
  | ok b₁ t =>
      rw [onTable_run_ok htable] at hrun
      cases hrun
      rw [Total.ahead, Total.ahead, h w t b htable]
      dsimp only
      omega
  | error e t =>
      rw [onTable_run_error htable] at hrun
      cases hrun

/-- One that keeps the counters of the table does not show. -/
theorem moves_onTable_keeps {x : PollM β} (h : ∀ n k, Keeps (Counts n k) x) :
    Moves total.ahead (onTable x : Prog Counters β) fun _ => 0 := by
  refine moves_onTable fun w t b hrun => ?_
  rcases (h _ _).ok ⟨rfl, rfl⟩ hrun with ⟨hadd, hremove⟩
  cases total <;> simp [Total.shown, fdAddCount, fdRemoveCount, hadd, hremove]

theorem moves_addFd (fd : Fd) (events : Events) :
    Moves total.ahead (onTable (addFd fd events) : Prog Counters Unit)
      fun _ => total.one .fdAdds := by
  refine moves_onTable fun w t _ hrun => ?_
  rcases addFd_counted hrun with ⟨hadd, hremove⟩
  cases total <;> simp [Total.shown, Total.one, fdAddCount, fdRemoveCount, hadd, hremove]

theorem moves_removeFd (fd : Fd) :
    Moves total.ahead (onTable (removeFd fd) : Prog Counters Unit)
      fun _ => total.one .fdRemoves := by
  refine moves_onTable fun w t _ hrun => ?_
  rcases removeFd_counted hrun with ⟨hadd, hremove⟩
  cases total <;> simp [Total.shown, Total.one, fdAddCount, fdRemoveCount, hadd, hremove]

/-- A change of what the operating system knows does not show. -/
theorem ahead_os (w : Server) (os : Os) : total.ahead { w with os := os } = total.ahead w := by
  cases total <;> rfl

theorem moves_socketClose (sock : Fd) :
    Moves total.ahead (Socket.close sock : Prog Counters Unit)
      fun _ => -total.one .fdRemoves := by
  refine Moves.bind (Moves.modify (k := 0) fun w => ?_) fun _ => ?_
  · rw [ahead_os, Int.add_zero]
  · exact (moves_record (.closed sock)).congr fun _ => by simp [Total.share]

theorem moves_recv (sock : Fd) (length : Nat) :
    Moves total.ahead (Socket.recv sock length : Prog Counters Int)
      fun result => -total.share (.received sock length result) := by
  intro w result w' hrun
  cases hrun
  have hrecord := @moves_record total (.received sock length w.os.nextRecv)
    { w with os := { w.os with recvAnswers := w.os.recvAnswers.tail } } () _ rfl
  rw [hrecord, ahead_os]

theorem moves_send (sock : Fd) (data : List UInt8) :
    Moves total.ahead (Socket.send sock data : Prog Counters Int)
      fun result => -total.share (.sent sock data result) := by
  intro w result w' hrun
  cases hrun
  have hrecord := @moves_record total (.sent sock data w.os.nextSend)
    { w with os := { w.os with sendAnswers := w.os.sendAnswers.tail } } () _ rfl
  rw [hrecord, ahead_os]

theorem moves_accept (sock : Fd) :
    Moves total.ahead (Socket.accept sock : Prog Counters Int)
      fun result => if result > 0 then -total.one .fdAdds else 0 := by
  intro w result w' hrun
  rw [Socket.accept_run] at hrun
  cases hrun
  by_cases hpos : w.os.accept.1 > 0
  · have hrecord := @moves_record total (.accepted w.os.accept.1)
      { w with os := w.os.accept.2 } () _ rfl
    simp only [hpos, if_true]
    rw [ahead_os] at hrecord
    exact hrecord
  · simp only [hpos, if_false]
    rw [ahead_os, Int.add_zero]

/-- `cleanup` with a text does not return. -/
theorem moves_cleanup (sock : Fd) (errnum : Int) {errtext : String} {d : Unit → Int}
    (h : errtext.length > 0) :
    Moves total.ahead (Socket.cleanup (some sock) errnum errtext : Prog Counters Unit) d := by
  intro w a w' hrun
  simp only [Socket.cleanup, h, if_true] at hrun
  cases hrun

end Calls

/-! ## Callbacks -/

section Callbacks

variable (cfg : Config) {total : Total}

theorem moves_close (sock : Fd) : Moves total.ahead (close sock) fun _ => 0 :=
  Moves.bind (moves_removeFd sock) fun _ => (moves_socketClose sock).congr fun _ => by omega

/-- The bytes that `send` has taken are counted if it did not fail. -/
theorem moves_noteSend (sock : Fd) (sendResult : Int) :
    Moves total.ahead (noteSend sock sendResult)
      fun _ => total.share (.sent sock content sendResult) := by
  refine Moves.ite (fun _ => moves_cleanup sock sendResult (by decide)) fun hneg => ?_
  refine Moves.ite (fun hpos => ?_) fun hpos => ?_
  · refine moves_count fun w => ?_
    cases total <;> simp [Total.shown, Total.share, Total.one, bytes, hpos]
  · refine Moves.pure () ?_
    simp [Total.share, bytes, hpos]

theorem moves_closeIf (sock : Fd) :
    Moves total.ahead (if cfg.closeConnection > 0 then close sock else pure ()) fun _ => 0 :=
  Moves.ite (fun _ => moves_close sock) fun _ => Moves.pure () rfl

/-- The count of the received bytes is left over. -/
theorem moves_respond (sock : Fd) (result : Int) :
    Moves total.ahead (respond cfg sock result) fun _ => total.one .bytesReceived * result := by
  have hcount : Moves total.ahead
      (count fun c => { c with totalBytesReceived := c.totalBytesReceived + result })
      fun _ => total.one .bytesReceived * result :=
    moves_count fun w => by cases total <;> simp [Total.shown, Total.one]
  refine Moves.bind hcount fun _ => Moves.bind (moves_send sock content) fun sendResult => ?_
  refine Moves.bind (moves_noteSend sock sendResult) fun _ => ?_
  exact (moves_closeIf cfg sock).congr fun _ => by omega

/-- What is counted before and after `recv` is what the call adds to the tally. -/
theorem moves_answer (sock : Fd) : Moves total.ahead (answer cfg sock) fun _ => 0 := by
  have hcount : Moves total.ahead (count fun c => { c with answerCount := c.answerCount + 1 })
      fun _ => total.one .answers :=
    moves_count fun w => by cases total <;> simp [Total.shown, Total.one]
  refine Moves.bind hcount fun _ => Moves.bind (moves_recv sock buflen) fun result => ?_
  refine Moves.ite (fun hpos => ?_) fun hpos => ?_
  · refine (moves_respond cfg sock result).congr fun _ => ?_
    simp only [Total.share, bytes, hpos, if_true]
    omega
  -- no bytes: the client is closed, whether `recv` failed or not
  · have hclosed : Moves total.ahead (close sock)
        fun _ => 0 - total.one .answers - -total.share (.received sock buflen result) :=
      (moves_close sock).congr fun _ => by
        simp only [Total.share, bytes, hpos, if_false]
        omega
    exact Moves.ite (fun _ => hclosed) fun _ => hclosed

theorem moves_acceptClients (sock : Fd) :
    ∀ fuel, Moves total.ahead (acceptClients sock fuel) fun _ => 0
  | 0 => Moves.pure () rfl
  | fuel + 1 => by
      refine Moves.bind (moves_accept sock) fun clientSocket => ?_
      refine Moves.ite (fun hpos => ?_) fun hpos => ?_
      -- `accept` is counted by the `add_fd` that follows it
      · refine Moves.bind (moves_addFd clientSocket clientEvents) fun _ => ?_
        refine (moves_acceptClients sock fuel).congr fun _ => ?_
        simp only [hpos, if_true]
        omega
      · refine Moves.pure () ?_
        simp only [hpos, if_false]
        omega

theorem moves_inCallback (sock : Fd) :
    Moves total.ahead (inCallback cfg sock) fun _ => total.one .pollIn := by
  have hcount : Moves total.ahead (count fun c => { c with pollInCount := c.pollInCount + 1 })
      fun _ => total.one .pollIn :=
    moves_count fun w => by cases total <;> simp [Total.shown, Total.one]
  have haccept : Moves total.ahead (acceptAll sock) fun _ => 0 :=
    Moves.bind (Moves.get fun _ => rfl) fun w =>
      (moves_acceptClients sock (w.os.acceptAnswers.length + 1)).congr fun _ => rfl
  have hlast : Moves total.ahead (count fun c => { c with pollInCount := c.pollInCount + 1 })
      fun _ => total.one .pollIn - 0 := hcount.congr fun _ => (Int.sub_zero _).symm
  exact Moves.ite (fun _ => Moves.bind haccept fun _ => hlast)
    fun _ => Moves.bind (moves_answer cfg sock) fun _ => hlast

theorem moves_outCallback (sock : Fd) :
    Moves total.ahead (outCallback sock) fun _ => total.one .pollOut :=
  moves_count fun w => by cases total <;> simp [Total.shown, Total.one]

theorem moves_closeCallback (sock : Fd) :
    Moves total.ahead (closeCallback sock) fun _ => total.one .pollClose := by
  refine Moves.bind (moves_close sock) fun _ => moves_count fun w => ?_
  cases total <;> simp [Total.shown, Total.one]

theorem moves_errorCallback (sock : Fd) (eventText : String) :
    Moves total.ahead (errorCallback sock eventText) fun _ => total.one .pollErr := by
  have hbranch : Moves total.ahead
      (close sock >>= fun _ => count fun c => { c with pollErrCount := c.pollErrCount + 1 })
      fun _ => total.one .pollErr := by
    refine Moves.bind (moves_close sock) fun _ => moves_count fun w => ?_
    cases total <;> simp [Total.shown, Total.one]
  exact Moves.ite (fun _ => hbranch) fun _ => hbranch

/-- A call of `poll_event` is recorded before its callback and counted by it. -/
theorem moves_pollEvent (evt : Events) (fd : Fd) :
    Moves total.ahead (pollEvent (callbacks cfg) evt fd) fun _ => 0 := by
  refine Moves.bind (Moves.get fun _ => rfl) fun w => ?_
  refine Moves.bind (moves_record _) fun _ => ?_
  simp only [Total.share, calledFor]
  -- the same tests choose the callback and its counter
  refine Moves.ite (fun h₁ => ?_) fun h₁ => Moves.ite (fun h₂ => ?_) fun h₂ =>
    Moves.ite (fun h₃ => ?_) fun h₃ => Moves.ite (fun h₄ => ?_) fun h₄ =>
      Moves.ite (fun h₅ => ?_) fun h₅ => ?_
  · exact (moves_closeCallback fd).congr fun _ => by simp [h₁]
  · exact (moves_inCallback cfg fd).congr fun _ => by simp [h₁, h₂]
  · exact (moves_outCallback fd).congr fun _ => by simp [h₁, h₂, h₃]
  · exact (moves_errorCallback fd "POLLNVAL").congr fun _ => by simp [h₁, h₂, h₃, h₄]
  · exact (moves_errorCallback fd "POLLERR").congr fun _ => by simp [h₁, h₂, h₃, h₄, h₅]
  · exact Moves.pure () (by simp [h₁, h₂, h₃, h₄, h₅])

end Callbacks

/-! ## Passes -/

section Passes

variable {cfg : Config} {total : Total}

theorem moves_readSlot (i : Nat) :
    Moves total.ahead (onTable (readSlot i) : Prog Counters PollFd) fun _ => 0 :=
  moves_onTable_keeps fun _ _ => keeps_readSlot i

theorem moves_serveSlot (i : Nat) :
    Moves total.ahead (serveSlot (callbacks cfg) i) fun _ => 0 := by
  have hcursor : Moves total.ahead
      (modify fun w => { w with cursor := i } : Prog Counters Unit) fun _ => 0 :=
    Moves.modify fun w => by cases total <;> simp [Total.ahead, Total.shown]
  refine Moves.bind hcursor fun _ => Moves.bind (moves_readSlot i) fun slot => ?_
  refine Moves.ite (fun _ => ?_) fun _ => Moves.pure () rfl
  exact Moves.bind (moves_readSlot i) fun slot' => moves_pollEvent cfg _ _

theorem moves_poll (answer : KernelAnswer) :
    Moves total.ahead (poll (callbacks cfg) answer) fun _ => 0 := by
  have hcount : Moves total.ahead
      (onTable (modify fun t => { t with pollCount := t.pollCount + 1 }) : Prog Counters Unit)
      fun _ => 0 :=
    moves_onTable_keeps fun _ _ => keeps_modify fun _ ht => ht
  have hget : Moves total.ahead (onTable get : Prog Counters PollTable) fun _ => 0 :=
    moves_onTable_keeps fun _ _ => keeps_get
  have hkernel : ∀ nfds timeout, Moves total.ahead
      (onTable (socketPoll answer nfds timeout) : Prog Counters Int) fun _ => 0 := by
    intro nfds timeout
    refine moves_onTable_keeps fun _ _ => ?_
    cases answer with
    | failed =>
        exact keeps_pure _
    | ready revents =>
        exact Keeps.bind (keeps_modify fun _ ht => ht) fun _ => keeps_pure _
  have hrest : ∀ ret : Int, Moves total.ahead
      (if ret = 0 then pure 0
        else onTable get >>= fun t => serveSlots (callbacks cfg) ret t.nfds >>= fun _ => pure ret)
      fun _ => 0 := by
    intro ret
    refine Moves.ite (fun _ => Moves.pure _ rfl) fun _ => Moves.bind hget fun t => ?_
    refine Moves.bind (Moves.forUntil (fun i => ?_) t.nfds 0) fun _ => Moves.pure _ rfl
    exact Moves.bind (moves_serveSlot i) fun _ => Moves.pure _ rfl
  refine Moves.bind hcount fun _ => Moves.bind hget fun t => ?_
  refine Moves.bind (hkernel _ _) fun ret => Moves.ite (fun _ => ?_) fun _ => hrest ret
  -- after a `poll(2)` that failed, `cleanup` ends the pass
  refine Moves.bind (moves_readSlot 0) fun slot => ?_
  exact Moves.bind (d := fun _ => 0) (moves_cleanup slot.fd ret (by decide)) fun _ => hrest ret

/-- What the counters show before the first call: the listen socket has been added. -/
def Total.base (total : Total) : Int := total.one .fdAdds

theorem EventLoop.ahead_eq {cfg : Config} {w : Server} (h : EventLoop cfg w) (total : Total) :
    total.ahead w = total.base := by
  induction h with
  | @start heap opened w hrun =>
      have hstart : total.ahead (initial cfg heap opened) = 0 := by
        cases total <;> rfl
      rw [moves_addFd cfg.listenSocket listenEvents _ () _ hrun, hstart]
      exact Int.zero_add _
  | @pass w w' input ret _ hrun ih =>
      have hfeed : total.ahead (feed input w) = total.ahead w := ahead_os w _
      rw [moves_poll input.answer _ _ _ hrun, hfeed, ih, Int.add_zero]

/-- At every call of `poll.poll()` in the main loop, each counter that the server prints is the
sum of what the calls on record add to it. -/
theorem counters_eq_totals {cfg : Config} {w : Server} (h : EventLoop cfg w) (total : Total) :
    total.shown w = total.base + total.tally w.log := by
  have hahead : total.ahead w = total.base := EventLoop.ahead_eq h total
  rw [Total.ahead] at hahead
  omega

end Passes

theorem counters_eq_totals_sampleLoop :
    Total.fdAdds.shown sampleLoop = Total.fdAdds.base + Total.fdAdds.tally sampleLoop.log :=
  counters_eq_totals eventLoop_sampleLoop .fdAdds

end AppServer
end LuajitTcpServer
