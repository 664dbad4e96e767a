import LuajitTcpServer.AppServer.Callbacks

/-!
# Effects — what a callback of the server does to the process

A callback for a registered client either leaves the table alone, closes that client, or raises
because `send` failed (`client_cases`).  The callback for the listen socket may close it or let
clients in one by one (`acceptClients_triple`).  Every invariant of the server is derived from the
three effects `Kept`, `Closed` and `Joined`.
-/

namespace LuajitTcpServer
namespace AppServer

open Hoare Poll PollTable

/-! ## Effects -/

/-- The event is a transfer of bytes. -/
def IsTransfer : Event → Prop
  | .received _ _ _ | .sent _ _ _ => True
  | _ => False

/-- At most bytes were transferred and counted. -/
structure Kept (w w' : Server) : Prop where
  table_eq : w'.table = w.table
  opened_eq : w'.os.opened = w.os.opened
  log_eq : ∃ io, w'.log = w.log ++ io ∧ ∀ event ∈ io, IsTransfer event

/-- `fd` has been removed from the table and closed. -/
structure Closed (fd : Fd) (w w' : Server) : Prop where
  removed : Removed w.table w'.table fd
  opened_eq : w'.os.opened = w.os.opened.filter fun fd' => fd' ≠ fd
  log_eq : ∃ io, w'.log = w.log ++ (io ++ [.closed fd]) ∧ ∀ event ∈ io, IsTransfer event

/-- The client `fd` has been accepted and added to the table. -/
structure Joined (fd : Fd) (w w' : Server) : Prop where
  pos : 0 < fd
  fresh : fd ∉ w.os.opened
  added : Added w.table w'.table fd clientEvents
  opened_eq : w'.os.opened = fd :: w.os.opened
  log_eq : w'.log = w.log ++ [.accepted fd]

/-- The only errors a pass of the server raises. -/
def Expected : Fault → Prop
  | .noMemory | .socketError _ _ => True
  | _ => False

theorem Expected.ne_fdNotFound {e : Fault} (h : Expected e) (fd : Fd) (nfds : Nat) :
    e ≠ .fdNotFound fd nfds := by
  intro heq
  rw [heq] at h
  exact h

section Composition

variable {fd : Fd} {w w₁ w' : Server}

theorem Kept.refl (w : Server) : Kept w w :=
  ⟨rfl, rfl, [], by simp⟩

theorem Kept.trans (h₁ : Kept w w₁) (h₂ : Kept w₁ w') : Kept w w' := by
  rcases h₁.log_eq with ⟨io₁, hlog₁, hio₁⟩
  rcases h₂.log_eq with ⟨io₂, hlog₂, hio₂⟩
  refine ⟨h₂.table_eq.trans h₁.table_eq, h₂.opened_eq.trans h₁.opened_eq, io₁ ++ io₂, ?_, ?_⟩
  · rw [hlog₂, hlog₁, List.append_assoc]
  · exact List.forall_mem_append.2 ⟨hio₁, hio₂⟩

theorem Closed.after (h₁ : Kept w w₁) (h₂ : Closed fd w₁ w') : Closed fd w w' := by
  rcases h₁.log_eq with ⟨io₁, hlog₁, hio₁⟩
  rcases h₂.log_eq with ⟨io₂, hlog₂, hio₂⟩
  refine ⟨h₁.table_eq ▸ h₂.removed, h₁.opened_eq ▸ h₂.opened_eq, io₁ ++ io₂, ?_, ?_⟩
  · rw [hlog₂, hlog₁]
    simp only [List.append_assoc]
  · exact List.forall_mem_append.2 ⟨hio₁, hio₂⟩

end Composition

/-! ## Single calls -/

section Calls

variable {cfg : Config} {fd : Fd} {w : Server}

theorem count_run (f : Counters → Counters) (w : Server) :
    ∃ w', (count f).run w = .ok () w' ∧ Kept w w' ∧ w'.os = w.os :=
  ⟨_, rfl, ⟨rfl, rfl, [], by simp⟩, rfl⟩

theorem recv_run (sock : Fd) (length : Nat) (w : Server) :
    ∃ w', (Socket.recv sock length).run w = .ok w.os.nextRecv w' ∧ Kept w w' ∧
      w'.os.nextSend = w.os.nextSend :=
  ⟨_, rfl, ⟨rfl, rfl, [.received sock length w.os.nextRecv], rfl, by simp [IsTransfer]⟩, rfl⟩

theorem send_run (sock : Fd) (data : List UInt8) (w : Server) :
    ∃ w', (Socket.send sock data).run w = .ok w.os.nextSend w' ∧ Kept w w' :=
  ⟨_, rfl, rfl, rfl, [.sent sock data w.os.nextSend], rfl, by simp [IsTransfer]⟩

theorem close_run (h : w.table.Coherent) (hreg : fd ∈ w.table.registered) :
    ∃ w', (close fd).run w = .ok () w' ∧ Closed fd w w' := by
  -- `remove_fd` finds the descriptor, so `close` goes on to `tcp.close`
  rcases removeFd_cases h fd with ⟨-, t, hrun, hrem⟩ | ⟨hout, -⟩
  · have hlift : (onTable (removeFd fd) : Prog Counters Unit).run w = .ok () { w with table := t } :=
      onTable_run_ok hrun
    refine ⟨{ w with table := t, os := w.os.close fd, log := w.log ++ [.closed fd] }, ?_, ?_⟩
    · rw [close, run_bind_of_ok hlift]
      rfl
    · exact ⟨hrem, rfl, [], rfl, by simp⟩
  · exact absurd hreg hout

/-- `send` is called and fails: the next `recv` returns bytes, and the `send` after it is
answered with an error. -/
def SendFails (w : Server) : Prop := 0 < w.os.nextRecv ∧ w.os.nextSend < 0

instance (w : Server) : Decidable (SendFails w) := inferInstanceAs (Decidable (_ ∧ _))

theorem noteSend_cases (fd : Fd) (sendResult : Int) (w : Server) :
    (∃ w', (noteSend fd sendResult).run w = .ok () w' ∧ Kept w w' ∧ ¬ sendResult < 0) ∨
    (∃ e w', (noteSend fd sendResult).run w = .error e w' ∧ Expected e ∧ sendResult < 0) := by
  unfold noteSend
  by_cases hneg : sendResult < 0
  -- `cleanup` closes the socket and raises, since its text is not empty
  · rw [if_pos hneg]
    exact .inr ⟨.socketError "socket.send failed with error: " sendResult,
      { w with os := w.os.close fd, log := w.log ++ [.closed fd] }, rfl, trivial, hneg⟩
  · rw [if_neg hneg]
    by_cases hpos : sendResult > 0
    · rw [if_pos hpos]
      rcases count_run (fun c => { c with totalBytesSent := c.totalBytesSent + sendResult }) w with
        ⟨w', hrun, hkept, -⟩
      exact .inl ⟨w', hrun, hkept, hneg⟩
    · rw [if_neg hpos]
      exact .inl ⟨w, rfl, Kept.refl w, hneg⟩

/-- The outcomes of the branch for received bytes. -/
theorem respond_cases (cfg : Config) (result : Int) (h : w.table.Coherent)
    (hreg : fd ∈ w.table.registered) :
    (∃ w', (respond cfg fd result).run w = .ok () w' ∧ (Kept w w' ∨ Closed fd w w') ∧
      ¬ w.os.nextSend < 0) ∨
    (∃ e w', (respond cfg fd result).run w = .error e w' ∧ Expected e ∧ w.os.nextSend < 0) := by
  rcases count_run (fun c => { c with totalBytesReceived := c.totalBytesReceived + result }) w with
    ⟨w₁, hcount, hkept₁, hos₁⟩
  rcases send_run fd content w₁ with ⟨w₂, hsend, hkept₂⟩
  rw [respond, run_bind_of_ok hcount, run_bind_of_ok hsend, hos₁]
  rcases noteSend_cases fd w.os.nextSend w₂ with ⟨w₃, hnote, hkept₃, hneg⟩ | ⟨e, w₃, hnote, he, hneg⟩
  -- nothing has touched the table yet, so the client is still there to be closed
  · have hkept : Kept w w₃ := (hkept₁.trans hkept₂).trans hkept₃
    rw [run_bind_of_ok hnote]
    -- `closeConnection` decides whether the client is kept
    by_cases hclose : cfg.closeConnection > 0
    · have hcoh : w₃.table.Coherent := hkept.table_eq ▸ h
      have hreg₃ : fd ∈ w₃.table.registered := hkept.table_eq ▸ hreg
      rcases close_run hcoh hreg₃ with ⟨w', hrun, hclosed⟩
      rw [if_pos hclose]
      exact .inl ⟨w', hrun, .inr (hclosed.after hkept), hneg⟩
    · rw [if_neg hclose]
      exact .inl ⟨w₃, rfl, .inl hkept, hneg⟩
  · rw [run_bind_of_error hnote]
    exact .inr ⟨e, w₃, rfl, he, hneg⟩

/-- The outcomes of `answer` for a registered client. -/
theorem answer_cases (cfg : Config) (h : w.table.Coherent) (hreg : fd ∈ w.table.registered) :
    (∃ w', (answer cfg fd).run w = .ok () w' ∧ (Kept w w' ∨ Closed fd w w') ∧ ¬ SendFails w) ∨
    (∃ e w', (answer cfg fd).run w = .error e w' ∧ Expected e ∧ SendFails w) := by
  rcases count_run (fun c => { c with answerCount := c.answerCount + 1 }) w with
    ⟨w₁, hcount, hkept₁, hos₁⟩
  rcases recv_run fd buflen w₁ with ⟨w₂, hrecv, hkept₂, hnext⟩
  have hkept : Kept w w₂ := hkept₁.trans hkept₂
  have hcoh : w₂.table.Coherent := hkept.table_eq ▸ h
  have hreg₂ : fd ∈ w₂.table.registered := hkept.table_eq ▸ hreg
  have hsend : w₂.os.nextSend = w.os.nextSend := by rw [hnext, hos₁]
  rw [answer, run_bind_of_ok hcount, run_bind_of_ok hrecv, hos₁]
  by_cases hpos : w.os.nextRecv > 0
  · rw [if_pos hpos]
    rcases respond_cases cfg w.os.nextRecv hcoh hreg₂ with
      ⟨w', hrun, heffect, hneg⟩ | ⟨e, w', hrun, he, hneg⟩
    -- the effect of `respond`, with the transfers before it
    · refine .inl ⟨w', hrun, ?_, fun hfails => hneg (hsend ▸ hfails.2)⟩
      rcases heffect with hkept' | hclosed
      · exact .inl (hkept.trans hkept')
      · exact .inr (hclosed.after hkept)
    · exact .inr ⟨e, w', hrun, he, hpos, hsend ▸ hneg⟩
  · -- `recv` returned 0 or failed: both branches close the client
    rcases close_run hcoh hreg₂ with ⟨w', hrun, hclosed⟩
    rw [if_neg hpos, ite_self]
    exact .inl ⟨w', hrun, .inr (hclosed.after hkept), fun hfails => hpos hfails.1⟩

/-! ## Callbacks -/

theorem Closed.counted {f : Counters → Counters} {x : Prog Counters Unit} {w₁ : Server}
    (hrun : x.run w = .ok () w₁) (h : Closed fd w w₁) :
    ∃ w', (x >>= fun _ => count f).run w = .ok () w' ∧ Closed fd w w' := by
  rw [run_bind_of_ok hrun]
  exact ⟨_, rfl, h.removed, h.opened_eq, h.log_eq⟩

theorem closeCallback_run (h : w.table.Coherent) (hreg : fd ∈ w.table.registered) :
    ∃ w', (closeCallback fd).run w = .ok () w' ∧ Closed fd w w' := by
  rcases close_run h hreg with ⟨w₁, hrun, hclosed⟩
  exact hclosed.counted hrun

theorem errorCallback_run (eventText : String) (h : w.table.Coherent)
    (hreg : fd ∈ w.table.registered) :
    ∃ w', (errorCallback fd eventText).run w = .ok () w' ∧ Closed fd w w' := by
  rcases close_run h hreg with ⟨w₁, hrun, hclosed⟩
  rw [errorCallback, ite_self]
  exact hclosed.counted hrun

/-- `poll_event` calls `in_callback` for these events. -/
def CallsIn (evt : Events) : Prop := has evt POLLHUP = false ∧ has evt POLLIN = true

instance (evt : Events) : Decidable (CallsIn evt) := inferInstanceAs (Decidable (_ ∧ _))

theorem callbackFor_of_callsIn {evt : Events} (cfg : Config) (fd : Fd) (hevt : CallsIn evt) :
    callbackFor (callbacks cfg) evt fd = inCallback cfg fd := by
  simp only [callbackFor, hevt.1, hevt.2, Bool.false_eq_true, if_false, if_true, callbacks]

/-- Any other event is ignored, counted, or closes its descriptor. -/
theorem callbackFor_cases {evt : Events} (cfg : Config) (hevt : ¬ CallsIn evt)
    (h : w.table.Coherent) (hreg : fd ∈ w.table.registered) :
    ∃ w', (callbackFor (callbacks cfg) evt fd).run w = .ok () w' ∧ (Kept w w' ∨ Closed fd w w') := by
  have hclose : ∃ w', (closeCallback fd).run w = .ok () w' ∧ (Kept w w' ∨ Closed fd w w') := by
    rcases closeCallback_run h hreg with ⟨w', hrun, hclosed⟩
    exact ⟨w', hrun, .inr hclosed⟩
  have herror : ∀ eventText, ∃ w', (errorCallback fd eventText).run w = .ok () w' ∧
      (Kept w w' ∨ Closed fd w w') := by
    intro eventText
    rcases errorCallback_run eventText h hreg with ⟨w', hrun, hclosed⟩
    exact ⟨w', hrun, .inr hclosed⟩
  have hout : ∃ w', (outCallback fd).run w = .ok () w' ∧ (Kept w w' ∨ Closed fd w w') := by
    rcases count_run (fun c => { c with pollOutCount := c.pollOutCount + 1 }) w with
      ⟨w', hrun, hkept, -⟩
    exact ⟨w', hrun, .inl hkept⟩
  -- one case for each branch of `poll_event`
  unfold callbackFor
  split
  · exact hclose
  · rename_i hhup
    split
    · rename_i hin
      exact absurd ⟨by simpa using hhup, hin⟩ hevt
    · split
      · exact hout
      · split
        · exact herror "POLLNVAL"
        · split
          · exact herror "POLLERR"
          · exact ⟨w, rfl, .inl (Kept.refl w)⟩

theorem inCallback_client_cases (hfd : fd ≠ cfg.listenSocket) (h : w.table.Coherent)
    (hreg : fd ∈ w.table.registered) :
    (∃ w', (inCallback cfg fd).run w = .ok () w' ∧ (Kept w w' ∨ Closed fd w w') ∧
      ¬ SendFails w) ∨
    (∃ e w', (inCallback cfg fd).run w = .error e w' ∧ Expected e ∧ SendFails w) := by
  rw [inCallback, if_neg hfd]
  rcases answer_cases cfg h hreg with ⟨w₁, hrun, heffect, hno⟩ | ⟨e, w₁, hrun, he, hfails⟩
  · rcases count_run (fun c => { c with pollInCount := c.pollInCount + 1 }) w₁ with
      ⟨w', hcount, hkept, -⟩
    -- counting the event changes neither the table nor the log
    rcases heffect with hkept₁ | hclosed
    · rw [run_bind_of_ok hrun]
      exact .inl ⟨w', hcount, .inl (hkept₁.trans hkept), hno⟩
    · rcases hclosed.counted hrun with ⟨w', hcount, hclosed'⟩
      exact .inl ⟨w', hcount, .inr hclosed', hno⟩
  · rw [run_bind_of_error hrun]
    exact .inr ⟨e, w₁, rfl, he, hfails⟩

/-- The outcomes of `poll_event` for a registered client. -/
theorem client_cases (evt : Events) (hfd : fd ≠ cfg.listenSocket) (h : w.table.Coherent)
    (hreg : fd ∈ w.table.registered) :
    (∃ w', (callbackFor (callbacks cfg) evt fd).run w = .ok () w' ∧ (Kept w w' ∨ Closed fd w w') ∧
      ¬ (CallsIn evt ∧ SendFails w)) ∨
    (∃ e w', (callbackFor (callbacks cfg) evt fd).run w = .error e w' ∧ Expected e ∧
      CallsIn evt ∧ SendFails w) := by
  by_cases hevt : CallsIn evt
  · rw [callbackFor_of_callsIn cfg fd hevt]
    rcases inCallback_client_cases hfd h hreg with ⟨w', hrun, heffect, hno⟩ | ⟨e, w', hrun, he, hfails⟩
    · exact .inl ⟨w', hrun, heffect, fun hboth => hno hboth.2⟩
    · exact .inr ⟨e, w', hrun, he, hevt, hfails⟩
  · rcases callbackFor_cases cfg hevt h hreg with ⟨w', hrun, heffect⟩
    exact .inl ⟨w', hrun, heffect, fun hboth => hevt hboth.1⟩

/-! ## The accept loop -/

/-- What `add_fd` needs to store an accepted client: an exact allocation, and a kernel that knows
the registered descriptors to be open. -/
structure Ready (w : Server) : Prop where
  coherent : w.table.Coherent
  exact_size : w.table.fds.length = w.table.fdsListSize
  opened : ∀ fd ∈ w.table.registered, fd ∈ w.os.opened

/-- Storing an accepted client joins it, or raises for want of memory. -/
theorem join_cases {w₁ : Server} (h : Ready w) (hpos : 0 < fd) (hfresh : fd ∉ w.os.opened)
    (htable : w₁.table = w.table) (hopened : w₁.os.opened = fd :: w.os.opened)
    (hlog : w₁.log = w.log ++ [.accepted fd]) :
    (∃ w', (onTable (addFd fd clientEvents)).run w₁ = .ok () w' ∧ Joined fd w w') ∨
    (∃ w', (onTable (addFd fd clientEvents)).run w₁ = .error .noMemory w') := by
  have hunknown : fd ∉ w.table.registered := fun hreg => hfresh (h.opened fd hreg)
  rcases addFd_cases h.coherent fd clientEvents with
    ⟨t, hrun, hadd, -⟩ | ⟨e, t, hrun, -, -, -, -, hexact, -⟩ | ⟨t, -, hover⟩
  -- there was room, or the allocation has grown
  · rw [← htable] at hrun
    exact .inl ⟨_, onTable_run_ok hrun, hpos, hfresh, hadd, hopened, hlog⟩
  -- `realloc` has failed
  · rw [← htable, hexact h.exact_size] at hrun
    exact .inr ⟨_, onTable_run_error hrun⟩
  · -- an exact allocation that is full takes the growth branch
    rcases hover with ⟨-, hfull, hreg | hsize⟩
    · exact absurd hreg hunknown
    · exact absurd (hfull.trans h.exact_size) (Nat.ne_of_lt hsize)

/-- Rule of the accept loop: an invariant that each join and each failed `accept` keeps. -/
theorem acceptClients_triple {I : Server → Prop} (hready : ∀ w, I w → Ready w)
    (hkept : ∀ w w', I w → Kept w w' → I w')
    (hjoined : ∀ w w' fd, I w → Joined fd w w' → I w') (sock : Fd) (fuel : Nat) :
    Triple I (acceptClients sock fuel) (fun _ => I) (fun e _ => Expected e) := by
  induction fuel with
  | zero =>
      exact Triple.pure () fun _ hw => hw
  | succ fuel ih =>
      intro w hw
      rw [acceptClients, run_bind_of_ok (Socket.accept_run sock w)]
      rcases w.os.accept_cases with ⟨fd, hpos, hfresh, hfd, hopened, -⟩ | ⟨hfail, hopened⟩
      · simp only [hfd, gt_iff_lt, hpos, if_true]
        -- the state between `accept` and `add_fd`, in which the client is open and not registered
        generalize hw₁ : ({ w with os := w.os.accept.2, log := w.log ++ [.accepted fd] } : Server) = w₁
        have hjoin : (∃ w', (onTable (addFd fd clientEvents)).run w₁ = .ok () w' ∧ Joined fd w w') ∨
            (∃ w', (onTable (addFd fd clientEvents)).run w₁ = .error .noMemory w') := by
          subst hw₁
          exact join_cases (hready w hw) hpos hfresh rfl hopened rfl
        -- the induction is on the rounds: a client that has joined starts the next one
        rcases hjoin with ⟨w', hrun, hjoin⟩ | ⟨w', hrun⟩
        · rw [run_bind_of_ok hrun]
          exact ih w' (hjoined w w' fd hw hjoin)
        · rw [run_bind_of_error hrun]
          trivial
      · have hno : ¬ (w.os.accept.1 > 0) := by
          rw [hfail]
          decide
        rw [if_neg hno, if_neg hno]
        exact hkept w _ hw ⟨rfl, hopened, [], (List.append_nil _).symm, by simp⟩

/-- Rule of `in_callback` for the listen socket. -/
theorem inCallback_listen_triple {I : Server → Prop} (hready : ∀ w, I w → Ready w)
    (hkept : ∀ w w', I w → Kept w w' → I w')
    (hjoined : ∀ w w' fd, I w → Joined fd w w' → I w') (cfg : Config) :
    Triple I (inCallback cfg cfg.listenSocket) (fun _ => I) (fun e _ => Expected e) := by
  have haccept : Triple I (acceptAll cfg.listenSocket) (fun _ => I) (fun e _ => Expected e) := by
    intro w hw
    exact acceptClients_triple hready hkept hjoined _ _ w hw
  have hcount : Triple I (count fun c => { c with pollInCount := c.pollInCount + 1 })
      (fun _ => I) (fun e _ => Expected e) := by
    intro w hw
    rcases count_run (fun c => { c with pollInCount := c.pollInCount + 1 }) w with
      ⟨w', hrun, hkept', -⟩
    rw [hrun]
    exact hkept w w' hw hkept'
  rw [inCallback, if_pos rfl]
  exact Triple.bind haccept fun _ => hcount

end Calls

end AppServer
end LuajitTcpServer
