import LuajitTcpServer.AppServer.Totals

/-!
# Shutdown — the end of `AppServer.lua`

When the main loop ends the application closes its listen socket, has `poll.remove_all` close the
clients that are left, and prints its statistics.  `shutDown_closes` says that every open socket is
closed exactly once if the listen socket is still registered; otherwise `remove_fd` raises and the
clients stay open.  `remove_all` ends with `clear_all`, so the counters of the poll module are
printed as 0 whenever it had a client to close.
-/

namespace LuajitTcpServer

open Hoare Poll PollTable

namespace Poll

variable {α : Type}

/-- The loop of `remove_all` over `k` slots from `idx` on. -/
def removeAllFrom (closeFunc : Fd → Prog α Unit) (k idx : Nat) : Prog α Unit :=
  forUntil (fun i => do
    let slot ← onTable (readSlot i)
    closeFunc slot.fd
    pure false) k idx

def removeAll (closeFunc : Fd → Prog α Unit) : Prog α Unit := do
  let t ← onTable get
  removeAllFrom closeFunc t.nfds 0
  onTable (modify fun t => clearAll t.heap)

/-- The process after `tcp.close`. -/
def closedOne (w : World α) (fd : Fd) : World α :=
  { w with os := w.os.close fd, log := w.log ++ [.closed fd] }

def closedAll (fds : List Fd) (w : World α) : World α := fds.foldl closedOne w

section Closing

variable {w : World α} {fds : List Fd}

theorem closedAll_table : (closedAll fds w).table = w.table := by
  induction fds generalizing w with
  | nil =>
      rfl
  | cons fd fds ih =>
      exact ih

theorem closedAll_app : (closedAll fds w).app = w.app := by
  induction fds generalizing w with
  | nil =>
      rfl
  | cons fd fds ih =>
      exact ih

theorem closedAll_log : (closedAll fds w).log = w.log ++ fds.map .closed := by
  induction fds generalizing w with
  | nil =>
      exact (List.append_nil _).symm
  | cons fd fds ih =>
      calc (closedAll (fd :: fds) w).log
          = w.log ++ [Event.closed fd] ++ fds.map Event.closed := @ih (closedOne w fd)
        _ = w.log ++ (fd :: fds).map Event.closed := by
              rw [List.append_assoc, List.singleton_append, List.map_cons]

theorem mem_closedAll_opened {fd : Fd} :
    fd ∈ (closedAll fds w).os.opened ↔ fd ∈ w.os.opened ∧ fd ∉ fds := by
  induction fds generalizing w with
  | nil =>
      exact ⟨fun h => ⟨h, List.not_mem_nil⟩, fun h => h.1⟩
  | cons fd' fds ih =>
      change fd ∈ (closedAll fds (closedOne w fd')).os.opened ↔ _
      rw [ih]
      simp only [closedOne, Os.close, List.mem_filter, decide_eq_true_eq, List.mem_cons, not_or, and_assoc]

/-- The loop closes what the slots from `idx` on hold: closing does not change the table. -/
theorem removeAllFrom_run (h : w.table.Sized) {k idx : Nat} (hk : idx + k = w.table.nfds) :
    (removeAllFrom Socket.close k idx).run w =
      .ok () (closedAll (w.table.registered.drop idx) w) := by
  induction k generalizing idx w with
  | zero =>
      have hlen : w.table.registered.length ≤ idx := by
        rw [registered, List.length_map, entries_length h]
        omega
      rw [List.drop_eq_nil_of_le hlen]
      rfl
  | succ k ih =>
      have hsized : w.table.nfds ≤ w.table.fds.length := h
      have hidx : idx < w.table.fds.length := by omega
      have hread : (onTable (readSlot idx) : Prog α PollFd).run w = .ok w.table.fds[idx] w := by
        refine onTable_run_ok (w := w) ?_
        simp [EStateM.run, readSlot, hidx]
      -- the descriptor in slot `idx` heads what is left to close
      have hdrop : w.table.registered.drop idx =
          w.table.fds[idx].fd :: w.table.registered.drop (idx + 1) := by
        have hlt : idx < w.table.registered.length := by
          rw [registered, List.length_map, entries_length h]
          omega
        rw [List.drop_eq_getElem_cons hlt]
        congr 1
        simp only [registered_eq, List.getElem_map, List.getElem_take]
      have hnext : idx + 1 + k = w.table.nfds := by omega
      have hrest := @ih (closedOne w w.table.fds[idx].fd) h (idx + 1) hnext
      rw [hdrop, removeAllFrom, forUntil, bind_assoc, run_bind_of_ok hread]
      exact hrest

theorem removeAll_run (h : w.table.Sized) :
    (removeAll Socket.close).run w =
      .ok () { closedAll w.table.registered w with table := clearAll w.table.heap } := by
  have hget : (onTable get : Prog α PollTable).run w = .ok w.table w := rfl
  have hloop : (removeAllFrom Socket.close w.table.nfds 0).run w =
      .ok () (closedAll w.table.registered w) := removeAllFrom_run h (Nat.zero_add _)
  rw [removeAll, run_bind_of_ok hget, run_bind_of_ok hloop]
  change EStateM.Result.ok () { closedAll w.table.registered w with
    table := clearAll (closedAll w.table.registered w).table.heap } = _
  rw [closedAll_table]

end Closing

end Poll

namespace AppServer

/-! ## The end of the program -/

/-- What is printed, in this order. -/
structure Statistics where
  answerCount : Nat
  fdCount : Nat
  pollCount : Nat
  pollInCount : Nat
  pollOutCount : Nat
  pollCloseCount : Nat
  pollErrCount : Nat
  fdAddCount : Nat
  fdRemoveCount : Nat
  totalBytesReceived : Int
  totalBytesSent : Int

/-- `if poll.fd_count() > 0 then poll.remove_all(tcp.close) end`. -/
def removeClients : Prog Counters Unit := do
  let w ← get
  if fdCount w.table > 0 then removeAll Socket.close else pure ()

/-- `fd_count` is printed before the clients are closed, and the other counters of the poll module
after it. -/
def statistics (before after : Server) : Statistics where
  answerCount := before.app.answerCount
  fdCount := fdCount before.table
  pollCount := after.table.pollCount
  pollInCount := after.app.pollInCount
  pollOutCount := after.app.pollOutCount
  pollCloseCount := after.app.pollCloseCount
  pollErrCount := after.app.pollErrCount
  fdAddCount := Poll.fdAddCount after.table
  fdRemoveCount := Poll.fdRemoveCount after.table
  totalBytesReceived := after.app.totalBytesReceived
  totalBytesSent := after.app.totalBytesSent

/-- The statements after the main loop. -/
def shutDown (cfg : Config) : Prog Counters Statistics := do
  close cfg.listenSocket
  let before ← get
  removeClients
  let after ← get
  pure (statistics before after)

/-- The counter as it is printed. -/
def Total.printed : Total → Statistics → Int
  | .answers, s => s.answerCount
  | .pollIn, s => s.pollInCount
  | .pollOut, s => s.pollOutCount
  | .pollClose, s => s.pollCloseCount
  | .pollErr, s => s.pollErrCount
  | .bytesReceived, s => s.totalBytesReceived
  | .bytesSent, s => s.totalBytesSent
  | .fdAdds, s => s.fdAddCount
  | .fdRemoves, s => s.fdRemoveCount

/-- The counter belongs to `lib_poll.lua`. -/
def Total.ofPoll : Total → Bool
  | .fdAdds | .fdRemoves => true
  | _ => false

/-- What the statements after the main loop have done. -/
structure ShutDown (cfg : Config) (w : Server) (stats : Statistics) (w' : Server) : Prop where
  /-- Every open socket is closed once, the listen socket first, and nothing else is. -/
  closes : ∃ clients, w'.log = w.log ++ (cfg.listenSocket :: clients).map .closed ∧
    (cfg.listenSocket :: clients).Nodup ∧
    (∀ fd, fd ∈ cfg.listenSocket :: clients ↔ fd ∈ openSockets cfg.listenSocket w.log) ∧
    clients.length = stats.fdCount
  opened_iff : ∀ fd, fd ∈ w'.os.opened ↔
    fd ∈ w.os.opened ∧ fd ∉ openSockets cfg.listenSocket w.log
  registered_eq : w'.table.registered = []
  /-- The counters of the poll module are lost if a client was left. -/
  printed : ∀ total : Total, total.printed stats =
    if stats.fdCount > 0 ∧ total.ofPoll = true then 0 else total.base + total.tally w'.log
  pollCount_eq : stats.pollCount = if stats.fdCount > 0 then 0 else w.table.pollCount

section Runs

variable {cfg : Config} {w w₁ : Server} {fd : Fd}

theorem close_run_eq (h : w.table.Coherent) (hreg : fd ∈ w.table.registered) :
    ∃ t, Removed w.table t fd ∧ t.pollCount = w.table.pollCount ∧
      (close fd).run w =
        .ok () { closedOne w fd with table := t } := by
  rcases removeFd_run_registered h.sized hreg with ⟨idx, hidx, hhold, hrun⟩
  have hlift : (onTable (removeFd fd) : Prog Counters Unit).run w =
      .ok () { w with table := w.table.removedAt idx } := onTable_run_ok hrun
  refine ⟨_, removed_of_holds h hidx hhold, rfl, ?_⟩
  rw [close, run_bind_of_ok hlift]
  rfl

/-- The process after the clients that are left have been closed. -/
def clientsClosed (w : Server) : Server :=
  if fdCount w.table > 0 then
    { closedAll w.table.registered w with table := clearAll w.table.heap }
  else w

theorem removeClients_run (h : w.table.Sized) :
    removeClients.run w = .ok () (clientsClosed w) := by
  simp only [removeClients, clientsClosed, EStateM.run_bind, EStateM.run_get]
  by_cases hleft : fdCount w.table > 0
  · rw [if_pos hleft, if_pos hleft]
    exact removeAll_run h
  · rw [if_neg hleft, if_neg hleft]
    rfl

theorem registered_eq_nil (h : ¬ fdCount w.table > 0) : w.table.registered = [] := by
  have hzero : w.table.nfds = 0 := Nat.eq_zero_of_not_pos h
  rw [registered, entries, hzero]
  rfl

theorem clientsClosed_log : (clientsClosed w).log = w.log ++ w.table.registered.map .closed := by
  unfold clientsClosed
  by_cases hleft : fdCount w.table > 0
  · rw [if_pos hleft]
    exact closedAll_log
  · rw [if_neg hleft, registered_eq_nil hleft]
    exact (List.append_nil _).symm

theorem mem_clientsClosed_opened :
    fd ∈ (clientsClosed w).os.opened ↔ fd ∈ w.os.opened ∧ fd ∉ w.table.registered := by
  unfold clientsClosed
  by_cases hleft : fdCount w.table > 0
  · rw [if_pos hleft]
    exact mem_closedAll_opened
  · rw [if_neg hleft, registered_eq_nil hleft]
    exact ⟨fun h => ⟨h, List.not_mem_nil⟩, fun h => h.1⟩

theorem clientsClosed_app : (clientsClosed w).app = w.app := by
  unfold clientsClosed
  by_cases hleft : fdCount w.table > 0
  · rw [if_pos hleft]
    exact closedAll_app
  · rw [if_neg hleft]

theorem clientsClosed_registered : (clientsClosed w).table.registered = [] := by
  unfold clientsClosed
  by_cases hleft : fdCount w.table > 0
  · rw [if_pos hleft]
    rfl
  · rw [if_neg hleft, registered_eq_nil hleft]

/-- Closing a client adds nothing to a counter of the application. -/
theorem tally_closes {total : Total} (hpoll : total.ofPoll = false) (log : List Event)
    (fds : List Fd) : total.tally (log ++ fds.map .closed) = total.tally log := by
  induction fds generalizing log with
  | nil =>
      rw [List.map_nil, List.append_nil]
  | cons fd fds ih =>
      have hshare : total.share (.closed fd) = 0 := by
        cases total with
        | fdAdds | fdRemoves =>
            cases hpoll
        | answers | pollIn | pollOut | pollClose | pollErr | bytesReceived | bytesSent =>
            rfl
      rw [List.map_cons, List.append_cons, ih, Total.tally_append, hshare, Int.add_zero]

theorem printed_statistics (total : Total)
    (htotal : total.shown w = total.base + total.tally w.log) :
    total.printed (statistics w (clientsClosed w)) =
      if fdCount w.table > 0 ∧ total.ofPoll = true then 0
      else total.base + total.tally (clientsClosed w).log := by
  by_cases hleft : fdCount w.table > 0
  · cases hpoll : total.ofPoll with
    | true =>
        -- `clear_all` has reset the counters of the poll module
        rw [if_pos ⟨hleft, rfl⟩]
        cases total with
        | fdAdds | fdRemoves =>
            simp [Total.printed, statistics, clientsClosed, hleft, Poll.fdAddCount,
              Poll.fdRemoveCount, clearAll]
        | answers | pollIn | pollOut | pollClose | pollErr | bytesReceived | bytesSent =>
            cases hpoll
    | false =>
        rw [if_neg (by simp), clientsClosed_log, tally_closes hpoll, ← htotal]
        cases total with
        | fdAdds | fdRemoves =>
            cases hpoll
        | answers | pollIn | pollOut | pollClose | pollErr | bytesReceived | bytesSent =>
            simp [Total.printed, statistics, Total.shown, clientsClosed_app]
  -- without clients nothing happens between the two reads
  · have hsame : clientsClosed w = w := if_neg hleft
    rw [if_neg fun h => hleft h.1, hsame, ← htotal]
    cases total <;> rfl

/-- In every state of the main loop: if the listen socket is registered, the statements after the
loop return, having closed every open socket exactly once and printed the tallies of the run, those
of the poll module only if no client was left.  Otherwise they raise before any client is
closed. -/
theorem shutDown_closes (h : EventLoop cfg w) :
    (cfg.listenSocket ∈ w.table.registered →
      ∃ stats w', (shutDown cfg).run w = .ok stats w' ∧ ShutDown cfg w stats w') ∧
    (cfg.listenSocket ∉ w.table.registered →
      (shutDown cfg).run w = .error (.fdNotFound cfg.listenSocket w.table.nfds)
        { w with table := w.table.countRemove }) := by
  have hserving := h.serving
  refine ⟨fun hreg => ?_, fun hreg => ?_⟩
  · rcases close_run_eq hserving.coherent hreg with ⟨t, hrem, hpolls, hrun⟩
    have htotals : ∀ total : Total,
        total.ahead { closedOne w cfg.listenSocket with table := t } = total.base := by
      intro total
      have hmoved := @moves_close total cfg.listenSocket w () _ hrun
      rw [hmoved, h.ahead_eq total]
      exact Int.add_zero _
    have hserved : Serving cfg { closedOne w cfg.listenSocket with table := t } :=
      hserving.closed ⟨hrem, rfl, [], rfl, by simp⟩
    generalize hw₁ : ({ closedOne w cfg.listenSocket with table := t } : Server) = w₁
      at hrun htotals hserved
    have hget : (get : Prog Counters Server).run w₁ = .ok w₁ w₁ := rfl
    have hclients := removeClients_run hserved.coherent.sized
    have htable : w₁.table = t := by rw [← hw₁]
    have hlog : w₁.log = w.log ++ [.closed cfg.listenSocket] := by
      rw [← hw₁]
      rfl
    have hmem : ∀ fd, fd ∈ w₁.table.registered ↔
        fd ≠ cfg.listenSocket ∧ fd ∈ w.table.registered := by
      rw [htable]
      exact hrem.registered_iff hserving.nodup
    refine ⟨statistics w₁ (clientsClosed w₁), clientsClosed w₁, ?_, ?_⟩
    · rw [shutDown, run_bind_of_ok hrun, run_bind_of_ok hget, run_bind_of_ok hclients]
      rfl
    · refine ⟨⟨w₁.table.registered, ?_, ?_, ?_, ?_⟩, ?_, clientsClosed_registered, ?_, ?_⟩
      · rw [clientsClosed_log, hlog, List.append_assoc]
        rfl
      · exact List.nodup_cons.2 ⟨fun hin => ((hmem _).1 hin).1 rfl, hserved.nodup⟩
      -- the listen socket, and the other registered descriptors
      · intro fd
        rw [List.mem_cons, hmem, ← hserving.ledger]
        constructor
        · rintro (rfl | ⟨-, hin⟩)
          · exact hreg
          · exact hin
        · intro hin
          by_cases heq : fd = cfg.listenSocket
          · exact .inl heq
          · exact .inr ⟨heq, hin⟩
      · rw [registered, List.length_map, entries_length hserved.coherent.sized]
        rfl
      · intro fd
        have hopened : fd ∈ w₁.os.opened ↔ fd ∈ w.os.opened ∧ fd ≠ cfg.listenSocket := by
          rw [← hw₁]
          simp [closedOne, Os.close]
        rw [mem_clientsClosed_opened, hopened, hmem, ← hserving.ledger]
        constructor
        · rintro ⟨⟨hin, hne⟩, hout⟩
          exact ⟨hin, fun hin' => hout ⟨hne, hin'⟩⟩
        · rintro ⟨hin, hout⟩
          exact ⟨⟨hin, fun heq => hout (heq ▸ hreg)⟩, fun hboth => hout hboth.2⟩
      · intro total
        refine printed_statistics total ?_
        have hahead := htotals total
        rw [Total.ahead] at hahead
        omega
      · change (clientsClosed w₁).table.pollCount = if fdCount w₁.table > 0 then 0 else _
        unfold clientsClosed
        by_cases hleft : fdCount w₁.table > 0
        · rw [if_pos hleft, if_pos hleft]
          rfl
        · rw [if_neg hleft, if_neg hleft, htable, hpolls]
  · -- the listen socket was closed in the loop, and `remove_fd` does not find it
    have hraise : (onTable (removeFd cfg.listenSocket) : Prog Counters Unit).run w =
        .error (.fdNotFound cfg.listenSocket w.table.nfds) { w with table := w.table.countRemove } :=
      onTable_run_error (removeFd_run_unregistered hserving.coherent.sized hreg)
    have hclose : (close cfg.listenSocket).run w =
        .error (.fdNotFound cfg.listenSocket w.table.nfds)
          { w with table := w.table.countRemove } := by
      rw [close]
      exact run_bind_of_error hraise
    rw [shutDown]
    exact run_bind_of_error hclose

end Runs

/-- The sample server is shut down with three clients left. -/
theorem shutDown_closes_sampleLoop :
    (sampleConfig.listenSocket ∈ sampleLoop.table.registered →
      ∃ stats w', (shutDown sampleConfig).run sampleLoop = .ok stats w' ∧
        ShutDown sampleConfig sampleLoop stats w') ∧
    (sampleConfig.listenSocket ∉ sampleLoop.table.registered →
      (shutDown sampleConfig).run sampleLoop =
        .error (.fdNotFound sampleConfig.listenSocket sampleLoop.table.nfds)
          { sampleLoop with table := sampleLoop.table.countRemove }) :=
  shutDown_closes eventLoop_sampleLoop

end AppServer
end LuajitTcpServer
