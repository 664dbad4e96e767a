import Mathlib.Data.Finset.Basic
import LuajitTcpServer.AppServer.Effects

/-!
# Ledger — the registered descriptors are the open sockets of the server

`openSockets` reads off a log which sockets the server has open.  `Serving` is what holds of every
state of the main loop, and within a pass; it is kept by each effect of a callback.
-/

namespace LuajitTcpServer
namespace AppServer

open Hoare Poll PollTable

/-! ## The ledger -/

def noteSocket (sockets : Finset Fd) : Event → Finset Fd
  | .accepted fd => insert fd sockets
  | .closed fd => sockets.erase fd
  | _ => sockets

/-- The listen socket and the accepted clients, less those that were closed since. -/
def openSockets (listenSocket : Fd) (log : List Event) : Finset Fd :=
  log.foldl noteSocket {listenSocket}

section OpenSockets

variable {listenSocket : Fd} {log io : List Event}

theorem noteSocket_transfer {event : Event} {sockets : Finset Fd} (h : IsTransfer event) :
    noteSocket sockets event = sockets := by
  cases event with
  | received | sent =>
      rfl
  | pollEvent | accepted | closed =>
      cases h

theorem openSockets_transfers (h : ∀ event ∈ io, IsTransfer event) :
    openSockets listenSocket (log ++ io) = openSockets listenSocket log := by
  induction io generalizing log with
  | nil =>
      rw [List.append_nil]
  | cons event io ih =>
      have hstep : openSockets listenSocket (log ++ [event]) = openSockets listenSocket log := by
        rw [openSockets, List.foldl_append]
        exact noteSocket_transfer (h event List.mem_cons_self)
      calc openSockets listenSocket (log ++ event :: io)
          = openSockets listenSocket (log ++ [event] ++ io) := by rw [List.append_cons]
        _ = openSockets listenSocket (log ++ [event]) :=
              ih fun event' hmem => h event' (List.mem_cons_of_mem _ hmem)
        _ = openSockets listenSocket log := hstep

@[simp] theorem openSockets_accepted {fd : Fd} :
    openSockets listenSocket (log ++ [.accepted fd]) = insert fd (openSockets listenSocket log) := by
  rw [openSockets, List.foldl_append]
  rfl

@[simp] theorem openSockets_closed {fd : Fd} :
    openSockets listenSocket (log ++ [.closed fd]) = (openSockets listenSocket log).erase fd := by
  rw [openSockets, List.foldl_append]
  rfl

@[simp] theorem openSockets_pollEvent {evt : Events} {fd : Fd} {registered : List Fd} :
    openSockets listenSocket (log ++ [.pollEvent evt fd registered]) =
      openSockets listenSocket log := by
  rw [openSockets, List.foldl_append]
  rfl

end OpenSockets

/-! ## The invariant of the server -/

structure Serving (cfg : Config) (w : Server) : Prop extends Ready w where
  nodup : w.table.registered.Nodup
  valid : ∀ fd ∈ w.table.registered, fd ≠ -1
  /-- The listen socket was added first, and no removal moves it. -/
  listen_first : cfg.listenSocket ∈ w.table.registered → w.table.holds cfg.listenSocket 0 = true
  ledger : ∀ fd, fd ∈ w.table.registered ↔ fd ∈ openSockets cfg.listenSocket w.log

section Steps

variable {cfg : Config} {w w' : Server} {fd : Fd}

/-- The part of the state the invariant is about. -/
theorem Serving.congr (h : Serving cfg w) (htable : w'.table = w.table)
    (hopened : w'.os.opened = w.os.opened)
    (hlog : openSockets cfg.listenSocket w'.log = openSockets cfg.listenSocket w.log) :
    Serving cfg w' where
  coherent := htable ▸ h.coherent
  exact_size := htable ▸ h.exact_size
  opened := by
    rw [htable, hopened]
    exact h.opened
  nodup := htable ▸ h.nodup
  valid := htable ▸ h.valid
  listen_first := htable ▸ h.listen_first
  ledger := by
    rw [htable, hlog]
    exact h.ledger

theorem Serving.kept (h : Serving cfg w) (hkept : Kept w w') : Serving cfg w' := by
  rcases hkept.log_eq with ⟨io, hlog, hio⟩
  refine h.congr hkept.table_eq hkept.opened_eq ?_
  rw [hlog, openSockets_transfers hio]

theorem Serving.closed (h : Serving cfg w) (hclosed : Closed fd w w') : Serving cfg w' := by
  have hrem := hclosed.removed
  have hreg := hrem.registered_iff h.nodup
  refine { coherent := hrem.coherent, exact_size := ?_, opened := ?_, nodup := ?_, valid := ?_,
           listen_first := ?_, ledger := ?_ }
  · rw [hrem.length_eq, hrem.size_eq]
    exact h.exact_size
  -- what is left was open before, and is not the closed one
  · intro fd' hmem
    rw [hclosed.opened_eq, List.mem_filter]
    rcases (hreg fd').1 hmem with ⟨hne, hold⟩
    exact ⟨h.opened fd' hold, by simpa using hne⟩
  · exact (hrem.registered_nodup h.nodup).2
  · intro fd' hmem
    exact h.valid fd' ((hreg fd').1 hmem).2
  · intro hmem
    rcases (hreg cfg.listenSocket).1 hmem with ⟨hne, hold⟩
    have hzero := h.listen_first hold
    rcases hrem.slots with ⟨idx, -, hidx, hslots⟩
    -- the slot that is overwritten is that of `fd`, so it is not slot 0
    have hidx₀ : (0 : Nat) ≠ idx := by
      intro heq
      exact hne (holds_unique hzero (heq ▸ hidx))
    rw [holds_congr (hslots 0 hidx₀)]
    exact hzero
  · intro fd'
    rcases hclosed.log_eq with ⟨io, hlog, hio⟩
    -- both sides lose `fd` and nothing else
    rw [hlog, ← List.append_assoc, openSockets_closed, openSockets_transfers hio, Finset.mem_erase,
      ← h.ledger fd']
    exact hreg fd'

/-- Clients are only accepted while the listen socket is registered, so they differ from it. -/
theorem Serving.joined (h : Serving cfg w) (hjoin : Joined fd w w')
    (hlisten : cfg.listenSocket ∈ w.table.registered) : Serving cfg w' := by
  have hadd := hjoin.added
  have hregs := hadd.registered_eq
  have hmem : ∀ fd', fd' ∈ w'.table.registered ↔ fd' ∈ w.table.registered ∨ fd' = fd := by
    intro fd'
    rw [hregs, List.mem_append, List.mem_singleton]
  -- the kernel gives no descriptor away that is still open
  have hunknown : fd ∉ w.table.registered := fun hreg => hjoin.fresh (h.opened fd hreg)
  refine { coherent := hadd.coherent, exact_size := hadd.exact_size h.exact_size, opened := ?_,
           nodup := ?_, valid := ?_, listen_first := ?_, ledger := ?_ }
  · intro fd' hreg
    rw [hjoin.opened_eq]
    rcases (hmem fd').1 hreg with hold | rfl
    · exact List.mem_cons_of_mem _ (h.opened fd' hold)
    · exact List.mem_cons_self
  · rw [hregs]
    exact List.nodup_append_comm.1 (List.nodup_cons.2 ⟨hunknown, h.nodup⟩)
  · intro fd' hreg
    rcases (hmem fd').1 hreg with hold | rfl
    · exact h.valid fd' hold
    · intro heq
      exact absurd hjoin.pos (by rw [heq]; decide)
  · intro _
    have hzero := h.listen_first hlisten
    have hsized : w.table.nfds ≤ w.table.fds.length := h.coherent.sized
    -- slot 0 is in use, and only the slot after the used ones is written
    rcases (mem_registered_iff h.coherent.sized).1 hlisten with ⟨idx, hidx, -⟩
    have hpos : 0 < w.table.nfds := Nat.zero_lt_of_lt hidx
    rw [holds_congr (hadd.slots 0 (Nat.ne_of_lt hpos) (Nat.lt_of_lt_of_le hpos hsized))]
    exact hzero
  · intro fd'
    rw [hmem, hjoin.log_eq, openSockets_accepted, Finset.mem_insert, ← h.ledger fd', or_comm]

/-- The state in which the main loop starts. -/
theorem serving_initial {heap : Nat → Option (Nat → PollFd)} {opened : List Fd}
    (hrun : (onTable (addFd cfg.listenSocket listenEvents)).run (initial cfg heap opened) =
      .ok () w) : Serving cfg w := by
  have hcoh : (initial cfg heap opened).table.Coherent := ⟨Nat.le_refl 0, Nat.le_refl 0⟩
  -- the empty table has no slots, so `add_fd` allocates the first ones or fails
  rcases addFd_cases hcoh cfg.listenSocket listenEvents with
    ⟨t, heq, hadd, -⟩ | ⟨e, t, heq, -⟩ | ⟨t, heq, -⟩
  · rw [onTable_run_ok heq] at hrun
    cases hrun
    have hregs : t.registered = [cfg.listenSocket] := hadd.registered_eq
    have hnfds : t.nfds = 1 := hadd.nfds_eq
    have hmem : ∀ fd, fd ∈ t.registered ↔ fd = cfg.listenSocket := by
      intro fd
      rw [hregs, List.mem_singleton]
    refine { coherent := hadd.coherent, exact_size := hadd.exact_size rfl, opened := ?_,
             nodup := ?_, valid := ?_, listen_first := ?_, ledger := ?_ }
    · intro fd hreg
      rw [(hmem fd).1 hreg]
      exact List.mem_cons_self
    · rw [hregs]
      exact List.nodup_singleton _
    · intro fd hreg
      rw [(hmem fd).1 hreg]
      exact cfg.valid
    · intro hreg
      rcases (mem_registered_iff hadd.coherent.sized).1 hreg with ⟨idx, hidx, hhold⟩
      -- the only used slot is slot 0
      have hidx₀ : idx = 0 := by omega
      exact hidx₀ ▸ hhold
    · intro fd
      rw [hmem]
      exact Finset.mem_singleton.symm
  · rw [onTable_run_error heq] at hrun
    cases hrun
  · rw [onTable_run_error heq] at hrun
    cases hrun

/-- The kernel's answer leaves the invariant alone. -/
theorem Serving.polled (h : Serving cfg w) (input : Input) (revents : Nat → Events) :
    Serving cfg (polledWorld (feed input w) revents) where
  coherent := polled_coherent h.coherent
  exact_size := (writeRevents_length _ _ _).trans h.exact_size
  opened := by
    simp only [polledWorld, feed, polled_registered]
    exact h.opened
  nodup := by
    simp only [polledWorld, feed, polled_registered]
    exact h.nodup
  valid := by
    simp only [polledWorld, feed, polled_registered]
    exact h.valid
  listen_first := by
    simp only [polledWorld, feed, polled_registered]
    intro hreg
    rcases (mem_registered_iff h.coherent.sized).1 hreg with ⟨idx, hidx, -⟩
    rw [polled_holds (Nat.zero_lt_of_lt hidx)]
    exact h.listen_first hreg
  ledger := by
    simp only [polledWorld, feed, polled_registered]
    exact h.ledger

end Steps

end AppServer
end LuajitTcpServer
