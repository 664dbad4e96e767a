import LuajitTcpServer.AppServer.Dispatch

/-!
# Failure — a client whose calls fail

`answer` closes a client whose `recv` fails and takes it out of the table.  A `send` that fails
goes through `socket.cleanup` instead, which closes the socket and raises: the descriptor stays in
the table and the error ends the main loop.  `client_survives_iff` says that this is the only way
in which the handling of a client's event goes wrong.
-/

namespace LuajitTcpServer
namespace AppServer

open Hoare Poll PollTable

/-- The states in which a pass, answered by the kernel in `w₀`, comes to slot `i`. -/
inductive AtSlot (cfg : Config) (w₀ : Server) : Nat → Server → Prop
  | start : AtSlot cfg w₀ 0 w₀
  | next {i : Nat} {w w' : Server} : AtSlot cfg w₀ i w → i < w₀.table.nfds →
      (serveSlot (callbacks cfg) i).run w = .ok () w' → AtSlot cfg w₀ (i + 1) w'

/-- What the handling of client `fd` leaves behind. -/
structure Survives (fd : Fd) (w : Server) (r : EStateM.Result Fault Server Unit) : Prop where
  returns : returns r = true
  /-- Every other descriptor stays registered with its events, and open. -/
  others : ∀ fd' events, fd' ≠ fd → (fd', events) ∈ w.table.entries →
    (fd', events) ∈ (endState r).table.entries ∧ fd' ∈ (endState r).os.opened
  closed : fd ∉ (endState r).os.opened → fd ∉ (endState r).table.registered

section Steps

variable {cfg : Config} {w₀ w w' : Server} {i : Nat} {fd : Fd}

theorem AtSlot.midpass (h₀ : Serving cfg w₀) (h : AtSlot cfg w₀ i w) : Midpass cfg w₀ i w := by
  induction h with
  | start =>
      exact midpass_start h₀
  | next _ hi hrun ih =>
      exact (serveSlot_triple h₀ hi).ok ih hrun

theorem AtSlot.first (hfirst : 0 < w₀.table.nfds)
    (h : returns ((serveSlot (callbacks cfg) 0).run w₀) = true) :
    AtSlot cfg w₀ 1 (endState ((serveSlot (callbacks cfg) 0).run w₀)) := by
  rcases eq_ok_of_returns h with ⟨_, hrun⟩
  exact .next .start hfirst hrun

theorem survives_of_kept (h : Serving cfg w) (hkept : Kept w w')
    (hreg : fd ∈ w.table.registered) : Survives fd w (.ok () w') := by
  refine ⟨rfl, fun fd' events _ hmem => ⟨hkept.table_eq ▸ hmem, ?_⟩, fun hclosed => ?_⟩
  · rw [endState, hkept.opened_eq]
    exact h.opened fd' (mem_registered_of_mem_entries hmem)
  · rw [endState, hkept.opened_eq] at hclosed
    -- nothing was closed, so the premise fails
    exact absurd (h.opened fd hreg) hclosed

theorem survives_of_closed (h : Serving cfg w) (hclosed : Closed fd w w') :
    Survives fd w (.ok () w') := by
  refine ⟨rfl, fun fd' events hne hmem => ⟨?_, ?_⟩, fun _ => ?_⟩
  -- the entries are the old ones but for that of `fd`
  · rcases hclosed.removed.perm with ⟨events', hperm⟩
    have hcons : (fd', events) ∈ (fd, events') :: w'.table.entries := hperm.mem_iff.2 hmem
    rcases List.mem_cons.1 hcons with heq | hrest
    · exact absurd (congrArg Prod.fst heq) hne
    · exact hrest
  · rw [endState, hclosed.opened_eq, List.mem_filter]
    exact ⟨h.opened fd' (mem_registered_of_mem_entries hmem), by simpa using hne⟩
  · exact (hclosed.removed.registered_nodup h.nodup).1

end Steps

/-- At any point of any pass of the main loop, the handling of a client's event leaves the server
and all other clients unharmed if and only if it is not the case that the client has input,
`recv` returns some of it, and the `send` of the answer fails. -/
theorem client_survives_iff {cfg : Config} {w w₁ : Server} {input : Input}
    {revents : Nat → Events} {i : Nat} {slot : PollFd} (h : EventLoop cfg w)
    (hmid : AtSlot cfg (polledWorld (feed input w) revents) i w₁) (hi : i < w.table.nfds)
    (hslot : w₁.table.fds[i]? = some slot) (hevt : slot.revents ≠ 0)
    (hclient : slot.fd ≠ cfg.listenSocket) :
    Survives slot.fd w₁ ((serveSlot (callbacks cfg) i).run w₁) ↔
      ¬ (CallsIn slot.revents ∧ SendFails w₁) := by
  have h₀ : Serving cfg (polledWorld (feed input w) revents) := h.serving.polled input revents
  have hmidpass := hmid.midpass h₀
  -- the slot is as the kernel left it, so its client is registered
  have hslot₀ : (polledWorld (feed input w) revents).table.fds[i]? = some slot := by
    rw [← hmidpass.slots i (Nat.le_refl i) hi, hslot]
  have hreg : slot.fd ∈ w₁.table.registered :=
    hmidpass.ahead i slot.fd (Nat.le_refl i) hi (holds_of_slot hslot₀)
  have hserving : Serving cfg (noted (atSlot w₁ i) slot.revents slot.fd) :=
    (hmidpass.noted h₀ hi hslot₀ hevt).serving
  rw [serveSlot_run hslot, if_pos hevt]
  rcases client_cases slot.revents hclient hserving.coherent hreg with
    ⟨w', hrun, heffect, hno⟩ | ⟨e, w', hrun, -, hfails⟩
  -- the callback returns: it has kept the client or closed it
  · rw [hrun]
    have hsurvives : Survives slot.fd (noted (atSlot w₁ i) slot.revents slot.fd) (.ok () w') := by
      rcases heffect with hkept | hclosed
      · exact survives_of_kept hserving hkept hreg
      · exact survives_of_closed hserving hclosed
    exact ⟨fun _ => hno, fun _ => ⟨hsurvives.returns, hsurvives.others, hsurvives.closed⟩⟩
  -- the callback raises, which happens in no other case
  · rw [hrun]
    refine ⟨fun hsurvives => ?_, fun hno => absurd hfails hno⟩
    cases hsurvives.returns

/-- Client 4 has sent five bytes, and `send` is answered with `sendResult`. -/
def request (sendResult : Int) : Input :=
  { answer := .ready (written [0, POLLIN])
    accepts := []
    recvs := [5]
    sends := [sendResult] }

/-- The pass with the request when the kernel has answered, and when it comes to slot 1. -/
def requestPolled (sendResult : Int) : Server :=
  polledWorld (feed (request sendResult) sampleLoop) (written [0, POLLIN])

def requestAtOne (sendResult : Int) : Server :=
  endState ((serveSlot (callbacks sampleConfig) 0).run (requestPolled sendResult))

theorem client_survives_request :
    Survives 4 (requestAtOne 300) ((serveSlot (callbacks sampleConfig) 1).run (requestAtOne 300)) ↔
      ¬ (CallsIn POLLIN ∧ SendFails (requestAtOne 300)) := by
  have hslot : (requestAtOne 300).table.fds[1]? = some ⟨4, POLLIN, POLLIN⟩ := by decide +kernel
  have hmid : AtSlot sampleConfig (requestPolled 300) 1 (requestAtOne 300) :=
    AtSlot.first (by decide +kernel) (by decide +kernel)
  have hi : 1 < sampleLoop.table.nfds := by decide +kernel
  exact @client_survives_iff sampleConfig sampleLoop (requestAtOne 300) (request 300)
    (written [0, POLLIN]) 1 ⟨4, POLLIN, POLLIN⟩ eventLoop_sampleLoop hmid hi hslot (by decide)
    (by decide)

/-- The same request when `send` is answered with -1: an error ends the main loop. -/
theorem failed_send_raises :
    ¬ ∀ (cfg : Config) (w w₁ : Server) (input : Input) (revents : Nat → Events) (i : Nat)
        (slot : PollFd), EventLoop cfg w →
        AtSlot cfg (polledWorld (feed input w) revents) i w₁ → i < w.table.nfds →
        w₁.table.fds[i]? = some slot → slot.revents ≠ 0 → slot.fd ≠ cfg.listenSocket →
        Survives slot.fd w₁ ((serveSlot (callbacks cfg) i).run w₁) := by
  intro h
  have hslot : (requestAtOne (-1)).table.fds[1]? = some ⟨4, POLLIN, POLLIN⟩ := by decide +kernel
  have hmid : AtSlot sampleConfig (requestPolled (-1)) 1 (requestAtOne (-1)) :=
    AtSlot.first (by decide +kernel) (by decide +kernel)
  have hi : 1 < sampleLoop.table.nfds := by decide +kernel
  have hsurvives := h sampleConfig sampleLoop (requestAtOne (-1)) (request (-1))
    (written [0, POLLIN]) 1 ⟨4, POLLIN, POLLIN⟩ eventLoop_sampleLoop hmid hi hslot (by decide)
    (by decide)
  have hraise : returns ((serveSlot (callbacks sampleConfig) 1).run (requestAtOne (-1))) = false := by
    decide +kernel
  exact absurd hsurvives.returns (by rw [hraise]; decide)

end AppServer
end LuajitTcpServer
