import LuajitTcpServer.AppServer.Ledger

/-!
# Dispatch — one pass over a table its callbacks change

The loop of `poll` serves the slots in order, while `in_callback` adds clients, and the other
callbacks remove the descriptor being served by moving the last entry into its slot.  `Midpass`
is the invariant of the loop: the slots it has still to serve are as the kernel left them.

* Clients are only accepted while slot 0 is served, and then go behind the slots of the pass.
* A callback only removes the descriptor it is called for, which is in no later slot.
-/

namespace LuajitTcpServer
namespace AppServer

open Hoare Poll PollTable

/-! ## Calls on record -/

/-- The calls of `poll_event` on record, in order. -/
def pollCalls (log : List Event) : List (Events × Fd) :=
  log.filterMap fun event =>
    match event with
    | .pollEvent evt fd _ => some (evt, fd)
    | _ => none

def IsCall : Event → Prop
  | .pollEvent _ _ _ => True
  | _ => False

/-- The later event is no call for a descriptor that the earlier one closes. -/
def NotAfterClose (earlier later : Event) : Prop :=
  ∀ evt fd registered, earlier = .closed fd → later ≠ .pollEvent evt fd registered

def hasEvents (slot : PollFd) : Bool := slot.revents != 0

/-- The calls the first `i` slots of a polled table ask for. -/
def due (t : PollTable) (i : Nat) : List (Events × Fd) :=
  ((t.fds.take i).filter hasEvents).map fun slot => (slot.revents, slot.fd)

/-- What the pass has put on record when the loop comes to slot `i`. -/
structure Dispatched (t : PollTable) (i : Nat) (new : List Event) : Prop where
  calls_eq : pollCalls new = due t i
  closed_behind : ∀ fd, .closed fd ∈ new → ∃ s, s < i ∧ t.holds fd s = true
  not_after_close : new.Pairwise NotAfterClose

section Records

variable {t : PollTable} {i : Nat} {new more : List Event}

theorem pollCalls_eq_nil (h : ∀ event ∈ more, ¬ IsCall event) : pollCalls more = [] := by
  refine List.filterMap_eq_nil_iff.2 fun event hmem => ?_
  cases event with
  | pollEvent evt fd registered =>
      exact absurd trivial (h _ hmem)
  | accepted | closed | received | sent =>
      rfl

theorem NotAfterClose.of_not_call {earlier later : Event} (h : ¬ IsCall later) :
    NotAfterClose earlier later := by
  intro evt fd registered _ heq
  rw [heq] at h
  exact h trivial

theorem Dispatched.append (h : Dispatched t i new) (hcall : ∀ event ∈ more, ¬ IsCall event)
    (hclosed : ∀ fd, .closed fd ∈ more → ∃ s, s < i ∧ t.holds fd s = true) :
    Dispatched t i (new ++ more) where
  calls_eq := by
    rw [pollCalls, List.filterMap_append]
    change pollCalls new ++ pollCalls more = _
    rw [pollCalls_eq_nil hcall, List.append_nil]
    exact h.calls_eq
  closed_behind := by
    intro fd hmem
    rcases List.mem_append.1 hmem with hold | hnew
    · exact h.closed_behind fd hold
    · exact hclosed fd hnew
  not_after_close := by
    refine List.pairwise_append.2 ⟨h.not_after_close, ?_, fun _ _ later hlater =>
      NotAfterClose.of_not_call (hcall later hlater)⟩
    exact List.pairwise_of_forall_mem_list fun _ _ later hlater =>
      NotAfterClose.of_not_call (hcall later hlater)

theorem due_succ (slot : PollFd) (hslot : t.fds[i]? = some slot) :
    due t (i + 1) = due t i ++ (if slot.revents ≠ 0 then [(slot.revents, slot.fd)] else []) := by
  simp only [due, List.take_add_one, hslot, Option.toList_some, List.filter_append, List.map_append]
  by_cases hevt : slot.revents ≠ 0
  -- the slot has a call due
  · have hkeep : hasEvents slot = true := bne_iff_ne.2 hevt
    rw [List.filter_cons_of_pos hkeep, if_pos hevt]
    rfl
  · have hdrop : ¬ hasEvents slot = true := fun hkeep => hevt (bne_iff_ne.1 hkeep)
    rw [List.filter_cons_of_neg hdrop, if_neg hevt]
    rfl

/-- A call for slot `i`, whose descriptor no earlier slot of the pass holds. -/
theorem Dispatched.call {slot : PollFd} {registered : List Fd} (h : Dispatched t i new)
    (hslot : t.fds[i]? = some slot) (hevt : slot.revents ≠ 0)
    (hfirst : ∀ s, s < i → t.holds slot.fd s = false) :
    Dispatched t (i + 1) (new ++ [.pollEvent slot.revents slot.fd registered]) where
  calls_eq := by
    rw [due_succ slot hslot, if_pos hevt, ← h.calls_eq, pollCalls, List.filterMap_append]
    rfl
  closed_behind := by
    intro fd hmem
    rcases List.mem_append.1 hmem with hold | hnew
    -- what was closed before stays behind; the call itself closes nothing
    · rcases h.closed_behind fd hold with ⟨s, hs, hhold⟩
      exact ⟨s, Nat.lt_succ_of_lt hs, hhold⟩
    · cases List.mem_singleton.1 hnew
  not_after_close := by
    refine List.pairwise_append.2 ⟨h.not_after_close, List.pairwise_singleton _ _, ?_⟩
    intro earlier hearlier later hlater evt fd registered' hclosed heq
    have hcall : later = .pollEvent slot.revents slot.fd registered := List.mem_singleton.1 hlater
    rw [heq] at hcall
    cases hcall
    -- a closed descriptor is held by a slot behind the loop, and this one is not
    rcases h.closed_behind slot.fd (hclosed ▸ hearlier) with ⟨s, hs, hhold⟩
    rw [hfirst s hs] at hhold
    cases hhold

theorem Dispatched.skip {slot : PollFd} (h : Dispatched t i new) (hslot : t.fds[i]? = some slot)
    (hevt : slot.revents = 0) : Dispatched t (i + 1) new where
  calls_eq := by
    rw [due_succ slot hslot, if_neg (not_not.2 hevt), List.append_nil]
    exact h.calls_eq
  closed_behind := by
    intro fd hmem
    rcases h.closed_behind fd hmem with ⟨s, hs, hhold⟩
    exact ⟨s, Nat.lt_succ_of_lt hs, hhold⟩
  not_after_close := h.not_after_close

theorem dispatched_nil (t : PollTable) : Dispatched t 0 [] where
  calls_eq := rfl
  closed_behind := by
    intro fd hmem
    cases hmem
  not_after_close := List.Pairwise.nil

end Records

/-! ## The invariant of the loop -/

/-- The state in which the loop of a pass comes to slot `i`; the kernel answered in `w₀`. -/
structure Midpass (cfg : Config) (w₀ : Server) (i : Nat) (w : Server) : Prop where
  serving : Serving cfg w
  slots : ∀ s, i ≤ s → s < w₀.table.nfds → w.table.fds[s]? = w₀.table.fds[s]?
  ahead : ∀ s fd, i ≤ s → s < w₀.table.nfds → w₀.table.holds fd s = true →
    fd ∈ w.table.registered
  room : i = 0 → w₀.table.nfds ≤ w.table.nfds
  log_eq : ∃ new, w.log = w₀.log ++ new ∧ Dispatched w₀.table i new

section Loop

variable {cfg : Config} {w₀ w w' : Server} {i : Nat} {fd : Fd}

theorem midpass_start (h₀ : Serving cfg w₀) : Midpass cfg w₀ 0 w₀ where
  serving := h₀
  slots := fun _ _ _ => rfl
  ahead := fun s _ _ hs hhold => (mem_registered_iff h₀.coherent.sized).2 ⟨s, hs, hhold⟩
  room := fun _ => Nat.le_refl _
  log_eq := ⟨[], (List.append_nil _).symm, dispatched_nil _⟩

theorem holds_of_slot {t : PollTable} {slot : PollFd} (h : t.fds[i]? = some slot) :
    t.holds slot.fd i = true := by
  simp [holds, h]

/-- No other slot of the pass holds the descriptor of slot `i`. -/
theorem Serving.holds_eq_false {s s' : Nat} (h₀ : Serving cfg w₀) (hs : s < w₀.table.nfds)
    (hs' : s' < w₀.table.nfds) (hne : s ≠ s') (hhold : w₀.table.holds fd s' = true) :
    w₀.table.holds fd s = false := by
  refine Bool.eq_false_iff.2 fun hhold' => ?_
  exact hne (holds_inj h₀.coherent.sized h₀.nodup hs hs' hhold' hhold)

theorem Midpass.noted {slot : PollFd} (h₀ : Serving cfg w₀) (h : Midpass cfg w₀ i w)
    (hi : i < w₀.table.nfds) (hslot : w₀.table.fds[i]? = some slot) (hevt : slot.revents ≠ 0) :
    Midpass cfg w₀ (i + 1) (noted (atSlot w i) slot.revents slot.fd) where
  serving := h.serving.congr rfl rfl openSockets_pollEvent
  slots := fun s hs => h.slots s (Nat.le_of_succ_le hs)
  ahead := fun s fd hs => h.ahead s fd (Nat.le_of_succ_le hs)
  room := fun heq => absurd heq (Nat.succ_ne_zero i)
  log_eq := by
    rcases h.log_eq with ⟨new, hlog, hnew⟩
    refine ⟨new ++ [.pollEvent slot.revents slot.fd w.table.registered], ?_, ?_⟩
    · rw [← List.append_assoc, ← hlog]
      rfl
    · refine hnew.call hslot hevt fun s hs => ?_
      exact h₀.holds_eq_false (Nat.lt_trans hs hi) hi (Nat.ne_of_lt hs) (holds_of_slot hslot)

theorem Midpass.skip {slot : PollFd} (h : Midpass cfg w₀ i w)
    (hslot : w₀.table.fds[i]? = some slot) (hevt : slot.revents = 0) :
    Midpass cfg w₀ (i + 1) (atSlot w i) where
  serving := h.serving.congr rfl rfl rfl
  slots := fun s hs => h.slots s (Nat.le_of_succ_le hs)
  ahead := fun s fd hs => h.ahead s fd (Nat.le_of_succ_le hs)
  room := fun heq => absurd heq (Nat.succ_ne_zero i)
  log_eq := by
    rcases h.log_eq with ⟨new, hlog, hnew⟩
    exact ⟨new, hlog, hnew.skip hslot hevt⟩

theorem IsTransfer.not_call {event : Event} (h : IsTransfer event) : ¬ IsCall event := by
  intro hcall
  cases event with
  | pollEvent =>
      exact h
  | accepted | closed | received | sent =>
      exact hcall

theorem Midpass.kept (h : Midpass cfg w₀ i w) (hkept : Kept w w') : Midpass cfg w₀ i w' where
  serving := h.serving.kept hkept
  slots := hkept.table_eq ▸ h.slots
  ahead := hkept.table_eq ▸ h.ahead
  room := hkept.table_eq ▸ h.room
  log_eq := by
    rcases h.log_eq with ⟨new, hlog, hnew⟩
    rcases hkept.log_eq with ⟨io, hio, htransfer⟩
    refine ⟨new ++ io, by rw [hio, hlog, List.append_assoc], ?_⟩
    refine hnew.append (fun event hmem => (htransfer event hmem).not_call) fun fd hmem => ?_
    exact absurd (htransfer _ hmem) id

/-- Closing the descriptor that slot `i` held: the slot that is overwritten is not ahead. -/
theorem Midpass.closed (h₀ : Serving cfg w₀) (h : Midpass cfg w₀ (i + 1) w)
    (hclosed : Closed fd w w') (hi : i < w₀.table.nfds) (hhold : w₀.table.holds fd i = true) :
    Midpass cfg w₀ (i + 1) w' where
  serving := h.serving.closed hclosed
  slots := by
    intro s hs hlt
    rcases hclosed.removed.slots with ⟨idx, -, hidx, hslots⟩
    -- the slot that `remove_fd` overwrites holds the descriptor, as slot `i` did
    have hne : s ≠ idx := by
      intro heq
      have hhold' : w₀.table.holds fd s = true := by
        rw [← holds_congr (h.slots s hs hlt), heq]
        exact hidx
      exact absurd (holds_inj h₀.coherent.sized h₀.nodup hi hlt hhold hhold') (Nat.ne_of_lt hs)
    rw [hslots s hne]
    exact h.slots s hs hlt
  ahead := by
    intro s fd' hs hlt hhold'
    -- a descriptor ahead is not the closed one, and every other one stays registered
    refine (hclosed.removed.registered_iff h.serving.nodup fd').2 ⟨?_, h.ahead s fd' hs hlt hhold'⟩
    intro heq
    have hs' : i = s := holds_inj h₀.coherent.sized h₀.nodup hi hlt hhold (heq ▸ hhold')
    exact absurd hs' (Nat.ne_of_lt hs)
  room := fun heq => absurd heq (Nat.succ_ne_zero i)
  log_eq := by
    rcases h.log_eq with ⟨new, hlog, hnew⟩
    rcases hclosed.log_eq with ⟨io, hio, htransfer⟩
    refine ⟨new ++ (io ++ [.closed fd]), by rw [hio, hlog, List.append_assoc], ?_⟩
    refine hnew.append (fun event hmem => ?_) fun fd' hmem => ?_
    · rcases List.mem_append.1 hmem with hold | hlast
      · exact (htransfer event hold).not_call
      · rw [List.mem_singleton.1 hlast]
        exact id
    · rcases List.mem_append.1 hmem with hold | hlast
      · exact absurd (htransfer _ hold) id
      · cases List.mem_singleton.1 hlast
        exact ⟨i, Nat.lt_succ_self i, hhold⟩

/-- A client that joins goes behind the slots of the pass as long as none of them was freed. -/
theorem Midpass.joined (h : Midpass cfg w₀ i w) (hjoin : Joined fd w w')
    (hlisten : cfg.listenSocket ∈ w.table.registered) (hroom : w₀.table.nfds ≤ w.table.nfds) :
    Midpass cfg w₀ i w' where
  serving := h.serving.joined hjoin hlisten
  slots := by
    intro s hs hlt
    -- the new entry is behind the last used slot, and so behind the slots of the pass
    have hsized : w.table.nfds ≤ w.table.fds.length := h.serving.coherent.sized
    have hlt' : s < w.table.nfds := Nat.lt_of_lt_of_le hlt hroom
    rw [hjoin.added.slots s (Nat.ne_of_lt hlt') (Nat.lt_of_lt_of_le hlt' hsized)]
    exact h.slots s hs hlt
  ahead := by
    intro s fd' hs hlt hhold
    rw [hjoin.added.registered_eq]
    exact List.mem_append_left _ (h.ahead s fd' hs hlt hhold)
  room := fun _ => by
    rw [hjoin.added.nfds_eq]
    exact Nat.le_succ_of_le hroom
  log_eq := by
    rcases h.log_eq with ⟨new, hlog, hnew⟩
    refine ⟨new ++ [.accepted fd], by rw [hjoin.log_eq, hlog, List.append_assoc], ?_⟩
    refine hnew.append (fun event hmem => ?_) fun fd' hmem => ?_
    · rw [List.mem_singleton.1 hmem]
      exact id
    · cases List.mem_singleton.1 hmem

/-- Only slot 0 can hold the listen socket. -/
theorem Serving.slot_eq_zero (h₀ : Serving cfg w₀) (hi : i < w₀.table.nfds)
    (hhold : w₀.table.holds cfg.listenSocket i = true) : i = 0 := by
  have hreg : cfg.listenSocket ∈ w₀.table.registered :=
    (mem_registered_iff h₀.coherent.sized).2 ⟨i, hi, hhold⟩
  exact holds_inj h₀.coherent.sized h₀.nodup hi (Nat.zero_lt_of_lt hi) hhold (h₀.listen_first hreg)

/-- The accept loop runs while slot 0 is served, so no slot of the pass has been freed. -/
theorem acceptLoop_triple (cfg : Config) (w₀ : Server) (i : Nat) :
    Triple
      (fun w => Midpass cfg w₀ i w ∧ cfg.listenSocket ∈ w.table.registered ∧
        w₀.table.nfds ≤ w.table.nfds)
      (inCallback cfg cfg.listenSocket) (fun _ => Midpass cfg w₀ i) (fun e _ => Expected e) := by
  have htriple : Triple
      (fun w => Midpass cfg w₀ i w ∧ cfg.listenSocket ∈ w.table.registered ∧
        w₀.table.nfds ≤ w.table.nfds)
      (inCallback cfg cfg.listenSocket)
      (fun _ w => Midpass cfg w₀ i w ∧ cfg.listenSocket ∈ w.table.registered ∧
        w₀.table.nfds ≤ w.table.nfds)
      (fun e _ => Expected e) := by
    apply inCallback_listen_triple
    · intro w₁ h₁
      exact h₁.1.serving.toReady
    · intro w₁ w₂ h₁ hkept
      exact ⟨h₁.1.kept hkept, hkept.table_eq ▸ h₁.2⟩
    -- each accepted client keeps the room, since it only lengthens the table
    · intro w₁ w₂ fd h₁ hjoin
      refine ⟨h₁.1.joined hjoin h₁.2.1 h₁.2.2, ?_, ?_⟩
      · rw [hjoin.added.registered_eq]
        exact List.mem_append_left _ h₁.2.1
      · rw [hjoin.added.nfds_eq]
        exact Nat.le_succ_of_le h₁.2.2
  exact htriple.conseq (fun _ h => h) (fun _ _ h => h.1) (fun _ _ h => h)

/-- One slot: the invariant moves on to the next one, or the pass ends with an error. -/
theorem serveSlot_triple (h₀ : Serving cfg w₀) (hi : i < w₀.table.nfds) :
    Triple (Midpass cfg w₀ i) (serveSlot (callbacks cfg) i) (fun _ => Midpass cfg w₀ (i + 1))
      (fun e _ => Expected e) := by
  intro w h
  have hsized : w₀.table.nfds ≤ w₀.table.fds.length := h₀.coherent.sized
  have hslot₀ : w₀.table.fds[i]? = some w₀.table.fds[i] :=
    List.getElem?_eq_getElem (Nat.lt_of_lt_of_le hi hsized)
  generalize w₀.table.fds[i] = slot at hslot₀
  -- the callbacks of the earlier slots have left this one as the kernel wrote it
  have hslot : w.table.fds[i]? = some slot := by rw [h.slots i (Nat.le_refl i) hi, hslot₀]
  rw [serveSlot_run hslot]
  by_cases hevt : slot.revents ≠ 0
  · rw [if_pos hevt]
    have hnoted : Midpass cfg w₀ (i + 1) (noted (atSlot w i) slot.revents slot.fd) :=
      h.noted h₀ hi hslot₀ hevt
    have hhold : w₀.table.holds slot.fd i = true := holds_of_slot hslot₀
    have hreg : slot.fd ∈ w.table.registered := h.ahead i slot.fd (Nat.le_refl i) hi hhold
    have heffect : ∀ w', Kept (noted (atSlot w i) slot.revents slot.fd) w' ∨
        Closed slot.fd (noted (atSlot w i) slot.revents slot.fd) w' →
        Midpass cfg w₀ (i + 1) w' := by
      intro w' hor
      rcases hor with hkept | hclosed
      · exact hnoted.kept hkept
      · exact hnoted.closed h₀ hclosed hi hhold
    -- the accept loop is the only callback that adds descriptors
    by_cases hlisten : slot.fd = cfg.listenSocket
    · by_cases hin : CallsIn slot.revents
      · have hzero : i = 0 := h₀.slot_eq_zero hi (hlisten ▸ hhold)
        rw [callbackFor_of_callsIn cfg slot.fd hin]
        rw [hlisten] at hnoted hreg ⊢
        exact acceptLoop_triple cfg w₀ (i + 1) _ ⟨hnoted, hreg, h.room hzero⟩
      -- the listen socket without `POLLIN`: it is kept, or closed as a client would be
      · rcases callbackFor_cases cfg hin hnoted.serving.coherent hreg with ⟨w', hrun, hor⟩
        rw [hrun]
        exact heffect w' hor
    -- a client is kept or closed, or `socket.cleanup` raises
    · rcases client_cases slot.revents hlisten hnoted.serving.coherent hreg with
        ⟨w', hrun, hor, -⟩ | ⟨e, w', hrun, he, -⟩
      · rw [hrun]
        exact heffect w' hor
      · rw [hrun]
        exact he
  · rw [if_neg hevt]
    exact h.skip hslot₀ (not_not.1 hevt)

theorem due_eq_nil {t : PollTable} {revents : Nat → Events} (h : readySlots t.nfds revents = []) :
    due (polled t revents) t.nfds = [] := by
  refine List.map_eq_nil_iff.2 (List.filter_eq_nil_iff.2 fun slot hmem => ?_)
  rcases List.mem_iff_getElem?.1 hmem with ⟨s, hs⟩
  rw [List.getElem?_take] at hs
  by_cases hlt : s < t.nfds
  · rw [if_pos hlt, polled_getElem? hlt] at hs
    rcases Option.map_eq_some_iff.1 hs with ⟨slot', -, rfl⟩
    -- a slot with events would be one of the ready slots
    have hzero : revents s = 0 := by
      by_contra hne
      have hready : s ∈ readySlots t.nfds revents := mem_readySlots.2 ⟨hlt, hne⟩
      rw [h] at hready
      cases hready
    simp [hasEvents, hzero]
  · rw [if_neg hlt] at hs
    cases hs

/-- A pass that the kernel answers serves all its slots or raises an expected error. -/
theorem pass_ready (h : Serving cfg w) (input : Input) {revents : Nat → Events}
    (hanswer : input.answer = .ready revents) :
    match pass cfg input w with
    | .ok _ w' => Midpass cfg (polledWorld (feed input w) revents) w.table.nfds w'
    | .error e _ => Expected e := by
  have h₀ : Serving cfg (polledWorld (feed input w) revents) := h.polled input revents
  have hstart : Midpass cfg (polledWorld (feed input w) revents) 0
      (polledWorld (feed input w) revents) := midpass_start h₀
  rw [pass, hanswer, poll_run_ready]
  by_cases hnone : readySlots (feed input w).table.nfds revents = []
  · rw [if_pos hnone]
    -- without events the loop is not entered, and no call is due
    exact
      { serving := h₀
        slots := fun _ _ _ => rfl
        ahead := fun s fd hs hlt => absurd hlt (Nat.not_lt.2 hs)
        room := fun _ => Nat.le_refl _
        log_eq := ⟨[], (List.append_nil _).symm,
          { calls_eq := (due_eq_nil hnone).symm
            closed_behind := fun fd hmem => absurd hmem List.not_mem_nil
            not_after_close := List.Pairwise.nil }⟩ }
  -- the return value counts the ready slots, so the loop is entered
  · have hret : ((readySlots (feed input w).table.nfds revents).length : Int) ≠ 0 := by
      simpa using hnone
    have hloop : Triple (Midpass cfg (polledWorld (feed input w) revents) 0)
        (serveSlots (callbacks cfg) (readySlots (feed input w).table.nfds revents).length
          (feed input w).table.nfds)
        (fun _ => Midpass cfg (polledWorld (feed input w) revents) w.table.nfds)
        (fun e _ => Expected e) :=
      serveSlots_triple hret fun j hj => serveSlot_triple h₀ hj
    rw [if_neg hnone]
    cases hrun : (serveSlots (callbacks cfg) (readySlots (feed input w).table.nfds revents).length
        (feed input w).table.nfds).run (polledWorld (feed input w) revents) with
    | ok _ w' =>
        exact hloop.ok hstart hrun
    | error e w' =>
        exact hloop.error hstart hrun

theorem pass_failed (input : Input) (hanswer : input.answer = .failed) (w : Server) :
    ∃ e w', pass cfg input w = .error e w' ∧ ∀ fd nfds, e ≠ .fdNotFound fd nfds := by
  rcases poll_run_failed (callbacks cfg) (feed input w) with ⟨e, w', hrun, hne, -⟩
  refine ⟨e, w', ?_, hne⟩
  rw [pass, hanswer]
  exact hrun

/-- Every state of the main loop meets the invariant. -/
theorem EventLoop.serving (h : EventLoop cfg w) : Serving cfg w := by
  induction h with
  | start hrun =>
      exact serving_initial hrun
  | @pass w w' input ret _ hrun ih =>
      -- the pass returned, so the kernel did answer
      cases hanswer : input.answer with
      | failed =>
          rcases pass_failed input hanswer w with ⟨e, w₁, herror, -⟩
          rw [herror] at hrun
          cases hrun
      | ready revents =>
          have hpass := pass_ready ih input hanswer
          rw [hrun] at hpass
          exact hpass.serving

end Loop

/-! ## Exact dispatch -/

/-- The calls of `poll_event` in a pass on table `t` for which the kernel wrote `revents`. -/
structure DispatchExact (t : PollTable) (revents : Nat → Events) (new : List Event) : Prop where
  /-- A descriptor with events gets one call, with its own events. -/
  once : ∀ s fd, s < t.nfds → t.holds fd s = true → revents s ≠ 0 →
    (pollCalls new).filter (fun call => call.2 = fd) = [(revents s, fd)]
  /-- No other call is made. -/
  own : ∀ evt fd, (evt, fd) ∈ pollCalls new →
    ∃ s, s < t.nfds ∧ t.holds fd s = true ∧ revents s = evt ∧ evt ≠ 0
  registered : ∀ evt fd, (evt, fd) ∈ pollCalls new → fd ∈ t.registered ∧ fd ≠ -1
  not_after_close : new.Pairwise NotAfterClose

theorem mem_due {t : PollTable} {revents : Nat → Events} {evt : Events} {fd : Fd} :
    (evt, fd) ∈ due (polled t revents) t.nfds ↔
      ∃ s, s < t.nfds ∧ t.holds fd s = true ∧ revents s = evt ∧ evt ≠ 0 := by
  simp only [due, List.mem_map, List.mem_filter]
  constructor
  · rintro ⟨slot, ⟨hmem, hevents⟩, heq⟩
    rcases List.mem_iff_getElem?.1 hmem with ⟨s, hs⟩
    rw [List.getElem?_take] at hs
    by_cases hlt : s < t.nfds
    · rw [if_pos hlt] at hs
      -- the kernel writes no descriptors: the slot holds what it held before
      have hhold : (polled t revents).holds slot.fd s = true := holds_of_slot hs
      rw [polled_getElem? hlt] at hs
      rcases Option.map_eq_some_iff.1 hs with ⟨slot', -, rfl⟩
      rw [polled_holds hlt] at hhold
      cases heq
      exact ⟨s, hlt, hhold, rfl, bne_iff_ne.1 hevents⟩
    · rw [if_neg hlt] at hs
      cases hs
  · rintro ⟨s, hlt, hhold, rfl, hne⟩
    have hslot : ∃ slot, t.fds[s]? = some slot ∧ slot.fd = fd := by
      simpa only [holds, beq_iff_eq, Option.map_eq_some_iff] using hhold
    rcases hslot with ⟨slot, hslot, rfl⟩
    -- the same slot after the kernel has written its events
    refine ⟨{ slot with revents := revents s }, ⟨?_, bne_iff_ne.2 hne⟩, rfl⟩
    refine List.mem_iff_getElem?.2 ⟨s, ?_⟩
    rw [List.getElem?_take, if_pos hlt, polled_getElem? hlt, hslot]
    rfl

theorem due_nodup {t : PollTable} (h : t.registered.Nodup) :
    ((due t t.nfds).map Prod.snd).Nodup := by
  rw [registered_eq] at h
  rw [due, List.map_map]
  exact h.sublist (List.filter_sublist.map _)

/-- In every pass of the main loop that returns, `poll_event` is called exactly once for each
descriptor that was registered with events when the kernel answered, with its own events, and for
no other descriptor; and never for one that was closed earlier in the pass. -/
theorem dispatch_exact {cfg : Config} {w w' : Server} {input : Input} {revents : Nat → Events}
    {ret : Int} (h : EventLoop cfg w) (hanswer : input.answer = .ready revents)
    (hrun : pass cfg input w = .ok ret w') :
    ∃ new, w'.log = w.log ++ new ∧ DispatchExact w.table revents new := by
  have hserving := h.serving
  have hpass := pass_ready hserving input hanswer
  rw [hrun] at hpass
  rcases hpass.log_eq with ⟨new, hlog, hnew⟩
  have hcalls : pollCalls new = due (polled w.table revents) w.table.nfds := hnew.calls_eq
  have hown : ∀ evt fd, (evt, fd) ∈ pollCalls new →
      ∃ s, s < w.table.nfds ∧ w.table.holds fd s = true ∧ revents s = evt ∧ evt ≠ 0 := by
    intro evt fd hmem
    rw [hcalls] at hmem
    exact mem_due.1 hmem
  refine ⟨new, hlog, ?_, hown, ?_, hnew.not_after_close⟩
  · intro s fd hs hhold hevt
    have hmem : (revents s, fd) ∈ due (polled w.table revents) w.table.nfds :=
      mem_due.2 ⟨s, hs, hhold, rfl, hevt⟩
    -- distinct descriptors have at most one due call each
    have hregs : (polled w.table revents).registered.Nodup := by
      rw [polled_registered]
      exact hserving.nodup
    have hnodup : ((due (polled w.table revents) w.table.nfds).map Prod.snd).Nodup :=
      due_nodup hregs
    rw [hcalls]
    exact SlotArray.filter_key_eq_singleton hnodup hmem
  · intro evt fd hmem
    rcases hown evt fd hmem with ⟨s, hs, hhold, -, -⟩
    have hreg : fd ∈ w.table.registered :=
      (mem_registered_iff hserving.coherent.sized).2 ⟨s, hs, hhold⟩
    exact ⟨hreg, hserving.valid fd hreg⟩

/-- A server listening on 3, with a heap that never runs out. -/
def sampleConfig : Config :=
  { listenSocket := 3
    valid := by decide
    closeConnection := 0
    debugLevel := 0
    timeout := 2000 }

def sampleStart : Server :=
  endState ((onTable (addFd 3 listenEvents)).run
    (initial sampleConfig (fun _ => some fun _ => ⟨0, 0, 0⟩) [0, 1, 2]))

/-- Three clients connect. -/
def arrivals : Input :=
  { answer := .ready (written [POLLIN])
    accepts := [4, 5, 6]
    recvs := []
    sends := [] }

def sampleLoop : Server := endState (pass sampleConfig arrivals sampleStart)

theorem eventLoop_sampleStart : EventLoop sampleConfig sampleStart := by
  have hadd : returns ((onTable (addFd 3 listenEvents)).run
      (initial sampleConfig (fun _ => some fun _ => ⟨0, 0, 0⟩) [0, 1, 2])) = true := by
    decide +kernel
  rcases eq_ok_of_returns hadd with ⟨_, hrun⟩
  exact .start hrun

theorem eventLoop_sampleLoop : EventLoop sampleConfig sampleLoop := by
  have hpass : returns (pass sampleConfig arrivals sampleStart) = true := by decide +kernel
  rcases eq_ok_of_returns hpass with ⟨_, hrun⟩
  exact .pass eventLoop_sampleStart hrun

/-- A fourth client connects, client 4 hangs up, so that the fourth is moved into its slot, and
client 6 has closed its end. -/
def departures : Input :=
  { answer := .ready (written [POLLIN, POLLHUP, 0, POLLIN])
    accepts := [7]
    recvs := [0]
    sends := [] }

theorem dispatch_exact_departures :
    ∃ new, (endState (pass sampleConfig departures sampleLoop)).log = sampleLoop.log ++ new ∧
      DispatchExact sampleLoop.table (written [POLLIN, POLLHUP, 0, POLLIN]) new := by
  have hpass : returns (pass sampleConfig departures sampleLoop) = true := by decide +kernel
  rcases eq_ok_of_returns hpass with ⟨_, hrun⟩
  exact dispatch_exact eventLoop_sampleLoop rfl hrun

/-! ## Registered and open -/

/-- In every state of the main loop the registered descriptors are distinct, and they are the
listen socket and the accepted clients that have not been closed; no pass raises the error of
`remove_fd`. -/
theorem registered_eq_openSockets {cfg : Config} {w : Server} (h : EventLoop cfg w) :
    w.table.registered.Nodup ∧
      (∀ fd, fd ∈ w.table.registered ↔ fd ∈ openSockets cfg.listenSocket w.log) ∧
      ∀ input fd nfds w', pass cfg input w ≠ .error (.fdNotFound fd nfds) w' := by
  refine ⟨h.serving.nodup, h.serving.ledger, fun input fd nfds w' hrun => ?_⟩
  cases hanswer : input.answer with
  | failed =>
      rcases pass_failed input hanswer w with ⟨e, w₁, herror, hne⟩
      rw [herror] at hrun
      cases hrun
      exact hne fd nfds rfl
  | ready revents =>
      have hpass := pass_ready h.serving input hanswer
      rw [hrun] at hpass
      exact hpass.ne_fdNotFound fd nfds rfl

theorem registered_eq_openSockets_sampleLoop :
    sampleLoop.table.registered.Nodup ∧
      (∀ fd, fd ∈ sampleLoop.table.registered ↔
        fd ∈ openSockets sampleConfig.listenSocket sampleLoop.log) ∧
      ∀ input fd nfds w', pass sampleConfig input sampleLoop ≠ .error (.fdNotFound fd nfds) w' :=
  registered_eq_openSockets eventLoop_sampleLoop

end AppServer
end LuajitTcpServer
