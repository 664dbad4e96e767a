import LuajitTcpServer.Poll.Pass
import LuajitTcpServer.Poll.TableSpec

/-!
# PassSpec — what one pass does, whatever the callbacks are

The kernel only touches `revents`; the loop then serves the slots in order.  `serveSlots_triple`
is its loop rule, and `poll_run_ready` reduces a pass to the loop.
-/

namespace LuajitTcpServer
namespace Poll

open Hoare PollTable

variable {α β : Type}

/-! ## Lifting the table -/

theorem onTable_run (x : PollM β) (w : World α) :
    (onTable x).run w =
      match x.run w.table with
      | .ok b t => .ok b { w with table := t }
      | .error e t => .error e { w with table := t } := rfl

theorem onTable_run_ok {x : PollM β} {w : World α} {b : β} {t : PollTable}
    (h : x.run w.table = .ok b t) : (onTable x).run w = .ok b { w with table := t } := by
  rw [onTable_run, h]

theorem onTable_run_error {x : PollM β} {w : World α} {e : Fault} {t : PollTable}
    (h : x.run w.table = .error e t) : (onTable x).run w = .error e { w with table := t } := by
  rw [onTable_run, h]

theorem onTable_os {x : PollM β} {w w' : World α} {b : β} (h : (onTable x).run w = .ok b w') :
    w'.os = w.os := by
  rw [onTable_run] at h
  cases hrun : x.run w.table <;> rw [hrun] at h <;> cases h
  rfl

/-! ## The kernel's writes -/

/-- The table after the kernel has answered with `revents`. -/
def polled (t : PollTable) (revents : Nat → Events) : PollTable :=
  { t with
    pollCount := t.pollCount + 1
    fds := writeRevents t.fds t.nfds revents }

section Polled

variable {t : PollTable} {revents : Nat → Events}

theorem writeRevents_length (fds : List PollFd) (nfds : Nat) (revents : Nat → Events) :
    (writeRevents fds nfds revents).length = fds.length := by
  simp [writeRevents]

theorem writeRevents_getElem? (fds : List PollFd) (nfds j : Nat) (revents : Nat → Events) :
    (writeRevents fds nfds revents)[j]? =
      fds[j]?.map fun slot => if j < nfds then { slot with revents := revents j } else slot := by
  rw [writeRevents, List.getElem?_mapIdx]

theorem polled_entries : (polled t revents).entries = t.entries := by
  refine List.ext_getElem? fun j => ?_
  rw [entries_getElem?, entries_getElem?]
  simp only [polled, writeRevents_getElem?, Option.map_map]
  by_cases hj : j < t.nfds
  · simp [hj, Function.comp_def]
  · simp [hj]

theorem polled_registered : (polled t revents).registered = t.registered := by
  rw [registered, registered, polled_entries]

theorem polled_coherent (h : t.Coherent) : (polled t revents).Coherent :=
  ⟨by simpa [Sized, polled, writeRevents_length] using h.sized,
    by simpa [polled, writeRevents_length] using h.size_le⟩

theorem polled_getElem? {j : Nat} (hj : j < t.nfds) :
    (polled t revents).fds[j]? = t.fds[j]?.map fun slot => { slot with revents := revents j } := by
  simp [polled, writeRevents_getElem?, hj]

theorem polled_holds {j : Nat} {fd : Fd} (hj : j < t.nfds) :
    (polled t revents).holds fd j = t.holds fd j := by
  simp [holds, polled_getElem? hj, Function.comp_def]

end Polled

/-! ## Serving a slot -/

/-- `poll_event` as the choice of a callback. -/
def callbackFor (cb : Callbacks α) (evt : Events) (fd : Fd) : Prog α Unit :=
  if has evt POLLHUP then cb.closeCallback fd
  else if has evt POLLIN then cb.inCallback fd
  else if has evt POLLOUT then cb.outCallback fd
  else if has evt POLLNVAL then cb.errorCallback fd "POLLNVAL"
  else if has evt POLLERR then cb.errorCallback fd "POLLERR"
  else pure ()

/-- The world with the call of `poll_event` on record. -/
def noted (w : World α) (evt : Events) (fd : Fd) : World α :=
  { w with log := w.log ++ [.pollEvent evt fd w.table.registered] }

theorem pollEvent_run (cb : Callbacks α) (evt : Events) (fd : Fd) (w : World α) :
    (pollEvent cb evt fd).run w = (callbackFor cb evt fd).run (noted w evt fd) := by
  rw [noted, registered_eq]
  rfl

/-- The world with the loop at slot `i`. -/
def atSlot (w : World α) (i : Nat) : World α := { w with cursor := i }

theorem serveSlot_run {cb : Callbacks α} {w : World α} {i : Nat} {slot : PollFd}
    (h : w.table.fds[i]? = some slot) :
    (serveSlot cb i).run w =
      if slot.revents ≠ 0 then
        (callbackFor cb slot.revents slot.fd).run (noted (atSlot w i) slot.revents slot.fd)
      else .ok () (atSlot w i) := by
  have hread : (readSlot i).run (atSlot w i).table = .ok slot w.table := by
    simp [EStateM.run, readSlot, atSlot, h]
  have hlift : (onTable (readSlot i) : Prog α PollFd).run (atSlot w i) = .ok slot (atSlot w i) :=
    onTable_run_ok hread
  rw [serveSlot, EStateM.run_bind, EStateM.run_modify]
  change (onTable (readSlot i) >>= _ : Prog α Unit).run (atSlot w i) = _
  rw [run_bind_of_ok hlift, run_ite]
  -- `poll_event` reads the slot a second time, with the same result
  by_cases hevt : slot.revents ≠ 0
  · rw [if_pos hevt, if_pos hevt, run_bind_of_ok hlift, pollEvent_run]
  · rw [if_neg hevt, if_neg hevt, EStateM.run_pure]

theorem readSlot_run_none {t : PollTable} {i : Nat} (h : t.fds[i]? = none) :
    ∃ e, (e = .nilTable ∨ e = .outOfBounds i) ∧ (readSlot i).run t = .error e t := by
  by_cases hnil : t.fds = []
  · exact ⟨.nilTable, .inl rfl, by simp [EStateM.run, readSlot, hnil]⟩
  · exact ⟨.outOfBounds i, .inr rfl, by simp [EStateM.run, readSlot, h, hnil]⟩

theorem serveSlot_run_none (cb : Callbacks α) {w : World α} {i : Nat}
    (h : w.table.fds[i]? = none) : ∃ e, (serveSlot cb i).run w = .error e (atSlot w i) := by
  rcases readSlot_run_none h with ⟨e, -, hread⟩
  have hlift : (onTable (readSlot i) : Prog α PollFd).run (atSlot w i) = .error e (atSlot w i) :=
    onTable_run_error hread
  refine ⟨e, ?_⟩
  rw [serveSlot, EStateM.run_bind, EStateM.run_modify]
  exact run_bind_of_error hlift

/-! ## The loop -/

/-- Loop rule of a pass: `I j` holds when the loop comes to slot `j`. -/
theorem serveSlots_triple {cb : Callbacks α} {ret : Int} {nfds : Nat} {I : Nat → World α → Prop}
    {E : Fault → World α → Prop} (hret : ret ≠ 0)
    (hserve : ∀ j, j < nfds → Triple (I j) (serveSlot cb j) (fun _ => I (j + 1)) E) :
    Triple (I 0) (serveSlots cb ret nfds) (fun _ => I nfds) E := by
  refine Triple.forUntil nfds 0 (fun j _ hj => ?_) (fun w hw => by rwa [Nat.zero_add] at hw)
  refine Triple.bind (hserve j (by omega)) fun _ => Triple.pure _ fun w hw => ?_
  -- `served == ret` never holds
  simpa [Ne.symm hret] using hw

theorem mem_readySlots {nfds i : Nat} {revents : Nat → Events} :
    i ∈ readySlots nfds revents ↔ i < nfds ∧ revents i ≠ 0 := by
  simp [readySlots]

/-- The world after the kernel has answered with `revents`. -/
def polledWorld (w : World α) (revents : Nat → Events) : World α :=
  { w with table := polled w.table revents }

/-- A pass the kernel answers ends at once without events, and serves the slots otherwise. -/
theorem poll_run_ready (cb : Callbacks α) (revents : Nat → Events) (w : World α) :
    (poll cb (.ready revents)).run w =
      if readySlots w.table.nfds revents = [] then .ok 0 (polledWorld w revents)
      else
        match (serveSlots cb (readySlots w.table.nfds revents).length w.table.nfds).run
            (polledWorld w revents) with
        | .ok _ w' => .ok (readySlots w.table.nfds revents).length w'
        | .error e w' => .error e w' := by
  have hret : ((readySlots w.table.nfds revents).length : Int) ≠ -1 := by omega
  have hcount : (onTable (modify fun t => { t with pollCount := t.pollCount + 1 }) :
      Prog α Unit).run w =
        .ok () { w with table := { w.table with pollCount := w.table.pollCount + 1 } } := rfl
  have hkernel : (onTable (socketPoll (.ready revents) w.table.nfds w.table.timeout) :
      Prog α Int).run { w with table := { w.table with pollCount := w.table.pollCount + 1 } } =
        .ok (readySlots w.table.nfds revents).length (polledWorld w revents) := rfl
  have hget : ∀ w' : World α, (onTable get : Prog α PollTable).run w' = .ok w'.table w' :=
    fun _ => rfl
  rw [poll, run_bind_of_ok hcount, run_bind_of_ok (hget _)]
  rw [run_bind_of_ok hkernel, if_neg hret]
  simp only [run_ite, Int.natCast_eq_zero, List.length_eq_zero_iff]
  -- `socket.poll` returns the number of ready slots
  by_cases hnone : readySlots w.table.nfds revents = []
  · rw [if_pos hnone, if_pos hnone]
    rfl
  · have hbound : (polledWorld w revents).table.nfds = w.table.nfds := rfl
    rw [if_neg hnone, if_neg hnone, run_bind_of_ok (hget _), EStateM.run_bind, hbound]
    cases (serveSlots cb (readySlots w.table.nfds revents).length w.table.nfds).run
        (polledWorld w revents) <;> rfl

/-- A pass the kernel refuses raises before any event is served. -/
theorem poll_run_failed (cb : Callbacks α) (w : World α) :
    ∃ e w', (poll cb .failed).run w = .error e w' ∧ (∀ fd nfds, e ≠ .fdNotFound fd nfds) ∧
      (w'.log = w.log ∨ ∃ fd, w'.log = w.log ++ [.closed fd]) := by
  let w₁ : World α := { w with table := { w.table with pollCount := w.table.pollCount + 1 } }
  have hcount : (onTable (modify fun t => { t with pollCount := t.pollCount + 1 }) :
      Prog α Unit).run w = .ok () w₁ := rfl
  have hget : (onTable get : Prog α PollTable).run w₁ = .ok w₁.table w₁ := rfl
  have hkernel : (onTable (socketPoll .failed w₁.table.nfds w₁.table.timeout) : Prog α Int).run w₁ =
      .ok (-1) w₁ := rfl
  rw [poll, run_bind_of_ok hcount, run_bind_of_ok hget, run_bind_of_ok hkernel, if_pos rfl]
  -- `cleanup` is called for the descriptor of slot 0
  cases hslot : w.table.fds[0]? with
  | some slot =>
      have hread : (onTable (readSlot 0) : Prog α PollFd).run w₁ = .ok slot w₁ := by
        refine onTable_run_ok ?_
        simp [EStateM.run, readSlot, w₁, hslot]
      refine ⟨.socketError "socket.poll failed with error: " (-1),
        { w₁ with os := w₁.os.close slot.fd, log := w₁.log ++ [.closed slot.fd] }, ?_, ?_,
        .inr ⟨slot.fd, rfl⟩⟩
      · simp only [run_bind_of_ok hread]
        rfl
      · intro fd nfds h
        cases h
  | none =>
      rcases readSlot_run_none (t := w₁.table) hslot with ⟨e, he, hread⟩
      have hlift : (onTable (readSlot 0) : Prog α PollFd).run w₁ = .error e w₁ :=
        onTable_run_error hread
      refine ⟨e, w₁, ?_, ?_, .inl rfl⟩
      · simp only [run_bind_of_error hlift]
      · intro fd nfds h
        rcases he with rfl | rfl <;> cases h

end Poll
end LuajitTcpServer
