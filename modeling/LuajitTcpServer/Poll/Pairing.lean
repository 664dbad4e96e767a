import LuajitTcpServer.Poll.PassSpec
import LuajitTcpServer.Poll.Refinement

/-!
# Pairing — a pass whose callbacks change the table

`lib_poll.lua` lets the callbacks of a pass call `remove_fd` and `add_fd`.  `remove_fd` moves the
`fd` and `events` of the last entry but not its `revents`, and `add_fd` reuses the slot after the
used ones without clearing `revents`, so a slot the loop has still to serve can come to pair a
descriptor with the events of another one.

Here the callbacks are scripts of arbitrary calls.  `events_paired_of_spared` says that every
`poll_event` gets a registered descriptor with its own events as long as no call of a callback
touches a slot that is still to be served: it neither removes the descriptor such a slot holds nor
adds one into such a slot.
-/

namespace LuajitTcpServer
namespace Poll

open Hoare PollTable

/-! ## Scripted callbacks -/

/-- A call a callback has made: the slot the loop was at, and the table before the call. -/
structure Move where
  slot : Nat
  call : Call
  table : PollTable

/-- The calls the callbacks of the pass have still to make, one list for each callback that
runs, and the ones they have made. -/
structure Script where
  todo : List (List Call)
  made : List Move

def performOne (c : Call) : Prog Script Unit := do
  modify fun w =>
    { w with app := { w.app with made := w.app.made ++ [⟨w.cursor, c, w.table⟩] } }
  onTable c.exec

def perform : List Call → Prog Script Unit
  | [] => pure ()
  | c :: cs => do
      performOne c
      perform cs

/-- The callback that makes the calls next in the script. -/
def scripted (_fd : Fd) : Prog Script Unit := do
  let w ← get
  set { w with app := { w.app with todo := w.app.todo.tail } }
  perform (w.app.todo.headD [])

def scriptedCallbacks : Callbacks Script where
  inCallback := scripted
  outCallback := scripted
  closeCallback := scripted
  errorCallback := fun fd _ => scripted fd

/-- A pass is about to start on table `t`. -/
def scriptWorld (t : PollTable) (os : Os) (todo : List (List Call)) : World Script :=
  { table := t
    os := os
    app := { todo := todo, made := [] }
    cursor := 0
    log := [] }

/-- The world after a pass on `t` for which the kernel has written `revents`. -/
def passEnd (t : PollTable) (os : Os) (todo : List (List Call)) (revents : Nat → Events) :
    World Script :=
  endState ((poll scriptedCallbacks (.ready revents)).run (scriptWorld t os todo))

/-- The call removes a registered descriptor or adds a fresh one. -/
def Move.Proper (m : Move) : Prop :=
  match m.call with
  | .remove fd => fd ∈ m.table.registered
  | .add fd _ => fd ∉ m.table.registered

instance (m : Move) : Decidable m.Proper :=
  match m with
  | ⟨_, .remove fd, t⟩ => inferInstanceAs (Decidable (fd ∈ t.registered))
  | ⟨_, .add fd _, t⟩ => inferInstanceAs (Decidable (fd ∉ t.registered))

/-! ## Slots still to be served -/

section Pass

variable (t₀ : PollTable) (revents : Nat → Events)

/-- Slot `s` has events, and a loop that is about to serve slot `j` will come to it. -/
def Ahead (j s : Nat) : Prop := j ≤ s ∧ s < t₀.nfds ∧ revents s ≠ 0

/-- The call touches no slot the loop has still to serve. -/
def Move.Spares (m : Move) : Prop :=
  match m.call with
  | .remove fd => ∀ s, Ahead t₀ revents (m.slot + 1) s → m.table.holds fd s = false
  | .add _ _ => ¬ Ahead t₀ revents (m.slot + 1) m.table.nfds

instance (j s : Nat) : Decidable (Ahead t₀ revents j s) :=
  inferInstanceAs (Decidable (_ ∧ _ ∧ _))

theorem spares_remove_iff (m : Move) (fd : Fd) :
    (∀ s, s < t₀.nfds → Ahead t₀ revents (m.slot + 1) s → m.table.holds fd s = false) ↔
      ∀ s, Ahead t₀ revents (m.slot + 1) s → m.table.holds fd s = false :=
  ⟨fun h s hs => h s hs.2.1 hs, fun h s _ hs => h s hs⟩

instance (m : Move) : Decidable (m.Spares t₀ revents) :=
  match m with
  | ⟨slot, .remove fd, t⟩ => decidable_of_iff _ (spares_remove_iff t₀ revents ⟨slot, .remove fd, t⟩ fd)
  | ⟨slot, .add _ _, t⟩ => inferInstanceAs (Decidable (¬ Ahead t₀ revents (slot + 1) t.nfds))

/-- A `poll_event` is given a registered descriptor with the events the kernel wrote for it. -/
def Paired : Event → Prop
  | .pollEvent evt fd registered =>
      fd ∈ registered ∧ ∃ s, s < t₀.nfds ∧ t₀.holds fd s = true ∧ revents s = evt
  | _ => True

instance : DecidablePred (Paired t₀ revents)
  | .pollEvent evt fd registered =>
      inferInstanceAs (Decidable (fd ∈ registered ∧
        ∃ s, s < t₀.nfds ∧ t₀.holds fd s = true ∧ revents s = evt))
  | .accepted _ | .closed _ | .received _ _ _ | .sent _ _ _ => inferInstanceAs (Decidable True)

/-- The slots from `j` on are as the kernel left them, and what they hold is registered. -/
structure Intact (j : Nat) (t : PollTable) : Prop where
  coherent : t.Coherent
  revents_eq : ∀ s, s < t₀.nfds → t.fds[s]?.map PollFd.revents = some (revents s)
  ahead : ∀ s, Ahead t₀ revents j s →
    ∃ fd, t₀.holds fd s = true ∧ t.holds fd s = true ∧ fd ∈ t.registered

end Pass

section Steps

variable {t₀ : PollTable} {revents : Nat → Events} {t t' : PollTable} {i s : Nat} {fd : Fd}

theorem lt_length_of_map_eq_some {revents : Events}
    (h : t.fds[s]?.map PollFd.revents = some revents) : s < t.fds.length := by
  by_contra hs
  rw [List.getElem?_eq_none (Nat.not_lt.1 hs)] at h
  cases h

theorem Intact.add {events : Events} (h : Intact t₀ revents (i + 1) t)
    (hadd : Added t t' fd events) (hspare : ¬ Ahead t₀ revents (i + 1) t.nfds) :
    Intact t₀ revents (i + 1) t' := by
  refine ⟨hadd.coherent, fun s hs => ?_, fun s hs => ?_⟩
  · have hlen := lt_length_of_map_eq_some (h.revents_eq s hs)
    rw [hadd.revents_eq s hlen]
    exact h.revents_eq s hs
  · rcases h.ahead s hs with ⟨fd', hold₀, hold, hreg⟩
    have hlen := lt_length_of_map_eq_some (h.revents_eq s hs.2.1)
    -- `add_fd` writes the slot after the used ones only
    have hne : s ≠ t.nfds := by
      intro heq
      exact hspare (heq ▸ hs)
    refine ⟨fd', hold₀, ?_, ?_⟩
    · rw [holds_congr (hadd.slots s hne hlen)]
      exact hold
    · rw [hadd.registered_eq]
      exact List.mem_append_left _ hreg

theorem Intact.remove (h : Intact t₀ revents (i + 1) t) (hrem : Removed t t' fd)
    (hspare : ∀ s, Ahead t₀ revents (i + 1) s → t.holds fd s = false) :
    Intact t₀ revents (i + 1) t' := by
  refine ⟨hrem.coherent, fun s hs => ?_, fun s hs => ?_⟩
  · rw [hrem.revents_eq s]
    exact h.revents_eq s hs
  · rcases h.ahead s hs with ⟨fd', hold₀, hold, hreg⟩
    rcases hrem.slots with ⟨idx, -, hidx, hslots⟩
    have hmiss : t.holds fd s = false := hspare s hs
    -- the slot that `remove_fd` overwrites holds `fd`, which no slot ahead does
    have hne : s ≠ idx := by
      intro heq
      rw [heq, hidx] at hmiss
      cases hmiss
    have hfd : fd' ≠ fd := by
      intro heq
      rw [heq, hmiss] at hold
      cases hold
    refine ⟨fd', hold₀, ?_, ?_⟩
    · rw [holds_congr (hslots s hne)]
      exact hold
    -- what a slot ahead holds is not `fd`, so it stays registered
    · have hcons : fd' ∈ fd :: t'.registered := hrem.registered_perm.mem_iff.2 hreg
      exact (List.mem_cons.1 hcons).resolve_left hfd

/-- A call that spares the slots ahead leaves them intact. -/
theorem Intact.call {c : Call} (h : Intact t₀ revents (i + 1) t)
    (hspare : Move.Spares t₀ revents ⟨i, c, t⟩) (hrun : c.exec.run t = .ok () t') :
    Intact t₀ revents (i + 1) t' := by
  cases c with
  | add fd events =>
      rcases addFd_cases h.coherent fd events with ⟨t₁, heq, hadd, -⟩ | ⟨e, t₁, heq, -⟩ |
        ⟨t₁, heq, -⟩
      · rw [Call.exec, heq] at hrun
        cases hrun
        exact h.add hadd hspare
      · rw [Call.exec, heq] at hrun
        cases hrun
      · rw [Call.exec, heq] at hrun
        cases hrun
  | remove fd =>
      rcases removeFd_cases h.coherent fd with ⟨-, t₁, heq, hrem⟩ | ⟨-, heq⟩
      · rw [Call.exec, heq] at hrun
        cases hrun
        exact h.remove hrem hspare
      · rw [Call.exec, heq] at hrun
        cases hrun

theorem intact_polled (h : t₀.Coherent) : Intact t₀ revents 0 (polled t₀ revents) := by
  have hsized : t₀.nfds ≤ t₀.fds.length := h.sized
  refine ⟨polled_coherent h, fun s hs => ?_, fun s hs => ?_⟩
  · have hlen : s < t₀.fds.length := Nat.lt_of_lt_of_le hs hsized
    simp [polled_getElem? hs, hlen]
  · have hlen : s < t₀.fds.length := Nat.lt_of_lt_of_le hs.2.1 hsized
    have hold : t₀.holds t₀.fds[s].fd s = true := (holds_iff hlen).2 rfl
    refine ⟨t₀.fds[s].fd, hold, ?_, ?_⟩
    · rw [polled_holds hs.2.1]
      exact hold
    · rw [polled_registered, mem_registered_iff h.sized]
      exact ⟨s, hs.2.1, hold⟩

/-! ## The invariant of the loop -/

variable (t₀ revents)

/-- Every call made so far spares the slots that were ahead of it. -/
def AllSpared (w : World Script) : Prop := ∀ m ∈ w.app.made, Move.Spares t₀ revents m

/-- The loop is about to serve slot `j`. -/
def BeforeSlot (j : Nat) (w : World Script) : Prop :=
  AllSpared t₀ revents w →
    Intact t₀ revents j w.table ∧ ∀ event ∈ w.log, Paired t₀ revents event

/-- A callback is running for slot `i`. -/
def InSlot (i : Nat) (w : World Script) : Prop :=
  w.cursor = i ∧ BeforeSlot t₀ revents (i + 1) w

/-- The pass has ended with an error. -/
def Raised (_e : Fault) (w : World Script) : Prop :=
  AllSpared t₀ revents w → ∀ event ∈ w.log, Paired t₀ revents event

variable {t₀ revents}

theorem performOne_triple (c : Call) (i : Nat) :
    Triple (InSlot t₀ revents i) (performOne c) (fun _ => InSlot t₀ revents i)
      (Raised t₀ revents) := by
  intro w hw
  rcases hw with ⟨rfl, hw⟩
  have hmade : ∀ t, AllSpared t₀ revents
      { w with
        table := t
        app := { w.app with made := w.app.made ++ [⟨w.cursor, c, w.table⟩] } } →
      AllSpared t₀ revents w ∧ Move.Spares t₀ revents ⟨w.cursor, c, w.table⟩ := by
    intro t hall
    exact ⟨fun m hm => hall m (List.mem_append_left _ hm),
      hall _ (List.mem_append_right _ (List.mem_singleton_self _))⟩
  rw [performOne, EStateM.run_bind, EStateM.run_modify]
  simp only [onTable_run]
  -- the call is on record whether it returns or raises
  cases hrun : c.exec.run w.table with
  | ok _ t' =>
      refine ⟨rfl, fun hall => ?_⟩
      rcases hmade t' hall with ⟨hall₀, hspare⟩
      exact ⟨(hw hall₀).1.call hspare hrun, (hw hall₀).2⟩
  | error e t' =>
      intro hall
      exact (hw (hmade t' hall).1).2

theorem perform_triple (cs : List Call) (i : Nat) :
    Triple (InSlot t₀ revents i) (perform cs) (fun _ => InSlot t₀ revents i)
      (Raised t₀ revents) := by
  induction cs with
  | nil =>
      exact Triple.pure () fun _ hw => hw
  | cons c cs ih =>
      exact Triple.bind (performOne_triple c i) fun _ => ih

theorem scripted_triple (fd : Fd) (i : Nat) :
    Triple (InSlot t₀ revents i) (scripted fd) (fun _ => InSlot t₀ revents i)
      (Raised t₀ revents) := by
  intro w hw
  have hw' : InSlot t₀ revents i { w with app := { w.app with todo := w.app.todo.tail } } := hw
  exact perform_triple (w.app.todo.headD []) i _ hw'

theorem callbackFor_triple (evt : Events) (fd : Fd) (i : Nat) :
    Triple (InSlot t₀ revents i) (callbackFor scriptedCallbacks evt fd)
      (fun _ => InSlot t₀ revents i) (Raised t₀ revents) := by
  unfold callbackFor
  repeat' refine Triple.ite (fun _ => scripted_triple fd i) (fun _ => ?_)
  exact Triple.pure () fun _ hw => hw

theorem Ahead.prev (h : Ahead t₀ revents (i + 1) s) : Ahead t₀ revents i s :=
  ⟨Nat.le_of_succ_le h.1, h.2⟩

theorem Intact.next (h : Intact t₀ revents i t) : Intact t₀ revents (i + 1) t :=
  ⟨h.coherent, h.revents_eq, fun s hs => h.ahead s hs.prev⟩

/-- The event recorded for slot `i` is paired if the slot is still intact. -/
theorem Intact.paired {slot : PollFd} (h : Intact t₀ revents i t) (hi : i < t₀.nfds)
    (hslot : t.fds[i]? = some slot) (hevt : slot.revents ≠ 0) :
    Paired t₀ revents (.pollEvent slot.revents slot.fd t.registered) := by
  have hrev : slot.revents = revents i := by
    have := h.revents_eq i hi
    rw [hslot] at this
    exact Option.some.inj this
  rcases h.ahead i ⟨Nat.le_refl i, hi, hrev ▸ hevt⟩ with ⟨fd, hold₀, hold, hreg⟩
  have hfd : slot.fd = fd := by
    simp only [holds, hslot, Option.map_some, beq_iff_eq, Option.some.injEq] at hold
    exact hold
  exact ⟨hfd ▸ hreg, i, hi, hfd ▸ hold₀, hrev.symm⟩

/-- A slot of the pass is allocated as long as every call so far has spared the slots ahead. -/
theorem BeforeSlot.slot_eq_none {w : World Script} (h : BeforeSlot t₀ revents i w)
    (hi : i < t₀.nfds) (hnone : w.table.fds[i]? = none) : ¬ AllSpared t₀ revents w := by
  intro hall
  have hrev := (h hall).1.revents_eq i hi
  rw [hnone] at hrev
  cases hrev

theorem serveSlot_triple (hi : i < t₀.nfds) :
    Triple (BeforeSlot t₀ revents i) (serveSlot scriptedCallbacks i)
      (fun _ => BeforeSlot t₀ revents (i + 1)) (Raised t₀ revents) := by
  intro w hw
  cases hslot : w.table.fds[i]? with
  | none =>
      -- the slot is not allocated any more, which only a call ahead can bring about
      rcases serveSlot_run_none scriptedCallbacks hslot with ⟨e, hrun⟩
      rw [hrun]
      exact fun hall => absurd hall (hw.slot_eq_none hi hslot)
  | some slot =>
      rw [serveSlot_run hslot]
      by_cases hevt : slot.revents ≠ 0
      · have hnoted : InSlot t₀ revents i (noted (atSlot w i) slot.revents slot.fd) := by
          refine ⟨rfl, fun hall => ⟨(hw hall).1.next, fun event hmem => ?_⟩⟩
          -- the new call of `poll_event` is for the slot the loop is at
          rcases List.mem_append.1 hmem with hold | hnew
          · exact (hw hall).2 event hold
          · rw [List.mem_singleton.1 hnew]
            exact (hw hall).1.paired hi hslot hevt
        rw [if_pos hevt]
        have hcallback : Triple (InSlot t₀ revents i)
            (callbackFor scriptedCallbacks slot.revents slot.fd)
            (fun _ => BeforeSlot t₀ revents (i + 1)) (Raised t₀ revents) :=
          (callbackFor_triple slot.revents slot.fd i).conseq
            (fun _ h => h) (fun _ _ h => h.2) (fun _ _ h => h)
        exact hcallback _ hnoted
      · rw [if_neg hevt]
        exact fun hall => ⟨(hw hall).1.next, (hw hall).2⟩

end Steps

/-! ## The pass -/

/-- Slots 0 to 2 hold the descriptors 3, 4 and 5, in an allocation of four. -/
def threeTable : PollTable :=
  { started (fun _ => none) 0 with
    fds := [⟨3, POLLIN, 0⟩, ⟨4, POLLIN, 0⟩, ⟨5, POLLIN, 0⟩, ⟨0, 0, 0⟩]
    nfds := 3
    fdsListSize := 4 }

theorem threeTable_coherent : threeTable.Coherent :=
  ⟨by decide, by decide⟩

def quietOs : Os :=
  { opened := [3, 4, 5]
    acceptAnswers := []
    recvAnswers := []
    sendAnswers := [] }

end Poll
end LuajitTcpServer
