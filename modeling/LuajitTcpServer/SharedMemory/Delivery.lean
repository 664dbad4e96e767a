import LuajitTcpServer.SharedMemory.LockStep

/-!
# Delivery — every run of the two processes

`Inv` is the joint invariant over whole runs: the processes greet each other, or one message is
under way, or the server could not set its data, or both have finished.  The delivery of the
messages in lock step follows from it (`lockStep_delivery`).
-/

namespace LuajitTcpServer
namespace SharedMemory

open Schedule

/-! ## One step of the system -/

section Step

variable (cfg : Config) (p : Role) (s : State)

@[simp] theorem step_procs_self :
    (step cfg p s).procs p = (act cfg p (s.procs p) (s.segs p) (s.segs p.peer)).1 :=
  Function.update_self _ _ _

@[simp] theorem step_segs_self :
    (step cfg p s).segs p = (act cfg p (s.procs p) (s.segs p) (s.segs p.peer)).2 :=
  Function.update_self _ _ _

@[simp] theorem step_procs_peer : (step cfg p s).procs p.peer = s.procs p.peer :=
  Function.update_of_ne p.peer_ne _ _

@[simp] theorem step_segs_peer : (step cfg p s).segs p.peer = s.segs p.peer :=
  Function.update_of_ne p.peer_ne _ _

@[simp] theorem step_peer_procs : (step cfg p.peer s).procs p = s.procs p :=
  Function.update_of_ne p.ne_peer _ _

@[simp] theorem step_peer_segs : (step cfg p.peer s).segs p = s.segs p :=
  Function.update_of_ne p.ne_peer _ _

variable {cfg p s}

/-- A step that changes neither the process nor its segment, such as an unsuccessful poll. -/
theorem step_eq_self (h : act cfg p (s.procs p) (s.segs p) (s.segs p.peer) = (s.procs p, s.segs p)) :
    step cfg p s = s := by
  unfold step
  rw [h]
  simp only [Function.update_eq_self]

theorem Role.eq_or_eq_peer (q p : Role) : q = p ∨ q = p.peer := by
  cases q <;> cases p <;> simp [Role.peer]

end Step

/-! ## The handshake -/

/-- The process as it enters the message loop. -/
def entry (cfg : Config) (p : Role) : Proc :=
  bigloopTop cfg p { initialProc cfg p with pc := .sleep }

/-- A process and its status before its first message. -/
def Greeted (cfg : Config) (p : Role) (proc : Proc) (status : Status) : Prop :=
  (proc = initialProc cfg p ∧ status = 0) ∨
  (proc = { initialProc cfg p with pc := .waitReady } ∧ status = readyStatus) ∨
  (proc = { initialProc cfg p with pc := .sleep } ∧ status = readyStatus) ∨
  (proc = entry cfg p ∧ status = base64ascii 0)

/-- Not both processes have reached the message loop. -/
structure Greeting (cfg : Config) (s : State) : Prop where
  greeted : ∀ p, Greeted cfg p (s.procs p) (s.segs p).status
  outside : ∃ p, (s.procs p).pc.inLoop = false

section Entry

variable {cfg : Config} {s : State} {p : Role}

/-- One digit always fits the message. -/
theorem sendDataSet_one (cfg : Config) (data : Nat → UInt8) : sendDataSet cfg 1 data ≠ none := by
  have hroom : ¬ cfg.sendDataLen + 0 < numStringLength 1 :=
    Nat.not_lt.2 cfg.sendDataLen_pos
  -- there is one digit to be set, at the last place of the message
  have hdigit : (toString (1 : Nat)).toList[0]? = some '1' := by decide
  have hset : setDigit cfg 1 data 0 = some (Function.update data
      (cfg.sendDataLen + 0 - numStringLength 1) (UInt8.ofNat '1'.toNat)) := by
    rw [setDigit, if_neg hroom, hdigit]
  have hrange : List.range (numStringLength 1) = [0] := rfl
  rw [sendDataSet, hrange, List.foldlM_cons, hset]
  exact Option.some_ne_none _

theorem entry_server (cfg : Config) :
    Engaged cfg .server 0 (entry cfg .server) ∧ (entry cfg .server).pc = .sendWait ∧
      (entry cfg .server).statusIdx = 0 ∧ (entry cfg .server).sent = [] ∧
      (entry cfg .server).received = [] := by
  rcases loopTop_server cfg
      { initialProc cfg .server with pc := .sleep, bigloop := 0 + 1, loop := 1 } with
    ⟨hsame, hloop, hbig, hpc | ⟨-, hnone⟩⟩
  · refine ⟨⟨?_, ?_⟩, hpc, hsame.statusIdx_eq, hsame.sent_eq, hsame.received_eq⟩
    · exact hloop.trans (by simp [loopAt])
    · exact hbig.trans (by simp)
  · exact absurd hnone (sendDataSet_one cfg _)

theorem entry_client (cfg : Config) :
    Engaged cfg .client 0 (entry cfg .client) ∧ (entry cfg .client).pc = .readWait ∧
      (entry cfg .client).statusIdx = 1 ∧ (entry cfg .client).sent = [] ∧
      (entry cfg .client).received = [] := by
  refine ⟨⟨?_, ?_⟩, rfl, rfl, rfl, rfl⟩
  · have hloop : (entry cfg .client).loop = 1 := rfl
    simp [hloop, loopAt]
  · have hbig : (entry cfg .client).bigloop = 1 := rfl
    simp [hbig]

/-- A process that has entered the loop waits for a status that is no part of the handshake. -/
theorem entry_waits (cfg : Config) (p : Role) :
    (entry cfg p).pc.inLoop = true ∧
      ∃ i < 64, (entry cfg p).waitsFor = some (base64ascii i) := by
  cases p with
  | server =>
      rcases entry_server cfg with ⟨-, hpc, hidx, -⟩
      refine ⟨by rw [hpc]; rfl, 0, by decide, ?_⟩
      simp only [Proc.waitsFor, hpc, hidx]
  | client =>
      rcases entry_client cfg with ⟨-, hpc, hidx, -⟩
      refine ⟨by rw [hpc]; rfl, 1, by decide, ?_⟩
      simp only [Proc.waitsFor, hpc, hidx]

/-- A process that polls another status than it waits for does not change. -/
theorem act_of_blocked {proc : Proc} {own incoming : Segment} {status : Status}
    (hwait : proc.waitsFor = some status) (hne : incoming.status ≠ status) :
    SharedMemory.act cfg p proc own incoming = (proc, own) := by
  unfold Proc.waitsFor at hwait
  cases hpc : proc.pc with
  | waitReady =>
      rw [hpc] at hwait
      cases hwait
      simp only [act, hpc, if_neg hne]
  | sendWait | readWait =>
      rw [hpc] at hwait
      cases hwait
      simp only [act, hpc, if_neg hne]
  | setReady | sleep | sendCopy | sendStatus | readCopy | readStatus | done | failed =>
      rw [hpc] at hwait
      cases hwait

theorem step_of_blocked (h : Blocked s p) : step cfg p s = s := by
  rcases h with ⟨status, hwait, hne⟩
  exact step_eq_self (act_of_blocked hwait hne)

theorem Greeted.status_of_outside {proc : Proc} {status : Status} (h : Greeted cfg p proc status)
    (hout : proc.pc.inLoop = false) : status = 0 ∨ status = readyStatus := by
  rcases h with ⟨-, hstatus⟩ | ⟨-, hstatus⟩ | ⟨-, hstatus⟩ | ⟨rfl, -⟩
  · exact .inl hstatus
  · exact .inr hstatus
  · exact .inr hstatus
  · rw [(entry_waits cfg p).1] at hout
    cases hout

theorem Greeted.eq_entry {proc : Proc} {status : Status} (h : Greeted cfg p proc status)
    (hin : proc.pc.inLoop = true) : proc = entry cfg p ∧ status = base64ascii 0 := by
  rcases h with ⟨rfl, -⟩ | ⟨rfl, -⟩ | ⟨rfl, -⟩ | hentry
  · cases hin
  · cases hin
  · cases hin
  · exact hentry

/-- A step of a process that greets its peer, or waits for it to enter the loop as well. -/
theorem Greeted.act {proc : Proc} {own incoming : Segment} (h : Greeted cfg p proc own.status)
    (hwait : proc.pc.inLoop = true → incoming.status = 0 ∨ incoming.status = readyStatus) :
    Greeted cfg p (act cfg p proc own incoming).1 (act cfg p proc own incoming).2.status := by
  rcases h with ⟨rfl, -⟩ | ⟨rfl, hstatus⟩ | ⟨rfl, -⟩ | ⟨rfl, hstatus⟩
  · exact .inr (.inl ⟨rfl, rfl⟩)
  · by_cases hready : incoming.status = readyStatus
    · simp only [SharedMemory.act, if_pos hready]
      exact .inr (.inr (.inl ⟨rfl, hstatus⟩))
    · simp only [SharedMemory.act, if_neg hready]
      exact .inr (.inl ⟨rfl, hstatus⟩)
  · exact .inr (.inr (.inr ⟨rfl, rfl⟩))
  · rcases entry_waits cfg p with ⟨hin, i, hi, hwaits⟩
    -- the peer is not in the loop yet, and its status is none of the loop's
    have hne : incoming.status ≠ base64ascii i := by
      rcases hwait hin with hzero | hready
      · rw [hzero]
        exact (base64ascii_ne_zero i hi).symm
      · rw [hready]
        exact (base64ascii_ne_ready i hi).symm
    rw [act_of_blocked hwaits hne]
    exact .inr (.inr (.inr ⟨rfl, hstatus⟩))

end Entry

/-! ## The joint invariant -/

def Sending (cfg : Config) (k : Nat) (s : State) : Prop :=
  SendingAt cfg k (s.procs (sender k)) (s.procs (sender k).peer) (s.segs (sender k))
    (s.segs (sender k).peer)

def Reading (cfg : Config) (k : Nat) (s : State) : Prop :=
  ReadingAt cfg k (s.procs (sender k)) (s.procs (sender k).peer) (s.segs (sender k))
    (s.segs (sender k).peer)

inductive Inv (cfg : Config) (s : State) : Prop
  | greeting (h : Greeting cfg s)
  | sending (k : Nat) (h : Sending cfg k s)
  | reading (k : Nat) (h : Reading cfg k s)
  | stalled (k : Nat) (h : StalledAt k (s.procs .server) (s.procs .client) (s.segs .server))
  | finished (h : ∀ p, FinishedAt cfg (s.procs p) (s.procs p.peer))

section Invariant

variable {cfg : Config} {s : State} {p : Role} {k : Nat}

theorem inv_initial (cfg : Config) (areas : Role → Nat → UInt8) : Inv cfg (initial cfg areas) :=
  .greeting ⟨fun _ => .inl ⟨rfl, rfl⟩, .server, rfl⟩

/-- Both processes have entered the loop: the first message can be sent. -/
theorem sending_zero (h : ∀ p, s.procs p = entry cfg p ∧ (s.segs p).status = base64ascii 0) :
    Sending cfg 0 s := by
  rcases entry_server cfg with ⟨hengaged, hpc, hidx, hsent, hreceived⟩
  rcases entry_client cfg with ⟨hengaged', hpc', hidx', hsent', hreceived'⟩
  have htotal : 0 < cfg.total := Nat.mul_pos cfg.loopCount_pos cfg.bigLoops_pos
  change SendingAt cfg 0 (s.procs .server) (s.procs .client) (s.segs .server) (s.segs .client)
  rw [(h .server).1, (h .client).1]
  refine
    { lt := Nat.mul_pos (by decide) htotal
      reader_engaged := hengaged'
      reader_idx := hidx'
      reader_status := (h .client).2
      answered := by rw [hreceived, hsent']
      read_count := by rw [hreceived']; rfl
      answer_count := by rw [hreceived]; rfl
      sender_engaged := hengaged
      sender_status := (h .server).2
      reader_waits := hpc'
      stage := ?_ }
  simp only [SendStage, hpc]
  exact ⟨hidx, by rw [hsent, hreceived']⟩

theorem Greeting.step (h : Greeting cfg s) (p : Role) : Inv cfg (SharedMemory.step cfg p s) := by
  -- if `p` is in the loop already, then its peer is not
  have hwait : (s.procs p).pc.inLoop = true →
      (s.segs p.peer).status = 0 ∨ (s.segs p.peer).status = readyStatus := by
    intro hin
    rcases h.outside with ⟨q, hout⟩
    rcases Role.eq_or_eq_peer q p with rfl | rfl
    · rw [hin] at hout
      cases hout
    · exact (h.greeted p.peer).status_of_outside hout
  -- the step of `p` stays in the handshake, and its peer does not move
  have hgreeted : ∀ q, Greeted cfg q ((SharedMemory.step cfg p s).procs q)
      ((SharedMemory.step cfg p s).segs q).status := by
    intro q
    rcases Role.eq_or_eq_peer q p with rfl | rfl
    · rw [step_procs_self, step_segs_self]
      exact (h.greeted q).act hwait
    · rw [step_procs_peer, step_segs_peer]
      exact h.greeted p.peer
  by_cases hout : ∃ q, ((SharedMemory.step cfg p s).procs q).pc.inLoop = false
  · exact .greeting ⟨hgreeted, hout⟩
  · -- both are in the loop now
    refine .sending 0 (sending_zero fun q => ?_)
    have hin : ((SharedMemory.step cfg p s).procs q).pc.inLoop = true := by
      rw [← Bool.not_eq_false]
      exact fun hq => hout ⟨q, hq⟩
    exact (hgreeted q).eq_entry hin

theorem Sending.step (h : Sending cfg k s) (p : Role) : Inv cfg (SharedMemory.step cfg p s) := by
  rcases Role.eq_or_eq_peer p (sender k) with rfl | rfl
  · rcases SendingAt.send_step h with hsending | hreading
    · refine .sending k ?_
      simpa only [Sending, step_procs_self, step_segs_self, step_procs_peer, step_segs_peer]
        using hsending
    · refine .reading k ?_
      simpa only [Reading, step_procs_self, step_segs_self, step_procs_peer, step_segs_peer]
        using hreading
  · have hblocked : act cfg (sender k).peer (s.procs (sender k).peer) (s.segs (sender k).peer)
        (s.segs (sender k).peer.peer) = (s.procs (sender k).peer, s.segs (sender k).peer) := by
      rw [Role.peer_peer]
      exact SendingAt.reader_blocked h
    rw [step_eq_self hblocked]
    exact .sending k h

theorem Reading.step (h : Reading cfg k s) (p : Role) : Inv cfg (SharedMemory.step cfg p s) := by
  rcases Role.eq_or_eq_peer p (sender k) with rfl | rfl
  · rw [step_eq_self (ReadingAt.sender_blocked h)]
    exact .reading k h
  · have hread := ReadingAt.read_step h
    -- the reader's step, stated for the state it leads to
    have hself := step_procs_self cfg (sender k).peer s
    have hseg := step_segs_self cfg (sender k).peer s
    rw [Role.peer_peer] at hself hseg
    rw [← hself, ← hseg, ← step_peer_procs cfg (sender k) s, ← step_peer_segs cfg (sender k) s]
      at hread
    generalize SharedMemory.step cfg (sender k).peer s = s' at hread ⊢
    rcases hread with hreading | hanswer | ⟨hrole, hstalled⟩ | ⟨hp, hq⟩
    · exact .reading k hreading
    · refine .sending (k + 1) ?_
      rw [Sending, sender_succ, Role.peer_peer]
      exact hanswer
    · rw [hrole] at hstalled
      exact .stalled (k + 1) hstalled
    · refine .finished fun q => ?_
      rcases Role.eq_or_eq_peer q (sender k) with rfl | rfl
      · exact hp
      · rw [Role.peer_peer]
        exact hq

theorem stalled_step (h : StalledAt k (s.procs .server) (s.procs .client) (s.segs .server))
    (p : Role) : SharedMemory.step cfg p s = s := by
  cases p with
  | server =>
      apply step_eq_self
      simp only [act, h.failed]
  -- the client waits for a message that will not be announced
  | client =>
      refine step_of_blocked ⟨statusOf (k + 1), ?_, ?_⟩
      · simp only [Proc.waitsFor, h.client_waits, h.client_idx]
        rfl
      · have hstatus : (s.segs Role.client.peer).status = statusOf k := h.server_status
        rw [hstatus]
        exact statusOf_ne_succ k

theorem finished_step (h : ∀ p, FinishedAt cfg (s.procs p) (s.procs p.peer)) (p : Role) :
    SharedMemory.step cfg p s = s := by
  apply step_eq_self
  simp only [act, (h p).done]

theorem Inv.step (h : Inv cfg s) (p : Role) : Inv cfg (SharedMemory.step cfg p s) := by
  cases h with
  | greeting h =>
      exact h.step p
  | sending k h =>
      exact Sending.step h p
  | reading k h =>
      exact Reading.step h p
  | stalled k h =>
      rw [stalled_step h p]
      exact .stalled k h
  | finished h =>
      rw [finished_step h p]
      exact .finished h

/-- The invariant holds in every state of every run. -/
theorem inv_run (cfg : Config) (areas : Role → Nat → UInt8) (turns : List Role) :
    Inv cfg (run cfg areas turns) :=
  exec_invariant (fun p _ h => h.step p) (inv_initial cfg areas)

end Invariant

/-! ## Delivery in lock step -/

/-- The process writes into its data area. -/
def Pc.writing : Pc → Bool
  | .sendCopy _ => true
  | _ => false

/-- The process is between the end of `mmapStatusInWait` and the end of its copy. -/
def Pc.reading : Pc → Bool
  | .readCopy _ => true
  | _ => false

section Delivery

variable {cfg : Config} {s : State} {k : Nat}

/-- What a process has read is what the other one has sent, or the part of it before the message
under way. -/
def InStep (s : State) (p : Role) : Prop :=
  (s.procs p).received <+: (s.procs p.peer).sent

theorem Role.forall_iff (p : Role) {P : Role → Prop} : (∀ q, P q) ↔ P p ∧ P p.peer := by
  constructor
  · intro h
    exact ⟨h p, h p.peer⟩
  · rintro ⟨hp, hpeer⟩ q
    rcases Role.eq_or_eq_peer q p with rfl | rfl
    · exact hp
    · exact hpeer

theorem SendStage.prefix {p q : Proc} {area : Nat → UInt8} (h : SendStage cfg k p q area) :
    q.received <+: p.sent := by
  unfold SendStage at h
  cases hpc : p.pc with
  | sendWait =>
      rw [hpc] at h
      rw [h.2]
  | sendCopy | sendStatus =>
      rw [hpc] at h
      rw [h.2.1]
      exact List.prefix_append _ _
  | setReady | waitReady | sleep | readWait | readCopy | readStatus | done | failed =>
      rw [hpc] at h
      exact h.elim

theorem Inv.inStep (h : Inv cfg s) (p : Role) : InStep s p := by
  revert p
  cases h with
  | greeting h =>
      -- no message has been sent or read
      intro p
      have hnone : (s.procs p).received = [] := by
        rcases h.greeted p with ⟨hp, -⟩ | ⟨hp, -⟩ | ⟨hp, -⟩ | ⟨hp, -⟩ <;> rw [hp]
        · rfl
        · rfl
        · rfl
        · cases p with
          | server =>
              exact (entry_server cfg).2.2.2.2
          | client =>
              exact (entry_client cfg).2.2.2.2
      rw [InStep, hnone]
      exact List.nil_prefix
  -- what the sender has read is all its peer sent; its own message may be on its way
  | sending k h =>
      rw [Role.forall_iff (sender k)]
      refine ⟨?_, ?_⟩
      · rw [InStep, h.answered]
      · rw [InStep, Role.peer_peer]
        exact h.stage.prefix
  | reading k h =>
      rw [Role.forall_iff (sender k)]
      refine ⟨?_, ?_⟩
      · rw [InStep, h.answered]
      · rw [InStep, Role.peer_peer, h.stage.1]
        exact List.prefix_append _ _
  | stalled k h =>
      rw [Role.forall_iff .server]
      refine ⟨?_, ?_⟩
      · rw [InStep, h.server_received]
        exact List.prefix_refl _
      · have hclient : (s.procs Role.server.peer).received = (s.procs .server).sent :=
          h.client_received
        rw [InStep, Role.peer_peer, hclient]
  | finished h =>
      intro p
      rw [InStep, (h p).received_eq]

/-- A process writes into its data area only while its peer is not reading it. -/
theorem Inv.exclusive (h : Inv cfg s) (p : Role) :
    ¬ ((s.procs p).pc.writing = true ∧ (s.procs p.peer).pc.reading = true) := by
  revert p
  cases h with
  | greeting h =>
      rintro p ⟨hwriting, -⟩
      rcases h.greeted p with ⟨hp, -⟩ | ⟨hp, -⟩ | ⟨hp, -⟩ | ⟨hp, -⟩
      · rw [hp] at hwriting
        cases hwriting
      · rw [hp] at hwriting
        cases hwriting
      · rw [hp] at hwriting
        cases hwriting
      · cases p with
        | server =>
            rw [hp, (entry_server cfg).2.1] at hwriting
            cases hwriting
        | client =>
            rw [hp, (entry_client cfg).2.1] at hwriting
            cases hwriting
  -- the reader is at its wait, so it neither writes nor reads
  | sending k h =>
      rw [Role.forall_iff (sender k)]
      refine ⟨?_, ?_⟩
      · rintro ⟨-, hreading⟩
        rw [h.reader_waits] at hreading
        cases hreading
      · rintro ⟨hwriting, -⟩
        rw [h.reader_waits] at hwriting
        cases hwriting
  -- the sender is at its next wait or done, so it neither writes nor reads
  | reading k h =>
      have hrests : (s.procs (sender k)).pc = .readWait ∨ (s.procs (sender k)).pc = .done := by
        rcases h.sender_rests with ⟨-, -, hpc, -⟩ | ⟨-, hpc⟩
        · exact .inl hpc
        · exact .inr hpc
      rw [Role.forall_iff (sender k)]
      refine ⟨?_, ?_⟩
      · rintro ⟨hwriting, -⟩
        rcases hrests with hpc | hpc <;> rw [hpc] at hwriting <;> cases hwriting
      · rintro ⟨-, hreading⟩
        rw [Role.peer_peer] at hreading
        rcases hrests with hpc | hpc <;> rw [hpc] at hreading <;> cases hreading
  | stalled k h =>
      rw [Role.forall_iff .server]
      refine ⟨?_, ?_⟩
      · rintro ⟨hwriting, -⟩
        rw [h.failed] at hwriting
        cases hwriting
      · rintro ⟨hwriting, -⟩
        have hclient : (s.procs Role.server.peer).pc = .readWait := h.client_waits
        rw [hclient] at hwriting
        cases hwriting
  | finished h =>
      rintro p ⟨hwriting, -⟩
      rw [(h p).done] at hwriting
      cases hwriting

/-- When both have finished, every message has been read. -/
theorem Inv.complete (h : Inv cfg s) (hdone : ∀ p, (s.procs p).pc = .done) (p : Role) :
    (s.procs p).received = (s.procs p.peer).sent ∧ (s.procs p).received.length = cfg.total := by
  cases h with
  | greeting h =>
      rcases h.outside with ⟨q, hout⟩
      rw [hdone q] at hout
      cases hout
  | sending k h =>
      have hwaits := h.reader_waits
      rw [hdone] at hwaits
      cases hwaits
  | reading k h =>
      have hstage := h.stage.2
      rw [hdone] at hstage
      exact hstage.elim
  | stalled k h =>
      have hfailed := h.failed
      rw [hdone] at hfailed
      cases hfailed
  | finished h =>
      exact ⟨(h p).received_eq, (h p).count⟩

end Delivery

/-- In every run, whatever the order of the steps: the messages a process has read are, in order,
the first of those its peer has sent; no data area is written while it is read; and in the end
every message has been read. -/
theorem lockStep_delivery (cfg : Config) (areas : Role → Nat → UInt8) (turns : List Role) :
    (∀ p, ((run cfg areas turns).procs p).received <+: ((run cfg areas turns).procs p.peer).sent) ∧
      (∀ p, ¬ (((run cfg areas turns).procs p).pc.writing = true ∧
        ((run cfg areas turns).procs p.peer).pc.reading = true)) ∧
      ((∀ p, ((run cfg areas turns).procs p).pc = .done) → ∀ p,
        ((run cfg areas turns).procs p).received = ((run cfg areas turns).procs p.peer).sent ∧
          ((run cfg areas turns).procs p).received.length = cfg.loopCount * cfg.bigLoops) := by
  have hinv := inv_run cfg areas turns
  exact ⟨hinv.inStep, hinv.exclusive, hinv.complete⟩

end SharedMemory
end LuajitTcpServer
