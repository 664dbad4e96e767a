import LuajitTcpServer.SharedMemory.Delivery

/-!
# Progress — waiting for the peer

A process that waits in `mmapStatusInWait` needs its peer to set one status and to leave it there
until it has been polled.

* In the message loop it always does: `no_deadlock`.
* In the handshake it does as long as no process ends its sleep before its peer has polled the
  `@`: `handshake_completes_iff`.
-/

namespace LuajitTcpServer
namespace SharedMemory

open Schedule

/-! ## The way into the loop -/

/-- How far a process is on its way into the message loop. -/
def Pc.phase : Pc → Nat
  | .setReady => 0
  | .waitReady => 1
  | .sleep => 2
  | _ => 3

theorem Pc.passed_iff (pc : Pc) : pc.passed = true ↔ 2 ≤ pc.phase := by
  cases pc <;> simp [Pc.passed, Pc.phase]

theorem Pc.inLoop_iff (pc : Pc) : pc.inLoop = true ↔ 3 ≤ pc.phase := by
  cases pc <;> simp [Pc.inLoop, Pc.phase]

section Phases

variable (cfg : Config) (p : Role) (proc : Proc) (own incoming : Segment)

@[simp] theorem phase_loopTop : (loopTop cfg p proc).pc.phase = 3 := by
  cases p with
  | server =>
      rcases loopTop_server cfg proc with ⟨-, -, -, hpc | ⟨hpc, -⟩⟩
      · simp [hpc, Pc.phase]
      · simp [hpc, Pc.phase]
  | client =>
      by_cases hloop : proc.loop > 1
      · simp [loopTop, hloop, Pc.phase]
      · simp [loopTop, beginRead, hloop, Pc.phase]

@[simp] theorem phase_bigloopTop : (bigloopTop cfg p proc).pc.phase = 3 := by
  simp [bigloopTop]

@[simp] theorem phase_bigloopEnd : (bigloopEnd cfg p proc).pc.phase = 3 := by
  unfold bigloopEnd
  split
  · rfl
  · simp

@[simp] theorem phase_afterRead : (afterRead cfg p proc).pc.phase = 3 := by
  unfold afterRead
  split
  · simp
  · cases p with
    | server =>
        simp [loopDone]
    | client =>
        rfl

@[simp] theorem phase_afterSend : (afterSend cfg p proc).pc.phase = 3 := by
  unfold afterSend
  split
  · rfl
  · simp

/-- A step takes a process forward by one phase at most, and never back. -/
theorem phase_act :
    proc.pc.phase ≤ (act cfg p proc own incoming).1.pc.phase ∧
      (act cfg p proc own incoming).1.pc.phase ≤ proc.pc.phase + 1 := by
  -- one case for each kind of step: control code, waits, copies, no step
  cases hpc : proc.pc with
  | setReady | sleep | sendStatus | readStatus =>
      simp only [act, hpc, phase_bigloopTop, phase_afterSend, phase_afterRead]
      decide
  | waitReady | sendWait | readWait =>
      simp only [act, hpc]
      split
      · simp [Pc.phase]
      · simp [Pc.phase, hpc]
  | sendCopy j | readCopy j =>
      simp only [act, hpc]
      split
      · simp [Pc.phase]
      · simp [Pc.phase]
  | done | failed =>
      simp [act, hpc, Pc.phase]

variable {cfg p} {s : State}

/-- No step, of whatever process, takes a process back. -/
theorem phase_step (q : Role) : (s.procs p).pc.phase ≤ ((step cfg q s).procs p).pc.phase := by
  rcases Role.eq_or_eq_peer p q with rfl | rfl
  · simpa using (phase_act cfg p _ _ _).1
  · simp

end Phases

/-! ## The message loop -/

section Loop

variable {cfg : Config} {s : State}

/-- Before the first message has been sent, or both processes are in the loop. -/
theorem Inv.greeting_or_inLoop (h : Inv cfg s) :
    Greeting cfg s ∨ ∀ p, (s.procs p).pc.inLoop = true := by
  cases h with
  | greeting h =>
      exact .inl h
  | sending k h =>
      refine .inr ((Role.forall_iff (sender k)).2 ⟨?_, ?_⟩)
      · have hstage := h.stage
        unfold SendStage at hstage
        revert hstage
        cases (s.procs (sender k)).pc <;> simp [Pc.inLoop]
      · simp [h.reader_waits, Pc.inLoop]
  | reading k h =>
      refine .inr ((Role.forall_iff (sender k)).2 ⟨?_, ?_⟩)
      · rcases h.sender_rests with ⟨-, -, hpc, -⟩ | ⟨-, hpc⟩
        · simp [hpc, Pc.inLoop]
        · simp [hpc, Pc.inLoop]
      · have hstage := h.stage.2
        revert hstage
        cases (s.procs (sender k).peer).pc <;> simp [Pc.inLoop]
  | stalled k h =>
      refine .inr ((Role.forall_iff .server).2 ⟨?_, ?_⟩)
      · simp [h.failed, Pc.inLoop]
      · have hwaits : (s.procs Role.server.peer).pc = .readWait := h.client_waits
        simp [hwaits, Pc.inLoop]
  | finished h =>
      refine .inr fun p => ?_
      simp [(h p).done, Pc.inLoop]

/-- A process that polls no status, or the one it waits for, is not blocked. -/
theorem not_blocked {p : Role} (h : ∀ status, (s.procs p).waitsFor = some status →
    (s.segs p.peer).status = status) : ¬ Blocked s p := by
  rintro ⟨status, hwaits, hne⟩
  exact hne (h status hwaits)

theorem not_blocked_of_none {p : Role} (h : (s.procs p).waitsFor = none) : ¬ Blocked s p := by
  apply not_blocked
  simp [h]

/-- The process whose turn it is with the message under way is not blocked. -/
theorem Inv.unblocked (h : Inv cfg s) (hpassed : ∀ p, (s.procs p).pc.passed = true) :
    (∀ p, (s.procs p).pc = .done) ∨ ∃ p, ¬ Blocked s p ∧ (s.procs p).pc ≠ .done := by
  cases h with
  | greeting h =>
      -- the one that is not in the loop yet sleeps
      rcases h.outside with ⟨p, hout⟩
      have hsleep : (s.procs p).pc = .sleep := by
        have hp := hpassed p
        revert hp hout
        cases (s.procs p).pc <;> simp [Pc.passed, Pc.inLoop]
      refine .inr ⟨p, not_blocked_of_none ?_, ?_⟩
      · simp [Proc.waitsFor, hsleep]
      · simp [hsleep]
  | sending k h =>
      have hstage := h.stage
      unfold SendStage at hstage
      refine .inr ⟨sender k, ?_, ?_⟩
      · cases hpc : (s.procs (sender k)).pc with
        | sendWait =>
            -- its peer has answered the message before
            simp only [hpc] at hstage
            apply not_blocked
            simp only [Proc.waitsFor, hpc, Option.some.injEq, forall_eq', hstage.1]
            exact h.reader_status
        | setReady | waitReady | sleep | sendCopy | sendStatus | readWait | readCopy | readStatus
        | done | failed =>
            apply not_blocked_of_none
            simp_all [Proc.waitsFor]
      · intro hdone
        simp [hdone] at hstage
  | reading k h =>
      have hstage := h.stage.2
      refine .inr ⟨(sender k).peer, ?_, ?_⟩
      · cases hpc : (s.procs (sender k).peer).pc with
        | readWait =>
            -- the message has been announced
            apply not_blocked
            simp only [Proc.waitsFor, hpc, Option.some.injEq, forall_eq', h.reader_idx,
              Role.peer_peer]
            exact h.sender_status
        | setReady | waitReady | sleep | sendWait | sendCopy | sendStatus | readCopy | readStatus
        | done | failed =>
            apply not_blocked_of_none
            simp_all [Proc.waitsFor]
      · intro hdone
        simp [hdone] at hstage
  | stalled k h =>
      refine .inr ⟨.server, not_blocked_of_none ?_, ?_⟩
      · simp [Proc.waitsFor, h.failed]
      · simp [h.failed]
  | finished h =>
      exact .inl fun p => (h p).done

/-- The wait for `@` is passed once and for all. -/
theorem passed_exec (hpassed : ∀ p, (s.procs p).pc.passed = true) (turns : List Role) :
    ∀ p, ((exec (step cfg) s turns).procs p).pc.passed = true := by
  -- passing is reaching a phase, and phases only grow
  have hstep : ∀ q s, (∀ p, (State.procs s p).pc.passed = true) →
      ∀ p, ((step cfg q s).procs p).pc.passed = true := by
    intro q s hs p
    have hp := hs p
    simp only [Pc.passed_iff] at hp ⊢
    exact hp.trans (phase_step q)
  exact exec_invariant hstep hpassed

end Loop

/-- Two messages in each of two big loops, set anew for each. -/
def twoByTwo : Config where
  loopCount := 2
  bigLoops := 2
  loopCount_pos := by decide
  bigLoops_pos := by decide
  useSetData := fun _ => true
  countLen := 1
  fits := by decide

def emptyAreas : Role → Nat → UInt8 := fun _ _ => 0

/-- Process `p` waits for a status that its peer will never set. -/
def Hangs (cfg : Config) (s : State) (p : Role) : Prop :=
  ∀ turns, Blocked (exec (step cfg) s turns) p

/-- Process `p` ends its sleep, and so replaces its `@` by an `A`, before its peer has passed the
wait for the `@`. -/
def Early (s : State) (p : Role) : Prop :=
  (s.procs p).pc = .sleep ∧ (s.procs p.peer).pc.passed = false

/-- What the handshake is there for. -/
structure Completes (cfg : Config) (s : State) (turn : ℕ → Role) : Prop where
  /-- No process waits for the `@` of a peer that has replaced it. -/
  caught : ∀ n p, ((trace (step cfg) s turn n).procs p.peer).pc.inLoop = true →
    ((trace (step cfg) s turn n).procs p).pc ≠ .waitReady
  not_both : ∀ n, ¬ ∀ p, Hangs cfg (trace (step cfg) s turn n) p
  in_loop : ∃ n, ∀ p, ((trace (step cfg) s turn n).procs p).pc.inLoop = true

instance (s : State) (p : Role) : Decidable (Early s p) :=
  inferInstanceAs (Decidable (_ ∧ _))

/-- A process in the loop has been caught by its peer. -/
def Caught (s : State) : Prop :=
  ∀ p, (s.procs p.peer).pc.inLoop = true → (s.procs p).pc.passed = true

/-- The peer of `p` is in the loop, and `p` has not passed its wait. -/
structure Missed (cfg : Config) (s : State) (p : Role) : Prop where
  inv : Inv cfg s
  inLoop : (s.procs p.peer).pc.inLoop = true
  behind : (s.procs p).pc.passed = false

section Handshake

variable {cfg : Config} {s : State} {p : Role}

theorem Greeted.status_ready {proc : Proc} {status : Status} (h : Greeted cfg p proc status)
    (hset : 1 ≤ proc.pc.phase) (hout : proc.pc.inLoop = false) : status = readyStatus := by
  rcases h with ⟨rfl, -⟩ | ⟨-, hstatus⟩ | ⟨-, hstatus⟩ | ⟨rfl, -⟩
  · -- it has not set its `@` yet
    simp [initialProc, Pc.phase] at hset
  · exact hstatus
  · exact hstatus
  · simp [(entry_waits cfg p).1] at hout

theorem Pc.passed_of_inLoop {pc : Pc} (h : pc.inLoop = true) : pc.passed = true := by
  revert h
  cases pc <;> simp [Pc.inLoop, Pc.passed]

theorem Inv.greeting_of_behind (h : Inv cfg s) (hbehind : (s.procs p).pc.passed = false) :
    Greeting cfg s := by
  rcases h.greeting_or_inLoop with hgreeting | hin
  · exact hgreeting
  · simp [Pc.passed_of_inLoop (hin p)] at hbehind

/-- The steps that the others can take without being early keep every process caught. -/
theorem Caught.step (h : Caught s) {q : Role} (hq : ¬ Early s q) :
    Caught (SharedMemory.step cfg q s) := by
  intro p hin
  have hpassed : (s.procs p).pc.passed = true → ((SharedMemory.step cfg q s).procs p).pc.passed =
      true := by
    simp only [Pc.passed_iff]
    exact fun hp => hp.trans (phase_step q)
  -- a step of `p` cannot spoil that it is caught; one of its peer may bring that into the loop
  rcases Role.eq_or_eq_peer q p with rfl | rfl
  · -- the peer was in the loop before
    simp only [step_procs_peer] at hin
    exact hpassed (h q hin)
  · apply hpassed
    by_cases hbefore : (s.procs p.peer).pc.inLoop = true
    · exact h p hbefore
    · -- the peer has just ended its sleep
      have hsleep : (s.procs p.peer).pc = .sleep := by
        have hback := (phase_act cfg p.peer (s.procs p.peer) (s.segs p.peer)
          (s.segs p.peer.peer)).2
        simp only [step_procs_self, Pc.inLoop_iff] at hin
        have htwo : 2 ≤ (s.procs p.peer).pc.phase := Nat.le_of_succ_le_succ (hin.trans hback)
        revert htwo hbefore
        cases (s.procs p.peer).pc <;> simp [Pc.inLoop, Pc.phase]
      rw [← Bool.not_eq_false]
      intro hbehind
      apply hq
      exact ⟨hsleep, by simpa using hbehind⟩

/-- Nothing helps a process that has missed the `@`. -/
theorem Missed.step (h : Missed cfg s p) (q : Role) :
    Missed cfg (SharedMemory.step cfg q s) p := by
  -- as long as one process is behind, nothing but the handshake has happened
  have hgreeting : Greeting cfg s := h.inv.greeting_of_behind h.behind
  refine ⟨h.inv.step q, ?_, ?_⟩
  · have hin := h.inLoop
    simp only [Pc.inLoop_iff] at hin ⊢
    exact hin.trans (phase_step q)
  · rcases Role.eq_or_eq_peer q p with rfl | rfl
    · have hentered := (hgreeting.greeted q.peer).eq_entry h.inLoop
      have hbehind := h.behind
      simp only [step_procs_self]
      cases hpc : (s.procs q).pc with
      | setReady =>
          simp [act, hpc, Pc.passed]
      | waitReady =>
          -- it polls an `A`
          have hne : (s.segs q.peer).status ≠ readyStatus := by
            simpa [hentered.2] using base64ascii_ne_ready 0 (by decide)
          simp [act, hpc, hne, Pc.passed]
      | sleep | sendWait | sendCopy | sendStatus | readWait | readCopy | readStatus | done
      | failed =>
          simp [hpc, Pc.passed] at hbehind
    · simpa using h.behind

/-- A turn takes a process into the next phase, if all are in the same one at least. -/
theorem phase_turn (hinv : Inv cfg s) (hcaught : Caught s) {k : Nat} (hk : k < 3)
    (hall : ∀ q, k ≤ (s.procs q).pc.phase) (p : Role) :
    k + 1 ≤ ((step cfg p s).procs p).pc.phase := by
  -- it is ahead of the others already, or its turn takes it on
  rcases Nat.lt_or_eq_of_le (hall p) with hlt | heq
  · exact Nat.le_trans hlt (phase_step p)
  · simp only [step_procs_self]
    cases hpc : (s.procs p).pc with
    | setReady =>
        simp [heq, act, hpc, Pc.phase]
    | waitReady =>
        have hk1 : k = 1 := by simpa [hpc, Pc.phase] using heq
        have hbehind : (s.procs p).pc.passed = false := by simp [hpc, Pc.passed]
        -- the peer has set its `@` and cannot have replaced it
        have hout : (s.procs p.peer).pc.inLoop = false := by
          rw [← Bool.not_eq_true]
          intro hin
          simp [hcaught p hin] at hbehind
        have hready : (s.segs p.peer).status = readyStatus := by
          apply ((hinv.greeting_of_behind hbehind).greeted p.peer).status_ready _ hout
          exact hk1 ▸ hall p.peer
        simp [hk1, act, hpc, hready, Pc.phase]
    | sleep =>
        simp only [act, hpc, phase_bigloopTop]
        exact hk
    | sendWait | sendCopy | sendStatus | readWait | readCopy | readStatus | done | failed =>
        simp only [hpc, Pc.phase] at heq
        exact absurd hk (heq ▸ Nat.lt_irrefl 3)

/-- A process that has been caught does not hang in the handshake. -/
theorem not_hangs_of_waitReady (hinv : Inv cfg s) (hcaught : Caught s)
    (hpc : (s.procs p).pc = .waitReady) : ¬ Hangs cfg s p := by
  intro hhangs
  have hbehind : (s.procs p).pc.passed = false := by simp [hpc, Pc.passed]
  have hout : (s.procs p.peer).pc.inLoop = false := by
    rw [← Bool.not_eq_true]
    intro hin
    simp [hcaught p hin] at hbehind
  have hgreeting : Greeting cfg s := hinv.greeting_of_behind hbehind
  have hnow : (s.segs p.peer).status ≠ readyStatus := by
    rcases hhangs [] with ⟨status, hwaits, hne⟩
    simp only [exec_nil, Proc.waitsFor, hpc, Option.some.injEq] at hwaits hne
    exact hwaits ▸ hne
  by_cases hset : 1 ≤ (s.procs p.peer).pc.phase
  · exact hnow ((hgreeting.greeted p.peer).status_ready hset hout)
  · -- the peer sets its `@` in its next step
    have hfirst : (s.procs p.peer).pc = .setReady := by
      revert hset
      cases (s.procs p.peer).pc <;> simp [Pc.phase]
    rcases hhangs [p.peer] with ⟨status, hwaits, hne⟩
    simp only [exec_cons, exec_nil, step_peer_procs, Proc.waitsFor, hpc, Option.some.injEq]
      at hwaits
    simp only [exec_cons, exec_nil, step_segs_self, act, hfirst] at hne
    exact hne hwaits

theorem not_both_hang (hinv : Inv cfg s) (hcaught : Caught s) : ¬ ∀ p, Hangs cfg s p := by
  intro hhangs
  -- in the loop there is no deadlock; before it, the one that is behind is not blocked for good
  by_cases hpassed : ∀ p, (s.procs p).pc.passed = true
  · rcases hinv.unblocked hpassed with hdone | ⟨p, hfree, -⟩
    · exact not_blocked_of_none (by simp [Proc.waitsFor, hdone .server]) (hhangs .server [])
    · exact hfree (hhangs p [])
  · rcases not_forall.1 hpassed with ⟨p, hp⟩
    cases hpc : (s.procs p).pc with
    | setReady =>
        exact not_blocked_of_none (by simp [Proc.waitsFor, hpc]) (hhangs p [])
    | waitReady =>
        exact not_hangs_of_waitReady hinv hcaught hpc (hhangs p)
    | sleep | sendWait | sendCopy | sendStatus | readWait | readCopy | readStatus | done
    | failed =>
        simp [hpc, Pc.passed] at hp

end Handshake

section Runs

variable {cfg : Config} {areas : Role → Nat → UInt8} {turn : ℕ → Role}

theorem inv_trace (cfg : Config) (areas : Role → Nat → UInt8) (turn : ℕ → Role) (n : ℕ) :
    Inv cfg (trace (step cfg) (initial cfg areas) turn n) :=
  trace_invariant (fun p _ h => h.step p) (inv_initial cfg areas) n

theorem phase_trace {s : State} (p : Role) {n m : ℕ} (hnm : n ≤ m) :
    ((trace (step cfg) s turn n).procs p).pc.phase ≤
      ((trace (step cfg) s turn m).procs p).pc.phase := by
  -- each step keeps the phase reached at time `n`
  have hstep : ∀ q s', ((trace (step cfg) s turn n).procs p).pc.phase ≤
      (State.procs s' p).pc.phase → ((trace (step cfg) s turn n).procs p).pc.phase ≤
        ((step cfg q s').procs p).pc.phase :=
    fun q s' h => h.trans (phase_step q)
  exact trace_stays hstep hnm (Nat.le_refl _)

theorem caught_trace (hnever : ∀ n, ¬ Early (trace (step cfg) (initial cfg areas) turn n) (turn n))
    (n : ℕ) : Caught (trace (step cfg) (initial cfg areas) turn n) := by
  induction n with
  | zero =>
      intro p hin
      simp [trace, initial, initialProc, Pc.inLoop] at hin
  | succ n ih =>
      exact ih.step (hnever n)

/-- In a fair run without an early step both processes reach every phase. -/
theorem reach_phase (hfair : Fair turn)
    (hnever : ∀ n, ¬ Early (trace (step cfg) (initial cfg areas) turn n) (turn n)) {k : Nat}
    (hk : k ≤ 3) : ∃ n, ∀ p,
      k ≤ ((trace (step cfg) (initial cfg areas) turn n).procs p).pc.phase := by
  -- the induction is on the phase: both are at phase `k` before one goes on to the next
  induction k with
  | zero =>
      exact ⟨0, fun p => Nat.zero_le _⟩
  | succ k ih =>
      rcases ih (Nat.le_of_succ_le hk) with ⟨n, hn⟩
      -- from turn `n` on, every turn takes its process into phase `k + 1`
      have hstays : ∀ p q s, k + 1 ≤ (State.procs s p).pc.phase →
          k + 1 ≤ ((step cfg q s).procs p).pc.phase :=
        fun p q s h => h.trans (phase_step q)
      refine hfair.all_reach n hstays fun p m hnm _ => ?_
      apply phase_turn (inv_trace cfg areas turn m) (caught_trace hnever m) hk
      exact fun q => (hn q).trans (phase_trace q hnm)

end Runs

/-- The handshake completes, in a run in which both processes go on taking steps, if and only if
no process ends its sleep before its peer has passed the wait for `@`. -/
theorem handshake_completes_iff (cfg : Config) (areas : Role → Nat → UInt8) (turn : ℕ → Role)
    (hfair : Fair turn) :
    Completes cfg (initial cfg areas) turn ↔
      ∀ n, ¬ Early (trace (step cfg) (initial cfg areas) turn n) (turn n) := by
  constructor
  · intro h n hearly
    generalize hp : turn n = p at hearly
    -- the peer of `p` has missed the `@`, from then on
    have hmissed : Missed cfg (trace (step cfg) (initial cfg areas) turn (n + 1)) p.peer := by
      refine ⟨inv_trace cfg areas turn (n + 1), ?_, ?_⟩
      · simp [trace, hp, act, hearly.1, Pc.inLoop_iff]
      · simpa [trace, hp] using hearly.2
    -- but both are to reach the loop, and then stay in it
    rcases h.in_loop with ⟨m, hm⟩
    have hstays : ∀ q s, Missed cfg s p.peer → Missed cfg (step cfg q s) p.peer :=
      fun q _ hs => hs.step q
    have hlate : Missed cfg (trace (step cfg) (initial cfg areas) turn (max m (n + 1))) p.peer :=
      trace_stays hstays (Nat.le_max_right m (n + 1)) hmissed
    have hin := hm p.peer
    simp only [Pc.inLoop_iff] at hin
    have hpassed := Pc.passed_of_inLoop
      ((Pc.inLoop_iff _).2 (hin.trans (phase_trace p.peer (Nat.le_max_left m (n + 1)))))
    simp [hlate.behind] at hpassed
  · intro hnever
    refine ⟨?_, ?_, ?_⟩
    · intro n p hin hpc
      have hpassed := caught_trace hnever n p hin
      simp [hpc, Pc.passed] at hpassed
    · exact fun n => not_both_hang (inv_trace cfg areas turn n) (caught_trace hnever n)
    · rcases reach_phase hfair hnever (Nat.le_refl 3) with ⟨n, hn⟩
      exact ⟨n, fun p => (Pc.inLoop_iff _).2 (hn p)⟩

/-- The server has every other turn. -/
def alternating (n : ℕ) : Role := if n % 2 = 0 then .server else .client

theorem alternating_fair : Fair alternating := by
  intro p n
  cases p with
  | server =>
      exact ⟨2 * n, by omega, by simp [alternating]⟩
  | client =>
      exact ⟨2 * n + 1, by omega, by simp [alternating]⟩

theorem handshake_completes_alternating :
    Completes twoByTwo (initial twoByTwo emptyAreas) alternating := by
  apply (handshake_completes_iff twoByTwo emptyAreas alternating alternating_fair).2
  intro n hearly
  rcases Nat.lt_or_ge n 6 with hlt | hge
  · have hfirst : ∀ n < 6, ¬ Early (trace (step twoByTwo) (initial twoByTwo emptyAreas)
        alternating n) (alternating n) := by
      decide +kernel
    exact hfirst n hlt hearly
  · -- after six turns both are in the loop
    have hsix : ∀ p, 3 ≤ ((trace (step twoByTwo) (initial twoByTwo emptyAreas) alternating
        6).procs p).pc.phase := by
      intro p
      cases p <;> decide +kernel
    have hlater := (hsix (alternating n)).trans (phase_trace (alternating n) hge)
    simp [hearly.1, Pc.phase] at hlater

/-- When both processes are blocked, nothing changes any more. -/
theorem hangs_of_blocked {cfg : Config} {s : State} (h : ∀ p, Blocked s p) (p : Role) :
    Hangs cfg s p := by
  intro turns
  -- a blocked process only polls
  have hsame : exec (step cfg) s turns = s := by
    have hstep : ∀ q s', s' = s → step cfg q s' = s := by
      rintro q s' rfl
      exact step_of_blocked (h q)
    exact exec_invariant hstep rfl
  rw [hsame]
  exact h p

/-- Both have set their `@`; the server polls, sleeps and sets its `A` before the client polls. -/
def earlyServer : State :=
  run twoByTwo emptyAreas [.server, .client, .server, .server]

theorem early_server_hangs :
    (earlyServer.procs .client).pc = .waitReady ∧ (earlyServer.procs .server).pc.inLoop = true ∧
      ∀ p, Hangs twoByTwo earlyServer p := by
  refine ⟨by decide +kernel, by decide +kernel, hangs_of_blocked fun p => ?_⟩
  cases p with
  | server =>
      exact ⟨base64ascii 0, by decide +kernel, by decide +kernel⟩
  | client =>
      exact ⟨readyStatus, by decide +kernel, by decide +kernel⟩

end SharedMemory
end LuajitTcpServer
