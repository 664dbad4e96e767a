import Mathlib.Tactic.Common
import LuajitTcpServer.SharedMemory.Processes

/-!
# LockStep — the message loop of the two processes

The messages of both directions are numbered together: message `k` is sent by the server if `k`
is even, and by the client, as a reply, if it is odd.  It is announced by status `k + 1` modulo
64.  At any time one message is under way, and it is either being sent (`SendingAt`) or being
read (`ReadingAt`).  The invariant fixes both program counters, loop variables, status indices
and status bytes from the number of that message.
-/

namespace LuajitTcpServer
namespace SharedMemory

/-! ## Status values -/

theorem base64ascii_inj : ∀ i < 64, ∀ j < 64, base64ascii i = base64ascii j → i = j := by
  decide +kernel

theorem base64ascii_ne_ready : ∀ i < 64, base64ascii i ≠ readyStatus := by decide +kernel

theorem base64ascii_ne_zero : ∀ i < 64, base64ascii i ≠ 0 := by decide +kernel

theorem statusIdxAdd_mod (k : Nat) : statusIdxAdd (k % 64) = (k + 1) % 64 := by
  have hk : k % 64 < 64 := Nat.mod_lt k (by decide)
  unfold statusIdxAdd
  split <;> omega

/-- The status that announces message `k - 1` and is awaited for sending message `k`. -/
def statusOf (k : Nat) : Status := base64ascii (k % 64)

theorem statusOf_ne_succ (k : Nat) : statusOf k ≠ statusOf (k + 1) := by
  intro heq
  have hmod : k % 64 = (k + 1) % 64 :=
    base64ascii_inj _ (Nat.mod_lt _ (by decide)) _ (Nat.mod_lt _ (by decide)) heq
  omega

theorem statusOf_ne_succ_succ (k : Nat) : statusOf k ≠ statusOf (k + 2) := by
  intro heq
  have hmod : k % 64 = (k + 2) % 64 :=
    base64ascii_inj _ (Nat.mod_lt _ (by decide)) _ (Nat.mod_lt _ (by decide)) heq
  omega

/-! ## The loops of both processes -/

/-- The process that sends message `k`. -/
def sender (k : Nat) : Role := if k % 2 = 0 then .server else .client

theorem sender_succ (k : Nat) : sender (k + 1) = (sender k).peer := by
  unfold sender
  rcases Nat.mod_two_eq_zero_or_one k with hk | hk
  · have hk' : (k + 1) % 2 = 1 := by omega
    simp [hk, hk', Role.peer]
  · have hk' : (k + 1) % 2 = 0 := by omega
    simp [hk, hk', Role.peer]

/-- The number of messages in one direction. -/
def Config.total (cfg : Config) : Nat := cfg.loopCount * cfg.bigLoops

/-- The loop variable of process `p` while it sends or reads message `k`. -/
def loopAt (cfg : Config) (p : Role) (k : Nat) : Nat :=
  match p with
  | .server => k / 2 % cfg.loopCount + 1
  | .client => k / 2 % cfg.loopCount + 1 + k % 2

/-- The process is in the round of the loops in which it sends or reads message `k`. -/
structure Engaged (cfg : Config) (p : Role) (k : Nat) (proc : Proc) : Prop where
  loop_eq : proc.loop = loopAt cfg p k
  bigloop_eq : proc.bigloop = k / 2 / cfg.loopCount + 1

section Rounds

variable (cfg : Config)

/-- The round after round `r` is in the same big loop, or begins the next one. -/
theorem round_succ (r : Nat) :
    (r % cfg.loopCount + 1 < cfg.loopCount ∧ (r + 1) % cfg.loopCount = r % cfg.loopCount + 1 ∧
      (r + 1) / cfg.loopCount = r / cfg.loopCount) ∨
    (r % cfg.loopCount + 1 = cfg.loopCount ∧ (r + 1) % cfg.loopCount = 0 ∧
      (r + 1) / cfg.loopCount = r / cfg.loopCount + 1) := by
  have hlt : r % cfg.loopCount < cfg.loopCount := Nat.mod_lt r cfg.loopCount_pos
  have hdiv : r % cfg.loopCount + cfg.loopCount * (r / cfg.loopCount) = r := Nat.mod_add_div r _
  -- the border between two big loops is where the remainder is the largest
  rcases Nat.lt_or_eq_of_le (Nat.succ_le_of_lt hlt) with hin | hborder
  · have hboth : (r + 1) / cfg.loopCount = r / cfg.loopCount ∧
        (r + 1) % cfg.loopCount = r % cfg.loopCount + 1 :=
      (Nat.div_mod_unique cfg.loopCount_pos).2 ⟨by omega, hin⟩
    exact .inl ⟨hin, hboth.2, hboth.1⟩
  · have hboth : (r + 1) / cfg.loopCount = r / cfg.loopCount + 1 ∧ (r + 1) % cfg.loopCount = 0 :=
      (Nat.div_mod_unique cfg.loopCount_pos).2
        ⟨by rw [Nat.mul_add, Nat.mul_one]; omega, cfg.loopCount_pos⟩
    exact .inr ⟨hborder, hboth.2, hboth.1⟩

theorem round_lt_total_iff (r : Nat) : r < cfg.total ↔ r / cfg.loopCount < cfg.bigLoops := by
  rw [Config.total, Nat.mul_comm, Nat.div_lt_iff_lt_mul cfg.loopCount_pos]

/-- Message `k` is followed by another one if the big loops are not at their end. -/
theorem succ_lt_iff_of_odd {k : Nat} (hk : k % 2 = 1) :
    k + 1 < 2 * cfg.total ↔ (k / 2 + 1) / cfg.loopCount < cfg.bigLoops := by
  rw [← round_lt_total_iff]
  omega

theorem div_lt_bigLoops {k : Nat} (hk : k < 2 * cfg.total) :
    k / 2 / cfg.loopCount < cfg.bigLoops := by
  rw [← round_lt_total_iff]
  omega

end Rounds

/-! ## Control -/

/-- The control code between two calls leaves the status index and the records alone. -/
structure Unmoved (proc proc' : Proc) : Prop where
  statusIdx_eq : proc'.statusIdx = proc.statusIdx
  sent_eq : proc'.sent = proc.sent
  received_eq : proc'.received = proc.received

section Control

variable {cfg : Config} {proc : Proc} {k : Nat}

theorem loopTop_server (cfg : Config) (proc : Proc) :
    Unmoved proc (loopTop cfg .server proc) ∧ (loopTop cfg .server proc).loop = proc.loop ∧
      (loopTop cfg .server proc).bigloop = proc.bigloop ∧
      ((loopTop cfg .server proc).pc = .sendWait ∨
        ((loopTop cfg .server proc).pc = .failed ∧
          sendDataSet cfg proc.loop proc.sendData = none)) := by
  by_cases huse : cfg.useSetData .server = true
  · cases hset : sendDataSet cfg proc.loop proc.sendData with
    | some sendData =>
        have heq : loopTop cfg .server proc =
            { proc with sendData := sendData, pc := .sendWait } := by
          simp only [loopTop, huse, if_true, hset]
        rw [heq]
        exact ⟨⟨rfl, rfl, rfl⟩, rfl, rfl, .inl rfl⟩
    | none =>
        have heq : loopTop cfg .server proc = { proc with pc := .failed } := by
          simp only [loopTop, huse, if_true, hset]
        rw [heq]
        exact ⟨⟨rfl, rfl, rfl⟩, rfl, rfl, .inr ⟨rfl, rfl⟩⟩
  · have heq : loopTop cfg .server proc = { proc with pc := .sendWait } := by
      rw [loopTop, if_neg huse]
    rw [heq]
    exact ⟨⟨rfl, rfl, rfl⟩, rfl, rfl, .inl rfl⟩

/-- After reading message `k` the server goes on to send the next one, unless its data cannot be
set, or the last big loop is over. -/
theorem afterRead_server (hk : k < 2 * cfg.total) (hodd : k % 2 = 1)
    (h : Engaged cfg .server k proc) :
    Unmoved proc (afterRead cfg .server proc) ∧
      ((k + 1 < 2 * cfg.total ∧ Engaged cfg .server (k + 1) (afterRead cfg .server proc) ∧
          (afterRead cfg .server proc).pc = .sendWait) ∨
        (k + 1 < 2 * cfg.total ∧ (afterRead cfg .server proc).pc = .failed) ∨
        (k + 1 = 2 * cfg.total ∧ (afterRead cfg .server proc).pc = .done)) := by
  have hloop : proc.loop = k / 2 % cfg.loopCount + 1 := h.loop_eq
  have hbig := h.bigloop_eq
  have hround : (k + 1) / 2 = k / 2 + 1 := by omega
  have hmore := succ_lt_iff_of_odd cfg hodd
  rcases round_succ cfg (k / 2) with ⟨hin, hmod, hdiv⟩ | ⟨hborder, hmod, hdiv⟩
  · -- the next round is in the same big loop
    have hlt : proc.loop < cfg.loopCount := by rw [hloop]; exact hin
    have hnext : k + 1 < 2 * cfg.total := hmore.2 (hdiv ▸ div_lt_bigLoops cfg hk)
    rw [afterRead, if_pos hlt]
    rcases loopTop_server cfg { proc with loop := proc.loop + 1 } with ⟨hsame, hl, hb, hpc⟩
    refine ⟨⟨hsame.statusIdx_eq, hsame.sent_eq, hsame.received_eq⟩, ?_⟩
    -- the loop variable goes on, unless the data could not be set
    rcases hpc with hpc | ⟨hpc, -⟩
    · refine .inl ⟨hnext, ⟨?_, ?_⟩, hpc⟩
      · rw [hl, loopAt, hround, hmod, hloop]
      · rw [hb, hround, hdiv, hbig]
    · exact .inr (.inl ⟨hnext, hpc⟩)
  -- the `for` loop is over: the last big loop was, or another one begins
  · have hnlt : ¬ proc.loop < cfg.loopCount := by rw [hloop]; omega
    rw [afterRead, if_neg hnlt, loopDone, bigloopEnd]
    by_cases hend : proc.bigloop ≥ cfg.bigLoops
    · rw [if_pos hend]
      refine ⟨⟨rfl, rfl, rfl⟩, .inr (.inr ⟨?_, rfl⟩)⟩
      have hnot : ¬ k + 1 < 2 * cfg.total := by
        rw [hmore, hdiv, ← hbig]
        exact Nat.not_lt.2 hend
      omega
    · have hnext : k + 1 < 2 * cfg.total := hmore.2 (by rw [hdiv, ← hbig]; exact Nat.not_le.1 hend)
      rw [if_neg hend, bigloopTop]
      rcases loopTop_server cfg { proc with bigloop := proc.bigloop + 1, loop := 1 } with
        ⟨hsame, hl, hb, hpc⟩
      refine ⟨⟨hsame.statusIdx_eq, hsame.sent_eq, hsame.received_eq⟩, ?_⟩
      rcases hpc with hpc | ⟨hpc, -⟩
      · refine .inl ⟨hnext, ⟨?_, ?_⟩, hpc⟩
        · rw [hl, loopAt, hround, hmod]
        · rw [hb, hround, hdiv, hbig]
      · exact .inr (.inl ⟨hnext, hpc⟩)

/-- After reading message `k` the client goes on to answer it, in the loop or after it. -/
theorem afterRead_client (hk : k < 2 * cfg.total) (heven : k % 2 = 0)
    (h : Engaged cfg .client k proc) :
    Unmoved proc (afterRead cfg .client proc) ∧ k + 1 < 2 * cfg.total ∧
      Engaged cfg .client (k + 1) (afterRead cfg .client proc) ∧
      (afterRead cfg .client proc).pc = .sendWait := by
  have hloop : proc.loop = k / 2 % cfg.loopCount + 1 := by
    rw [h.loop_eq, loopAt, heven, Nat.add_zero]
  have hround : (k + 1) / 2 = k / 2 := by omega
  have hnext : loopAt cfg .client (k + 1) = proc.loop + 1 := by
    rw [loopAt, hround, hloop]
    omega
  have hpos : 0 < proc.loop := by rw [hloop]; exact Nat.succ_pos _
  have hle : proc.loop ≤ cfg.loopCount := by
    rw [hloop]
    exact Nat.mod_lt _ cfg.loopCount_pos
  -- in the loop as after it, the answer is the call with the next loop variable
  refine ⟨?_, by omega, ?_⟩ <;> unfold afterRead <;> by_cases hlt : proc.loop < cfg.loopCount
  · simp only [hlt, if_true, loopTop, gt_iff_lt, Nat.lt_add_left_iff_pos, hpos]
    exact ⟨rfl, rfl, rfl⟩
  · simp only [hlt, if_false, loopDone]
    exact ⟨rfl, rfl, rfl⟩
  · simp only [hlt, if_true, loopTop, gt_iff_lt, Nat.lt_add_left_iff_pos, hpos]
    exact ⟨⟨hnext.symm, by rw [hround, h.bigloop_eq]⟩, trivial⟩
  · simp only [hlt, if_false, loopDone]
    have hlast : cfg.loopCount + 1 = loopAt cfg .client (k + 1) := by
      rw [hnext, Nat.le_antisymm hle (Nat.not_lt.1 hlt)]
    exact ⟨⟨hlast, by rw [hround, h.bigloop_eq]⟩, trivial⟩

/-- After reading message `k`, a process goes on to send the next one, unless it is the server
and cannot set its data, or the last big loop is over. -/
theorem afterRead_cases (hk : k < 2 * cfg.total) (h : Engaged cfg (sender k).peer k proc) :
    Unmoved proc (afterRead cfg (sender k).peer proc) ∧
      ((k + 1 < 2 * cfg.total ∧
          Engaged cfg (sender k).peer (k + 1) (afterRead cfg (sender k).peer proc) ∧
          (afterRead cfg (sender k).peer proc).pc = .sendWait) ∨
        (k + 1 < 2 * cfg.total ∧ sender k = .client ∧
          (afterRead cfg (sender k).peer proc).pc = .failed) ∨
        (k + 1 = 2 * cfg.total ∧ (afterRead cfg (sender k).peer proc).pc = .done)) := by
  -- an even message was read by the client, an odd one by the server
  rcases Nat.mod_two_eq_zero_or_one k with heven | hodd
  · have hrole : sender k = .server := by simp [sender, heven]
    rw [hrole] at h ⊢
    rcases afterRead_client hk heven h with ⟨hsame, hlt, hengaged, hpc⟩
    exact ⟨hsame, .inl ⟨hlt, hengaged, hpc⟩⟩
  · have hrole : sender k = .client := by simp [sender, hodd]
    rw [hrole] at h ⊢
    rcases afterRead_server hk hodd h with ⟨hsame, hnext | ⟨hlt, hpc⟩ | hdone⟩
    · exact ⟨hsame, .inl hnext⟩
    · exact ⟨hsame, .inr (.inl ⟨hlt, rfl, hpc⟩)⟩
    · exact ⟨hsame, .inr (.inr hdone)⟩

/-- What a process is like that has sent message `k` and goes on. -/
structure Resting (cfg : Config) (p : Role) (k : Nat) (proc proc' : Proc) : Prop where
  sent_eq : proc'.sent = proc.sent
  received_eq : proc'.received = proc.received
  goes_on : (k + 1 < 2 * cfg.total ∧ Engaged cfg p (k + 1) proc' ∧ proc'.pc = .readWait ∧
      proc'.statusIdx = statusIdxAdd proc.statusIdx) ∨
    (k + 1 = 2 * cfg.total ∧ proc'.pc = .done)

theorem afterSend_server (hk : k < 2 * cfg.total) (heven : k % 2 = 0)
    (h : Engaged cfg .server k proc) : Resting cfg .server k proc (afterSend cfg .server proc) := by
  have hround : (k + 1) / 2 = k / 2 := by omega
  have hle : proc.loop ≤ cfg.loopCount := by
    rw [h.loop_eq]
    exact Nat.mod_lt _ cfg.loopCount_pos
  rw [afterSend, if_pos hle, beginRead]
  refine ⟨rfl, rfl, .inl ⟨by omega, ⟨?_, ?_⟩, rfl, rfl⟩⟩
  · rw [h.loop_eq, loopAt, loopAt, hround]
  · rw [h.bigloop_eq, hround]

theorem afterSend_client (hk : k < 2 * cfg.total) (hodd : k % 2 = 1)
    (h : Engaged cfg .client k proc) : Resting cfg .client k proc (afterSend cfg .client proc) := by
  have hloop : proc.loop = k / 2 % cfg.loopCount + 2 := by
    rw [h.loop_eq, loopAt, hodd]
  have hbig := h.bigloop_eq
  have hround : (k + 1) / 2 = k / 2 + 1 := by omega
  have heven : (k + 1) % 2 = 0 := by omega
  have hmore := succ_lt_iff_of_odd cfg hodd
  -- an answer in the loop is followed by a read, the one after it by the next big loop
  rcases round_succ cfg (k / 2) with ⟨hin, hmod, hdiv⟩ | ⟨hborder, hmod, hdiv⟩
  · have hle : proc.loop ≤ cfg.loopCount := by rw [hloop]; exact hin
    rw [afterSend, if_pos hle, beginRead]
    refine ⟨rfl, rfl, .inl ⟨hmore.2 (hdiv ▸ div_lt_bigLoops cfg hk), ⟨?_, ?_⟩, rfl, rfl⟩⟩
    · rw [hloop, loopAt, hround, hmod, heven]
    · rw [hround, hdiv, hbig]
  · -- the answer after the loop
    have hnle : ¬ proc.loop ≤ cfg.loopCount := by rw [hloop]; omega
    rw [afterSend, if_neg hnle, bigloopEnd]
    by_cases hend : proc.bigloop ≥ cfg.bigLoops
    · rw [if_pos hend]
      refine ⟨rfl, rfl, .inr ⟨?_, rfl⟩⟩
      have hnot : ¬ k + 1 < 2 * cfg.total := by
        rw [hmore, hdiv, ← hbig]
        exact Nat.not_lt.2 hend
      omega
    · rw [if_neg hend, bigloopTop, loopTop]
      simp only [gt_iff_lt, Nat.lt_irrefl, if_false, beginRead]
      refine ⟨rfl, rfl, .inl ⟨hmore.2 (by rw [hdiv, ← hbig]; exact Nat.not_le.1 hend), ⟨?_, ?_⟩,
        rfl, rfl⟩⟩
      · rw [loopAt, hround, hmod, heven]
      · rw [hround, hdiv, hbig]

theorem afterSend_resting (hk : k < 2 * cfg.total) (h : Engaged cfg (sender k) k proc) :
    Resting cfg (sender k) k proc (afterSend cfg (sender k) proc) := by
  rcases Nat.mod_two_eq_zero_or_one k with heven | hodd
  · have hrole : sender k = .server := by simp [sender, heven]
    rw [hrole] at h ⊢
    exact afterSend_server hk heven h
  · have hrole : sender k = .client := by simp [sender, hodd]
    rw [hrole] at h ⊢
    exact afterSend_client hk hodd h

end Control

/-! ## The message under way -/

/-- How far the sender `p` of message `k` has come; `q` is the reader, `area` the data area. -/
def SendStage (cfg : Config) (k : Nat) (p q : Proc) (area : Nat → UInt8) : Prop :=
  match p.pc with
  | .sendWait => p.statusIdx = k % 64 ∧ p.sent = q.received
  | .sendCopy j =>
      p.statusIdx = (k + 1) % 64 ∧ p.sent = q.received ++ [bytes p.outData cfg.sendDataLen] ∧
        j < cfg.sendDataLen ∧ ∀ i < j, area i = p.outData i
  | .sendStatus =>
      p.statusIdx = (k + 1) % 64 ∧ p.sent = q.received ++ [bytes p.outData cfg.sendDataLen] ∧
        ∀ i < cfg.sendDataLen, area i = p.outData i
  | _ => False

/-- How far the reader `q` has come with the message that `p` has left in `area`. -/
def ReadStage (cfg : Config) (p q : Proc) (area : Nat → UInt8) : Prop :=
  p.sent = q.received ++ [bytes area cfg.sendDataLen] ∧
    match q.pc with
    | .readWait => True
    | .readCopy j => j < cfg.sendDataLen ∧ ∀ i < j, q.readData i = area i
    | .readStatus => ∀ i < cfg.sendDataLen, q.readData i = area i
    | _ => False

/-- What holds while message `k` is under way from `p` to `q`. -/
structure UnderWay (cfg : Config) (k : Nat) (p q : Proc) (Q : Segment) : Prop where
  lt : k < 2 * cfg.total
  reader_engaged : Engaged cfg (sender k).peer k q
  reader_idx : q.statusIdx = (k + 1) % 64
  reader_status : Q.status = statusOf k
  answered : p.received = q.sent
  read_count : q.received.length = k / 2
  answer_count : p.received.length = (k + 1) / 2

structure SendingAt (cfg : Config) (k : Nat) (p q : Proc) (P Q : Segment) : Prop
    extends UnderWay cfg k p q Q where
  sender_engaged : Engaged cfg (sender k) k p
  sender_status : P.status = statusOf k
  reader_waits : q.pc = .readWait
  stage : SendStage cfg k p q P.data

structure ReadingAt (cfg : Config) (k : Nat) (p q : Proc) (P Q : Segment) : Prop
    extends UnderWay cfg k p q Q where
  sender_status : P.status = statusOf (k + 1)
  /-- The sender waits for the next message, or has finished. -/
  sender_rests :
    (k + 1 < 2 * cfg.total ∧ Engaged cfg (sender k) (k + 1) p ∧ p.pc = .readWait ∧
      p.statusIdx = (k + 2) % 64) ∨
    (k + 1 = 2 * cfg.total ∧ p.pc = .done)
  stage : ReadStage cfg p q P.data

/-- The server has failed before it could send the next message. -/
structure StalledAt (k : Nat) (server client : Proc) (serverOut : Segment) : Prop where
  failed : server.pc = .failed
  client_waits : client.pc = .readWait
  client_idx : client.statusIdx = (k + 1) % 64
  server_status : serverOut.status = statusOf k
  client_received : client.received = server.sent
  server_received : server.received = client.sent

structure FinishedAt (cfg : Config) (p q : Proc) : Prop where
  done : p.pc = .done
  received_eq : p.received = q.sent
  count : p.received.length = cfg.total

section Steps

variable {cfg : Config} {k : Nat} {p q : Proc} {P Q : Segment}

theorem bytes_congr {f g : Nat → UInt8} {n : Nat} (h : ∀ i < n, f i = g i) : bytes f n = bytes g n :=
  List.map_congr_left fun i hi => h i (List.mem_range.1 hi)

/-- A byte copied at position `j` extends the copied part to `j + 1`. -/
theorem copied_succ {f g : Nat → UInt8} {j : Nat} (h : ∀ i < j, f i = g i) :
    ∀ i < j + 1, Function.update f j (g j) i = g i := by
  intro i hi
  rcases Nat.lt_or_eq_of_le (Nat.le_of_lt_succ hi) with hlt | rfl
  · rw [Function.update_of_ne (Nat.ne_of_lt hlt)]
    exact h i hlt
  · exact Function.update_self _ _ _

theorem SendingAt.reader_blocked (h : SendingAt cfg k p q P Q) :
    act cfg (sender k).peer q Q P = (q, Q) := by
  have hne : P.status ≠ base64ascii q.statusIdx := by
    rw [h.sender_status, h.reader_idx]
    exact statusOf_ne_succ k
  simp only [act, h.reader_waits, if_neg hne]

theorem ReadingAt.sender_blocked (h : ReadingAt cfg k p q P Q) :
    act cfg (sender k) p P Q = (p, P) := by
  rcases h.sender_rests with ⟨-, -, hpc, hidx⟩ | ⟨-, hpc⟩
  · have hne : Q.status ≠ base64ascii p.statusIdx := by
      rw [h.reader_status, hidx]
      exact statusOf_ne_succ_succ k
    simp only [act, hpc, if_neg hne]
  · simp only [act, hpc]

/-- After the sender has set its status, the message is being read. -/
theorem SendingAt.announced (h : SendingAt cfg k p q P Q) (hidx : p.statusIdx = (k + 1) % 64)
    (hsent : p.sent = q.received ++ [bytes p.outData cfg.sendDataLen])
    (harea : ∀ i < cfg.sendDataLen, P.data i = p.outData i) :
    ReadingAt cfg k (afterSend cfg (sender k) p) q
      { P with status := base64ascii p.statusIdx } Q := by
  have hrest : Resting cfg (sender k) k p (afterSend cfg (sender k) p) :=
    afterSend_resting h.lt h.sender_engaged
  refine
    { lt := h.lt
      reader_engaged := h.reader_engaged
      reader_idx := h.reader_idx
      reader_status := h.reader_status
      answered := hrest.received_eq.trans h.answered
      read_count := h.read_count
      answer_count := by rw [hrest.received_eq]; exact h.answer_count
      sender_status := by rw [hidx]; rfl
      sender_rests := ?_
      stage := ⟨?_, by rw [h.reader_waits]; trivial⟩ }
  -- its next wait is for the answer, two status values on
  · rcases hrest.goes_on with ⟨hlt, hengaged, hpc, hnext⟩ | hdone
    · refine .inl ⟨hlt, hengaged, hpc, ?_⟩
      rw [hnext, hidx, statusIdxAdd_mod]
    · exact .inr hdone
  · rw [hrest.sent_eq, hsent]
    simp only
    rw [bytes_congr harea]

theorem SendingAt.send_step (h : SendingAt cfg k p q P Q) :
    SendingAt cfg k (act cfg (sender k) p P Q).1 q (act cfg (sender k) p P Q).2 Q ∨
      ReadingAt cfg k (act cfg (sender k) p P Q).1 q (act cfg (sender k) p P Q).2 Q := by
  have hstage := h.stage
  unfold SendStage at hstage
  cases hpc : p.pc with
  | sendWait =>
      rw [hpc] at hstage
      -- the reader has answered the message before, so the wait ends
      have hready : Q.status = base64ascii p.statusIdx := by
        rw [h.reader_status, hstage.1]
        rfl
      simp only [act, hpc, if_pos hready]
      refine .inl
        { toUnderWay := ⟨h.lt, h.reader_engaged, h.reader_idx, h.reader_status, h.answered,
            h.read_count, h.answer_count⟩
          sender_engaged := ⟨h.sender_engaged.loop_eq, h.sender_engaged.bigloop_eq⟩
          sender_status := h.sender_status
          reader_waits := h.reader_waits
          stage := ⟨?_, ?_, cfg.sendDataLen_pos, fun i hi => absurd hi (Nat.not_lt_zero i)⟩ }
      · simp only [hstage.1, statusIdxAdd_mod]
      · simp only [hstage.2]
        rfl
  | sendCopy j =>
      rw [hpc] at hstage
      rcases hstage with ⟨hidx, hsent, hj, harea⟩
      simp only [act, hpc]
      refine .inl
        { toUnderWay := ⟨h.lt, h.reader_engaged, h.reader_idx, h.reader_status, h.answered,
            h.read_count, h.answer_count⟩
          sender_engaged := ⟨h.sender_engaged.loop_eq, h.sender_engaged.bigloop_eq⟩
          sender_status := h.sender_status
          reader_waits := h.reader_waits
          stage := ?_ }
      by_cases hlast : j + 1 < cfg.sendDataLen
      · simp only [if_pos hlast]
        exact ⟨hidx, hsent, hlast, copied_succ harea⟩
      · -- the last byte: the copied part is the whole message
        have hlen : cfg.sendDataLen = j + 1 := Nat.le_antisymm (Nat.not_lt.1 hlast) hj
        simp only [if_neg hlast]
        refine ⟨hidx, hsent, ?_⟩
        rw [hlen]
        exact copied_succ harea
  | sendStatus =>
      rw [hpc] at hstage
      rcases hstage with ⟨hidx, hsent, harea⟩
      simp only [act, hpc]
      exact .inr (h.announced hidx hsent harea)
  | setReady | waitReady | sleep | readWait | readCopy | readStatus | done | failed =>
      rw [hpc] at hstage
      exact hstage.elim

/-- What the reader's last step leads to. -/
inductive Delivered (cfg : Config) (k : Nat) (p q : Proc) (P Q : Segment) : Prop
  /-- The reader sends the next message. -/
  | answering (h : SendingAt cfg (k + 1) q p Q P)
  | stalled (hrole : sender k = .client) (h : StalledAt (k + 1) q p Q)
  | finished (hp : FinishedAt cfg p q) (hq : FinishedAt cfg q p)

/-- After the reader has set its status, the message is delivered. -/
theorem ReadingAt.delivered (h : ReadingAt cfg k p q P Q)
    (hread : ∀ i < cfg.sendDataLen, q.readData i = P.data i) :
    Delivered cfg k p
      (afterRead cfg (sender k).peer
        { q with received := q.received ++ [bytes q.readData cfg.sendDataLen] })
      P { Q with status := base64ascii q.statusIdx } := by
  have hengaged : Engaged cfg (sender k).peer k
      { q with received := q.received ++ [bytes q.readData cfg.sendDataLen] } :=
    ⟨h.reader_engaged.loop_eq, h.reader_engaged.bigloop_eq⟩
  rcases afterRead_cases h.lt hengaged with ⟨hsame, hnext⟩
  -- from here on only the effect of the control code matters
  generalize afterRead cfg (sender k).peer
    { q with received := q.received ++ [bytes q.readData cfg.sendDataLen] } = q' at hsame hnext ⊢
  have hreceived : q'.received = p.sent := by
    rw [hsame.received_eq, h.stage.1, bytes_congr hread]
  have hcount : q'.received.length = k / 2 + 1 := by
    rw [hsame.received_eq, List.length_append, h.read_count]
    rfl
  have hsent : q'.sent = p.received := hsame.sent_eq.trans h.answered.symm
  have hstatus : base64ascii q.statusIdx = statusOf (k + 1) := by
    rw [h.reader_idx]
    rfl
  have hlt := h.lt
  -- both processes agree on whether this was the last message
  rcases h.sender_rests with ⟨hmore, hrest, hpc, hidx⟩ | ⟨hend, hpc⟩
  · rcases hnext with ⟨-, hengaged', hpc'⟩ | ⟨-, hrole, hpc'⟩ | ⟨hend, -⟩
    · refine .answering
        { lt := hmore
          reader_engaged := by rw [sender_succ, Role.peer_peer]; exact hrest
          reader_idx := hidx
          reader_status := h.sender_status
          answered := hreceived
          read_count := h.answer_count
          answer_count := by rw [hcount]; omega
          sender_engaged := by rw [sender_succ]; exact hengaged'
          sender_status := hstatus
          reader_waits := hpc
          stage := ?_ }
      simp only [SendStage, hpc']
      exact ⟨hsame.statusIdx_eq.trans h.reader_idx, hsent⟩
    · exact .stalled hrole ⟨hpc', hpc, hidx, hstatus, hsent.symm, hreceived⟩
    · exact absurd hend (Nat.ne_of_lt hmore)
  · rcases hnext with ⟨hmore, -⟩ | ⟨hmore, -⟩ | ⟨-, hpc'⟩
    · exact absurd hend (Nat.ne_of_lt hmore)
    · exact absurd hend (Nat.ne_of_lt hmore)
    · exact .finished ⟨hpc, hsent.symm, by rw [h.answer_count]; omega⟩
        ⟨hpc', hreceived, by rw [hcount]; omega⟩

theorem ReadingAt.read_step (h : ReadingAt cfg k p q P Q) :
    ReadingAt cfg k p (act cfg (sender k).peer q Q P).1 P (act cfg (sender k).peer q Q P).2 ∨
      Delivered cfg k p (act cfg (sender k).peer q Q P).1 P (act cfg (sender k).peer q Q P).2 := by
  rcases h.stage with ⟨hsent, hstage⟩
  cases hpc : q.pc with
  | readWait =>
      -- the sender has announced the message, so the wait ends
      have hready : P.status = base64ascii q.statusIdx := by
        rw [h.sender_status, h.reader_idx]
        rfl
      simp only [act, hpc, if_pos hready]
      exact .inl
        { toUnderWay := ⟨h.lt, ⟨h.reader_engaged.loop_eq, h.reader_engaged.bigloop_eq⟩,
            h.reader_idx, h.reader_status, h.answered, h.read_count, h.answer_count⟩
          sender_status := h.sender_status
          sender_rests := h.sender_rests
          stage := ⟨hsent, cfg.sendDataLen_pos, fun i hi => absurd hi (Nat.not_lt_zero i)⟩ }
  | readCopy j =>
      rw [hpc] at hstage
      simp only [act, hpc]
      refine .inl
        { toUnderWay := ⟨h.lt, ⟨h.reader_engaged.loop_eq, h.reader_engaged.bigloop_eq⟩,
            h.reader_idx, h.reader_status, h.answered, h.read_count, h.answer_count⟩
          sender_status := h.sender_status
          sender_rests := h.sender_rests
          stage := ⟨hsent, ?_⟩ }
      by_cases hlast : j + 1 < cfg.sendDataLen
      · simp only [if_pos hlast]
        exact ⟨hlast, copied_succ hstage.2⟩
      · have hlen : cfg.sendDataLen = j + 1 := Nat.le_antisymm (Nat.not_lt.1 hlast) hstage.1
        simp only [if_neg hlast]
        rw [hlen]
        exact copied_succ hstage.2
  | readStatus =>
      rw [hpc] at hstage
      simp only [act, hpc]
      exact .inr (h.delivered hstage)
  | setReady | waitReady | sleep | sendWait | sendCopy | sendStatus | done | failed =>
      rw [hpc] at hstage
      exact hstage.elim

end Steps

end SharedMemory
end LuajitTcpServer
