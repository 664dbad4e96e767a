import LuajitTcpServer.SharedMemory.Delivery
import LuajitTcpServer.SharedMemory.Payload

/-!
# Counting — the payload in the runs of the two processes

The processes work on the bytes from `sendData_c` on.  As long as no call writes in front of them,
their `sendDataSet` is the one on the memory around the buffer (`sendDataSet_process`).  In every
state of a run the server's buffer is what its calls up to the current loop have left
(`Counting`), so what is known of the calls in order holds in every interleaving with the client.
-/

namespace LuajitTcpServer
namespace SharedMemory

open Schedule Lua ByteMemory

/-! ## The buffer of a process -/

theorem bytes_eq_window (data : Int → UInt8) (len : Nat) :
    bytes (fun i => data i) len = window data 0 len := by
  induction len with
  | zero =>
      rfl
  | succ len ih =>
      rw [bytes, List.range_succ, List.map_append, window_append, ← ih, Int.zero_add]
      rfl

section Buffer

variable {cfg : Config} {loop : Nat} {data : Int → UInt8}

theorem setDigit_process (hlt : loop < 10 ^ 9) (hroom : numStringLength loop ≤ cfg.sendDataLen)
    (idx : Nat) :
    setDigit cfg loop (fun i => data i) idx =
      (Payload.assign data
        ((cfg.sendDataLen : Int) - numStringLength loop + idx, (tostring loop)[idx]?)).map
        fun data' (i : Nat) => data' i := by
  have htxt : (toString loop).toList = tostring loop := by
    rw [tostring_natCast (by omega)]
    exact Nat.toList_repr
  rw [setDigit, if_neg (by omega), htxt]
  cases hdigit : (tostring loop)[idx]? with
  | none =>
      rfl
  | some digit =>
      have hindex : (cfg.sendDataLen : Int) - numStringLength loop + idx =
          (cfg.sendDataLen + idx - numStringLength loop : Nat) := by omega
      simp only [Payload.assign, Option.map_some, hindex]
      congr 1
      funext i
      by_cases hi : i = cfg.sendDataLen + idx - numStringLength loop
      · simp [hi, Payload.byte]
      · rw [Function.update_of_ne hi, Function.update_of_ne (by omega)]

/-- On the bytes from `sendData_c` on, a call that stays behind it is the same. -/
theorem sendDataSet_process (hlen : cfg.countLen = (tostring cfg.loopCount).length)
    (hlt : loop < 10 ^ 9) (hroom : numStringLength loop ≤ cfg.sendDataLen) :
    sendDataSet cfg loop (fun i => data i) =
      (Payload.sendDataSet cfg.loopCount data loop).map fun data' (i : Nat) => data' i := by
  have hsame : Payload.sendDataLen cfg.loopCount = cfg.sendDataLen := by
    rw [Payload.sendDataLen_eq, Config.sendDataLen, hlen]
  rw [sendDataSet, Payload.sendDataSet, Payload.assignments, hsame]
  generalize List.range (numStringLength loop) = indexes
  induction indexes generalizing data with
  | nil =>
      rfl
  | cons idx indexes ih =>
      rw [List.foldlM_cons, List.map_cons, List.foldlM_cons, setDigit_process hlt hroom]
      cases Payload.assign data
          ((cfg.sendDataLen : Int) - numStringLength loop + idx, (tostring loop)[idx]?) with
      | none =>
          rfl
      | some data' =>
          exact ih

theorem getD_map_byte (txt : List Char) (i : Nat) :
    ((txt ++ ['\x00']).map Payload.byte).getD i 0 =
      UInt8.ofNat ((txt.map Char.toNat).getD i 0) := by
  induction txt generalizing i with
  | nil =>
      cases i <;> rfl
  | cons c txt ih =>
      cases i with
      | zero =>
          rfl
      | succ i =>
          exact ih i

theorem cstr_sendDataInit (hlen : cfg.countLen = (tostring cfg.loopCount).length) :
    cstr (sendDataInit cfg .server) =
      fun i : Nat => Payload.sendDataInit cfg.loopCount (fun _ => 0) i := by
  funext i
  have htxt : (sendDataInit cfg .server).toList = Payload.sendData cfg.loopCount := by
    simp [sendDataInit, Payload.sendData, hlen]
  have hread := @overlay_apply (fun _ => 0) 0
    ((Payload.sendData cfg.loopCount ++ ['\x00']).map Payload.byte) i
  rw [Int.zero_add, getD_map_byte] at hread
  rw [cstr, htxt, Payload.sendDataInit, hread]

/-- The calls of a process, on the memory around its buffer. -/
theorem foldlM_process (hlen : cfg.countLen = (tostring cfg.loopCount).length) {calls : List Nat}
    (hcalls : ∀ loop ∈ calls, loop < 10 ^ 9 ∧ numStringLength loop ≤ cfg.sendDataLen) :
    calls.foldlM (fun data loop => sendDataSet cfg loop data) (fun i => data i) =
      (calls.foldlM (Payload.sendDataSet cfg.loopCount) data).map fun data' (i : Nat) => data' i := by
  induction calls generalizing data with
  | nil =>
      rfl
  | cons loop calls ih =>
      rcases hcalls loop List.mem_cons_self with ⟨hlt, hroom⟩
      rw [List.foldlM_cons, List.foldlM_cons, sendDataSet_process hlen hlt hroom]
      cases Payload.sendDataSet cfg.loopCount data loop with
      | none =>
          rfl
      | some data' =>
          exact ih fun loop hmem => hcalls loop (List.mem_cons_of_mem _ hmem)

end Buffer

/-! ## The calls of a server -/

/-- The calls up to loop `loop` of big loop `bigloop`. -/
def callsTo (cfg : Config) (bigloop loop : Nat) : List Nat :=
  (List.replicate (bigloop - 1) (List.range' 1 cfg.loopCount)).flatten ++ List.range' 1 loop

section Calls

variable {cfg : Config} {bigloop loop : Nat}

theorem callsTo_succ : callsTo cfg bigloop (loop + 1) = callsTo cfg bigloop loop ++ [loop + 1] := by
  rw [callsTo, List.range'_1_concat, Nat.add_comm 1 loop, ← List.append_assoc]
  rfl

theorem callsTo_next (h : 1 ≤ bigloop) :
    callsTo cfg (bigloop + 1) 1 = callsTo cfg bigloop cfg.loopCount ++ [1] := by
  obtain ⟨b, rfl⟩ : ∃ b, bigloop = b + 1 := ⟨bigloop - 1, by omega⟩
  rw [callsTo, callsTo, Nat.add_sub_cancel, Nat.add_sub_cancel, List.replicate_succ',
    List.flatten_append, List.flatten_singleton]
  rfl

theorem callsTo_begins (hbig : 1 ≤ bigloop) (hbig' : bigloop ≤ cfg.bigLoops)
    (hloop : loop ≤ cfg.loopCount) :
    callsTo cfg bigloop loop <+: Payload.serverLoops cfg.loopCount cfg.bigLoops := by
  obtain ⟨rest, hrest⟩ : ∃ rest, cfg.bigLoops = bigloop - 1 + (1 + rest) :=
    ⟨cfg.bigLoops - bigloop, by omega⟩
  obtain ⟨k, hk⟩ : ∃ k, cfg.loopCount = loop + k := ⟨cfg.loopCount - loop, by omega⟩
  rw [callsTo, Payload.serverLoops, hrest, List.replicate_add, List.flatten_append,
    List.prefix_append_right_inj, List.replicate_add, List.flatten_append, List.replicate_one,
    List.flatten_singleton, hk, ← List.range'_append_1, List.append_assoc]
  exact List.prefix_append _ _

end Calls

/-! ## Runs -/

/-- The server is in loop `proc.loop` of big loop `proc.bigloop`, and its buffer is what the calls
up to that loop have left. -/
structure Counting (cfg : Config) (proc : Proc) : Prop where
  inLoop : proc.pc.inLoop = true
  not_failed : proc.pc ≠ .failed
  bigloop_pos : 1 ≤ proc.bigloop
  bigloop_le : proc.bigloop ≤ cfg.bigLoops
  loop_pos : 1 ≤ proc.loop
  loop_le : proc.loop ≤ cfg.loopCount
  calls : (callsTo cfg proc.bigloop proc.loop).foldlM (fun data loop => sendDataSet cfg loop data)
    (cstr (sendDataInit cfg .server)) = some proc.sendData
  sendIsRead : proc.sendIsRead = false

/-- The server before its first loop. -/
structure Uncounted (cfg : Config) (proc : Proc) : Prop where
  not_inLoop : proc.pc.inLoop = false
  bigloop : proc.bigloop = 0
  sendData : proc.sendData = cstr (sendDataInit cfg .server)
  sendIsRead : proc.sendIsRead = false

/-- No call of a server run fails. -/
def CallsSucceed (cfg : Config) : Prop :=
  ∀ calls, calls <+: Payload.serverLoops cfg.loopCount cfg.bigLoops →
    calls.foldlM (fun data loop => sendDataSet cfg loop data) (cstr (sendDataInit cfg .server)) ≠ none

section Runs

variable {cfg : Config} {proc proc' : Proc}

/-- The parts of the server that its calls do not depend on may change. -/
theorem Counting.congr (h : Counting cfg proc) (hloop : proc'.pc.inLoop = true)
    (hpc : proc'.pc ≠ .failed)
    (hsame : proc'.bigloop = proc.bigloop ∧ proc'.loop = proc.loop ∧
      proc'.sendData = proc.sendData ∧ proc'.sendIsRead = proc.sendIsRead) : Counting cfg proc' := by
  rcases hsame with ⟨hbig, hloop', hdata, hread⟩
  constructor
  · exact hloop
  · exact hpc
  · rw [hbig]
    exact h.bigloop_pos
  · rw [hbig]
    exact h.bigloop_le
  · rw [hloop']
    exact h.loop_pos
  · rw [hloop']
    exact h.loop_le
  · rw [hbig, hloop', hdata]
    exact h.calls
  · rw [hread]
    exact h.sendIsRead

/-- One more call. -/
theorem counting_loopTop (huse : cfg.useSetData .server = true) (hok : CallsSucceed cfg)
    {before : List Nat} (hbig : 1 ≤ proc.bigloop) (hbig' : proc.bigloop ≤ cfg.bigLoops)
    (hpos : 1 ≤ proc.loop) (hloop : proc.loop ≤ cfg.loopCount)
    (hcalls : callsTo cfg proc.bigloop proc.loop = before ++ [proc.loop])
    (hfold : before.foldlM (fun data loop => sendDataSet cfg loop data)
      (cstr (sendDataInit cfg .server)) = some proc.sendData)
    (hread : proc.sendIsRead = false) : Counting cfg (loopTop cfg .server proc) := by
  have hset : (callsTo cfg proc.bigloop proc.loop).foldlM
      (fun data loop => sendDataSet cfg loop data) (cstr (sendDataInit cfg .server)) =
      sendDataSet cfg proc.loop proc.sendData := by
    rw [hcalls, List.foldlM_append, hfold]
    simp
  cases hdata : sendDataSet cfg proc.loop proc.sendData with
  | none =>
      rw [hdata] at hset
      exact absurd hset (hok _ (callsTo_begins hbig hbig' hloop))
  | some sendData =>
      have heq : loopTop cfg .server proc = { proc with sendData := sendData, pc := .sendWait } := by
        simp only [loopTop, huse, if_true, hdata]
      rw [heq]
      exact
        { inLoop := rfl
          not_failed := Pc.noConfusion
          bigloop_pos := hbig
          bigloop_le := hbig'
          loop_pos := hpos
          loop_le := hloop
          calls := hset.trans hdata
          sendIsRead := hread }

theorem Counting.afterRead (huse : cfg.useSetData .server = true) (hok : CallsSucceed cfg)
    (h : Counting cfg proc) : Counting cfg (SharedMemory.afterRead cfg .server proc) := by
  by_cases hloop : proc.loop < cfg.loopCount
  · rw [SharedMemory.afterRead, if_pos hloop]
    exact counting_loopTop huse hok h.bigloop_pos h.bigloop_le (Nat.succ_pos _) hloop callsTo_succ h.calls
      h.sendIsRead
  · have hlast : proc.loop = cfg.loopCount := Nat.le_antisymm h.loop_le (Nat.not_lt.1 hloop)
    have hcalls := h.calls
    rw [hlast] at hcalls
    rw [SharedMemory.afterRead, if_neg hloop, loopDone, bigloopEnd]
    split
    · exact h.congr rfl Pc.noConfusion ⟨rfl, rfl, rfl, rfl⟩
    · rename_i hmore
      exact counting_loopTop huse hok (Nat.succ_pos _) (Nat.not_le.1 hmore) (Nat.le_refl 1)
        cfg.loopCount_pos
        (callsTo_next h.bigloop_pos) hcalls h.sendIsRead

theorem Counting.act (huse : cfg.useSetData .server = true) (hok : CallsSucceed cfg)
    (h : Counting cfg proc) (own incoming : Segment) :
    Counting cfg (SharedMemory.act cfg .server proc own incoming).1 := by
  have hloop := h.inLoop
  have hpc := h.not_failed
  cases hcase : proc.pc with
  | setReady | waitReady | sleep =>
      rw [hcase] at hloop
      cases hloop
  | sendWait =>
      simp only [SharedMemory.act, hcase]
      split
      · exact h.congr rfl Pc.noConfusion ⟨rfl, rfl, rfl, rfl⟩
      · exact h
  | sendCopy j =>
      simp only [SharedMemory.act, hcase]
      split
      · exact h.congr rfl Pc.noConfusion ⟨rfl, rfl, rfl, rfl⟩
      · exact h.congr rfl Pc.noConfusion ⟨rfl, rfl, rfl, rfl⟩
  | sendStatus =>
      -- the server has no call after its loop
      simp only [SharedMemory.act, hcase, afterSend, if_pos h.loop_le]
      exact h.congr rfl Pc.noConfusion ⟨rfl, rfl, rfl, rfl⟩
  | readWait =>
      simp only [SharedMemory.act, hcase]
      split
      · exact h.congr rfl Pc.noConfusion ⟨rfl, rfl, rfl, rfl⟩
      · exact h
  | readCopy j =>
      simp only [SharedMemory.act, hcase]
      split
      · exact h.congr rfl Pc.noConfusion ⟨rfl, rfl, rfl, rfl⟩
      · exact h.congr rfl Pc.noConfusion ⟨rfl, rfl, rfl, rfl⟩
  | readStatus =>
      simp only [SharedMemory.act, hcase]
      rw [hcase] at hloop hpc
      exact Counting.afterRead huse hok (h.congr hloop hpc ⟨rfl, rfl, rfl, rfl⟩)
  | done =>
      simp only [SharedMemory.act, hcase]
      exact h
  | failed =>
      exact absurd hcase hpc

theorem Uncounted.act (huse : cfg.useSetData .server = true) (hok : CallsSucceed cfg)
    (h : Uncounted cfg proc) (own incoming : Segment) :
    Uncounted cfg (SharedMemory.act cfg .server proc own incoming).1 ∨
      Counting cfg (SharedMemory.act cfg .server proc own incoming).1 := by
  have hloop := h.not_inLoop
  cases hcase : proc.pc with
  | setReady =>
      simp only [SharedMemory.act, hcase]
      exact .inl ⟨rfl, h.bigloop, h.sendData, h.sendIsRead⟩
  | waitReady =>
      simp only [SharedMemory.act, hcase]
      split
      · exact .inl ⟨rfl, h.bigloop, h.sendData, h.sendIsRead⟩
      · exact .inl h
  | sleep =>
      simp only [SharedMemory.act, hcase, bigloopTop]
      refine .inr (@counting_loopTop cfg _ huse hok [] (Nat.succ_pos _) ?_ (Nat.le_refl 1)
        cfg.loopCount_pos ?_ ?_ h.sendIsRead)
      · rw [h.bigloop]
        exact cfg.bigLoops_pos
      · rw [h.bigloop]
        rfl
      · rw [h.sendData]
        rfl
  | sendWait | sendCopy | sendStatus | readWait | readCopy | readStatus | done | failed =>
      rw [hcase] at hloop
      cases hloop

/-- The server has not begun, or counts. -/
def ServerCounts (cfg : Config) (s : State) : Prop :=
  Uncounted cfg (s.procs .server) ∨ Counting cfg (s.procs .server)

theorem ServerCounts.step {s : State} (huse : cfg.useSetData .server = true)
    (hok : CallsSucceed cfg) (h : ServerCounts cfg s) (p : Role) :
    ServerCounts cfg (SharedMemory.step cfg p s) := by
  unfold ServerCounts
  cases p with
  | server =>
      rw [step_procs_self]
      rcases h with h | h
      · exact h.act huse hok _ _
      · exact .inr (h.act huse hok _ _)
  | client =>
      have hother : (SharedMemory.step cfg .client s).procs .server = s.procs .server :=
        step_peer_procs cfg .server s
      rw [hother]
      exact h

/-- In every state of every run. -/
theorem serverCounts_run (huse : cfg.useSetData .server = true) (hok : CallsSucceed cfg)
    (areas : Role → Nat → UInt8) (turns : List Role) :
    ServerCounts cfg (run cfg areas turns) :=
  exec_invariant (fun p _ h => h.step huse hok p) (.inl ⟨rfl, rfl, rfl, rfl⟩)

/-! ## The payload in a run -/

/-- The calls of a process are those on the memory around its buffer, which starts out zero. -/
theorem foldlM_serverLoops (hlen : cfg.countLen = (tostring cfg.loopCount).length)
    (hlt : cfg.loopCount < 10 ^ 9) {calls : List Nat}
    (hcalls : calls <+: Payload.serverLoops cfg.loopCount cfg.bigLoops) :
    calls.foldlM (fun data loop => sendDataSet cfg loop data) (cstr (sendDataInit cfg .server)) =
      (calls.foldlM (Payload.sendDataSet cfg.loopCount)
        (Payload.sendDataInit cfg.loopCount fun _ => 0)).map fun data (i : Nat) => data i := by
  rw [cstr_sendDataInit hlen]
  apply foldlM_process hlen
  intro loop hmem
  have hloop := (Payload.mem_serverLoops (hcalls.subset hmem)).2
  have hdigits := digits_length_mono hloop
  rw [Payload.numStringLength_eq (by omega), Config.sendDataLen, hlen, tostring_natCast (by omega)]
  omega

theorem callsSucceed_of_shows (hlen : cfg.countLen = (tostring cfg.loopCount).length)
    (hlt : cfg.loopCount < 10 ^ 9)
    (hshows : Payload.AlwaysShows cfg.loopCount cfg.bigLoops fun _ => 0) : CallsSucceed cfg := by
  intro calls hcalls
  rw [foldlM_serverLoops hlen hlt hcalls]
  rcases List.eq_nil_or_concat calls with rfl | ⟨before, loop, rfl⟩
  · exact Option.some_ne_none _
  · rw [List.concat_eq_append] at hcalls ⊢
    rcases (hshows before loop hcalls).1 with ⟨data, hdata, -⟩
    rw [hdata]
    exact Option.some_ne_none _

/-- In every run the server's message is the current loop, from its first message on. -/
theorem payload_run (huse : cfg.useSetData .server = true)
    (hlen : cfg.countLen = (tostring cfg.loopCount).length) (hlt : cfg.loopCount < 10 ^ 9)
    (hshows : Payload.AlwaysShows cfg.loopCount cfg.bigLoops fun _ => 0)
    (areas : Role → Nat → UInt8) (turns : List Role)
    (hloop : ((run cfg areas turns).procs .server).pc.inLoop = true) :
    bytes ((run cfg areas turns).procs .server).outData cfg.sendDataLen =
      (['s', 'r', 'v', '-'] ++ (digits ((run cfg areas turns).procs .server).loop).leftpad
        cfg.countLen '0').map Payload.byte := by
  generalize hproc : (run cfg areas turns).procs .server = proc at hloop ⊢
  have hrun := serverCounts_run huse (callsSucceed_of_shows hlen hlt hshows) areas turns
  rw [ServerCounts, hproc] at hrun
  rcases hrun with hrun | hrun
  · rw [hrun.not_inLoop] at hloop
    cases hloop
  · have hbegins := callsTo_begins hrun.bigloop_pos hrun.bigloop_le hrun.loop_le
    have hcalls := hrun.calls
    obtain ⟨k, hk⟩ : ∃ k, proc.loop = k + 1 := ⟨proc.loop - 1, by have := hrun.loop_pos; omega⟩
    rw [foldlM_serverLoops hlen hlt hbegins, hk, callsTo_succ] at hcalls
    rw [hk, callsTo_succ] at hbegins
    rcases (hshows _ _ hbegins).1 with ⟨data, hdata, hshown⟩
    rw [hdata] at hcalls
    have hbuffer : proc.outData = fun i : Nat => data i := by
      rw [Proc.outData, hrun.sendIsRead]
      exact (Option.some.inj hcalls).symm
    have hsame : Payload.sendDataLen cfg.loopCount = cfg.sendDataLen := by
      rw [Payload.sendDataLen_eq, Config.sendDataLen, hlen]
    rw [Payload.Shows, hsame] at hshown
    rw [hbuffer, bytes_eq_window, hshown, hk, hlen]

end Runs

end SharedMemory
end LuajitTcpServer
