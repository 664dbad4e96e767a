import Mathlib.Logic.Function.Basic
import LuajitTcpServer.Lib.Schedule

/-!
# Processes — the two programs of `AppSharedMemory.lua`

A server and a client exchange messages through two shared segments, each of which one of them
writes and the other reads.  A segment is a status byte and a data area; a message is announced
by the next of 64 status values.

A step of a process is one access to shared memory: a status read, a status write, or the copy
of one data byte.  What a process does between two accesses is part of the step before.  Memory
is sequentially consistent.

* `useReply` is always true in the source and is left out, and so is what is printed.
* Both calls at position 0 pass their length checks, since the message fits (`Config.fits`).
-/

namespace LuajitTcpServer
namespace SharedMemory

/-! ## Settings -/

inductive Role
  | server
  | client
  deriving DecidableEq, Repr

def Role.peer : Role → Role
  | .server => .client
  | .client => .server

@[simp] theorem Role.peer_peer (p : Role) : p.peer.peer = p := by cases p <;> rfl

@[simp] theorem Role.peer_ne (p : Role) : p.peer ≠ p := by cases p <;> decide

@[simp] theorem Role.ne_peer (p : Role) : p ≠ p.peer := by cases p <;> decide

instance : Finite Role := by
  refine Finite.of_injective (fun p : Role => decide (p = .server)) fun p q => ?_
  cases p <;> cases q <;> simp

/-- What the command lines of the two processes have fixed. -/
structure Config where
  loopCount : Nat
  bigLoops : Nat
  loopCount_pos : 0 < loopCount
  bigLoops_pos : 0 < bigLoops
  useSetData : Role → Bool
  /-- The length of `tostring(loopCount)`. -/
  countLen : Nat
  /-- The message fits `readData_c`, and with it the segments, which have 4095 and 8191 bytes. -/
  fits : 4 + countLen ≤ 21

/-- `sendDataLen`, and `readDataLen`. -/
def Config.sendDataLen (cfg : Config) : Nat := 4 + cfg.countLen

theorem Config.sendDataLen_pos (cfg : Config) : 0 < cfg.sendDataLen :=
  Nat.lt_of_lt_of_le (by decide) (Nat.le_add_right 4 _)

/-! ## Status values -/

/-- An `int8_t`. -/
abbrev Status := Int

def base64char : List Char :=
  "ABCDEFGHIJKLMNOPQRSTUVWXYZabcdefghijklmnopqrstuvwxyz0123456789-_".toList

def base64ascii (i : Nat) : Status := (base64char.getD i '?').toNat

/-- `base64ascii[0]-1`, an `@`. -/
def readyStatus : Status := base64ascii 0 - 1

def statusIdxAdd (statusIdx : Nat) : Nat :=
  if statusIdx + 1 > 63 then 0 else statusIdx + 1

/-! ## State -/

/-- Where a process is: at the shared access it makes next. -/
inductive Pc
  /-- It is about to set `@`. -/
  | setReady
  /-- It waits for `@`. -/
  | waitReady
  /-- It sleeps, and then sets `A`. -/
  | sleep
  | sendWait
  /-- It is about to copy byte `j` of its message into its segment. -/
  | sendCopy (j : Nat)
  | sendStatus
  | readWait
  /-- It is about to copy byte `j` out of the segment of its peer. -/
  | readCopy (j : Nat)
  | readStatus
  | done
  /-- A Lua error, or a write in front of `sendData_c`, has ended it. -/
  | failed
  deriving DecidableEq, Repr

structure Proc where
  pc : Pc
  bigloop : Nat
  /-- The loop variable, `loopCount + 1` for the call after the loop. -/
  loop : Nat
  statusIdx : Nat
  sendData : Nat → UInt8
  readData : Nat → UInt8
  /-- `sendData_c = readData_c` has been executed. -/
  sendIsRead : Bool
  /-- The messages the process has passed to `mmapOutWrite`. -/
  sent : List (List UInt8)
  /-- What its calls of `mmapInRead` have left in `readData_c`. -/
  received : List (List UInt8)

structure Segment where
  status : Status
  data : Nat → UInt8

structure State where
  procs : Role → Proc
  /-- The out segment of each process. -/
  segs : Role → Segment

/-- The buffer `sendData_c` points to. -/
def Proc.outData (proc : Proc) : Nat → UInt8 :=
  if proc.sendIsRead then proc.readData else proc.sendData

/-- The first `len` bytes of a buffer. -/
def bytes (data : Nat → UInt8) (len : Nat) : List UInt8 := (List.range len).map data

variable (cfg : Config)

/-! ## Messages -/

def numStringLength (i : Nat) : Nat :=
  if i < 10 then 1
  else if i < 100 then 2
  else if i < 1000 then 3
  else if i < 10000 then 4
  else if i < 100000 then 5
  else if i < 1000000 then 6
  else if i < 10000000 then 7
  else if i < 100000000 then 8
  else if i < 1000000000 then 9
  else 100

/-- `util.cstr`. -/
def cstr (txt : String) (i : Nat) : UInt8 :=
  UInt8.ofNat ((txt.toList.map Char.toNat).getD i 0)

/-- The loop body of `send_data_set` for digit `idx`, counted from 0: it fails on an index in
front of the buffer and on a missing digit. -/
def setDigit (loop : Nat) (data : Nat → UInt8) (idx : Nat) : Option (Nat → UInt8) :=
  if cfg.sendDataLen + idx < numStringLength loop then none
  else
    match (toString loop).toList[idx]? with
    | none => none
    | some digit =>
        some (Function.update data (cfg.sendDataLen + idx - numStringLength loop)
          (UInt8.ofNat digit.toNat))

/-- `send_data_set(loop)` for `loop > 0`. -/
def sendDataSet (loop : Nat) (data : Nat → UInt8) : Option (Nat → UInt8) :=
  (List.range (numStringLength loop)).foldlM (setDigit cfg loop) data

/-- What `send_data_set(0)` stores. -/
def sendDataInit (p : Role) : String :=
  (match p with
    | .server => "srv-"
    | .client => "cli-") ++ String.ofList (List.replicate cfg.countLen '0')

/-! ## Control -/

/-- `read_data` up to its wait. -/
def beginRead (proc : Proc) : Proc :=
  { proc with statusIdx := statusIdxAdd proc.statusIdx, pc := .readWait }

/-- The body of the `for` loop up to its first wait. -/
def loopTop (p : Role) (proc : Proc) : Proc :=
  match p with
  | .server =>
      if cfg.useSetData .server then
        match sendDataSet cfg proc.loop proc.sendData with
        | some sendData => { proc with sendData := sendData, pc := .sendWait }
        | none => { proc with pc := .failed }
      else { proc with pc := .sendWait }
  | .client =>
      if proc.loop > 1 then
        { proc with sendIsRead := proc.sendIsRead || cfg.useSetData .client, pc := .sendWait }
      else beginRead proc

/-- The top of the `repeat` loop. -/
def bigloopTop (p : Role) (proc : Proc) : Proc :=
  loopTop cfg p { proc with bigloop := proc.bigloop + 1, loop := 1 }

/-- The end of the `repeat` loop. -/
def bigloopEnd (p : Role) (proc : Proc) : Proc :=
  if proc.bigloop ≥ cfg.bigLoops then { proc with pc := .done } else bigloopTop cfg p proc

/-- After the `for` loop the client answers the last call of the server. -/
def loopDone (p : Role) (proc : Proc) : Proc :=
  match p with
  | .server => bigloopEnd cfg p proc
  | .client => { proc with sendIsRead := true, loop := cfg.loopCount + 1, pc := .sendWait }

/-- After `read_data`, the last call of the loop body. -/
def afterRead (p : Role) (proc : Proc) : Proc :=
  if proc.loop < cfg.loopCount then loopTop cfg p { proc with loop := proc.loop + 1 }
  else loopDone cfg p proc

/-- After `send_data`, in the loop body or after the loop. -/
def afterSend (p : Role) (proc : Proc) : Proc :=
  if proc.loop ≤ cfg.loopCount then beginRead proc else bigloopEnd cfg p proc

/-! ## Steps -/

/-- One step of process `p`, on itself and its own segment, with the segment of its peer. -/
def act (p : Role) (proc : Proc) (own incoming : Segment) : Proc × Segment :=
  match proc.pc with
  | .setReady => ({ proc with pc := .waitReady }, { own with status := readyStatus })
  | .waitReady =>
      if incoming.status = readyStatus then ({ proc with pc := .sleep }, own) else (proc, own)
  | .sleep => (bigloopTop cfg p proc, { own with status := base64ascii 0 })
  | .sendWait =>
      if incoming.status = base64ascii proc.statusIdx then
        ({ proc with
            statusIdx := statusIdxAdd proc.statusIdx
            sent := proc.sent ++ [bytes proc.outData cfg.sendDataLen]
            pc := .sendCopy 0 }, own)
      else (proc, own)
  | .sendCopy j =>
      ({ proc with pc := if j + 1 < cfg.sendDataLen then .sendCopy (j + 1) else .sendStatus },
        { own with data := Function.update own.data j (proc.outData j) })
  | .sendStatus =>
      (afterSend cfg p proc, { own with status := base64ascii proc.statusIdx })
  | .readWait =>
      if incoming.status = base64ascii proc.statusIdx then ({ proc with pc := .readCopy 0 }, own)
      else (proc, own)
  | .readCopy j =>
      ({ proc with
          readData := Function.update proc.readData j (incoming.data j)
          pc := if j + 1 < cfg.sendDataLen then .readCopy (j + 1) else .readStatus }, own)
  | .readStatus =>
      (afterRead cfg p { proc with received := proc.received ++ [bytes proc.readData cfg.sendDataLen] },
        { own with status := base64ascii proc.statusIdx })
  | .done | .failed => (proc, own)

def step (p : Role) (s : State) : State :=
  let next := act cfg p (s.procs p) (s.segs p) (s.segs p.peer)
  { procs := Function.update s.procs p next.1
    segs := Function.update s.segs p next.2 }

/-- A process that has its two mappings, and has called `send_data_set(0)`. -/
def initialProc (p : Role) : Proc :=
  { pc := .setReady
    bigloop := 0
    loop := 0
    statusIdx := 0
    sendData := cstr (sendDataInit cfg p)
    readData := cstr "--- not read yet ---"
    sendIsRead := false
    sent := []
    received := [] }

/-- Both segments are mapped with a zero status; their data areas hold anything. -/
def initial (areas : Role → Nat → UInt8) : State :=
  { procs := initialProc cfg
    segs := fun p => { status := 0, data := areas p } }

/-- The state after a schedule. -/
def run (areas : Role → Nat → UInt8) (turns : List Role) : State :=
  Schedule.exec (step cfg) (initial cfg areas) turns

/-! ## Waiting -/

/-- The status a process waits for in `mmapStatusInWait`. -/
def Proc.waitsFor (proc : Proc) : Option Status :=
  match proc.pc with
  | .waitReady => some readyStatus
  | .sendWait | .readWait => some (base64ascii proc.statusIdx)
  | _ => none

/-- Process `p` is in `mmapStatusInWait`, and its peer has set another status. -/
def Blocked (s : State) (p : Role) : Prop :=
  ∃ status, (s.procs p).waitsFor = some status ∧ (s.segs p.peer).status ≠ status

/-- The process has passed the wait for `@`. -/
def Pc.passed : Pc → Bool
  | .setReady | .waitReady => false
  | _ => true

/-- The process has reached the message loop. -/
def Pc.inLoop : Pc → Bool
  | .setReady | .waitReady | .sleep => false
  | _ => true

end SharedMemory
end LuajitTcpServer
