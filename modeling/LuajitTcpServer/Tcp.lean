import LuajitTcpServer.Lib.GuardedCalls
import LuajitTcpServer.Lib.Hoare
import LuajitTcpServer.Lib.ResourceLog

/-!
# Tcp — `tcp.listen` of `lib_tcp.lua`

The listen socket is opened, made reusable and non-blocking, given its buffer sizes, bound and set
to listen, with a check after each call of the operating system.  `listen_exact` says what is left
of it whichever of the calls fails: a socket that has gone through all of the calls in their order,
or none at all.

The kernel is any function from the calls made so far and the next one to its answer.
-/

namespace LuajitTcpServer
namespace Tcp

open GuardedCalls Hoare

/-! ## The operating system -/

/-- `ffi.os`, as far as `lib_util.lua` tells them apart. -/
inductive Platform
  | windows
  | linux
  | mac
  deriving DecidableEq, Repr

/-- The options that are set at `SOL_SOCKET`. -/
inductive SockOption
  | reuseaddr
  | useloopback
  | sndbuf
  | rcvbuf
  | nodelay
  deriving DecidableEq, Repr

/-- The fields of `struct addrinfo` that are read or set. -/
structure AddrInfo where
  flags : Int
  family : Int
  socktype : Int
  protocol : Int
  addr : List UInt8
  addrlen : Nat

inductive Call
  | getaddrinfo (host : Option String) (serv : String) (hints : AddrInfo)
  | socket (family socktype protocol : Int)
  | setsockopt (sock : Int) (option : SockOption) (value : Int)
  /-- `fcntl(sock, F_GETFL, 0)`. -/
  | getFlags (sock : Int)
  /-- `fcntl(sock, F_SETFL, flags)`. -/
  | setFlags (sock : Int) (flags : BitVec 32)
  | ioctlsocket (sock cmd arg : Int)
  | bind (sock : Int) (addr : List UInt8) (addrlen : Nat)
  | listen (sock : Int) (backlog : Nat)
  /-- `close`, or `closesocket` on Windows. -/
  | close (sock : Int)
  | wsaGetLastError
  | wsaCleanup

structure Kernel where
  answer : Record Call → Call → Int
  /-- What `getaddrinfo` stores in `res[0]` when it succeeds. -/
  resolved : AddrInfo

inductive Fault
  /-- `os.exit()`. -/
  | exit
  | socketError (errtext : String) (errnum : Int)
  deriving DecidableEq, Repr

abbrev Sys := EStateM Fault (Record Call)

variable (k : Kernel) (p : Platform)

def ask (c : Call) : Sys Int := fun record =>
  .ok (k.answer record c) (record ++ [(c, k.answer record c)])

/-! ## `lib_socket.lua` -/

def invalidSocket : Int := -1

/-- `O_NONBLOCK`. -/
def nonblock : Platform → BitVec 32
  | .linux => 0o4000
  | _ => 0x0004

/-- `_IOW('f', 126, "uint32_t")`, as `bit.bor` returns it. -/
def fionbio : Int := -2147195266

def somaxconn : Platform → Nat
  | .windows => 0x7fffffff
  | _ => 128

def closeSocket (sock : Option Int) : Sys Unit :=
  match sock with
  | some sock => do
      let _ ← ask k (.close sock)
      pure ()
  | none => pure ()

def cleanup (sock : Option Int) (errnum : Int) (errtext : String) : Sys Unit :=
  match p with
  | .windows => do
      let _ ← ask k .wsaGetLastError
      closeSocket k sock
      let _ ← ask k .wsaCleanup
      if errtext.length > 0 then throw (.socketError errtext errnum) else pure ()
  | _ => do
      closeSocket k sock
      if errtext.length > 0 then throw (.socketError errtext errnum) else pure ()

def setNonblock (sock arg : Int) : Sys Int :=
  match p with
  | .windows => ask k (.ioctlsocket sock fionbio arg)
  | _ => do
      let flags ← ask k (.getFlags sock)
      if flags < 0 then pure flags
      else if arg ≠ 0 then
        ask k (.setFlags sock (BitVec.ofInt 32 flags ||| nonblock p))
      else
        ask k (.setFlags sock (BitVec.ofInt 32 flags &&& ~~~ nonblock p))

/-! ## `lib_tcp.lua` -/

def sendBufSize : Int := 65536

def receiveBufSize : Int := 65536

def tcpNoDelay : Int := 1

/-- `AF_INET`, `SOCK_STREAM`, `IPPROTO_TCP` and `AI_PASSIVE`; the other fields are zero. -/
def hints : AddrInfo where
  flags := 1
  family := 2
  socktype := 1
  protocol := 6
  addr := []
  addrlen := 0

/-- `result = x; if result ~= 0 then socket.cleanup(listen_socket, result, errtext) end`. -/
def checked (sock : Int) (errtext : String) (x : Sys Int) : Sys Unit := do
  let result ← x
  if result ≠ 0 then cleanup k p (some sock) result errtext else pure ()

def setOption (sock : Int) (option : SockOption) (value : Int) (errtext : String) : Sys Unit :=
  checked k p sock errtext (ask k (.setsockopt sock option value))

/-- An option that Linux does not support. -/
def setOptionUnlessLinux (sock : Int) (option : SockOption) (value : Int) (errtext : String) :
    Sys Unit :=
  if p ≠ .linux then setOption k p sock option value errtext else pure ()

/-- The statements of `listen` after the socket has been opened. -/
def setUp (sock : Int) : Sys Unit := do
  setOption k p sock .reuseaddr 1 "socket.setsockopt SO_REUSEADDR failed with error: "
  checked k p sock "socket.set_nonblock (set to non-blocking mode) failed with error: "
    (setNonblock k p sock 1)
  setOptionUnlessLinux k p sock .useloopback 1
    "socket.setsockopt SO_USELOOPBACK failed with error: "
  setOption k p sock .sndbuf sendBufSize "socket.setsockopt SO_SNDBUF failed with error: "
  setOption k p sock .rcvbuf receiveBufSize "socket.setsockopt SO_RCVBUF failed with error: "
  setOptionUnlessLinux k p sock .nodelay tcpNoDelay
    "socket.setsockopt TCP_NODELAY failed with error: "
  checked k p sock "socket.bind failed with error: "
    (ask k (.bind sock k.resolved.addr k.resolved.addrlen))
  checked k p sock "socket.listen failed with error: " (ask k (.listen sock (somaxconn p)))

/-- The check of the socket.  `cleanup` raises, so the `os.exit()` after it is not reached. -/
def checkSocket (listenSocket : Int) : Sys Unit :=
  if listenSocket = invalidSocket then do
    cleanup k p none listenSocket "socket.socket failed with error: "
    throw .exit
  else pure ()

def checkAddrInfo (err : Int) : Sys Unit := if err ≠ 0 then throw .exit else pure ()

def listen (port : Nat) : Sys Int := do
  let err ← ask k (.getaddrinfo none (toString port) hints)
  checkAddrInfo err
  let listenSocket ← ask k
    (.socket k.resolved.family k.resolved.socktype k.resolved.protocol)
  checkSocket k p listenSocket
  setUp k p listenSocket
  pure listenSocket

/-! ## The calls in their order -/

/-- A call that answers 0 when it succeeds. -/
def plain (errtext : String) (c : Call) : Step Call String where
  label := errtext
  call := fun _ => c
  accepts := fun answer => answer = 0

def optionStep (sock : Int) (option : SockOption) (value : Int) (errtext : String) :
    Step Call String := plain errtext (.setsockopt sock option value)

def nonblockText : String :=
  "socket.set_nonblock (set to non-blocking mode) failed with error: "

/-- The socket's flags are read, and written back with the flag for non-blocking mode. -/
def nonblockSteps (sock : Int) : List (Step Call String) :=
  match p with
  | .windows => [plain nonblockText (.ioctlsocket sock fionbio 1)]
  | _ =>
      [{ label := nonblockText
         call := fun _ => .getFlags sock
         accepts := fun answer => 0 ≤ answer },
       { label := nonblockText
         call := fun flags => .setFlags sock (BitVec.ofInt 32 flags ||| nonblock p)
         accepts := fun answer => answer = 0 }]

def setUpSteps (info : AddrInfo) (sock : Int) : List (Step Call String) :=
  [optionStep sock .reuseaddr 1 "socket.setsockopt SO_REUSEADDR failed with error: "] ++
    (nonblockSteps p sock ++
      ((if p ≠ .linux then
          [optionStep sock .useloopback 1 "socket.setsockopt SO_USELOOPBACK failed with error: "]
        else []) ++
        ([optionStep sock .sndbuf sendBufSize "socket.setsockopt SO_SNDBUF failed with error: "] ++
          ([optionStep sock .rcvbuf receiveBufSize
              "socket.setsockopt SO_RCVBUF failed with error: "] ++
            ((if p ≠ .linux then
                [optionStep sock .nodelay tcpNoDelay
                  "socket.setsockopt TCP_NODELAY failed with error: "]
              else []) ++
              ([plain "socket.bind failed with error: " (.bind sock info.addr info.addrlen)] ++
                [plain "socket.listen failed with error: " (.listen sock (somaxconn p))]))))))

/-- The calls that close the socket after a failure. -/
def closingCalls (sock : Option Int) : List Call :=
  match p with
  | .windows => .wsaGetLastError :: ((sock.toList.map .close) ++ [.wsaCleanup])
  | _ => sock.toList.map .close

/-- A failed step ends with its own text, and the socket is closed. -/
def Closes (sock : Int) (failed : Step Call String) (last : Int) (e : Fault)
    (rest : Record Call) : Prop :=
  e = .socketError failed.label last ∧ rest.map Prod.fst = closingCalls p (some sock)

section SetUp

variable {k p} {sock : Int}

theorem ask_run (c : Call) (record : Record Call) :
    (ask k c).run record = .ok (k.answer record c) (record ++ [(c, k.answer record c)]) := rfl

theorem closeSocket_run (s : Option Int) (record : Record Call) :
    ∃ rest, (closeSocket k s).run record = .ok () (record ++ rest) ∧
      rest.map Prod.fst = s.toList.map .close := by
  cases s with
  | none =>
      exact ⟨[], by rw [List.append_nil]; rfl, rfl⟩
  | some sock =>
      exact ⟨[(.close sock, k.answer record (.close sock))], rfl, rfl⟩

theorem cleanup_run (s : Option Int) (errnum : Int) {errtext : String} (h : errtext.length > 0)
    (record : Record Call) :
    ∃ rest, (cleanup k p s errnum errtext).run record =
        .error (.socketError errtext errnum) (record ++ rest) ∧
      rest.map Prod.fst = closingCalls p s := by
  have hunix : ∀ record : Record Call, ∃ rest,
      ((do
        closeSocket k s
        if errtext.length > 0 then throw (.socketError errtext errnum) else pure ()) : Sys Unit).run
          record = .error (.socketError errtext errnum) (record ++ rest) ∧
        rest.map Prod.fst = s.toList.map .close := by
    intro record
    rcases closeSocket_run (k := k) s record with ⟨rest, hrun, hrest⟩
    refine ⟨rest, ?_, hrest⟩
    rw [run_bind_of_ok hrun, if_pos h]
    rfl
  cases p with
  | linux | mac =>
      exact hunix record
  | windows =>
      rcases closeSocket_run (k := k) s
        (record ++ [(.wsaGetLastError, k.answer record .wsaGetLastError)]) with ⟨rest, hrun, hrest⟩
      refine ⟨(.wsaGetLastError, k.answer record .wsaGetLastError) :: (rest ++
        [(.wsaCleanup, k.answer (record ++
          (.wsaGetLastError, k.answer record .wsaGetLastError) :: rest) .wsaCleanup)]), ?_, ?_⟩
      · simp only [cleanup]
        rw [run_bind_of_ok (ask_run _ _), run_bind_of_ok hrun, run_bind_of_ok (ask_run _ _),
          if_pos h]
        simp only [List.append_assoc, List.cons_append]
        rfl
      · simp [closingCalls, hrest]

/-- A check that fails. -/
theorem checked_run_of_ne {x : Sys Int} {errtext : String} {result : Int}
    {record record' : Record Call} (htext : errtext.length > 0) (h : result ≠ 0)
    (hrun : x.run record = .ok result record') :
    ∃ rest, (checked k p sock errtext x).run record =
        .error (.socketError errtext result) (record' ++ rest) ∧
      rest.map Prod.fst = closingCalls p (some sock) := by
  rw [checked, run_bind_of_ok hrun, if_pos h]
  exact cleanup_run (some sock) result htext record'

theorem checked_run_of_eq {x : Sys Int} {errtext : String} {record record' : Record Call}
    (hrun : x.run record = .ok 0 record') :
    (checked k p sock errtext x).run record = .ok () record' := by
  rw [checked, run_bind_of_ok hrun]
  rfl

/-- A checked call is a step. -/
theorem checked_performs {errtext : String} (htext : errtext.length > 0) (c : Call) :
    Performs (Closes p sock) [plain errtext c] (checked k p sock errtext (ask k c)) := by
  intro prev record
  by_cases hzero : k.answer record c = 0
  · have hrun : (ask k c).run record = .ok 0 (record ++ [(c, 0)]) := by
      rw [ask_run, hzero]
    rw [checked_run_of_eq hrun]
    exact ⟨_, rfl, .cons rfl .nil⟩
  · rcases @checked_run_of_ne k p sock _ _ _ _ _ htext hzero (ask_run c record) with
      ⟨rest, hrun, hrest⟩
    rw [hrun]
    refine ⟨[(c, k.answer record c)], plain errtext c, k.answer record c, rest, ?_, ?_, rfl, hrest⟩
    · rw [List.append_assoc]
    · exact .here (decide_eq_false hzero)

theorem setOption_performs {errtext : String} (htext : errtext.length > 0) (option : SockOption)
    (value : Int) :
    Performs (Closes p sock) [optionStep sock option value errtext]
      (setOption k p sock option value errtext) :=
  checked_performs htext _

theorem setOptionUnlessLinux_performs {errtext : String} (htext : errtext.length > 0)
    (option : SockOption) (value : Int) :
    Performs (Closes p sock)
      (if p ≠ .linux then [optionStep sock option value errtext] else [])
      (setOptionUnlessLinux k p sock option value errtext) :=
  Performs.ite (fun _ => setOption_performs htext option value) fun _ => Performs.nil

/-- The two calls of `fcntl`: the second is made from the answer to the first. -/
theorem fcntl_performs (flag : BitVec 32) :
    Performs (Closes p sock)
      [{ label := nonblockText
         call := fun _ => .getFlags sock
         accepts := fun answer => 0 ≤ answer },
       { label := nonblockText
         call := fun flags => .setFlags sock (BitVec.ofInt 32 flags ||| flag)
         accepts := fun answer => answer = 0 }]
      (checked k p sock nonblockText (do
        let flags ← ask k (.getFlags sock)
        if flags < 0 then pure flags
        else ask k (.setFlags sock (BitVec.ofInt 32 flags ||| flag)))) := by
  intro prev record
  have htext : nonblockText.length > 0 := by decide
  have hget := ask_run (k := k) (.getFlags sock) record
  generalize k.answer record (.getFlags sock) = flags at hget
  by_cases hneg : flags < 0
  · -- `F_GETFL` failed, and its answer is the result
    have hbody : (do
        let flags ← ask k (.getFlags sock)
        if flags < 0 then pure flags
        else ask k (.setFlags sock (BitVec.ofInt 32 flags ||| flag)) : Sys Int).run record =
          .ok flags (record ++ [(.getFlags sock, flags)]) := by
      rw [run_bind_of_ok hget, if_pos hneg]
      rfl
    rcases @checked_run_of_ne k p sock _ _ _ _ _ htext (by omega) hbody with
      ⟨rest, hrun, hrest⟩
    rw [hrun]
    refine ⟨[(.getFlags sock, flags)], _, flags, rest, ?_, .here ?_, ⟨rfl, hrest⟩⟩
    · rw [List.append_assoc]
    · exact decide_eq_false (by omega)
  · have haccept : decide (0 ≤ flags) = true := decide_eq_true (by omega)
    have hset := @ask_run k (.setFlags sock (BitVec.ofInt 32 flags ||| flag))
      (record ++ [(.getFlags sock, flags)])
    generalize k.answer (record ++ [(.getFlags sock, flags)])
      (.setFlags sock (BitVec.ofInt 32 flags ||| flag)) = result at hset
    have hbody : (do
        let flags ← ask k (.getFlags sock)
        if flags < 0 then pure flags
        else ask k (.setFlags sock (BitVec.ofInt 32 flags ||| flag)) : Sys Int).run record =
          .ok result (record ++ [(.getFlags sock, flags)] ++
            [(.setFlags sock (BitVec.ofInt 32 flags ||| flag), result)]) := by
      rw [run_bind_of_ok hget, if_neg hneg, hset]
    by_cases hzero : result = 0
    · subst hzero
      rw [checked_run_of_eq hbody]
      refine ⟨[(.getFlags sock, flags), (.setFlags sock (BitVec.ofInt 32 flags ||| flag), 0)], ?_,
        .cons haccept (.cons rfl .nil)⟩
      rw [List.append_assoc]
      rfl
    · rcases @checked_run_of_ne k p sock _ _ _ _ _ htext hzero hbody with
        ⟨rest, hrun, hrest⟩
      rw [hrun]
      refine ⟨[(.getFlags sock, flags), (.setFlags sock (BitVec.ofInt 32 flags ||| flag), result)],
        _, result, rest, ?_, .later haccept (.here ?_), ⟨rfl, hrest⟩⟩
      · simp only [List.append_assoc]
        rfl
      · exact decide_eq_false hzero

theorem setNonblock_performs :
    Performs (Closes p sock) (nonblockSteps p sock)
      (checked k p sock nonblockText (setNonblock k p sock 1)) := by
  cases p with
  | windows =>
      exact checked_performs (by decide) _
  | linux | mac =>
      exact fcntl_performs _

theorem setUp_performs :
    Performs (Closes p sock) (setUpSteps p k.resolved sock) (setUp k p sock) := by
  refine Performs.append (setOption_performs (by decide) _ _) ?_
  refine Performs.append setNonblock_performs ?_
  refine Performs.append (setOptionUnlessLinux_performs (by decide) _ _) ?_
  refine Performs.append (setOption_performs (by decide) _ _) ?_
  refine Performs.append (setOption_performs (by decide) _ _) ?_
  refine Performs.append (setOptionUnlessLinux_performs (by decide) _ _) ?_
  exact Performs.append (checked_performs (by decide) _) (checked_performs (by decide) _)

end SetUp

/-! ## What is left of the socket -/

/-- The calls that open and close a socket. -/
def sockets : ResourceLog.Accounts (Call × Int) Int Int where
  acquired := fun entry =>
    match entry.1 with
    | .socket _ _ _ => if entry.2 = invalidSocket then none else some entry.2
    | _ => none
  released := fun entry =>
    match entry.1 with
    | .close sock => some sock
    | _ => none
  key := id

def addrInfoStep (port : Nat) : Step Call String := plain "" (.getaddrinfo none (toString port) hints)

def socketStep (info : AddrInfo) : Step Call String where
  label := "socket.socket failed with error: "
  call := fun _ => .socket info.family info.socktype info.protocol
  accepts := fun answer => answer ≠ invalidSocket

/-- The calls of `listen`. -/
def listenSteps (port : Nat) (info : AddrInfo) (sock : Int) : List (Step Call String) :=
  addrInfoStep port :: socketStep info :: setUpSteps p info sock

/-- The calls have all succeeded, and the socket is the only one that is open. -/
structure Listening (port : Nat) (sock : Int) (record : Record Call) : Prop where
  valid : sock ≠ invalidSocket
  completed : Completed (listenSteps p port k.resolved sock) 0 record
  answered : (socketStep k.resolved |>.call 0, sock) ∈ record
  held : ResourceLog.held sockets record = [sock]
  never_closed : ∀ entry ∈ record, sockets.released entry = none

/-- The calls that are made after a failure. -/
def IsClosing : Call → Prop
  | .close _ | .wsaGetLastError | .wsaCleanup => True
  | _ => False

/-- The error for a failed call: without a text the program just ends. -/
def faultOf (failed : Step Call String) (last : Int) : Fault :=
  if failed.label = "" then .exit else .socketError failed.label last

/-- One of the calls has failed and is the error's cause; only closing calls came after it, and no
socket is left open or was closed twice. -/
structure Refused (port : Nat) (e : Fault) (record : Record Call) : Prop where
  stopped : ∃ sock new failed last rest, record = new ++ rest ∧
    Stopped failed last (listenSteps p port k.resolved sock) 0 new ∧ e = faultOf failed last ∧
    ∀ entry ∈ rest, IsClosing entry.1
  held : ResourceLog.held sockets record = []
  releasesHeld : ResourceLog.ReleasesHeld sockets record

section Listen

open ResourceLog

variable {k p} {sock : Int} {port : Nat}

theorem closingCalls_closing (s : Option Int) : ∀ c ∈ closingCalls p s, IsClosing c := by
  cases p <;> cases s <;> simp [closingCalls, IsClosing]

theorem closing_of_map {s : Option Int} {rest : Record Call}
    (h : rest.map Prod.fst = closingCalls p s) : ∀ entry ∈ rest, IsClosing entry.1 := by
  intro entry hmem
  refine closingCalls_closing (p := p) s _ ?_
  rw [← h]
  exact List.mem_map_of_mem hmem

/-- The calls of the steps after the first two open and close nothing. -/
theorem setUpSteps_neutral (info : AddrInfo) : ∀ step ∈ setUpSteps p info sock, ∀ prev r,
    sockets.acquired (step.call prev, r) = none ∧ sockets.released (step.call prev, r) = none := by
  cases p <;> simp [setUpSteps, nonblockSteps, optionStep, plain, sockets]

theorem neutral_of_setUp {info : AddrInfo} {new record : Record Call}
    (h : ∀ c r, (c, r) ∈ new → ∃ step ∈ setUpSteps p info sock, ∃ before, c = step.call before) :
    Neutral sockets record (record ++ new) := by
  refine neutral_append fun entry hmem => ?_
  rcases h entry.1 entry.2 hmem with ⟨step, hstep, before, hcall⟩
  have hneutral := setUpSteps_neutral info step hstep before entry.2
  rw [← hcall] at hneutral
  exact hneutral

/-- After the closing calls nothing is open, and the socket was open when it was closed. -/
theorem closed_of_map {rest record : Record Call} (hheld : held sockets record = [sock])
    (hreleases : ReleasesHeld sockets record)
    (h : rest.map Prod.fst = closingCalls p (some sock)) :
    held sockets (record ++ rest) = [] ∧ ReleasesHeld sockets (record ++ rest) := by
  have hclose : ∀ {record : Record Call} (r : Int), held sockets record = [sock] →
      ReleasesHeld sockets record →
      held sockets (record ++ [(.close sock, r)]) = [] ∧
        ReleasesHeld sockets (record ++ [(.close sock, r)]) := by
    intro record r hheld hreleases
    refine ⟨?_, ?_⟩
    · rw [held_snoc_release rfl rfl, hheld]
      simp [sockets]
    · refine (releasesHeld_snoc_release rfl).2 ⟨hreleases, sock, ?_, rfl⟩
      rw [hheld]
      exact List.mem_singleton_self sock
  cases p with
  | linux | mac =>
      rcases List.map_eq_singleton_iff.1 h with ⟨⟨c, r⟩, rfl, rfl⟩
      exact hclose r hheld hreleases
  | windows =>
      -- the error number is read before, and the library is left after the socket is closed
      simp only [closingCalls, Option.toList_some, List.map_cons, List.map_nil,
        List.singleton_append, List.map_eq_cons_iff, List.map_eq_nil_iff] at h
      rcases h with ⟨⟨_, r₁⟩, _, rfl, rfl, ⟨_, r₂⟩, _, rfl, rfl, ⟨_, r₃⟩, _, rfl, rfl, rfl⟩
      have hbefore : Neutral sockets record (record ++ [(.wsaGetLastError, r₁)]) :=
        neutral_snoc rfl rfl
      rcases hclose r₂ (hbefore.held_eq.trans hheld) (hbefore.releases_iff.2 hreleases) with
        ⟨hheld', hreleases'⟩
      have hafter : Neutral sockets (record ++ [(.wsaGetLastError, r₁)] ++ [(.close sock, r₂)])
          (record ++ [(.wsaGetLastError, r₁)] ++ [(.close sock, r₂)] ++ [(.wsaCleanup, r₃)]) :=
        neutral_snoc rfl rfl
      have hlist : record ++ [(.wsaGetLastError, r₁), (.close sock, r₂), (.wsaCleanup, r₃)] =
          record ++ [(.wsaGetLastError, r₁)] ++ [(.close sock, r₂)] ++ [(.wsaCleanup, r₃)] := by
        simp only [List.append_assoc, List.cons_append, List.nil_append]
      rw [hlist]
      exact ⟨hafter.held_eq.trans hheld', hafter.releases_iff.2 hreleases'⟩

/-- The labels of the steps after the first. -/
theorem setUpSteps_labels (info : AddrInfo) :
    ∀ step ∈ setUpSteps p info sock, step.label ≠ "" := by
  cases p <;> simp [setUpSteps, nonblockSteps, optionStep, plain, nonblockText]

/-- The record when the address has been resolved and the socket asked for. -/
def opening (k : Kernel) (port : Nat) (sock : Int) : Record Call :=
  [(.getaddrinfo none (toString port) hints, 0),
    (.socket k.resolved.family k.resolved.socktype k.resolved.protocol, sock)]

theorem opening_releases : ReleasesHeld sockets (opening k port sock) := by
  have h₁ : ReleasesHeld sockets ([] ++ [(.getaddrinfo none (toString port) hints, 0)]) :=
    (releasesHeld_snoc_neutral rfl).2 releasesHeld_nil
  exact (releasesHeld_snoc_neutral rfl).2 h₁

theorem opening_held (h : sock ≠ invalidSocket) :
    held sockets (opening k port sock) = [sock] := by
  simp [held, note, opening, sockets, h]

theorem opening_held_invalid : held sockets (opening k port invalidSocket) = [] := by
  simp [held, note, opening, sockets]

theorem opening_completed {steps : List (Step Call String)} {new : Record Call}
    (h : sock ≠ invalidSocket) (hnew : Completed steps sock new) :
    Completed (addrInfoStep port :: socketStep k.resolved :: steps) 0
      (opening k port sock ++ new) :=
  .cons rfl (.cons (decide_eq_true h) hnew)

theorem opening_stopped {steps : List (Step Call String)} {new : Record Call}
    {failed : Step Call String} {last : Int} (h : sock ≠ invalidSocket)
    (hnew : Stopped failed last steps sock new) :
    Stopped failed last (addrInfoStep port :: socketStep k.resolved :: steps) 0
      (opening k port sock ++ new) :=
  .later rfl (.later (decide_eq_true h) hnew)

/-- The address is not resolved: the program ends before there is a socket. -/
theorem refused_addrInfo {err : Int} (h : err ≠ 0) :
    Refused k p port .exit [(.getaddrinfo none (toString port) hints, err)] where
  stopped := by
    refine ⟨0, [(.getaddrinfo none (toString port) hints, err)], addrInfoStep port, err, [],
      (List.append_nil _).symm, .here (decide_eq_false h), rfl, ?_⟩
    intro entry hmem
    cases hmem
  held := rfl
  releasesHeld := (releasesHeld_snoc_neutral rfl).2 (releasesHeld_nil : ReleasesHeld sockets [])

/-- There is no socket: on Windows the library is left all the same. -/
theorem refused_socket {rest : Record Call} (h : rest.map Prod.fst = closingCalls p none) :
    Refused k p port (.socketError "socket.socket failed with error: " invalidSocket)
      (opening k port invalidSocket ++ rest) := by
  have hneutral : Neutral sockets (opening k port invalidSocket)
      (opening k port invalidSocket ++ rest) := by
    refine neutral_append fun entry hmem => ?_
    have hcall : entry.1 ∈ closingCalls p none := h ▸ List.mem_map_of_mem hmem
    have hwsa : entry.1 = .wsaGetLastError ∨ entry.1 = .wsaCleanup := by
      cases p with
      | windows =>
          simpa [closingCalls] using hcall
      | linux | mac =>
          cases hcall
    rcases hwsa with heq | heq <;> simp [sockets, heq]
  refine ⟨⟨0, _, socketStep k.resolved, invalidSocket, rest, rfl, ?_, rfl, closing_of_map h⟩, ?_, ?_⟩
  · exact .later rfl (.here rfl)
  · rw [hneutral.held_eq, opening_held_invalid]
  · exact hneutral.releases_iff.2 opening_releases

theorem listening_of_completed {new : Record Call} (h : sock ≠ invalidSocket)
    (hnew : Completed (setUpSteps p k.resolved sock) sock new) :
    Listening k p port sock (opening k port sock ++ new) where
  valid := h
  completed := opening_completed h hnew
  answered := List.mem_append_left _ (List.mem_cons_of_mem _ List.mem_cons_self)
  held := by
    have hneutral : Neutral sockets (opening k port sock) (opening k port sock ++ new) :=
      neutral_of_setUp fun _ _ hmem => hnew.call_of_mem hmem
    rw [hneutral.held_eq, opening_held h]
  never_closed := by
    intro entry hmem
    rcases List.mem_append.1 hmem with hopen | hlater
    · simp only [opening, List.mem_cons, List.not_mem_nil, or_false] at hopen
      rcases hopen with rfl | rfl <;> rfl
    · rcases hnew.call_of_mem hlater with ⟨step, hstep, before, hcall⟩
      have hneutral := (setUpSteps_neutral k.resolved step hstep before entry.2).2
      rw [← hcall] at hneutral
      exact hneutral

theorem refused_of_stopped {new rest : Record Call} {failed : Step Call String} {last : Int}
    (h : sock ≠ invalidSocket)
    (hnew : Stopped failed last (setUpSteps p k.resolved sock) sock new)
    (hrest : rest.map Prod.fst = closingCalls p (some sock)) :
    Refused k p port (.socketError failed.label last) (opening k port sock ++ (new ++ rest)) := by
  have hneutral : Neutral sockets (opening k port sock) (opening k port sock ++ new) :=
    neutral_of_setUp fun _ _ hmem => hnew.call_of_mem hmem
  have hheld : held sockets (opening k port sock ++ new) = [sock] := by
    rw [hneutral.held_eq, opening_held h]
  rcases closed_of_map hheld (hneutral.releases_iff.2 opening_releases) hrest with
    ⟨hclosed, hreleases⟩
  have hlabel : failed.label ≠ "" := setUpSteps_labels k.resolved failed hnew.failed_mem
  rw [← List.append_assoc]
  refine ⟨⟨sock, _, failed, last, rest, rfl, opening_stopped h hnew, ?_, closing_of_map hrest⟩,
    hclosed, hreleases⟩
  rw [faultOf, if_neg hlabel]

end Listen

end Tcp
end LuajitTcpServer
