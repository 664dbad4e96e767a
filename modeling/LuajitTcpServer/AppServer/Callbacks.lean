import LuajitTcpServer.Poll.PassSpec
import LuajitTcpServer.Poll.Refinement

/-!
# Callbacks — the web server of `AppServer.lua`

The application registers its listen socket, sets four callbacks and calls `poll.poll()` for
ever.  `EventLoop` is the set of states in which it calls it: the state after `add_fd` of the
listen socket, and the state after each pass that returns.

What the operating system does in a pass is an `Input`: the answer of `poll(2)` and the results
of the `accept`, `recv` and `send` calls, in the order in which they are made.
-/

namespace LuajitTcpServer
namespace AppServer

open Hoare Poll

/-! ## Settings -/

/-- What the command line and `tcp.listen` have fixed before the loop starts. -/
structure Config where
  listenSocket : Fd
  /-- `tcp.listen` does not return on `INVALID_SOCKET`. -/
  valid : listenSocket ≠ -1
  closeConnection : Int
  debugLevel : Int
  timeout : Int

def clientEvents : Events := POLLIN

def listenEvents : Events := POLLIN

def buflen : Nat := 16384

/-! ## The answer -/

/-- `gsub("\n", "\r\n")`. -/
def crlf (txt : String) : List Char :=
  txt.toList.flatMap fun c => if c = '\n' then ['\r', '\n'] else [c]

def answerStart : String :=
  "HTTP/1.1 200 OK\nServer: masrv/0.1.0\nDate: Thu, 28 Mar 2013 22:16:09 GMT\n" ++
    "Content-Type: text/html\nConnection: Keep-Alive\nContent-Length: "

def answerEnd : String :=
  "\nLast-Modified: Wed, 21 Sep 2011 14:34:51 GMT\nAccept-Ranges: bytes\n\n"

def body : String := "<html><body><h1>It works - stuta!</h1></body></html>"

def header : List Char :=
  crlf answerStart ++ (toString (crlf body).length).toList ++ crlf answerEnd

/-- The bytes in `sendbuf`, `content_len` of them. -/
def content : List UInt8 :=
  (header ++ crlf body).map fun c => UInt8.ofNat c.toNat

/-! ## State -/

/-- The variables of the application that change. -/
structure Counters where
  answerCount : Nat
  pollInCount : Nat
  pollOutCount : Nat
  pollCloseCount : Nat
  pollErrCount : Nat
  totalBytesReceived : Int
  totalBytesSent : Int

abbrev Server := World Counters

def count (f : Counters → Counters) : Prog Counters Unit :=
  modify fun w => { w with app := f w.app }

variable (cfg : Config)

/-! ## Callbacks -/

def close (sock : Fd) : Prog Counters Unit := do
  onTable (removeFd sock)
  Socket.close sock

/-- The branches of `answer` on the result of `send`. -/
def noteSend (sock : Fd) (sendResult : Int) : Prog Counters Unit :=
  if sendResult < 0 then
    Socket.cleanup (some sock) sendResult "socket.send failed with error: "
  else if sendResult > 0 then
    count fun c => { c with totalBytesSent := c.totalBytesSent + sendResult }
  else
    pure ()

/-- The branch of `answer` for received bytes. -/
def respond (sock : Fd) (result : Int) : Prog Counters Unit := do
  count fun c => { c with totalBytesReceived := c.totalBytesReceived + result }
  let sendResult ← Socket.send sock content
  noteSend sock sendResult
  if cfg.closeConnection > 0 then close sock else pure ()

def answer (sock : Fd) : Prog Counters Unit := do
  count fun c => { c with answerCount := c.answerCount + 1 }
  let result ← Socket.recv sock buflen
  if result > 0 then
    respond cfg sock result
  else if result = 0 then
    -- nothing received, the peer has closed
    close sock
  else
    -- `socket.recv` failed
    close sock

def outCallback (_sock : Fd) : Prog Counters Unit :=
  count fun c => { c with pollOutCount := c.pollOutCount + 1 }

def closeCallback (sock : Fd) : Prog Counters Unit := do
  close sock
  count fun c => { c with pollCloseCount := c.pollCloseCount + 1 }

def errorCallback (sock : Fd) (eventText : String) : Prog Counters Unit := do
  if eventText = "POLLNVAL" then close sock else close sock
  count fun c => { c with pollErrCount := c.pollErrCount + 1 }

/-- The `repeat` loop of `in_callback`, cut off after `fuel` rounds. -/
def acceptClients (sock : Fd) : Nat → Prog Counters Unit
  | 0 => pure ()
  | fuel + 1 => do
      let clientSocket ← Socket.accept sock
      if clientSocket > 0 then do
        onTable (addFd clientSocket clientEvents)
        acceptClients sock fuel
      else
        pure ()

/-- The branch of `in_callback` for the listen socket.  `accept` fails once its answers are used
up, so the loop needs one round more than there are answers (`acceptClients_more`). -/
def acceptAll (sock : Fd) : Prog Counters Unit := do
  let w ← get
  acceptClients sock (w.os.acceptAnswers.length + 1)

def inCallback (sock : Fd) : Prog Counters Unit := do
  if sock = cfg.listenSocket then acceptAll sock else answer cfg sock
  count fun c => { c with pollInCount := c.pollInCount + 1 }

def callbacks : Callbacks Counters where
  inCallback := inCallback cfg
  outCallback := outCallback
  closeCallback := closeCallback
  errorCallback := errorCallback

/-! ## The main loop -/

/-- What the operating system does in one pass. -/
structure Input where
  answer : KernelAnswer
  accepts : List Int
  recvs : List Int
  sends : List Int

/-- The state with the answers of the operating system to come. -/
def feed (input : Input) (w : Server) : Server :=
  { w with
    os :=
      { w.os with
        acceptAnswers := input.accepts
        recvAnswers := input.recvs
        sendAnswers := input.sends } }

/-- One round of the main loop; what it prints is left out. -/
def pass (input : Input) (w : Server) : EStateM.Result Fault Server Int :=
  (poll (callbacks cfg) input.answer).run (feed input w)

/-- The process before the listen socket is added: `tcp.listen` has opened it, and other
descriptors may be open as well. -/
def initial (heap : Nat → Option (Nat → PollFd)) (opened : List Fd) : Server :=
  { table := { started heap cfg.debugLevel with timeout := cfg.timeout }
    os :=
      { opened := cfg.listenSocket :: opened
        acceptAnswers := []
        recvAnswers := []
        sendAnswers := [] }
    app :=
      { answerCount := 0
        pollInCount := 0
        pollOutCount := 0
        pollCloseCount := 0
        pollErrCount := 0
        totalBytesReceived := 0
        totalBytesSent := 0 }
    cursor := 0
    log := [] }

/-- The states in which the main loop calls `poll.poll()`. -/
inductive EventLoop : Server → Prop
  | start {heap : Nat → Option (Nat → PollFd)} {opened : List Fd} {w : Server} :
      (onTable (addFd cfg.listenSocket listenEvents)).run (initial cfg heap opened) = .ok () w →
      EventLoop w
  | pass {w w' : Server} {input : Input} {ret : Int} :
      EventLoop w → pass cfg input w = .ok ret w' → EventLoop w'

/-! ## The accept loop ends by itself -/

/-- A round more than there are answers makes no difference. -/
theorem acceptClients_more (sock : Fd) (fuel : Nat) (w : Server)
    (h : w.os.acceptAnswers.length < fuel) :
    (acceptClients sock (fuel + 1)).run w = (acceptClients sock fuel).run w := by
  induction fuel generalizing w with
  | zero =>
      exact absurd h (Nat.not_lt_zero _)
  | succ fuel ih =>
      rw [acceptClients, run_bind_of_ok (Socket.accept_run sock w)]
      conv_rhs => rw [acceptClients, run_bind_of_ok (Socket.accept_run sock w)]
      rcases w.os.accept_cases with ⟨fd, hpos, -, hfd, -, hlen⟩ | ⟨hfail, -⟩
      · -- the descriptor uses up one answer, so the induction hypothesis applies to the rest
        simp only [hfd, gt_iff_lt, hpos, if_true]
        generalize hw : ({ w with os := w.os.accept.2, log := w.log ++ [.accepted fd] } : Server) = w₁
        have hlen₁ : w₁.os.acceptAnswers.length < fuel := by
          rw [← hw]
          exact Nat.lt_of_lt_of_le hlen (Nat.le_of_lt_succ h)
        cases hadd : (onTable (addFd fd clientEvents) : Prog Counters Unit).run w₁ with
        | ok _ w₂ =>
            have hos : w₂.os = w₁.os := onTable_os hadd
            rw [run_bind_of_ok hadd, run_bind_of_ok hadd]
            exact ih w₂ (by rwa [hos])
        | error e w₂ =>
            rw [run_bind_of_error hadd, run_bind_of_error hadd]
      · simp [hfail]

end AppServer
end LuajitTcpServer
