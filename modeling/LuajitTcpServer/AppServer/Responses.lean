import LuajitTcpServer.AppServer.Dispatch
import LuajitTcpServer.Lib.Frames

/-!
# Responses — what the server writes on a connection

Whatever happens in a pass, `answer` makes exactly one call of `send` for each call of `recv` that
returns bytes, and every `send` is given the whole response (`Exchanges`).

* The bytes that `recv` returns are not looked at: the pieces in which a request arrives are what
  is answered (`responses_eq_pieces`).
* The result of `send` is only counted: a response that the kernel has cut short is not completed
  before the next one (`delivers_whole_iff`).
-/

namespace LuajitTcpServer
namespace AppServer

open Hoare Poll

/-! ## The order of the calls -/

/-- The logs of the server: a `recv` that returns bytes is answered by a `send` of the response. -/
inductive Exchanges : List Event → Prop
  | nil : Exchanges []
  | other {log : List Event} {event : Event} :
      Exchanges log → ¬ IsTransfer event → Exchanges (log ++ [event])
  | unanswered {log : List Event} {fd : Fd} {asked : Nat} {result : Int} :
      Exchanges log → ¬ result > 0 → Exchanges (log ++ [.received fd asked result])
  | answered {log : List Event} {fd : Fd} {asked : Nat} {result sendResult : Int} :
      Exchanges log → result > 0 →
      Exchanges (log ++ [.received fd asked result] ++ [.sent fd content sendResult])

def Exchanging (w : Server) : Prop := Exchanges w.log

section Programs

variable (cfg : Config)

theorem keeps_onTable {β : Type} (x : PollM β) : Keeps Exchanging (onTable x) := by
  intro w hw
  rw [onTable_run]
  cases x.run w.table with
  | ok b t =>
      exact hw
  | error e t =>
      exact hw

theorem keeps_count (f : Counters → Counters) : Keeps Exchanging (count f) :=
  keeps_modify fun _ hw => hw

theorem keeps_record {event : Event} (h : ¬ IsTransfer event) :
    Keeps Exchanging (record event : Prog Counters Unit) :=
  keeps_modify fun _ hw => Exchanges.other hw h

theorem keeps_socketClose (sock : Fd) : Keeps Exchanging (Socket.close sock) := by
  refine Keeps.bind (keeps_modify fun _ hw => hw) fun _ => ?_
  exact keeps_record id

theorem keeps_close (sock : Fd) : Keeps Exchanging (close sock) :=
  Keeps.bind (keeps_onTable _) fun _ => keeps_socketClose sock

theorem keeps_throw (e : Fault) : Keeps Exchanging (throw e : Prog Counters Unit) :=
  fun _ hw => hw

theorem keeps_cleanup (sock : Option Fd) (errnum : Int) (errtext : String) :
    Keeps Exchanging (Socket.cleanup sock errnum errtext : Prog Counters Unit) := by
  have hraise : Keeps Exchanging
      (if errtext.length > 0 then throw (.socketError errtext errnum) else pure () :
        Prog Counters Unit) := Keeps.ite (keeps_throw _) (keeps_pure _)
  cases sock with
  | none =>
      exact Keeps.bind (keeps_pure PUnit.unit) fun _ => hraise
  | some sock =>
      exact Keeps.bind (keeps_socketClose sock) fun _ => hraise

theorem keeps_noteSend (sock : Fd) (sendResult : Int) :
    Keeps Exchanging (noteSend sock sendResult) :=
  Keeps.ite (keeps_cleanup _ _ _) (Keeps.ite (keeps_count _) (keeps_pure _))

theorem keeps_answer (sock : Fd) : Keeps Exchanging (answer cfg sock) := by
  refine Keeps.bind (keeps_count _) fun _ => ?_
  intro w hw
  -- `recv` and `send` are taken together, so that no other call comes between them
  have hrecv : (Socket.recv sock buflen).run w =
      .ok w.os.nextRecv
        { w with
          os := { w.os with recvAnswers := w.os.recvAnswers.tail }
          log := w.log ++ [.received sock buflen w.os.nextRecv] } := rfl
  rw [run_bind_of_ok hrecv]
  by_cases hpos : w.os.nextRecv > 0
  · have htail : ∀ sendResult, Keeps Exchanging
        (noteSend sock sendResult >>= fun _ =>
          if cfg.closeConnection > 0 then close sock else pure ()) := fun sendResult =>
      Keeps.bind (keeps_noteSend sock sendResult) fun _ => Keeps.ite (keeps_close sock) (keeps_pure _)
    rw [if_pos hpos]
    exact htail _ _ (Exchanges.answered hw hpos)
  · rw [if_neg hpos, ite_self]
    exact keeps_close sock _ (Exchanges.unanswered hw hpos)

theorem keeps_acceptClients (sock : Fd) (fuel : Nat) :
    Keeps Exchanging (acceptClients sock fuel) := by
  induction fuel with
  | zero =>
      exact keeps_pure _
  | succ fuel ih =>
      have haccept : Keeps Exchanging (Socket.accept sock : Prog Counters Int) := by
        intro w hw
        rw [Socket.accept_run]
        change Exchanges _
        split
        · exact Exchanges.other hw id
        · exact hw
      refine Keeps.bind haccept fun clientSocket => ?_
      exact Keeps.ite (Keeps.bind (keeps_onTable _) fun _ => ih) (keeps_pure _)

theorem keeps_inCallback (sock : Fd) : Keeps Exchanging (inCallback cfg sock) := by
  have haccept : Keeps Exchanging (acceptAll sock) :=
    Keeps.bind keeps_get fun _ => keeps_acceptClients sock _
  exact Keeps.ite (Keeps.bind haccept fun _ => keeps_count _)
    (Keeps.bind (keeps_answer cfg sock) fun _ => keeps_count _)

theorem keeps_callbackFor (evt : Events) (fd : Fd) :
    Keeps Exchanging (callbackFor (callbacks cfg) evt fd) := by
  have hclose : Keeps Exchanging (closeCallback fd) :=
    Keeps.bind (keeps_close fd) fun _ => keeps_count _
  have herror : ∀ eventText, Keeps Exchanging (errorCallback fd eventText) := by
    intro eventText
    have hbranch : Keeps Exchanging
        (close fd >>= fun _ => count fun c => { c with pollErrCount := c.pollErrCount + 1 }) :=
      Keeps.bind (keeps_close fd) fun _ => keeps_count _
    exact Keeps.ite hbranch hbranch
  -- one callback for each event
  have hout : Keeps Exchanging (outCallback fd) := keeps_count _
  refine Keeps.ite hclose (Keeps.ite (keeps_inCallback cfg fd) (Keeps.ite hout ?_))
  exact Keeps.ite (herror "POLLNVAL") (Keeps.ite (herror "POLLERR") (keeps_pure _))

theorem keeps_serveSlot (i : Nat) : Keeps Exchanging (serveSlot (callbacks cfg) i) := by
  refine Keeps.bind (keeps_modify fun _ hw => hw) fun _ => Keeps.bind (keeps_onTable _) fun slot => ?_
  refine Keeps.ite (Keeps.bind (keeps_onTable _) fun slot' => ?_) (keeps_pure _)
  intro w hw
  rw [pollEvent_run]
  exact keeps_callbackFor cfg _ _ _ (Exchanges.other hw id)

theorem keeps_poll (answer : KernelAnswer) : Keeps Exchanging (poll (callbacks cfg) answer) := by
  have hserve : ∀ (ret : Int) (nfds : Nat), Keeps Exchanging (serveSlots (callbacks cfg) ret nfds) :=
    fun ret nfds =>
      Keeps.forUntil (fun i => Keeps.bind (keeps_serveSlot cfg i) fun _ => keeps_pure _) nfds 0
  have hrest : ∀ ret : Int, Keeps Exchanging
      (if ret = 0 then pure 0
        else onTable get >>= fun t => serveSlots (callbacks cfg) ret t.nfds >>= fun _ => pure ret) :=
    fun ret => Keeps.ite (keeps_pure _)
      (Keeps.bind (keeps_onTable _) fun t => Keeps.bind (hserve ret t.nfds) fun _ => keeps_pure _)
  refine Keeps.bind (keeps_onTable _) fun _ => Keeps.bind (keeps_onTable _) fun t => ?_
  refine Keeps.bind (keeps_onTable _) fun ret => Keeps.ite ?_ (hrest ret)
  exact Keeps.bind (keeps_onTable _) fun slot => Keeps.bind (keeps_cleanup _ _ _) fun _ => hrest ret

end Programs

section Runs

variable {cfg : Config} {w : Server}

theorem exchanges_endState {β : Type} {x : Prog Counters β} (hx : Keeps Exchanging x)
    (hw : Exchanging w) : Exchanging (endState (x.run w)) := by
  have hrun := hx w hw
  cases hend : x.run w with
  | ok b w' =>
      rw [hend] at hrun
      exact hrun
  | error e w' =>
      rw [hend] at hrun
      exact hrun

theorem exchanges_pass (input : Input) (hw : Exchanging w) :
    Exchanging (endState (pass cfg input w)) :=
  exchanges_endState (w := feed input w) (keeps_poll cfg input.answer) hw

theorem EventLoop.exchanges (h : EventLoop cfg w) : Exchanging w := by
  induction h with
  | @start heap opened w hrun =>
      have hstart := exchanges_endState (w := initial cfg heap opened)
        (keeps_onTable (addFd cfg.listenSocket listenEvents)) Exchanges.nil
      rw [hrun] at hstart
      exact hstart
  | @pass w w' input ret _ hrun ih =>
      have hend := @exchanges_pass cfg _ input ih
      rw [hrun] at hend
      exact hend

end Runs

/-! ## Connections -/

def noteTransfer (fd : Fd) (transfers : List Event) : Event → List Event
  | .accepted fd' => if fd' = fd then [] else transfers
  | .received fd' asked result =>
      if fd' = fd then transfers ++ [.received fd' asked result] else transfers
  | .sent fd' data result => if fd' = fd then transfers ++ [.sent fd' data result] else transfers
  | _ => transfers

/-- The calls of `recv` and `send` on the connection that has, or had last, the descriptor `fd`. -/
def connection (fd : Fd) (log : List Event) : List Event := log.foldl (noteTransfer fd) []

theorem connection_append (fd : Fd) (log : List Event) (event : Event) :
    connection fd (log ++ [event]) = noteTransfer fd (connection fd log) event := by
  rw [connection, List.foldl_append]
  rfl

theorem mem_of_mem_connection {fd : Fd} {log : List Event} {event : Event}
    (h : event ∈ connection fd log) : event ∈ log := by
  induction log using List.reverseRecOn with
  | nil =>
      exact h
  | append_singleton log last ih =>
      rw [connection_append] at h
      refine List.mem_append.2 ?_
      -- the last event was added, or the connection is as before or empty
      cases last with
      | pollEvent evt fd' registered =>
          exact .inl (ih h)
      | closed fd' =>
          exact .inl (ih h)
      | accepted fd' =>
          by_cases hfd : fd' = fd
          · simp [noteTransfer, hfd] at h
          · exact .inl (ih (by simpa [noteTransfer, hfd] using h))
      | received fd' asked result | sent fd' data result =>
          by_cases hfd : fd' = fd
          · simp only [noteTransfer, hfd, if_true, List.mem_append] at h
            exact h.imp_left ih |>.imp_right fun hlast => by simpa [hfd] using hlast
          · exact .inl (ih (by simpa [noteTransfer, hfd] using h))

/-- The results of the `recv` calls that returned bytes. -/
def pieces (transfers : List Event) : List Int :=
  transfers.filterMap fun event =>
    match event with
    | .received _ _ result => if result > 0 then some result else none
    | _ => none

/-- The number of responses that have been written. -/
def responses (transfers : List Event) : Nat :=
  transfers.countP fun event =>
    match event with
    | .sent _ _ _ => true
    | _ => false

/-! ## Segmentation -/

theorem Exchanges.responses_eq_pieces {log : List Event} (h : Exchanges log) (fd : Fd) :
    responses (connection fd log) = (pieces (connection fd log)).length := by
  induction h with
  | nil =>
      rfl
  | @other log event _ hother ih =>
      rw [connection_append]
      cases event with
      | received | sent =>
          exact absurd trivial hother
      | pollEvent | closed =>
          exact ih
      | accepted fd' =>
          by_cases hfd : fd' = fd
          · simp [noteTransfer, hfd, responses, pieces]
          · simpa [noteTransfer, hfd] using ih
  | @unanswered log fd' asked result _ hnone ih =>
      rw [connection_append]
      by_cases hfd : fd' = fd
      · simpa [noteTransfer, hfd, responses, pieces, hnone] using ih
      · simpa [noteTransfer, hfd] using ih
  | @answered log fd' asked result sendResult _ hpos ih =>
      -- one more piece and one more response, or neither
      rw [connection_append, connection_append]
      by_cases hfd : fd' = fd
      · simpa [noteTransfer, hfd, responses, pieces, hpos] using ih
      · simpa [noteTransfer, hfd] using ih

/-- The results of `recv` into which the kernel has cut what a client sent. -/
def Arrived (cut : List (List UInt8)) (transfers : List Event) : Prop :=
  pieces transfers = cut.map fun piece => (piece.length : Int)

theorem responses_eq_length {cfg : Config} {w : Server} {fd : Fd} {cut : List (List UInt8)}
    (h : EventLoop cfg w) (hcut : Arrived cut (connection fd w.log)) :
    responses (connection fd w.log) = cut.length := by
  rw [h.exchanges.responses_eq_pieces fd, hcut, List.length_map]

/-- Client 4 has sent something: `recv` and `send` are answered with these results. -/
def exchange (result sendResult : Int) : Input :=
  { answer := .ready (written [0, POLLIN])
    accepts := []
    recvs := [result]
    sends := [sendResult] }

/-- The sample server after a pass with one exchange. -/
def served (result sendResult : Int) (w : Server) : Server :=
  endState (pass sampleConfig (exchange result sendResult) w)

theorem eventLoop_served {w : Server} {result sendResult : Int} (h : EventLoop sampleConfig w)
    (hreturns : returns (pass sampleConfig (exchange result sendResult) w) = true) :
    EventLoop sampleConfig (served result sendResult w) := by
  rcases eq_ok_of_returns hreturns with ⟨_, hrun⟩
  exact .pass h hrun

/-- A request of two bytes that arrives at once, and one that arrives byte by byte. -/
def atOnce : Server := served 2 266 sampleLoop

def byteByByte : Server := served 1 266 (served 1 266 sampleLoop)

theorem eventLoop_atOnce : EventLoop sampleConfig atOnce := by
  have hreturns : returns (pass sampleConfig (exchange 2 266) sampleLoop) = true := by
    decide +kernel
  exact eventLoop_served eventLoop_sampleLoop hreturns

theorem eventLoop_byteByByte : EventLoop sampleConfig byteByByte := by
  have hfirst : returns (pass sampleConfig (exchange 1 266) sampleLoop) = true := by
    decide +kernel
  have hsecond : returns (pass sampleConfig (exchange 1 266) (served 1 266 sampleLoop)) = true := by
    decide +kernel
  exact eventLoop_served (eventLoop_served eventLoop_sampleLoop hfirst) hsecond

theorem arrived_atOnce : Arrived [[71, 69]] (connection 4 atOnce.log) := by
  unfold Arrived
  decide +kernel

theorem arrived_byteByByte : Arrived [[71], [69]] (connection 4 byteByByte.log) := by
  unfold Arrived
  decide +kernel

/-- The stream is cut into results of 1 to `buflen` bytes. -/
structure Cuts (cut : List (List UInt8)) (stream : List UInt8) : Prop where
  flatten_eq : cut.flatten = stream
  nonempty : ∀ piece ∈ cut, piece ≠ []
  length_le : ∀ piece ∈ cut, piece.length ≤ buflen

/-- A `send` takes everything it is given. -/
def SendsAll : Event → Prop
  | .sent _ data result => result = data.length
  | _ => True

instance (event : Event) : Decidable (SendsAll event) := by
  unfold SendsAll
  split <;> infer_instance

/-- The number of bytes the kernel has taken. -/
def taken : Event → Nat
  | .sent _ _ result => result.toNat
  | _ => 0

def takenBytes : Event → List UInt8
  | .sent _ data result => data.take result.toNat
  | _ => []

/-- The bytes accepted for sending, in order. -/
def delivered (transfers : List Event) : List UInt8 := transfers.flatMap takenBytes

/-- The kernel takes between nothing and all that `send` was asked to send. -/
def WithinLength : Event → Prop
  | .sent _ data result => 0 ≤ result ∧ result ≤ data.length
  | _ => True

instance (event : Event) : Decidable (WithinLength event) := by
  unfold WithinLength
  split <;> infer_instance

/-- On every connection, at every moment, what was sent are complete responses but for the last. -/
def DeliversWhole (log : List Event) : Prop :=
  ∀ pre fd, pre <+: log → Frames.Whole content (delivered (connection fd pre))

/-- On no connection does the kernel take bytes of a response after it has cut one short. -/
def NoneAfterCut (log : List Event) : Prop :=
  ∀ pre fd, pre <+: log →
    (connection fd pre).Pairwise fun earlier later =>
      0 < taken earlier → taken earlier < content.length → taken later = 0

theorem Exchanges.sent_eq_content {log : List Event} (h : Exchanges log) {fd : Fd}
    {data : List UInt8} {result : Int} (hmem : .sent fd data result ∈ log) : data = content := by
  induction h with
  | nil =>
      cases hmem
  | @other log event _ hother ih =>
      rcases List.mem_append.1 hmem with hold | hlast
      · exact ih hold
      · rw [← List.mem_singleton.1 hlast] at hother
        exact absurd trivial hother
  | unanswered _ _ ih =>
      rcases List.mem_append.1 hmem with hold | hlast
      · exact ih hold
      · cases List.mem_singleton.1 hlast
  | answered _ _ ih =>
      rcases List.mem_append.1 hmem with hold | hlast
      · rcases List.mem_append.1 hold with hold | hmiddle
        · exact ih hold
        · cases List.mem_singleton.1 hmiddle
      · cases List.mem_singleton.1 hlast
        rfl

/-- The bytes on a connection are taken from one copy of the response after the other. -/
theorem delivered_eq_taken {transfers : List Event}
    (h : ∀ fd data result, .sent fd data result ∈ transfers → data = content) :
    delivered transfers = Frames.taken content (transfers.map taken) := by
  induction transfers with
  | nil =>
      rfl
  | cons event transfers ih =>
      have hrest := ih fun fd data result hmem => h fd data result (List.mem_cons_of_mem _ hmem)
      have hevent : takenBytes event = content.take (taken event) := by
        cases event with
        | sent fd data result =>
            rw [h fd data result List.mem_cons_self]
            rfl
        | pollEvent | accepted | closed | received =>
            rfl
      calc delivered (event :: transfers)
          = takenBytes event ++ delivered transfers := rfl
        _ = content.take (taken event) ++ Frames.taken content (transfers.map taken) := by
            rw [hevent, hrest]

/-- The response begins with an `H`, and has no other. -/
theorem content_eq_cons : ∃ rest, content = 72 :: rest ∧ 72 ∉ rest :=
  ⟨content.tail, by decide +kernel, by decide +kernel⟩

/-- In every run of the server in which the kernel keeps to the lengths asked for, responses are
delivered whole if and only if no bytes are taken on a connection after a response that was cut
short. -/
theorem delivers_whole_iff {cfg : Config} {w : Server} (h : EventLoop cfg w) (input : Input)
    (hsends : ∀ event ∈ (endState (pass cfg input w)).log, WithinLength event) :
    DeliversWhole (endState (pass cfg input w)).log ↔
      NoneAfterCut (endState (pass cfg input w)).log := by
  have hlog : Exchanges (endState (pass cfg input w)).log := exchanges_pass input h.exchanges
  generalize (endState (pass cfg input w)).log = log at hsends hlog ⊢
  refine forall_congr' fun pre => forall_congr' fun fd => forall_congr' fun hpre => ?_
  have hcontent : ∀ fd' data result, .sent fd' data result ∈ connection fd pre → data = content :=
    fun fd' data result hmem => hlog.sent_eq_content (hpre.subset (mem_of_mem_connection hmem))
  have hle : ∀ count ∈ (connection fd pre).map taken, count ≤ content.length := by
    intro count hmem
    rcases List.mem_map.1 hmem with ⟨event, hevent, rfl⟩
    cases event with
    | sent fd' data result =>
        have hwithin := hsends _ (hpre.subset (mem_of_mem_connection hevent))
        rw [hcontent fd' data result hevent] at hwithin
        exact Int.toNat_le.2 hwithin.2
    | pollEvent | accepted | closed | received =>
        exact Nat.zero_le _
  rcases content_eq_cons with ⟨rest, heq, hfirst⟩
  rw [delivered_eq_taken hcontent, Frames.whole_taken_iff heq hfirst hle, Frames.NoneAfterCut,
    List.pairwise_map]

/-- A client that gets one response whole and the first 100 bytes of the next. -/
theorem delivers_whole_iff_sample :
    DeliversWhole (endState (pass sampleConfig (exchange 5 100) atOnce)).log ↔
      NoneAfterCut (endState (pass sampleConfig (exchange 5 100) atOnce)).log :=
  delivers_whole_iff eventLoop_atOnce (exchange 5 100) (by decide +kernel)

/-- The sample server after the kernel has taken 100 bytes of a response. -/
def cutShort : Server := served 5 100 sampleLoop

theorem eventLoop_cutShort : EventLoop sampleConfig cutShort := by
  have hreturns : returns (pass sampleConfig (exchange 5 100) sampleLoop) = true := by
    decide +kernel
  exact eventLoop_served eventLoop_sampleLoop hreturns

/-- The next response follows the first 100 bytes of the one before. -/
theorem short_send_misframes :
    ¬ ∀ (cfg : Config) (w : Server) (input : Input), EventLoop cfg w →
        (∀ event ∈ (endState (pass cfg input w)).log, WithinLength event) →
        DeliversWhole (endState (pass cfg input w)).log := by
  intro h
  -- one evaluation of the pass for all that is read off its log
  have hlog : (∀ event ∈ (endState (pass sampleConfig (exchange 5 266) cutShort)).log,
        WithinLength event) ∧
      100 < (delivered (connection 4
        (endState (pass sampleConfig (exchange 5 266) cutShort)).log)).length ∧
      100 < content.length ∧
      (delivered (connection 4
        (endState (pass sampleConfig (exchange 5 266) cutShort)).log))[100]? ≠ content[100]? := by
    decide +kernel
  rcases hlog with ⟨hwithin, hlength, hcontent, hbyte⟩
  have hwhole := h sampleConfig cutShort (exchange 5 266) eventLoop_cutShort hwithin _ 4
    (List.prefix_refl _)
  exact hbyte (hwhole.getElem? hcontent hlength)

end AppServer
end LuajitTcpServer
