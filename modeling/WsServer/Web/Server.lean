import WsServer.Foundations.Once
import WsServer.Web.Model

/-!
# Stopping the server

`accept_loop` and the `session_loop` of every connection are coroutines on one `io_context`: one
thread runs them, one at a time, from one wait to the next. `request_stop` is called by a session
that reads the termination command and, at any moment, by other threads, whose statements run in
between. A stopped `io_context` lets the coroutine that is running go on to its next wait and
resumes none after that.
-/

set_option autoImplicit false
set_option relaxedAutoImplicit false

namespace WsServer.Web

open Foundations

/-- The statements of `request_stop` behind the exchange of `stopped_`. -/
inductive StopStatement
  | cancelAcceptor
  | closeAcceptor
  | stopIo
  deriving DecidableEq

def requestStop : List StopStatement := [.cancelAcceptor, .closeAcceptor, .stopIo]

/-- Where `accept_loop` is: at the head of its loop, in `async_accept`, or over. -/
inductive AcceptStage
  | testing
  | waiting
  | ended
  deriving DecidableEq

/-- Where `session_loop` is; `stopping` is within its call of `request_stop`. -/
inductive ConnectionStage
  | handshaking
  | testing
  | reading
  | stopping (call : ℕ)
  | ended
  deriving DecidableEq

/-- `session_loop` with the messages that it has read and whether its handshake or a read failed. -/
structure Connection where
  stage : ConnectionStage
  received : List (List UInt8)
  failed : Bool
  deriving DecidableEq

/-- What the thread of the `io_context` is in. -/
inductive Coroutine
  | none
  | acceptLoop
  | session (i : ℕ)
  deriving DecidableEq

structure Server where
  stopped : Once StopStatement
  acceptStage : AcceptStage
  connections : List Connection
  running : Coroutine
  deriving DecidableEq

/-- After `start`. -/
def Server.started : Server :=
  { stopped := .initial, acceptStage := .testing, connections := [], running := .none }

inductive ServerEvent
  /-- The head of `accept_loop`. -/
  | accept
  /-- `async_accept` completes. -/
  | accepted
  | acceptFailed
  | acceptAborted
  /-- The handshake completes, with or without an error. -/
  | handshake (i : ℕ) (ok : Bool)
  /-- The head of the loop in `session_loop`. -/
  | test (i : ℕ)
  /-- `async_read` completes, none with an error. -/
  | read (i : ℕ) (message : Option (List UInt8))
  /-- `request_stop` has returned to its session. -/
  | leave (i : ℕ)
  /-- Another thread calls `request_stop`. -/
  | call
  /-- The next statement of a call of `request_stop`. -/
  | advance (k : ℕ)
  deriving DecidableEq

namespace Server

def isStopped (s : Server) : Bool := s.stopped.flag

def ioStopped (s : Server) : Bool := .stopIo ∈ s.stopped.executed

/-- The thread can resume a coroutine whose wait is over. -/
def ready (s : Server) : Bool := s.running = .none ∧ s.ioStopped = false

def setConnection (s : Server) (i : ℕ) (c : Connection) (running : Coroutine) : Server :=
  { s with connections := s.connections.set i c, running := running }

/-- The body of the loop in `session_loop` behind `async_read`. -/
def received (s : Server) (options : ServerOptions) (i : ℕ) (c : Connection)
    (incomingMsg : List UInt8) : Server :=
  let c := { c with received := c.received ++ [incomingMsg] }
  if incomingMsg = options.terminationCommand then
    { s with stopped := s.stopped.call }.setConnection i
      { c with stage := .stopping s.stopped.calls.length } (.session i)
  else
    s.setConnection i { c with stage := .testing } (.session i)

def step (options : ServerOptions) (s : Server) : ServerEvent → Option Server
  | .accept =>
    if s.acceptStage = .testing ∧ (s.running = .acceptLoop ∨ s.ready) then
      some { s with
        acceptStage := if s.isStopped then .ended else .waiting
        running := .none }
    else none
  | .accepted =>
    if s.ready ∧ s.acceptStage = .waiting then
      some { s with
        connections := s.connections ++ [{ stage := .handshaking, received := [], failed := false }]
        acceptStage := .testing
        running := .acceptLoop }
    else none
  | .acceptFailed =>
    if s.ready ∧ s.acceptStage = .waiting then
      if s.isStopped then some { s with acceptStage := .ended }
      else some { s with acceptStage := .testing, running := .acceptLoop }
    else none
  | .acceptAborted =>
    if s.ready ∧ s.acceptStage = .waiting ∧ .cancelAcceptor ∈ s.stopped.executed then
      some { s with acceptStage := .ended }
    else none
  | .handshake i ok => do
    let c ← s.connections[i]?
    if s.ready ∧ c.stage = .handshaking then
      if ok then some (s.setConnection i { c with stage := .testing } (.session i))
      else some (s.setConnection i { c with stage := .ended, failed := true } .none)
    else none
  | .test i => do
    let c ← s.connections[i]?
    if s.running = .session i ∧ c.stage = .testing then
      some (s.setConnection i { c with stage := if s.isStopped then .ended else .reading } .none)
    else none
  | .read i message => do
    let c ← s.connections[i]?
    if s.ready ∧ c.stage = .reading then
      match message with
      | none => some (s.setConnection i { c with stage := .ended, failed := true } .none)
      | some incomingMsg => some (s.received options i c incomingMsg)
    else none
  | .leave i => do
    let c ← s.connections[i]?
    match c.stage with
    | .stopping k =>
      if s.running = .session i ∧ s.stopped.calls[k]? = some .returned then
        some (s.setConnection i { c with stage := .ended } .none)
      else none
    | _ => none
  | .call => some { s with stopped := s.stopped.call }
  | .advance k => do
    let stopped ← s.stopped.advance requestStop k
    some { s with stopped := stopped }

/-- The events recorded in `h` lead from the start of the server to `s`. -/
abbrev Run (options : ServerOptions) (h : List (Transition Server ServerEvent)) (s : Server) :
    Prop :=
  Execution (fun s e s' ↦ s.step options e = some s') started h s

end Server

end WsServer.Web
