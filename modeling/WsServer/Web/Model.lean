import WsServer.Foundations.Lines
import WsServer.Foundations.Runs

/-!
# Echo client and echo server

`AsyncEchoClient` sends lines over a TCP socket and reads a line after each. `AsyncEchoServer` makes
a websocket of the socket that it accepts and reads messages from it. Both ends of one connection
run here over a reliable byte stream in each direction, which is cut into chunks in any way.

What Beast does with the bytes that have arrived is a parameter, a request header and the frames of
one message at a time.
-/

set_option autoImplicit false
set_option relaxedAutoImplicit false

namespace WsServer.Web

open Foundations

abbrev newline : UInt8 := 10

/-- The end of the last line of an HTTP header and the empty line behind it. -/
def headerEnd : List UInt8 := [13, 10, 13, 10]

/-! ### Beast -/

/-- What `async_accept` does with the bytes that have arrived: it waits for more, or it completes
with or without an error, after it has written a response. -/
inductive Accepted
  | more
  | failed (written : List UInt8)
  | upgraded (written rest : List UInt8)

/-- What `async_read` does with them; control frames may be answered on the way. -/
inductive Received
  | more
  | failed (written : List UInt8)
  | message (payload written rest : List UInt8)

structure Beast where
  accept : List UInt8 → Accepted
  read : List UInt8 → Received

/-- The handshake succeeds only on a request, and is answered only on a request, whose header is
complete. -/
structure Beast.AcceptsRequests (lib : Beast) : Prop where
  upgraded : ∀ bs written rest, lib.accept bs = .upgraded written rest → headerEnd <:+: bs
  answered : ∀ bs written, lib.accept bs = .failed written → written ≠ [] → headerEnd <:+: bs

/-! ### The server -/

/-- The text is `shutdown`; the port plays no role here. -/
structure ServerOptions where
  terminationCommand : List UInt8 := [115, 104, 117, 116, 100, 111, 119, 110]

inductive SessionStage
  | accepting
  | reading
  | ended
  deriving DecidableEq

/-- `session_loop` with the bytes that it has not used yet, and `stopped_` of the server. -/
structure Session where
  stage : SessionStage
  arrived : List UInt8
  stopped : Bool
  deriving DecidableEq

/-- `session_loop` up to the next wait: the session and what it writes. -/
def Session.resume (lib : Beast) (options : ServerOptions) (session : Session) :
    Option (Session × List UInt8) :=
  match session.stage with
  | .accepting =>
    match lib.accept session.arrived with
    | .more => none
    | .failed written => some ({ session with stage := .ended }, written)
    | .upgraded written rest => some ({ session with stage := .reading, arrived := rest }, written)
  | .reading =>
    if session.stopped then some ({ session with stage := .ended }, [])
    else
      match lib.read session.arrived with
      | .more => none
      | .failed written => some ({ session with stage := .ended }, written)
      | .message incomingMsg written rest =>
        if incomingMsg = options.terminationCommand then
          some ({ stage := .ended, arrived := rest, stopped := true }, written)
        else
          some ({ session with arrived := rest }, written)
  | .ended => none

/-! ### The client -/

inductive ClientStage
  | ready
  /-- `send_line` with what is not yet written. -/
  | sending (line payload : List UInt8)
  /-- `read_line`. -/
  | awaiting (line : List UInt8)
  /-- A call has thrown. -/
  | failed
  deriving DecidableEq

/-- The client with the lines still to come and the replies so far. -/
structure Client where
  lines : List (List UInt8)
  stage : ClientStage
  readBuffer : List UInt8
  replies : List (List UInt8 × List UInt8)
  deriving DecidableEq

/-- `send_and_receive` is called for the next line. -/
def Client.call (client : Client) : Option Client :=
  match client.stage, client.lines with
  | .ready, line :: lines =>
    some { client with lines := lines, stage := .sending line (line ++ [newline]) }
  | _, _ => none

/-- `async_write` writes `n` bytes of the payload. -/
def Client.write (client : Client) (n : ℕ) : Option (Client × List UInt8) :=
  match client.stage with
  | .sending line payload =>
    if 0 < n ∧ n ≤ payload.length then
      let stage := if n = payload.length then .awaiting line else .sending line (payload.drop n)
      some ({ client with stage := stage }, payload.take n)
    else
      none
  | _ => none

/-- `read_line` returns when the buffer has a newline. -/
def Client.readLine (client : Client) : Option Client :=
  match client.stage with
  | .awaiting line => do
    let (reply, rest) ← Lines.cut newline client.readBuffer
    some { client with
      stage := .ready, readBuffer := rest, replies := client.replies ++ [(line, reply)] }
  | _ => none

/-- The calls of the client wait for the connection. -/
def ClientStage.connected : ClientStage → Bool
  | .sending _ _ | .awaiting _ => true
  | .ready | .failed => false

/-! ### The connection -/

structure System where
  client : Client
  toServer : List UInt8
  toClient : List UInt8
  session : Session
  deriving DecidableEq

inductive Action
  | call
  | write (n : ℕ)
  | arriveServer (n : ℕ)
  | resume
  | arriveClient (n : ℕ)
  | readLine
  /-- The client meets the end of the connection. -/
  | disconnect
  deriving DecidableEq

/-- The start of a connection on which the client will send `lines`. -/
def initial (lines : List (List UInt8)) : System :=
  { client := { lines := lines, stage := .ready, readBuffer := [], replies := [] }
    toServer := []
    toClient := []
    session := { stage := .accepting, arrived := [], stopped := false } }

def System.step (lib : Beast) (options : ServerOptions) (s : System) : Action → Option System
  | .call => do
    let client ← s.client.call
    some { s with client := client }
  | .write n => do
    let (client, written) ← s.client.write n
    some { s with client := client, toServer := s.toServer ++ written }
  | .arriveServer n =>
    if 0 < n ∧ n ≤ s.toServer.length ∧ s.session.stage ≠ .ended then
      some { s with
        toServer := s.toServer.drop n
        session := { s.session with arrived := s.session.arrived ++ s.toServer.take n } }
    else
      none
  | .resume => do
    let (session, written) ← s.session.resume lib options
    some { s with session := session, toClient := s.toClient ++ written }
  | .arriveClient n =>
    if 0 < n ∧ n ≤ s.toClient.length ∧ s.client.stage.connected then
      some { s with
        toClient := s.toClient.drop n
        client := { s.client with readBuffer := s.client.readBuffer ++ s.toClient.take n } }
    else
      none
  | .readLine => do
    let client ← s.client.readLine
    some { s with client := client }
  | .disconnect =>
    if s.session.stage = .ended ∧ s.client.stage.connected then
      some { s with client := { s.client with stage := .failed } }
    else
      none

/-- The steps recorded in `h` lead from a new connection to `s`. -/
abbrev Run (lib : Beast) (options : ServerOptions) (lines : List (List UInt8))
    (h : List (Transition System Action)) (s : System) : Prop :=
  Execution (fun s a s' ↦ s.step lib options a = some s') (initial lines) h s

end WsServer.Web
