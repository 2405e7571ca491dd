import Galette.Chainsmith.Server
import Galette.Lib.Interleave
import Galette.Pulley.Client
import Galette.Pulley.Dataplane

/-!
# Sessions

A connection has a task of the server at one end. At the other end is a runtime that runs
`get_chain`, or anyone else: the server does not know. Messages travel in order; a ping or pong can
get in between at any time, and so can the frame that closes a WebSocket. When the connection is
lost, what is underway gets lost from some point on.

A `Conn` is the state of one connection, `Conn.step` what can happen to it next. The server has many
connections, which share the table of chains; their steps interleave in any way.
-/

namespace Galette.Pipeline

open Galette.Lib Galette.Protocol Galette.Chainsmith Galette.Pulley

/-- Where `get_chain` is. -/
inductive ClientTask where
  | start
  | waiting
  | done (r : Except ChainGetError Protocol.Chain)

/-- Where `handle_connection` is. -/
inductive ServerTask where
  | listening
  | finished
  /-- A reply could not be sent. -/
  | panicked
  deriving DecidableEq, Repr

/-- A target triple. Its text and the text of the error fit into memory. -/
structure Target where
  triple : String
  fits : StringFits triple
  errorFits : StringFits (unsupported triple)

/-- Who is at the other end of a connection. -/
inductive Peer where
  | runtime (target : Target)
  | stranger

/-- What the server serves: a table of messages that fit into memory. -/
structure Service where
  wire : Postcard
  cDat : ChainDatas
  fits : ∀ target m, cDat.lookup target = some m → m.Fits

structure Conn where
  client : ClientTask := .start
  server : ServerTask := .listening
  /-- The messages underway. -/
  toServer : List Message := []
  toClient : List Message := []
  up : Bool := true
  /-- Whether a frame that closes the WebSocket was sent. -/
  shut : Bool := false
  /-- What the server has read so far. -/
  read : List Message := []
  /-- What the server has handed to the connection so far. -/
  replies : List Message := []

/-- Pings and pongs. -/
def isControl : Message → Bool
  | .ping _ | .pong _ => true
  | _ => false

/-- What can happen to a connection. -/
inductive Event where
  /-- The runtime cannot connect. -/
  | refused (e : WsError)
  /-- The runtime sends its request; `e` is the error if the connection is lost. -/
  | clientSend (e : WsError)
  /-- The client takes the next message. -/
  | clientNext
  /-- The runtime gets to the end of a lost connection, with an error or without. -/
  | clientEnd (e : Option WsError)
  /-- The server takes the next message; `sent` is whether it notices a lost connection when it
  replies. -/
  | serverNext (sent : Bool)
  /-- The server gets to the end of a lost connection. -/
  | serverEnd
  /-- A stranger sends anything. -/
  | inject (m : Message)
  /-- One of the libraries sends a ping or pong. -/
  | control (m : Message) (toServer : Bool)
  /-- The WebSocket is closed from one end. -/
  | close (frame : Option (UInt16 × String)) (toServer : Bool)
  /-- The connection is lost, and all but the first messages with it. -/
  | lost (toServer toClient : Nat)

namespace Conn

variable (S : Service)

/-- Send a message in one of the directions. -/
def push (c : Conn) (m : Message) (toServer : Bool) : Conn :=
  if toServer then { c with toServer := c.toServer ++ [m] }
  else { c with toClient := c.toClient ++ [m] }

/-- The client has taken a message. -/
def afterNext (c : Conn) (peer : Peer) (m : Message) : Conn :=
  match peer with
  | .stranger => c
  | .runtime _ =>
    match onNext S.wire (some (.ok m)) with
    | some r => { c with client := .done r }
    | none => c

/-- The server has taken a message. -/
def afterRead (c : Conn) (m : Message) (sent : Bool) : Conn :=
  match onMessage S.wire S.cDat m with
  | .error _ => { c with server := .finished }
  | .ok none => c
  | .ok (some reply) =>
    if c.up then { c with toClient := c.toClient ++ [reply], replies := c.replies ++ [reply] }
    else if sent then { c with replies := c.replies ++ [reply] }
    else { c with server := .panicked, replies := c.replies ++ [reply] }

/-- Whether a runtime waits for its answer; a stranger may read at any time. -/
def canRead (c : Conn) (peer : Peer) : Bool :=
  match peer, c.client with
  | .stranger, _ | _, .waiting => true
  | _, _ => false

/-- One event of a connection. -/
def step (peer : Peer) (c : Conn) : Event → Option Conn
  | .refused e =>
    match peer, c.client with
    | .runtime _, .start => some { c with client := .done (.error (.connect e)) }
    | _, _ => none
  | .clientSend e =>
    match peer, c.client with
    | .runtime target, .start =>
      if c.up then some { c.push (request S.wire target.triple) true with client := .waiting }
      else some { c with client := .done (.error (.sendRequest e)) }
    | _, _ => none
  | .clientNext =>
    match c.toClient with
    | [] => none
    | m :: rest =>
      if c.canRead peer then some (afterNext S { c with toClient := rest } peer m) else none
  | .clientEnd e =>
    match peer, c.client, c.toClient, c.up with
    | .runtime _, .waiting, [], false =>
      (onNext S.wire (e.map .error)).map fun r => { c with client := .done r }
    | _, _, _, _ => none
  | .serverNext sent =>
    match c.server, c.toServer with
    | .listening, m :: rest =>
      some (afterRead S { c with toServer := rest, read := c.read ++ [m] } m sent)
    | _, _ => none
  | .serverEnd =>
    match c.server, c.toServer, c.up with
    | .listening, [], false => some { c with server := .finished }
    | _, _, _ => none
  | .inject m =>
    match peer with
    | .stranger => if c.up then some (c.push m true) else none
    | .runtime _ => none
  | .control m toServer => if c.up && isControl m then some (c.push m toServer) else none
  | .close frame toServer =>
    if c.up then some { c.push (.close frame) toServer with shut := true } else none
  | .lost toServer toClient =>
    some { c with
      up := false
      toServer := c.toServer.take toServer
      toClient := c.toClient.take toClient }

end Conn

/-- The connections that a server has, each with its peer: their states in any interleaving. -/
abbrev Sessions {ι : Type} [DecidableEq ι] (S : Service) (peer : ι → Peer) : (ι → Conn) → Prop :=
  Interleaved (fun i => Conn.step S (peer i)) fun _ => {}

/-! ## What a session is for -/

/-- The answer to a request, as the runtime gets it. -/
inductive AnsweredBy (m : ServerToClient) : Except ChainGetError Protocol.Chain → Prop where
  | chain {c : Protocol.Chain} (h : SameMessage m (.chain c)) : AnsweredBy m (.ok c)
  | error {msg : String} (h : SameMessage m (.requestChainError msg)) :
      AnsweredBy m (.error (.serverError msg))

/-- How `get_chain` may end: with the answer `m`; because there was no connection, or it is not `up`
any more; or because of a frame that `shut` it. -/
inductive EndsWith (up shut : Bool) (m : ServerToClient) :
    Except ChainGetError Protocol.Chain → Prop where
  | answered {r : Except ChainGetError Protocol.Chain} (h : AnsweredBy m r) : EndsWith up shut m r
  | connect (e : WsError) : EndsWith up shut m (.error (.connect e))
  | sendRequest {e : WsError} (h : up = false) : EndsWith up shut m (.error (.sendRequest e))
  | wsRecv {e : WsError} (h : up = false) : EndsWith up shut m (.error (.wsRecv e))
  | sessionClosed (h : up = false) : EndsWith up shut m (.error .sessionClosed)
  | closed (h : shut = true) : EndsWith up shut m (.error (.deserialize .nonBinaryWs))

/-- The reply to a message, if there is one. -/
def replyTo (S : Service) (m : Message) : Option Message :=
  match onMessage S.wire S.cDat m with
  | .ok reply => reply
  | .error _ => none

/-- A message that the server can read. -/
def Readable (S : Service) (m : Message) : Prop := ∃ reply, onMessage S.wire S.cDat m = .ok reply

/-- What a connection shows of the server: it has replied to what it has read, in order and to
nothing else; it has read on as long as it understood the messages; and it panics only if the
connection is lost. -/
structure Serves (S : Service) (c : Conn) : Prop where
  replies : c.replies = c.read.filterMap (replyTo S)
  readable : ∀ m ∈ c.read.dropLast, Readable S m
  listening : c.server = .listening → ∀ m ∈ c.read, Readable S m
  panicked : c.server = .panicked → c.up = false

/-- The events in which the two ends do their work. -/
def Event.IsWork : Event → Prop
  | .clientSend _ | .clientNext | .serverNext _ => True
  | _ => False

/-! ## What a runtime makes of a chain -/

/-- Two chains that make no difference to a runtime: installing them gives the same result, the
libraries can be loaded for one if they can for the other, and the installed chains are the same
machine. -/
structure SameRuntime (c c' : Protocol.Chain) : Prop where
  install : ∀ K config xsks, installChain K c' config xsks = installChain K c config xsks
  loads : ∀ dlopen, (∃ d, loadDylibNfs dlopen c'.nfs = .ok d) ↔
    ∃ d, loadDylibNfs dlopen c.nfs = .ok d
  system : ∀ dlopen d d', loadDylibNfs dlopen c.nfs = .ok d → loadDylibNfs dlopen c'.nfs = .ok d' →
    ∀ host st, system host st d' = system host st d

end Galette.Pipeline
