import Galette.Protocol.Message

/-!
# The client

`get_chain` connects to the server, asks for the chain of the target that `pulley` was built for,
and reads messages until one of them is an answer.
-/

namespace Galette.Pulley

open Galette.Lib Galette.Protocol

/-- An error of the WebSocket library. -/
structure WsError where
  display : String
  deriving DecidableEq, Repr

inductive ChainGetError where
  | connect (e : WsError)
  | sendRequest (e : WsError)
  | wsRecv (e : WsError)
  | deserialize (e : DeserError)
  | serverError (msg : String)
  | sessionClosed
  deriving DecidableEq, Repr

/-- The request of a runtime that is built for a target. -/
def request (P : Postcard) (target : String) : Message :=
  ser P.clientToServer (.requestChain target)

/-- One turn of the loop in `get_chain`, for what `next` gives; `none` is the end of the stream. The
loop goes on if there is no result. -/
def onNext (P : Postcard) : Option (Except WsError Message) → Option (Except ChainGetError Chain)
  | some (.ok msg) =>
    match deser P.serverToClient msg with
    | .ok (some (.chain v)) => some (.ok v)
    | .ok (some (.requestChainError err)) => some (.error (.serverError err))
    | .ok none => none
    | .error e => some (.error (.deserialize e))
  | some (.error e) => some (.error (.wsRecv e))
  | none => some (.error .sessionClosed)

end Galette.Pulley
