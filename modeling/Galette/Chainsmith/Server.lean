import Galette.Chainsmith.Compile
import Galette.Protocol.Message

/-!
# The server

`main` of `chainsmith` builds the chain once for every architecture that it supports, and then
answers requests: each connection is a task of its own, which reads messages until the connection
ends or a message makes no sense. The tasks share the table of built chains and nothing else.

`handle_connection` and `handle_connection_no_tls` differ in the handshake only.
-/

namespace Galette.Chainsmith

open Galette.Lib Galette.Protocol

/-- `SUPPORTED_ARCHES`: the targets, with the file that describes the types of their kernel. -/
def supportedArches : List (String × Option String) :=
  [("x86_64-unknown-linux-gnu", none),
    ("aarch64-unknown-linux-gnu", some "support-files/vmlinux")]

/-- The chains that are served, by target. -/
abbrev ChainDatas := HashMap String ServerToClient

/-- One target in the loop of `main`. -/
def prepareTarget (compile : String → Option String → Outcome CompileChainError ChainData)
    (chainDatas : ChainDatas) (arch : String × Option String) :
    Outcome CompileChainError ChainDatas :=
  (compile arch.1 arch.2).bind fun data =>
    .ok (AList.insert arch.1 (.chain data.intoSingleMessage) chainDatas)

/-- The loop of `main` over the targets, in the order in which they are iterated; `compile` is
`compile_chain` with the target and the file of the kernel's types set. -/
def prepareTargets (compile : String → Option String → Outcome CompileChainError ChainData)
    (arches : List (String × Option String)) : Outcome CompileChainError ChainDatas :=
  foldE (prepareTarget compile) ∅ arches

/-- The text for a target that is not in the table. -/
def unsupported (target : String) : String :=
  "Could not fetch user chains: target " ++ target ++ " unsupported."

/-- What a request is answered with. -/
def answer (cDat : ChainDatas) (target : String) : ServerToClient :=
  match cDat.lookup target with
  | some m => m
  | none => .requestChainError (unsupported target)

/-- One turn of the loop in `handle_connection`: the reply to a message, if it gets one, or the
error that ends the loop. -/
def onMessage (P : Postcard) (cDat : ChainDatas) (msg : Message) :
    Except DeserError (Option Message) :=
  match deser P.clientToServer msg with
  | .ok (some (.requestChain target)) => .ok (some (ser P.serverToClient (answer cDat target)))
  | .ok none => .ok none
  | .error e => .error e

end Galette.Chainsmith
