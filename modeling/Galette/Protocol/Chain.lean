import Galette.Lib.Maps

/-!
# The message between compiler and runtime

`protocol::Chain` is what `chainsmith` sends to `pulley`: the links of the chain, with every name
resolved to a uuid, and the binaries of the network functions.

A link's state says what happens to a packet once the function has returned: a `Tail` always
transmits it, a `Body` looks the returned index up in a table of actions.
-/

namespace Galette.Protocol

open Galette.Lib

/-- A random 128-bit identifier. -/
abbrev Uuid := BitVec 128

/-- Packet contents and file contents. -/
abbrev Bytes := List UInt8

/-- What to do with a packet next. -/
inductive LinkAction where
  | tx
  | drop
  | abort
  | upcall (id : Uuid)
  | tailcall (id : Uuid)
  | pass
  deriving DecidableEq, Repr

namespace LinkAction

/-- The code under which an action is stored in the kernel's action table. -/
def toKind : LinkAction → UInt8
  | tx => 0
  | drop => 1
  | abort => 2
  | upcall _ => 3
  | tailcall _ => 4
  | pass => 5

/-- The function that an action continues with, if any. -/
def nextNf : LinkAction → Option Uuid
  | upcall id | tailcall id => some id
  | _ => none

end LinkAction

/-- How a function's return value is turned into an action. -/
inductive XdpLinkState where
  | tail
  | body (acts : List LinkAction)
  deriving DecidableEq, Repr

/-- The action for a returned index. Rust indexes the table, so an index outside of it panics
(`none`). -/
def XdpLinkState.act : XdpLinkState → UInt32 → Option LinkAction
  | tail, _ => some .tx
  | body acts, action => acts[action.toNat]?

/-- One function of a concrete chain. -/
structure XdpLink where
  uuid : Uuid
  state : XdpLinkState
  /-- Whether the function receives the packets from the interface. -/
  root : Bool
  disableXdp : Bool
  mapNames : List String
  deriving DecidableEq, Repr

/-- The two eBPF object files of a function: `link` looks up the action of a `Body`, `end` always
transmits. -/
structure EbpfFunction where
  link : Bytes
  «end» : Bytes
  deriving DecidableEq, Repr

/-- The binaries of a function: its dynamic library and its eBPF object files. -/
structure Function where
  uuid : Uuid
  elf : Option Bytes
  ebpf : Option EbpfFunction
  deriving DecidableEq, Repr

/-- The chain as it is sent to the runtime. -/
structure Chain where
  links : List XdpLink
  nfs : HashMap Uuid Function

/-- Only the upcall action is stored under its code. -/
theorem LinkAction.toKind_eq_three {a : LinkAction} (h : a.toKind = 3) : ∃ id, a = .upcall id := by
  cases a with
  | upcall id => exact ⟨id, rfl⟩
  | _ => simp [toKind] at h

end Galette.Protocol
