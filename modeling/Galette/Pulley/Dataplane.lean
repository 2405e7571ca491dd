import Galette.Lib.Bytes
import Galette.Lib.Machine
import Galette.Pulley.Install

/-!
# Executing a chain

A packet enters the kernel at the attached program. The wrappers of `chainsmith` run the function
and then act on the index it returned: `xdp_wrapper` transmits, `xdp_wrapper_chain` looks the kind
of action up in `acts_map`. A tail call continues with another program of the kernel. An upcall
writes the program's id and the index in front of the packet and redirects it to a socket, where
`dataplane_core` takes it up: it finds the function by the id, the action by the index, and runs
functions in userland from there on until one of them ends the walk.

`system` is the whole of it as a machine, one step for each function that is run and one for the
hand-over.
-/

namespace Galette.Pulley

open Galette.Lib Galette.Protocol

/-! ## Kernel programs -/

inductive XdpAction where
  | aborted
  | drop
  | pass
  | tx
  | redirect
  deriving DecidableEq, Repr

inductive Exit where
  | ret (action : XdpAction)
  /-- It returns `NetworkError::OutOfBounds`. -/
  | outOfBounds
  /-- It continues as another program. -/
  | tailCall (fd : Fd)
  /-- It hands the packet to a socket, with the metadata it has written in front of it. -/
  | upcall (core : UInt32) (xsk : Fd) (metadata : Bytes)
  deriving DecidableEq, Repr

/-- The machine that the programs run on. -/
structure Host where
  /-- The order in which the metadata is written and read. The tables are as a little-endian machine
  has them, see `Install`. -/
  endian : Endian
  /-- Whether `bpf_xdp_adjust_meta` grants the eight bytes in front of the packet. -/
  adjustMeta : Bool
  /-- The number that `bpf_get_prandom_u32` gives if the packet is upcalled. -/
  prandom : UInt32

/-- The thread that gets an upcalled packet. -/
def targetCore (state : DataplaneState) (prandom : UInt32) : UInt32 :=
  if state.numCores ≠ 1 then prandom % state.numCores else 0

/-- The metadata in front of an upcalled packet. -/
def upcallMeta (endian : Endian) (state : DataplaneState) (out : UInt32) : Bytes :=
  toNeBytes endian state.progId ++ toNeBytes endian out

/-- The upcall arm of `xdp_wrapper_chain`. -/
def upcallArm (host : Host) (obj : Object) (out : UInt32) : Exit :=
  if host.adjustMeta then
    match obj.xskMap (targetCore obj.myStateMap host.prandom).toNat with
    | some xsk =>
      .upcall (targetCore obj.myStateMap host.prandom) xsk (upcallMeta host.endian obj.myStateMap out)
    | none => .ret .aborted
  else .ret .aborted

/-- The tail call arm of `xdp_wrapper_chain`: without a program in the slot the call returns. -/
def tailcallArm (obj : Object) (out : UInt32) : Exit :=
  match obj.progsMap out.toNat with
  | some fd => .tailCall fd
  | none => .ret .aborted

/-- What `xdp_wrapper_chain` does once the function has returned. -/
def chainExit (host : Host) (obj : Object) (out : UInt32) : Exit :=
  match obj.actsGet out with
  | some 0 => .ret .tx
  | some 1 => .ret .drop
  | some 2 => .ret .aborted
  | some 3 => upcallArm host obj out
  | some 4 => tailcallArm obj out
  | some 5 => .ret .pass
  | _ => .outOfBounds

/-- `xdp_sock_prog` of either template. -/
def xdpSockProg (host : Host) (obj : Object) (pkt : Bytes) : Bytes × Exit :=
  ((obj.file.packet pkt).1,
    match obj.file.template with
    | .wrapper => .ret .tx
    | .wrapperChain _ => chainExit host obj (obj.file.packet pkt).2)

/-! ## Userland -/

/-- The program id and the index in front of a packet, if there are exactly eight bytes. -/
def decodeMeta (endian : Endian) (headroom : Bytes) : Option (ProgId × UInt32) :=
  if headroom.length = 8 then
    some (fromNeBytes endian (headroom.take 4), fromNeBytes endian (headroom.drop 4))
  else none

/-- The function that an upcalled packet continues with. Every lookup is unwrapped, so a missing
entry panics (`none`). -/
def upcallTarget (st : ChainState) (srcNf : ProgId) (act : UInt32) : Option Uuid :=
  (st.instanceIds.lookup srcNf).bind fun srcUuid =>
  (st.linkStates.lookup srcUuid).bind fun state =>
  (state.act act).bind LinkAction.nextNf

/-- The maps that a function is given. -/
def mapsOf (st : ChainState) (uuid : Uuid) : List RawMap := (st.rawMaps.lookup uuid).getD []

/-- The action for the index that a function has returned in userland. The index is cast to 32 bits;
a missing state or an index outside of the table panics (`none`). -/
def userAction (st : ChainState) (uuid : Uuid) (act : Nat) : Option LinkAction :=
  (st.linkStates.lookup uuid).bind fun state => state.act (UInt32.ofNat act)

/-! ## The whole system -/

/-- Where a packet is. -/
inductive Sys where
  /-- At the program behind a descriptor. -/
  | kernel (fd : Fd) (pkt : Bytes)
  /-- In the receive queue of a thread, behind its metadata. -/
  | socket (core : UInt32) (metadata pkt : Bytes)
  /-- At a function in userland. -/
  | user (uuid : Uuid) (pkt : Bytes)
  /-- The kernel has decided. -/
  | verdict (exit : Exit) (pkt : Bytes)
  /-- `dataplane_core` has decided whether to transmit. -/
  | sorted (doTx : Bool) (pkt : Bytes)
  | panicked
  deriving DecidableEq, Repr

/-- The loaded program behind a descriptor, and the function it belongs to. -/
def progOf (st : ChainState) (fd : Fd) : Option (Uuid × Object) :=
  (st.linkedEbpfs.entries.find? fun e => e.2.object.fd = fd).map fun e => (e.1, e.2.object)

/-- Where a packet goes from a kernel program. -/
def afterExit (pkt : Bytes) : Exit → Sys
  | .tailCall fd => .kernel fd pkt
  | .upcall core _ metadata => .socket core metadata pkt
  | e => .verdict e pkt

/-- Where a packet goes from its socket. A packet without its metadata is dropped. -/
def afterSocket (host : Host) (st : ChainState) (metadata pkt : Bytes) : Sys :=
  match decodeMeta host.endian metadata with
  | none => .sorted false pkt
  | some (srcNf, act) =>
    match upcallTarget st srcNf act with
    | none => .panicked
    | some uuid => .user uuid pkt

/-- Where a packet goes from a function in userland: one turn of the inner loop of
`dataplane_core`. -/
def afterUser (pkt : Bytes) : Option LinkAction → Sys
  | none => .panicked
  | some (.tailcall id) | some (.upcall id) => .user id pkt
  | some .tx => .sorted true pkt
  | some _ => .sorted false pkt

/-- One step of the system. The event is the function that is run and the packet it is given. -/
def sysStep (host : Host) (st : ChainState) (dylibs : HashMap Uuid NfUserApi) :
    Sys → Option (Option (Uuid × Bytes) × Sys)
  | .kernel fd pkt =>
    match progOf st fd with
    | none => none
    | some (uuid, obj) =>
      some (some (uuid, pkt), afterExit (xdpSockProg host obj pkt).1 (xdpSockProg host obj pkt).2)
  | .socket _ metadata pkt => some (none, afterSocket host st metadata pkt)
  | .user uuid pkt =>
    match dylibs.lookup uuid with
    | none => some (none, .panicked)
    | some lib =>
      some (some (uuid, pkt), afterUser (lib pkt (mapsOf st uuid)).1
        (userAction st uuid (lib pkt (mapsOf st uuid)).2))
  | _ => none

/-- The installed chain as a machine. -/
def system (host : Host) (st : ChainState) (dylibs : HashMap Uuid NfUserApi) :
    Machine Sys (Uuid × Bytes) where
  step := sysStep host st dylibs

/-- The program that is attached to the interface. -/
def attachedFd (st : ChainState) : Option Fd :=
  st.linkedEbpfs.entries.findSome? fun e =>
    match e.2 with
    | .linked o _ => some o.fd
    | .unlinked _ => none

end Galette.Pulley
