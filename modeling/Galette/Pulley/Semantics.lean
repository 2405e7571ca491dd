import Galette.Pulley.Dataplane

/-!
# The meaning of a chain

A chain means a walk through its links: run the function of the root, look the returned index up in
its state, and follow the actions until one of them ends the walk. `walk` is this walk as a machine.
Where a function runs is no part of it.

`placedWalk` adds the place: a walk starts in the kernel and goes over to userland with the first
upcall, for good. `finish` is what becomes of a packet whose walk ends in either place.
-/

namespace Galette.Pulley

open Galette.Lib Galette.Protocol

/-- What the functions of a chain compute. -/
abbrev Behaviour := Uuid → Bytes → Bytes × UInt32

/-- Where a packet is on its walk through the links. -/
inductive Walk where
  | at (uuid : Uuid) (pkt : Bytes)
  | done (action : LinkAction) (pkt : Bytes)
  /-- The index was outside of the table, or there is no such link. -/
  | stuck
  deriving DecidableEq, Repr

def stateOf (links : List XdpLink) (uuid : Uuid) : Option XdpLinkState :=
  (links.find? fun l => l.uuid = uuid).map XdpLink.state

/-- The action that a function chooses for a packet. -/
def chosen (nf : Behaviour) (links : List XdpLink) (uuid : Uuid) (pkt : Bytes) :
    Option LinkAction :=
  (stateOf links uuid).bind fun s => s.act (nf uuid pkt).2

/-- Where a packet goes with an action. -/
def afterAction (pkt : Bytes) (action : LinkAction) : Walk :=
  match action.nextNf with
  | some uuid => .at uuid pkt
  | none => .done action pkt

/-- One step of the walk: run the function of a link and act on the index it returns. -/
def walkStep (nf : Behaviour) (links : List XdpLink) : Walk → Option (Option (Uuid × Bytes) × Walk)
  | .at uuid pkt =>
    some (some (uuid, pkt),
      match chosen nf links uuid pkt with
      | some action => afterAction (nf uuid pkt).1 action
      | none => .stuck)
  | _ => none

/-- The walk through the links of a chain as a machine. -/
def walk (nf : Behaviour) (links : List XdpLink) : Machine Walk (Uuid × Bytes) where
  step := walkStep nf links

/-! ## Places -/

inductive Side where
  | kernel
  | user
  deriving DecidableEq, Repr

/-- The place after an action. -/
def Side.after : Side → LinkAction → Side
  | _, .upcall _ => .user
  | side, _ => side

/-- One step of the walk, with its place. -/
def placedStep (nf : Behaviour) (links : List XdpLink) :
    Side × Walk → Option (Option (Uuid × Bytes) × (Side × Walk))
  | (side, .at uuid pkt) =>
    some (some (uuid, pkt),
      match chosen nf links uuid pkt with
      | some action => (side.after action, afterAction (nf uuid pkt).1 action)
      | none => (side, .stuck))
  | _ => none

/-- The walk with its places as a machine. -/
def placedWalk (nf : Behaviour) (links : List XdpLink) : Machine (Side × Walk) (Uuid × Bytes) where
  step := placedStep nf links

/-- The verdict of a kernel program for an action that ends the walk. -/
def verdictOf : LinkAction → XdpAction
  | .tx => .tx
  | .drop => .drop
  | .pass => .pass
  | _ => .aborted

/-- What becomes of a packet whose walk ends. -/
def finish (pkt : Bytes) (action : LinkAction) : Side → Sys
  | .kernel => .verdict (.ret (verdictOf action)) pkt
  | .user => .sorted (action = .tx) pkt

/-! ## Chains that can be walked -/

/-- Whether a function has an eBPF payload. -/
def HasEbpf (chain : Chain) (u : Uuid) : Prop :=
  ∃ f e, chain.nfs.lookup u = some f ∧ f.ebpf = some e

/-- A chain whose links are distinct and refer to each other, with a dynamic library for every link
and a program for everything that is tail called. -/
structure Linked (chain : Chain) : Prop where
  nodup : (chain.links.map XdpLink.uuid).Nodup
  root : ∃! l, l ∈ chain.links ∧ l.root = true
  targets : ∀ l ∈ chain.links, ∀ els, l.state = .body els → ∀ a ∈ els, ∀ u, a.nextNf = some u →
    ∃ l' ∈ chain.links, l'.uuid = u
  calls : ∀ l ∈ chain.links, ∀ els, l.state = .body els → ∀ u, .tailcall u ∈ els → HasEbpf chain u
  dylibs : ∀ l ∈ chain.links, ∃ f b, chain.nfs.lookup l.uuid = some f ∧ f.elf = some b

/-- A linked chain with a program for its root. -/
structure WellFormed (chain : Chain) : Prop extends Linked chain where
  rootEbpf : ∀ l ∈ chain.links, l.root = true → HasEbpf chain l.uuid

/-- The object files of a chain are made from the two templates, around the functions `nf`. -/
structure Programs (K : Libbpf) (chain : Chain) (nf : Behaviour) : Prop where
  ends : ∀ l ∈ chain.links, ∀ f e file, chain.nfs.lookup l.uuid = some f → f.ebpf = some e →
    K.openMemory e.end = some file → file.template = .wrapper ∧ file.packet = nf l.uuid
  links : ∀ l ∈ chain.links, ∀ f e file, chain.nfs.lookup l.uuid = some f → f.ebpf = some e →
    K.openMemory e.link = some file →
    (∃ slots, file.template = .wrapperChain slots) ∧ file.packet = nf l.uuid

/-- The binaries of a chain are builds of the functions `nf`, and the index that a function returns
has an action. -/
structure Builds (K : Libbpf) (dlopen : Bytes → Option NfUserApi) (chain : Chain) (nf : Behaviour) :
    Prop extends Programs K chain nf where
  user : ∀ l ∈ chain.links, ∀ f b api, chain.nfs.lookup l.uuid = some f → f.elf = some b →
    dlopen b = some api → ∀ pkt maps, api pkt maps = ((nf l.uuid pkt).1, (nf l.uuid pkt).2.toNat)
  range : ∀ l ∈ chain.links, ∀ els, l.state = .body els → ∀ pkt,
    (nf l.uuid pkt).2.toNat < els.length

/-- Whether a link gets a program with tables, and so a program id. -/
def HasProgId (chain : Chain) (l : XdpLink) : Prop :=
  (∃ els, l.state = .body els) ∧ HasEbpf chain l.uuid

/-- No two links get the same program id: the id is the position, cast to 32 bits. -/
def DistinctIds (chain : Chain) : Prop :=
  ∀ i j l m, chain.links[i]? = some l → chain.links[j]? = some m → HasProgId chain l →
    HasProgId chain m → i % 2 ^ 32 = j % 2 ^ 32 → i = j

/-! ## Hand-over -/

/-- The hand-over of a packet by the program `obj` of the link `l`, for the index `out` of an
upcall: userland reads the metadata back, finds the function and the target by it, and the packet
went to the socket of a thread. -/
structure ExactHandover (host : Host) (st : ChainState) (xsks : List Fd) (l : XdpLink)
    (obj : Object)
    (out : UInt32) : Prop where
  decoded : decodeMeta host.endian (upcallMeta host.endian obj.myStateMap out) =
    some (obj.myStateMap.progId, out)
  source : st.instanceIds.lookup obj.myStateMap.progId = some l.uuid
  state : st.linkStates.lookup l.uuid = some l.state
  target : ∃ id, l.state.act out = some (.upcall id) ∧
    upcallTarget st obj.myStateMap.progId out = some id
  modulus : obj.myStateMap.numCores ≠ 0
  core : (targetCore obj.myStateMap host.prandom).toNat < xsks.length ∧
    (targetCore obj.myStateMap host.prandom).toNat < xskSlots
  socket : ∃ xsk, xsks[(targetCore obj.myStateMap host.prandom).toNat]? = some xsk ∧
    obj.xskMap (targetCore obj.myStateMap host.prandom).toNat = some xsk

/-! ## Ending a chain -/

/-- A function whose state is a `Tail`, with the program `endObj`, does the same to a packet as one
with the table `acts` and the program `linkObj`: in the kernel, and for the index that the function
returns in userland. -/
structure SameEffect (host : Host) (endObj linkObj : Object) (acts : List LinkAction)
    (pkt : Bytes) :
    Prop where
  kernel : xdpSockProg host endObj pkt = xdpSockProg host linkObj pkt
  user : XdpLinkState.tail.act (endObj.file.packet pkt).2 =
    (XdpLinkState.body acts).act (linkObj.file.packet pkt).2

/-! ## Single programs -/

/-- The programs that are installed for a function with a given state: `xdp_wrapper` for a `Tail`,
or `xdp_wrapper_chain` with the actions of a `Body` in its tables. -/
inductive ProgramOf (uuid : Uuid) : XdpLinkState → Object → Prop where
  | tail {file : ObjectFile} {fd : Fd} (ht : file.template = .wrapper) :
      ProgramOf uuid .tail (Object.load file fd)
  | body {acts : List LinkAction} {obj : Object} {file : ObjectFile} {fd : Fd} {slots : UInt32}
      {progFds : HashMap Uuid Fd} {numCores : UInt32} {xsks : List Fd} {id : Nat}
      (ht : file.template = .wrapperChain slots)
      (hp : patchObject progFds numCores xsks uuid acts id (Object.load file fd) = .ok obj) :
      ProgramOf uuid (.body acts) obj

/-! ## Chains that can be installed -/

/-- Loading the objects of a chain and updating their maps succeeds: libbpf opens and loads every
payload, the entries for the example functions are taken, and every object has the maps and the
slots that its link asks for. -/
structure Accepts (K : Libbpf) (chain : Chain) (xsks : List Fd) : Prop where
  objects : ∀ l ∈ chain.links, ∀ f e, chain.nfs.lookup l.uuid = some f → f.ebpf = some e →
    ∃ file, K.openMemory (myProg l.state e) = some file ∧ K.load file = true ∧ K.seed file = true ∧
      (∀ name ∈ l.mapNames, toAsciiUppercase name ∈ file.mapNames) ∧
      ∀ els, l.state = .body els →
        ∃ slots, file.template = .wrapperChain slots ∧ els.length ≤ slots.toNat
  sockets : xsks.length ≤ xskSlots

/-! ## Reachable functions -/

/-- The functions that userland can run: the targets of upcalls and whatever follows them. -/
inductive UserReach (links : List XdpLink) : Uuid → Prop where
  | upcall {l : XdpLink} {els : List LinkAction} {u : Uuid} (hl : l ∈ links)
      (hs : l.state = .body els) (hu : .upcall u ∈ els) : UserReach links u
  | next {l : XdpLink} {els : List LinkAction} {a : LinkAction} {u : Uuid}
      (hr : UserReach links l.uuid) (hl : l ∈ links) (hs : l.state = .body els) (ha : a ∈ els)
      (hu : a.nextNf = some u) : UserReach links u

end Galette.Pulley
