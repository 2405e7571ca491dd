import Galette.Chainsmith.Compile
import Galette.Chainsmith.Description
import Galette.Pulley.Semantics

/-!
# Placement

Where a function runs is decided by its description: behind a `!` and with `disable_xdp` it runs in
userland, and so does everything after it. `describedWalk` is the walk of a packet read off the
description alone, with the place it has got to; two descriptions that differ in the placement of
their functions only are related by `SamePlan`.

A `Deployment` is a description together with everything that is made of it, up to the installed
chain and the loaded libraries.
-/

namespace Galette.Pipeline

open Galette.Lib Galette.Protocol Galette.Chainsmith Galette.Pulley

/-- What the functions compute, by their names. -/
abbrev NfFamily := String → Bytes → Bytes × UInt32

/-! ## The walk of a description -/

/-- Where a packet is on its walk. -/
inductive NameWalk where
  | at (name : String) (pkt : Bytes)
  | done (action : LinkAction) (pkt : Bytes)
  | stuck
  deriving DecidableEq, Repr

/-- Where a packet goes with a target. -/
def afterTarget (chain : Chainsmith.Chain) (side : Side) (target : String) (pkt : Bytes) :
    Side × NameWalk :=
  match chain.functions.get? (stripUpcall target).2 with
  | some f =>
    (if (stripUpcall target).1 || f.disableXdp then .user else side, .at (stripUpcall target).2 pkt)
  | none =>
    match specialAction target with
    | some action => (side, .done action pkt)
    | none => (side, .stuck)

/-- Where a packet goes from a function that returns `out`. -/
def afterFollowers (chain : Chainsmith.Chain) (side : Side) (name : String) (pkt : Bytes)
    (out : UInt32) : Side × NameWalk :=
  match followers chain name with
  | none => (side, .done .tx pkt)
  | some targets =>
    match targets[out.toNat]? with
    | some target => afterTarget chain side target pkt
    | none => (side, .stuck)

def describedStep (nf : NfFamily) (chain : Chainsmith.Chain) :
    Side × NameWalk → Option (Option (String × Bytes) × (Side × NameWalk))
  | (side, .at name pkt) =>
    some (some (name, pkt), afterFollowers chain side name (nf name pkt).1 (nf name pkt).2)
  | _ => none

/-- The walk through a description as a machine. -/
def describedWalk (nf : NfFamily) (chain : Chainsmith.Chain) :
    Machine (Side × NameWalk) (String × Bytes) where
  step := describedStep nf chain

/-- A function that gets its maps when it runs in userland. -/
def Supplied (chain : Chainsmith.Chain) (name : String) : Prop :=
  ∀ info, chain.functions.get? name = some info → info.maps.keys = [] ∨ info.disableXdp = false

/-! ## Descriptions that differ in the placement -/

/-- The same function, except for its flag if it is not a root. -/
structure SameFunction (roots : List String) (e e' : String × Chainsmith.Function) : Prop where
  name : e'.1 = e.1
  path : e'.2.path = e.2.path
  slice : e'.2.slice = e.2.slice
  maps : e'.2.maps = e.2.maps
  root : e.1 ∈ roots → e'.2.disableXdp = e.2.disableXdp

/-- The same link, except for the `!` in front of the targets if it is not from `rx`. -/
structure SameLink (l l' : Link) : Prop where
  «from» : l'.«from» = l.«from»
  rx : l.«from» = "rx" → l'.«to» = l.«to»
  «to» : List.Forall₂ (fun t t' => (stripUpcall t').2 = (stripUpcall t).2) l.«to» l'.«to»

/-- Two descriptions that differ in the placement of their functions only. -/
structure SamePlan (chain chain' : Chainsmith.Chain) : Prop where
  functions : List.Forall₂ (SameFunction (rxDests chain.links)) chain.functions.entries
    chain'.functions.entries
  links : List.Forall₂ SameLink chain.links chain'.links
  maps : chain'.maps = chain.maps

/-! ## The end of a packet -/

/-- What becomes of a packet. -/
inductive Disposition where
  | transmitted
  | passed
  | discarded
  deriving DecidableEq, Repr

/-- The final bytes of a packet and what becomes of it. A frame that `dataplane_core` does not
transmit goes back to the fill queue. -/
def fate : Sys → Option (Bytes × Disposition)
  | .verdict (.ret .tx) pkt => some (pkt, .transmitted)
  | .verdict (.ret .pass) pkt => some (pkt, .passed)
  | .verdict (.ret .drop) pkt => some (pkt, .discarded)
  | .verdict (.ret .aborted) pkt => some (pkt, .discarded)
  | .sorted true pkt => some (pkt, .transmitted)
  | .sorted false pkt => some (pkt, .discarded)
  | _ => none

/-! ## Deployments -/

/-- A description that is built, resolved and installed. The object files and the libraries contain
the functions `nf` inside the wrappers that are generated for them. -/
structure Deployment (chain : Chainsmith.Chain) (nf : NfFamily) where
  env : BuildEnv
  target : Option String
  build : BuildState
  resolved : List XdpLink
  links : List XdpLink
  K : Libbpf
  dlopen : Bytes → Option NfUserApi
  cores : UInt32
  config : Cli
  socket : Nat → Fd
  host : Host
  state : ChainState
  dylibs : HashMap Uuid NfUserApi
  fresh : FreshUuids env chain.functions.entries.length
  compiled : compileBinaries env chain target = .ok build
  concrete : makeConcrete chain build.fnMap = .ok resolved
  perm : links.Perm resolved
  ends : ∀ name u b e file, build.fnMap.lookup name = some u → build.binaries.lookup u = some b →
    b.ebpf = some e → K.openMemory e.end = some file → file.template = .wrapper ∧
      file.packet = nf name
  chains : ∀ name u b e file, build.fnMap.lookup name = some u → build.binaries.lookup u = some b →
    b.ebpf = some e → K.openMemory e.link = some file →
    (∃ slots, file.template = .wrapperChain slots) ∧ file.packet = nf name
  libraries : ∀ name info u b elf api, build.fnMap.lookup name = some u →
    chain.functions.get? name = some info → build.binaries.lookup u = some b → b.elf = some elf →
    dlopen elf = some api → api = UserSource.userNfProgram ⟨canonName name, info.maps.keys⟩
      fun pkt _ => ((nf name pkt).1, (nf name pkt).2.toNat)
  clamped : config.xdpCores = clampCores cores
  headroom : host.adjustMeta = true
  installed : installChain K ⟨links, build.binaries⟩ config (createUpcallSockets socket config) =
    .ok state
  loaded : loadDylibNfs dlopen build.binaries = .ok dylibs

namespace Deployment

variable {chain : Chainsmith.Chain} {nf : NfFamily}

def message (d : Deployment chain nf) : Protocol.Chain := ⟨d.links, d.build.binaries⟩

/-- A packet that arrives at the interface ends in a state of the installed chain. -/
def Delivers (d : Deployment chain nf) (pkt : Bytes) (s : Sys) : Prop :=
  ∃ fd trace, attachedFd d.state = some fd ∧
    (system d.host d.state d.dylibs).Halts (.kernel fd pkt) trace s

end Deployment

end Galette.Pipeline
