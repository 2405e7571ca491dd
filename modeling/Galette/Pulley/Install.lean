import Galette.Lib.Casing
import Galette.Lib.Outcome
import Galette.Pulley.Object

/-!
# Installing a chain

`install_chain` loads the eBPF object of every function that has one, fills the tables of the
objects from the states of the links, and attaches the program of the root to the interface. The
runtime keeps, by uuid, the loaded programs, their descriptors, the states of the links and the maps
of the functions, and by program id the uuid of the function that upcalls with it.

libbpf, the kernel and the network interface are outside of the program; they are collected in
`Libbpf`. `install_chain` writes the keys and the values of most tables as little-endian numbers
(`to_le_bytes`). The tables here hold the numbers, as a machine of that order reads them.
-/

namespace Galette.Pulley

open Galette.Lib Galette.Protocol

inductive ChainInstallError where
  | ifaceLookup (name : String)
  | mapUpdateFail (uuid : Uuid) (map : String)
  | missingNf (uuid : Uuid)
  | missingEbpfEntry (uuid : Uuid)
  | badNfLink (src dst : Uuid)
  | missingMap (uuid : Uuid) (map : String)
  | missingRootNf
  deriving DecidableEq, Repr

/-- What the installation takes from outside. -/
structure Libbpf where
  openMemory : Bytes → Option ObjectFile
  /-- Whether the kernel accepts an object. -/
  load : ObjectFile → Bool
  /-- Whether the entries for `BLOCKED_IPS` and `UPCALL_LIKELIHOOD`, which the runtime puts into any
  map of that name, are accepted. -/
  seed : ObjectFile → Bool
  /-- Whether a program can be attached to the interface. -/
  attachXdp : Bool
  /-- The index of a network interface. -/
  ifNametoindex : String → Option Nat

/-- The command line of the runtime, as far as it is used here. -/
structure Cli where
  interface : String
  xdpCores : UInt32
  deriving DecidableEq, Repr

/-- The panic of `unwrap` on an error. -/
def unwrapPanic : Fail ChainInstallError := .panic "called `Result::unwrap()` on an `Err` value"

/-! ## Loading the programs -/

/-- What the load loop has built. -/
structure LoadState where
  rootIdx : Option Uuid := none
  linkedEbpfs : HashMap Uuid Prog := ∅
  progFds : HashMap Uuid Fd := ∅
  rawMaps : HashMap Uuid (List RawMap) := ∅
  /-- The kernel's next file descriptor. -/
  nextFd : Fd

/-- The object file for a link: a `Tail` needs no tables. -/
def myProg (state : XdpLinkState) (elfs : EbpfFunction) : Bytes :=
  match state with
  | .tail => elfs.end
  | .body _ => elfs.link

/-- The maps of a function, looked up by the upper-cased names. -/
def myMaps (obj : Object) (uuid : Uuid) : List String → Outcome ChainInstallError (List RawMap)
  | [] => .ok []
  | name :: names =>
    match obj.map (toAsciiUppercase name) with
    | none => .error (.error (.missingMap uuid (toAsciiUppercase name)))
    | some fd => (myMaps obj uuid names).bind fun maps => .ok (⟨fd⟩ :: maps)

/-- The root found so far. -/
def noteRoot (link : XdpLink) (st : LoadState) : LoadState :=
  if link.root then { st with rootIdx := some link.uuid } else st

/-- One link in the load loop. A function without eBPF payload is skipped. -/
def loadLink (K : Libbpf) (nfs : HashMap Uuid Function) (st : LoadState) (link : XdpLink) :
    Outcome ChainInstallError LoadState :=
  match nfs.lookup link.uuid with
  | none => .error (.error (.missingNf link.uuid))
  | some progData =>
    match progData.ebpf with
    | none => .ok (noteRoot link st)
    | some elfs =>
      match K.openMemory (myProg link.state elfs) with
      | none => .error (.error (.missingEbpfEntry link.uuid))
      | some file =>
        if K.load file then
          (myMaps (Object.load file st.nextFd) link.uuid link.mapNames).bind fun maps => .ok
            { noteRoot link st with
              linkedEbpfs :=
                AList.insert link.uuid (.unlinked (Object.load file st.nextFd)) st.linkedEbpfs
              progFds := AList.insert link.uuid (Object.load file st.nextFd).fd st.progFds
              rawMaps := AList.insert link.uuid maps st.rawMaps
              nextFd := st.nextFd + Object.fdCount file }
        else .error unwrapPanic

/-- The entries that are put into the maps of two of the example functions. -/
def seedMaps (K : Libbpf) (progs : HashMap Uuid Prog) : Outcome ChainInstallError Unit :=
  if progs.entries.all fun e => K.seed e.2.object.file then .ok () else .error unwrapPanic

/-! ## Filling the tables -/

/-- What the table loop has built. -/
structure TableState where
  linkedEbpfs : HashMap Uuid Prog
  linkStates : HashMap Uuid XdpLinkState := ∅
  instanceIds : HashMap ProgId Uuid := ∅

/-- Put a socket into its slot of `xsk_map`. -/
def putXsk (uuid : Uuid) (obj : Object) (xsk : Fd × Nat) : Outcome ChainInstallError Object :=
  if (UInt32.ofNat xsk.2).toNat < xskSlots then
    .ok { obj with xskMap := Function.update obj.xskMap (UInt32.ofNat xsk.2).toNat (some xsk.1) }
  else .error (.error (.mapUpdateFail uuid ("xsk_map[" ++ toString xsk.2 ++ "]")))

/-- Store the kind of an action. -/
def putAct (uuid : Uuid) (obj : Object) (action : LinkAction) (i : Nat) :
    Outcome ChainInstallError Object :=
  if !obj.hasMap "acts_map" then .error (.error (.missingMap uuid "acts_map"))
  else if (UInt32.ofNat i).toNat < obj.file.slots then
    .ok { obj with actsMap := Function.update obj.actsMap (UInt32.ofNat i).toNat action.toKind }
  else .error (.error (.mapUpdateFail uuid "acts_map"))

/-- Store the program that an action calls, if it calls one. -/
def putProg (progFds : HashMap Uuid Fd) (uuid : Uuid) (obj : Object) (action : LinkAction)
    (i : Nat) : Outcome ChainInstallError Object :=
  match action with
  | .tailcall id =>
    match progFds.lookup id with
    | none => .error (.error (.badNfLink uuid id))
    | some fd =>
      if !obj.hasMap "progs_map" then .error (.error (.missingMap uuid "progs_map"))
      else if (UInt32.ofNat i).toNat < obj.file.slots then
        .ok { obj with progsMap := Function.update obj.progsMap (UInt32.ofNat i).toNat (some fd) }
      else .error (.error (.mapUpdateFail uuid "progs_map"))
  | _ => .ok obj

/-- Store one action of a link. -/
def putAction (progFds : HashMap Uuid Fd) (uuid : Uuid) (obj : Object) (action : LinkAction × Nat) :
    Outcome ChainInstallError Object :=
  (putAct uuid obj action.1 action.2).bind fun obj => putProg progFds uuid obj action.1 action.2

/-- Fill all tables of the program of a `Body`. -/
def patchObject (progFds : HashMap Uuid Fd) (numCores : UInt32) (xsks : List Fd) (uuid : Uuid)
    (els : List LinkAction) (id : Nat) (obj : Object) : Outcome ChainInstallError Object :=
  if !obj.hasMap "my_state_map" then .error (.error (.missingMap uuid "my_state_map"))
  else if !obj.hasMap "xsk_map" then .error (.error (.missingMap uuid "xsk_map"))
  else
    (foldE (putXsk uuid)
      { obj with myStateMap := { progId := UInt32.ofNat id, numCores := numCores } }
      xsks.zipIdx).bind fun obj =>
    foldE (putAction progFds uuid) obj els.zipIdx

/-- One link in the table loop, at position `id`. -/
def patchLink (progFds : HashMap Uuid Fd) (numCores : UInt32) (xsks : List Fd) (st : TableState)
    (e : XdpLink × Nat) : Outcome ChainInstallError TableState :=
  match e.1.state with
  | .tail => .ok { st with linkStates := AList.insert e.1.uuid e.1.state st.linkStates }
  | .body els =>
    match st.linkedEbpfs.lookup e.1.uuid with
    | none => .ok { st with linkStates := AList.insert e.1.uuid e.1.state st.linkStates }
    | some prog =>
      (patchObject progFds numCores xsks e.1.uuid els e.2 prog.object).bind fun obj => .ok
        { linkedEbpfs := AList.insert e.1.uuid (prog.setObject obj) st.linkedEbpfs
          linkStates := AList.insert e.1.uuid e.1.state st.linkStates
          instanceIds := AList.insert (UInt32.ofNat e.2) e.1.uuid st.instanceIds }

/-! ## Attaching the root -/

/-- Attach the program of the root to the interface. -/
def attachRoot (K : Libbpf) (iface : Nat) (rootIdx : Option Uuid) (progs : HashMap Uuid Prog) :
    Outcome ChainInstallError (HashMap Uuid Prog) :=
  match rootIdx with
  | none => .error (.error .missingRootNf)
  | some root =>
    match progs.lookup root with
    | some (.unlinked obj) =>
      if K.attachXdp then .ok (AList.insert root (.linked obj iface) progs)
      else .error unwrapPanic
    | _ => .error (.panic "internal error: entered unreachable code")

/-- What the runtime keeps of an installed chain. -/
structure ChainState where
  linkedEbpfs : HashMap Uuid Prog
  progFds : HashMap Uuid Fd
  instanceIds : HashMap ProgId Uuid
  linkStates : HashMap Uuid XdpLinkState
  rawMaps : HashMap Uuid (List RawMap)

/-- The load loop of `install_chain`. Descriptors 0 to 2 are the standard streams. -/
def loadChain (K : Libbpf) (chain : Chain) : Outcome ChainInstallError LoadState :=
  foldE (loadLink K chain.nfs) { nextFd := 3 } chain.links

/-- The table loop of `install_chain`. -/
def patchChain (chain : Chain) (numCores : UInt32) (xsks : List Fd) (ld : LoadState) :
    Outcome ChainInstallError TableState :=
  foldE (patchLink ld.progFds numCores xsks) { linkedEbpfs := ld.linkedEbpfs } chain.links.zipIdx

/-- `install_chain`. -/
def installChain (K : Libbpf) (chain : Chain) (config : Cli) (xsks : List Fd) :
    Outcome ChainInstallError ChainState :=
  match K.ifNametoindex config.interface with
  | none => .error (.error (.ifaceLookup config.interface))
  | some iface =>
    (loadChain K chain).bind fun ld =>
    (seedMaps K ld.linkedEbpfs).bind fun _ =>
    (patchChain chain config.xdpCores xsks ld).bind fun tb =>
    (attachRoot K iface ld.rootIdx tb.linkedEbpfs).bind fun progs => .ok
      { linkedEbpfs := progs
        progFds := ld.progFds
        instanceIds := tb.instanceIds
        linkStates := tb.linkStates
        rawMaps := ld.rawMaps }

/-! ## Sockets and dynamic libraries -/

/-- The number of dataplane threads: what was asked for, at least one and at most eight. -/
def clampCores (xdpCores : UInt32) : UInt32 := min (max xdpCores 1) 8

/-- One `AF_XDP` socket per thread (`create_upcall_sockets`); `socket` is the descriptor that the
kernel gives to the socket of a thread. -/
def createUpcallSockets (socket : Nat → Fd) (config : Cli) : List Fd :=
  (List.range config.xdpCores.toNat).map socket

/-- The exported function of a dynamic library: the packet it leaves behind and the index it
returns. -/
abbrev NfUserApi := Bytes → List RawMap → Bytes × Nat

/-- One function in `load_dylib_nfs`. A library that cannot be loaded panics. -/
def loadDylib (dlopen : Bytes → Option NfUserApi) (dylibs : HashMap Uuid NfUserApi)
    (e : Σ _ : Uuid, Function) : Outcome Empty (HashMap Uuid NfUserApi) :=
  match e.2.elf with
  | none => .ok dylibs
  | some elf =>
    match dlopen elf with
    | none => .error (.panic "called `Result::unwrap()` on an `Err` value")
    | some api => .ok (AList.insert e.1 api dylibs)

/-- `DylibStore::load_dylib_nfs`. The temporary files for the libraries are taken to be writable. -/
def loadDylibNfs (dlopen : Bytes → Option NfUserApi) (nfs : HashMap Uuid Function) :
    Outcome Empty (HashMap Uuid NfUserApi) :=
  foldE (loadDylib dlopen) ∅ nfs.entries

end Galette.Pulley
