import Galette.Chainsmith.Generate
import Galette.Lib.Interleave
import Galette.Nf.Program
import Galette.Pulley.Batch
import Galette.Pulley.Semantics

/-!
# Packets in flight

Many packets are under way in an installed chain at a time, on the cores of the kernel and on the
threads of the runtime, and their functions work on the same maps. `Runtime.step` is what one packet
does next: a single access of the function that it is at, the way from one function to the next, or
the hand-over to userland. Each packet has its memory to itself, since functions keep to their
packets.

In the kernel the packets take such steps in any order. In userland it is the threads that take
them: a thread receives a batch of packets from its socket and runs them to completion one after the
other, and if a function panics it takes the thread with it. `Runtime.advance` is the whole of it.

`Journey` is the same without places: a packet runs one function after the other, as the links say.
-/

namespace Galette.Pipeline

open Galette.Lib Galette.Protocol Galette.Nf Galette.Chainsmith Galette.Pulley

/-- What a function is built from: its source, and its names for its maps. -/
structure Source where
  prog : NfProg UInt32
  fields : List String

variable {σ : Type}

/-- The maps of the kernel, by their descriptors; `σ` is what they contain. -/
structure KernelMaps (σ : Type) where
  get : σ → Fd → Bytes → Option Bytes
  put : σ → Fd → Bytes → Bytes → σ

/-- What a function works with: the maps that its names stand for, and a random number. -/
def KernelMaps.host (M : KernelMaps σ) (own : List (String × Fd)) (r : UInt32) : MapHost σ where
  get m name key := (own.lookup name).bind fun fd => M.get m fd key
  put m name key value := (own.lookup name).elim m fun fd => M.put m fd key value
  random m := (r, m)

/-! ## The installed chain -/

/-- An installed chain, and what it runs on. -/
structure Runtime (σ : Type) where
  host : Host
  st : ChainState
  dylibs : HashMap Uuid NfUserApi
  cases : CaseTable
  redbpf : Redbpf
  maps : KernelMaps σ
  src : Uuid → Source

/-- Where a packet is. -/
inductive Flow where
  /-- In a program of the kernel, with what is left of the function. -/
  | kernel (uuid : Uuid) (obj : Object) (p : NfProg UInt32) (ctx : XdpContext)
  /-- Sent to the socket of a thread, behind its metadata. -/
  | socket (core : UInt32) (metadata pkt : Bytes)
  /-- In a function in userland, with what is left of it. -/
  | user (core : UInt32) (uuid : Uuid) (p : NfProg UInt32) (pkt : Bytes)
  | ended (s : Sys)

/-- What a function returns right away. -/
def returned : NfProg UInt32 → Option UInt32
  | .ret out => some out
  | _ => none

/-- The maps of a function in the kernel: the statics of its wrapper. -/
def kernelMaps (T : CaseTable) (obj : Object) (fields : List String) : List (String × Fd) :=
  fields.filterMap fun n => (obj.map (T.toScreamingSnake n)).map fun fd => (n, fd)

/-- The maps of a function in userland: the slice it is given, by position. -/
def userMaps (st : ChainState) (uuid : Uuid) (fields : List String) : List (String × Fd) :=
  fields.zip ((mapsOf st uuid).map RawMap.fd)

namespace Runtime

variable (rt : Runtime σ)

/-- A packet at the program behind a descriptor. -/
def atProgram (fd : Fd) (ctx : XdpContext) : Flow :=
  match progOf rt.st fd with
  | some (uuid, obj) => .kernel uuid obj (rt.src uuid).prog ctx
  | none => .ended (.kernel fd ctx.contents)

/-- A packet at a function in userland. A wrapper that is not given its maps returns at once. -/
def atFunction (core : UInt32) (uuid : Uuid) (pkt : Bytes) : Flow :=
  match rt.dylibs.lookup uuid with
  | none => .ended .panicked
  | some _ =>
    if (rt.src uuid).fields = [] ∨ (mapsOf rt.st uuid).length = (rt.src uuid).fields.length then
      .user core uuid (rt.src uuid).prog pkt
    else .user core uuid (.ret (UInt32.ofNat usizeMax)) pkt

/-- Where a packet goes on a thread. -/
def ofSys (core : UInt32) : Sys → Flow
  | .user uuid pkt => rt.atFunction core uuid pkt
  | s => .ended s

/-- What a program does once the function has returned; `r` chooses the thread for an upcall. -/
def exit (obj : Object) (out r : UInt32) : Exit :=
  match obj.file.template with
  | .wrapper => .ret .tx
  | .wrapperChain _ => chainExit { rt.host with prandom := r } obj out

/-- Where a packet goes from a program. -/
def afterExit (ctx : XdpContext) : Exit → Flow
  | .tailCall fd => rt.atProgram fd ctx
  | .upcall core _ metadata => .socket core metadata ctx.contents
  | e => .ended (.verdict e ctx.contents)

/-- Where a packet goes from a function in the kernel. -/
def leaveKernel (obj : Object) (p : NfProg UInt32) (ctx : XdpContext) (r : UInt32) : Flow :=
  match returned p with
  | some out => rt.afterExit ctx (rt.exit obj out r)
  | none => .ended .panicked

/-- Where a packet goes from a function in userland. -/
def leaveUser (core : UInt32) (uuid : Uuid) (p : NfProg UInt32) (pkt : Bytes) : Flow :=
  match returned p with
  | some out => rt.ofSys core (afterUser pkt (userAction rt.st uuid out.toNat))
  | none => .ended .panicked

/-- The next step of a packet, with the random number `r` at hand. -/
def step : Flow → σ → UInt32 → Option (Flow × σ)
  | .kernel uuid obj p ctx, m, r =>
    match stepKernel rt.redbpf
        (rt.maps.host (kernelMaps rt.cases obj (rt.src uuid).fields) r) p ctx m with
    | some (p', ctx', m') => some (.kernel uuid obj p' ctx', m')
    | none => some (rt.leaveKernel obj p ctx r, m)
  | .socket core metadata pkt, m, _ =>
    some (rt.ofSys core (afterSocket rt.host rt.st metadata pkt), m)
  | .user core uuid p pkt, m, r =>
    match stepUser (rt.maps.host (userMaps rt.st uuid (rt.src uuid).fields) r) p pkt m with
    | some (p', pkt', m') => some (.user core uuid p' pkt', m')
    | none => some (rt.leaveUser core uuid p pkt, m)
  | .ended _, _, _ => none

end Runtime

/-! ## Threads -/

/-- What a thread is doing. -/
inductive Duty (ι : Type) where
  /-- It waits for packets. -/
  | polling
  /-- It is in `dataplane_core`, with the packets that it has not sorted yet, and is at the
  first. -/
  | batch (todo : List ι)
  /-- It has been told to stop, or there is no such thread. -/
  | stopped
  | panicked

/-- What a thread goes on with once the packet that it is at has moved. -/
def Duty.afterMove {ι : Type} (i : ι) (others : List ι) : Flow → Duty ι
  | .ended (.sorted doTx _) => .batch (leftover doTx others)
  | .ended _ => .panicked
  | _ => .batch (i :: others)

/-- The packets, the receive queues of the sockets, and the threads. -/
structure Traffic (ι σ : Type) where
  flow : ι → Flow
  queue : UInt32 → List ι
  duty : UInt32 → Duty ι
  maps : σ

namespace Traffic

variable {ι : Type} [DecidableEq ι]

/-- What happens next. -/
inductive Event (ι : Type) where
  /-- A packet in the kernel goes on. If it is sent to a socket, there may be no room for it. -/
  | kernel (i : ι) (r : UInt32) (room : Bool)
  /-- A thread receives `n` packets. -/
  | poll (core : UInt32) (n : Nat)
  /-- A thread hears the signal. -/
  | stop (core : UInt32)
  /-- A thread goes on with its batch. -/
  | work (core : UInt32) (r : UInt32)

/-- A packet moves, and maybe changes the maps. -/
def move (s : Traffic ι σ) (i : ι) (flow : Flow) (m : σ) : Traffic ι σ :=
  { s with flow := Function.update s.flow i flow, maps := m }

/-- A packet that is sent to a socket gets into its queue, if there is room. -/
def deliver (s : Traffic ι σ) (i : ι) (room : Bool) : Flow → Traffic ι σ
  | .socket core _ _ =>
    if room then { s with queue := Function.update s.queue core (s.queue core ++ [i]) } else s
  | _ => s

def setDuty (s : Traffic ι σ) (core : UInt32) (d : Duty ι) : Traffic ι σ :=
  { s with duty := Function.update s.duty core d }

end Traffic

namespace Runtime

variable (rt : Runtime σ) {ι : Type} [DecidableEq ι]

/-- One step of everything. -/
def advance (s : Traffic ι σ) : Traffic.Event ι → Option (Traffic ι σ)
  | .kernel i r room =>
    match s.flow i with
    | .kernel _ _ _ _ =>
      (rt.step (s.flow i) s.maps r).map fun c => (s.move i c.1 c.2).deliver i room c.1
    | _ => none
  | .poll core n =>
    match s.duty core with
    | .polling =>
      if n ≤ (s.queue core).length then
        some { s.setDuty core (.batch ((s.queue core).take n)) with
          queue := Function.update s.queue core ((s.queue core).drop n) }
      else none
    | _ => none
  | .stop core =>
    match s.duty core with
    | .polling => some (s.setDuty core .stopped)
    | _ => none
  | .work core r =>
    match s.duty core with
    | .batch [] => some (s.setDuty core .polling)
    | .batch (i :: others) =>
      (rt.step (s.flow i) s.maps r).map fun c =>
        (s.move i c.1 c.2).setDuty core (.afterMove i others c.1)
    | _ => none

/-- Packets arrive at a program; there is a thread for each core. -/
def arrived (cores : Nat) (fd : Fd) (ctx : ι → XdpContext) (m₀ : σ) : Traffic ι σ where
  flow i := rt.atProgram fd (ctx i)
  queue _ := []
  duty core := if core.toNat < cores then .polling else .stopped
  maps := m₀

/-- What packets, threads and maps come to in any order of their steps. -/
abbrev Reaches (cores : Nat) (fd : Fd) (ctx : ι → XdpContext) (m₀ : σ) (s : Traffic ι σ) : Prop :=
  Reachable rt.advance (rt.arrived cores fd ctx m₀) s

end Runtime

/-- A packet is in a function on a thread. -/
def Flow.RunsOn (core : UInt32) : Flow → Prop
  | .user c _ _ _ => c = core
  | _ => False

/-! ## Journeys -/

/-- Where a packet is on its journey. -/
inductive Journey where
  | running (uuid : Uuid) (p : NfProg UInt32) (pkt : Bytes)
  | done (action : LinkAction) (pkt : Bytes)
  /-- A function has panicked, or has returned an index without an action. -/
  | stuck

namespace Journey

variable (links : List XdpLink) (src : Uuid → Source) (M : KernelMaps σ)
  (own : Uuid → List (String × Fd))

/-- Where a packet goes with an action. -/
def follow (pkt : Bytes) (action : LinkAction) : Journey :=
  match action.nextNf with
  | some uuid => .running uuid (src uuid).prog pkt
  | none => .done action pkt

/-- Where a packet goes from a function. -/
def leave (uuid : Uuid) (p : NfProg UInt32) (pkt : Bytes) : Journey :=
  match (returned p).bind fun out => (stateOf links uuid).bind fun s => s.act out with
  | some action => follow src pkt action
  | none => .stuck

/-- The next step of a journey; `own` are the maps of each function. -/
def step : Journey → σ → UInt32 → Option (Journey × σ)
  | .running uuid p pkt, m, r =>
    match stepUser (M.host (own uuid) r) p pkt m with
    | some (p', pkt', m') => some (.running uuid p' pkt', m')
    | none => some (leave links src uuid p pkt, m)
  | _, _, _ => none

/-- The step of a journey, and of the maps with it. -/
def move (s : Journey × σ) (r : UInt32) : Option (Journey × σ) :=
  step links src M own s.1 s.2 r

/-- The state of a walk as that of a journey. -/
def ofWalk : Walk → Journey
  | .at uuid pkt => .running uuid (src uuid).prog pkt
  | .done action pkt => .done action pkt
  | .stuck => .stuck

end Journey

/-- A function computes `f`, whatever numbers it draws and whatever is in its maps: it comes to an
end with what `f` says, and leaves the maps as they were. -/
def Computes (M : KernelMaps σ) (own : List (String × Fd)) (p : NfProg UInt32)
    (f : Bytes → Bytes × UInt32) : Prop :=
  ∀ pkt m, Settles (fun s r => stepUser (M.host own r) s.1 s.2.1 s.2.2) (p, pkt, m)
    (.ret (f pkt).2, (f pkt).1, m)

/-- The same packets on journeys from a function, in any order of their steps. In userland a
function has the maps that it is given. -/
abbrev Runtime.Journeys {ι : Type} [DecidableEq ι] (rt : Runtime σ) (chain : Protocol.Chain)
    (root : Uuid) (ctx : ι → XdpContext) (m₀ : σ) : (ι → Journey) → σ → Prop :=
  Shared
    (fun _ => Journey.step chain.links rt.src rt.maps fun u => userMaps rt.st u (rt.src u).fields)
    (fun i => .running root (rt.src root).prog (ctx i).contents) m₀

/-- A packet in the installed chain that is where it would be on its journey. A packet in a socket
is at the function that it is for. -/
inductive SameSpot (rt : Runtime σ) : Flow → Journey → Prop where
  | kernel (uuid : Uuid) (obj : Object) (p : NfProg UInt32) (ctx : XdpContext) :
      SameSpot rt (.kernel uuid obj p ctx) (.running uuid p ctx.contents)
  | socket (core : UInt32) {metadata pkt : Bytes} {uuid : Uuid}
      (h : afterSocket rt.host rt.st metadata pkt = .user uuid pkt) :
      SameSpot rt (.socket core metadata pkt) (.running uuid (rt.src uuid).prog pkt)
  | user (core : UInt32) (uuid : Uuid) (p : NfProg UInt32) (pkt : Bytes) :
      SameSpot rt (.user core uuid p pkt) (.running uuid p pkt)
  | done (side : Side) (action : LinkAction) (pkt : Bytes) :
      SameSpot rt (.ended (finish pkt action side)) (.done action pkt)
  | panicked : SameSpot rt (.ended .panicked) .stuck

/-- The binaries of a chain are built from sources: the object files are made from the two
templates; every function of a chain has its maps, under the names that the link has for them; the
two crates write these names alike; no function asks for an empty slice, and the index that it
returns has an action. -/
structure BuiltFrom (K : Libbpf) (T : CaseTable) (chain : Protocol.Chain) (src : Uuid → Source) :
    Prop where
  ends : ∀ l ∈ chain.links, ∀ f e file, chain.nfs.lookup l.uuid = some f → f.ebpf = some e →
    K.openMemory e.end = some file → file.template = .wrapper
  links : ∀ l ∈ chain.links, ∀ f e file, chain.nfs.lookup l.uuid = some f → f.ebpf = some e →
    K.openMemory e.link = some file → ∃ slots, file.template = .wrapperChain slots
  fields : ∀ l ∈ chain.links, (src l.uuid).fields = l.mapNames
  supplied : ∀ l ∈ chain.links, l.mapNames = [] ∨ HasEbpf chain l.uuid
  names : ∀ l ∈ chain.links, ∀ n ∈ l.mapNames, T.toScreamingSnake n = toAsciiUppercase n
  nonEmpty : ∀ l ∈ chain.links, (src l.uuid).prog.NonEmpty
  range : ∀ l ∈ chain.links, ∀ els, l.state = .body els →
    (src l.uuid).prog.Returns fun out => out.toNat < els.length

end Galette.Pipeline
