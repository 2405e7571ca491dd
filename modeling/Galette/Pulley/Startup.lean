import Galette.Pulley.Umem

/-!
# Starting the threads

`main` of the runtime decides on a number of cores, opens a socket for each of them, makes the
rings, and starts the threads. A thread takes what it needs with it, and panics if it is not there:
the end of a ring, the ends of all the other rings, or the queues of the `UMEM`.
-/

namespace Galette.Pulley

open Galette.Lib

/-- The options of the command line that the threads depend on. -/
structure ThreadOptions where
  xdpCores : Option UInt32
  shareUmem : Bool
  umemMode : UmemDisposalMode
  deriving DecidableEq, Repr

namespace ThreadOptions

variable (config : ThreadOptions)

/-- `xdp_ct`: `par` is `available_parallelism`, which is not zero. -/
def xdpCt (par : Option UInt64) : UInt32 :=
  clampCores (config.xdpCores.getD ((par.map fun v => (v - 1).toUInt32).getD 1))

end ThreadOptions

/-- `Socket::new` of xsk-rs: does a socket come with the fill and the completion queue, after
sockets with the `UMEM`s `earlier`? -/
structure XskRs where
  queues (earlier : List Nat) (umem : Nat) : Bool

/-- The first socket of a `UMEM` comes with the queues, no other does. -/
def XskRs.FirstOnly (X : XskRs) : Prop :=
  ∀ earlier umem, X.queues earlier umem = true ↔ umem ∉ earlier

/-- A socket: its `UMEM`, and whether it has the queues. -/
structure Xsk where
  umem : Nat
  mediate : Bool
  deriving DecidableEq, Repr

/-- The `UMEM` of the `i`th socket. -/
def umemOf (shareUmem : Bool) (i : Nat) : Nat := if !shareUmem || i = 0 then i else 0

/-- `create_upcall_sockets`, as far as the threads need it. -/
def openSockets (X : XskRs) (shareUmem : Bool) (n : Nat) : List Xsk :=
  (List.range n).map fun i =>
    { umem := umemOf shareUmem i
      mediate := X.queues ((List.range i).map (umemOf shareUmem)) (umemOf shareUmem i) }

/-- What a worker runs, and the rings that it has the ends of. -/
inductive Worker where
  | solo
  | selfMediate (receivers : List Nat)
  | otherMediate (sender : Nat)
  deriving DecidableEq, Repr

/-- All threads; the extra thread with the ends of its rings. -/
structure Threads where
  workers : List Worker
  disposal : Option (List Nat)
  deriving DecidableEq, Repr

/-- The ends of the rings that are left to be taken. -/
structure RingEnds where
  senders : List Nat
  receivers : Option (List Nat)

/-- The queues of the `UMEM`, if they are there. -/
def takeMediate (xsk : Xsk) (w : Worker) : Outcome Empty Worker :=
  if xsk.mediate then .ok w else .error (.panic "FATAL: thread 0 lacks Umem mediate info")

/-- What a worker runs with what it was given. -/
def workerOf (nCores : Nat) (xsk : Xsk) (sender : Option Nat) (receivers : Option (List Nat)) :
    Outcome Empty Worker :=
  match sender with
  | some ring => .ok (.otherMediate ring)
  | none =>
    if nCores = 1 then takeMediate xsk .solo
    else
      match receivers with
      | some rings => takeMediate xsk (.selfMediate rings)
      | none => .error (.panic "FATAL: thread 0 was not given valid ringbuf rxs")

/-- The loop that starts the workers, from number `t` on. The first one takes the receivers; a
sender is taken from the end. -/
def spawnWorkers (mode : UmemDisposalMode) (nCores : Nat) :
    List Xsk → Nat → RingEnds → Outcome Empty (List Worker)
  | [], _, _ => .ok []
  | xsk :: xsks, t, ends =>
    if mode = .extraThread ∨ t ≠ 0 then
      (workerOf nCores xsk ends.senders.getLast? ends.receivers).bind fun w =>
      (spawnWorkers mode nCores xsks (t + 1) ⟨ends.senders.dropLast, none⟩).bind fun ws =>
      .ok (w :: ws)
    else
      (workerOf nCores xsk none ends.receivers).bind fun w =>
      (spawnWorkers mode nCores xsks (t + 1) ⟨ends.senders, none⟩).bind fun ws => .ok (w :: ws)

/-- The extra thread takes the queues of the first socket. -/
def spawnDisposal : List Xsk → RingEnds → Outcome Empty (List Nat × List Xsk)
  | [], _ => .error (.panic "index out of bounds: the len is 0 but the index is 0")
  | xsk :: xsks, ends =>
    if xsk.mediate then
      match ends.receivers with
      | some rings => .ok (rings, { xsk with mediate := false } :: xsks)
      | none =>
        .error (.panic "FATAL: extra disposal thread requires exclusive access to pkt rings")
    else .error (.panic "called `Option::unwrap()` on a `None` value")

/-- Start all threads, with a ring for each worker that does not collect the frames itself. -/
def spawnThreads (mode : UmemDisposalMode) (xdpCt : Nat) (xsks : List Xsk) :
    Outcome Empty Threads :=
  let rings := List.range (xdpCt - if mode = .firstThread then 1 else 0)
  match mode with
  | .extraThread =>
    (spawnDisposal xsks ⟨rings, some rings⟩).bind fun d =>
    (spawnWorkers mode xsks.length d.2 0 ⟨rings, none⟩).bind fun ws => .ok ⟨ws, some d.1⟩
  | .firstThread =>
    (spawnWorkers mode xsks.length xsks 0 ⟨rings, some rings⟩).bind fun ws => .ok ⟨ws, none⟩

/-- The error for more than one core without a shared `UMEM`. -/
def configError (xdpCt : UInt32) : String :=
  "Config error: derived num of cores was " ++ toString xdpCt.toNat ++
    ". Please enable `--share-umem`, or reduce core count via `--xdp-cores 1`."

/-- `main`, from the options to the running threads, once the chain is there and installed. -/
def startThreads (X : XskRs) (config : ThreadOptions) (par : Option UInt64) :
    Outcome String Threads :=
  if 1 < config.xdpCt par ∧ config.shareUmem = false then
    .error (.error (configError (config.xdpCt par)))
  else
    (spawnThreads config.umemMode (config.xdpCt par).toNat
      (openSockets X config.shareUmem (config.xdpCt par).toNat)).mapError fun f =>
        f.map fun e : Empty => nomatch e

/-- What the worker with a role runs. -/
def Worker.ofRole {w : Wiring} : w.Role → Option Worker
  | .solo => some .solo
  | .selfMediate => some (.selfMediate (List.range w.rings))
  | .otherMediate ring => some (.otherMediate ring)
  | .disposal => none

/-- The threads run as they are wired: every worker in its role, and the extra thread with all the
rings, if there is one. -/
structure Threads.Wired (w : Wiring) (threads : Threads) : Prop where
  length : threads.workers.length = w.cores
  worker : ∀ t : Fin w.cores, threads.workers[t.val]? = Worker.ofRole (w.role (some t))
  disposal : threads.disposal =
    if w.mode = .extraThread then some (List.range w.rings) else none

end Galette.Pulley
