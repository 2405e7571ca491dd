import Galette.Pulley.Umem

/-!
# Working through a batch

`dataplane_core` from the received descriptors to the number of those to transmit. The outer loop
takes the frames one by one. A frame whose metadata is malformed is removed at once; for all others
the inner loop runs functions until one of them ends the walk, and the frame stays or is removed. To
remove a frame is to swap it with the last one that has not been looked at.

Both loops are machines: neither of them has a bound in the source. In `Dataplane` a function is
pure; here the functions of a thread have a state, so what they do to a frame may depend on the
frames before it.
-/

namespace Galette.Pulley

open Galette.Lib Galette.Protocol

/-! ## The inner loop -/

/-- `user_nf_program` of a dynamic library. The state stands for whatever the functions keep from
one call to the next, such as the contents of their maps. -/
abbrev UserNf (σ : Type) := σ → Bytes → List RawMap → σ × Bytes × Nat

section

variable {σ F : Type} (endian : Endian) (st : ChainState) (dylibs : Uuid → Option (UserNf σ))

/-- One turn of the inner loop. The event is the function that is run and the packet it is given. -/
def walkLoopStep : σ × Sys → Option (Option (Uuid × Bytes) × (σ × Sys))
  | (s, .user uuid pkt) =>
    match dylibs uuid with
    | none => some (none, (s, .panicked))
    | some lib =>
      some (some (uuid, pkt), ((lib s pkt (mapsOf st uuid)).1,
        afterUser (lib s pkt (mapsOf st uuid)).2.1
          (userAction st uuid (lib s pkt (mapsOf st uuid)).2.2)))
  | _ => none

/-- The inner loop as a machine. -/
def walkLoop : Machine (σ × Sys) (Uuid × Bytes) where
  step := walkLoopStep st dylibs

/-! ## The outer loop -/

/-- What a thread works on. -/
structure Memory (σ F : Type) where
  nfs : σ
  /-- The bytes between the headroom and the packet of a frame. -/
  headroom : F → Bytes
  data : F → Bytes

/-- The variables of `dataplane_core`. -/
structure Batch (σ F : Type) where
  mem : Memory σ F
  frames : List F
  i : Nat
  numTx : Nat
  pktsRecvd : Nat

/-- Where `dataplane_core` is. -/
inductive Core (σ F : Type) where
  /-- At the top of the outer loop. -/
  | next (b : Batch σ F)
  | walking (b : Batch σ F) (desc : F) (pos : σ × Sys)
  | returned (mem : Memory σ F) (frames : List F) (numTx pktsRecvd : Nat)
  | panicked

/-- What is left of the frames that have not been looked at after a turn: if the first one is
removed, the last one takes its place. -/
def leftover {ι : Type} (doTx : Bool) (others : List ι) : List ι :=
  if doTx then others else others.getLast?.toList ++ others.dropLast

/-- Leave the frame in place, or swap it out of the part to transmit. -/
def Batch.sort (b : Batch σ F) (mem : Memory σ F) (doTx : Bool) : Batch σ F :=
  if doTx then { b with mem := mem, i := b.i + 1 }
  else { b with mem := mem, numTx := b.numTx - 1, frames := swap b.frames b.i (b.numTx - 1) }

/-- The beginning of a turn of the outer loop. The event is a frame whose walk begins. -/
def beginTurn (b : Batch σ F) : Option F × Core σ F :=
  match b.frames[b.i]? with
  | none => (none, .panicked)
  | some desc =>
    match decodeMeta endian (b.mem.headroom desc) with
    | none => (none, .next (b.sort b.mem false))
    | some (srcNf, act) =>
      match upcallTarget st srcNf act with
      | none => (none, .panicked)
      | some uuid => (some desc, .walking b desc (b.mem.nfs, .user uuid (b.mem.data desc)))

/-- `dataplane_core` once `n` descriptors are received. -/
def Core.received (mem : Memory σ F) (frames : List F) (n : Nat) : Core σ F :=
  .next { mem := mem, frames := frames, i := 0, numTx := n, pktsRecvd := n }

variable [DecidableEq F]

/-- What a walk leaves behind: the state of the functions and the packet. -/
def Memory.store (mem : Memory σ F) (desc : F) (s : σ) (pkt : Bytes) : Memory σ F :=
  { mem with nfs := s, data := Function.update mem.data desc pkt }

/-- The end of a turn of the outer loop. -/
def endTurn (b : Batch σ F) (desc : F) : σ × Sys → Core σ F
  | (s, .sorted doTx pkt) => .next (b.sort (b.mem.store desc s pkt) doTx)
  | _ => .panicked

def coreStep : Core σ F → Option (Option F × Core σ F)
  | .next b =>
    if b.i < b.numTx then some (beginTurn endian st b)
    else some (none, .returned b.mem b.frames b.numTx b.pktsRecvd)
  | .walking b desc pos =>
    match (walkLoop st dylibs).step pos with
    | some (_, pos') => some (none, .walking b desc pos')
    | none => some (none, endTurn b desc pos)
  | _ => none

/-- `dataplane_core` as a machine. -/
def dataplaneCore : Machine (Core σ F) F where
  step := coreStep endian st dylibs

/-! ## What becomes of the frames -/

/-- What becomes of a frame. -/
inductive Fate where
  | malformed
  /-- Its walk ended in an action. -/
  | walked (action : LinkAction)
  deriving DecidableEq, Repr

/-- Whether the frame is transmitted. -/
def Fate.sent (fate : Fate) : Bool := fate = .walked .tx

/-- Whether the frame had its metadata. -/
def Fate.wellFormed (fate : Fate) : Bool := fate ≠ .malformed

/-- A frame is handled: its metadata is malformed, or its walk ends with a function that chooses a
final action. -/
inductive Handles (mem : Memory σ F) (desc : F) : Fate → Memory σ F → Prop where
  | malformed (h : decodeMeta endian (mem.headroom desc) = none) : Handles mem desc .malformed mem
  | walked {srcNf : ProgId} {act : UInt32} {uuid last : Uuid} {k : Nat} {t : List (Uuid × Bytes)}
      {s : σ} {pkt : Bytes} {lib : UserNf σ} {action : LinkAction}
      (hmeta : decodeMeta endian (mem.headroom desc) = some (srcNf, act))
      (htarget : upcallTarget st srcNf act = some uuid)
      (hrun : (walkLoop st dylibs).run k (mem.nfs, .user uuid (mem.data desc)) =
        (t, (s, .user last pkt)))
      (hlib : dylibs last = some lib)
      (haction : userAction st last (lib s pkt (mapsOf st last)).2.2 = some action)
      (hfinal : action.nextNf = none) :
      Handles mem desc (.walked action)
        (mem.store desc (lib s pkt (mapsOf st last)).1 (lib s pkt (mapsOf st last)).2.1)

/-- Frames are handled one after another. -/
inductive HandlesAll : Memory σ F → List (F × Fate) → Memory σ F → Prop where
  | nil (mem : Memory σ F) : HandlesAll mem [] mem
  | cons {mem mem' mem'' : Memory σ F} {desc : F} {fate : Fate} {log : List (F × Fate)}
      (h : Handles endian st dylibs mem desc fate mem') (hl : HandlesAll mem' log mem'') :
      HandlesAll mem ((desc, fate) :: log) mem''

/-- Every frame of a batch can be handled, whichever other frames of the batch are handled before
it. -/
def WalksEnd (mem : Memory σ F) (batch : List F) : Prop :=
  ∀ log mem' desc others, HandlesAll endian st dylibs mem log mem' →
    (log.map Prod.fst ++ desc :: others).Perm batch →
    ∃ fate mem'', Handles endian st dylibs mem' desc fate mem''

end

/-! ## Valid indices -/

/-- A function can be followed by another one: some index leads there. -/
def Follows (st : ChainState) (u v : Uuid) : Prop :=
  ∃ state out action, st.linkStates.lookup u = some state ∧ state.act out = some action ∧
    action.nextNf = some v

/-- Every function that the inner loop runs is there, and returns an index of its table. -/
def ValidCalls {σ : Type} (st : ChainState) (dylibs : Uuid → Option (UserNf σ)) (pos : σ × Sys) :
    Prop :=
  ∀ k t s u pkt, (walkLoop st dylibs).run k pos = (t, (s, .user u pkt)) →
    ∃ lib, dylibs u = some lib ∧ ∀ els, st.linkStates.lookup u = some (.body els) →
      (lib s pkt (mapsOf st u)).2.2 < els.length

section

variable {F : Type}

/-- The frames of a log with a kind of fate. -/
def framesWith (p : Fate → Bool) (log : List (F × Fate)) : List F :=
  (log.filter fun e => p e.2).map Prod.fst

/-- A buffer with a batch in front of `rest` is sorted by the fates in `log`, and the walks of the
frames `runs` were run. -/
structure SortedBy (log : List (F × Fate)) (batch rest frames : List F) (numTx : Nat)
    (runs : List F) : Prop where
  handled : (log.map Prod.fst).Perm batch
  le : numTx ≤ batch.length
  perm : (frames.take batch.length).Perm batch
  sent : frames.take numTx = framesWith Fate.sent log
  removed : (slice frames numTx batch.length).Perm (framesWith (fun fate => !fate.sent) log)
  rest : frames.drop batch.length = rest
  runs : runs = framesWith Fate.wellFormed log

end

end Galette.Pulley
