import Galette.Lib.Graph
import Galette.Lib.Interleave
import Galette.Pulley.Batch

/-!
# Stopping the threads

After ctrl+c `main` broadcasts a signal over a bus. A worker looks for it at the beginning of its
loop, the extra thread at the end. Nothing waits for the threads to stop, and nothing interrupts a
worker that is in `dataplane_core`: it works through its batch first, one call of a function after
the other. A panic ends a thread wherever it is.

`Next` is the loop of a thread: the places that a step leads to.
-/

namespace Galette.Pulley

open Galette.Lib Galette.Protocol

variable {w : Wiring} {σ F : Type}

/-! ## The signal -/

/-- The dataplane, the threads that are in `dataplane_core`, and whether the signal is on the
bus. -/
structure Dataplane (w : Wiring) (σ F : Type) where
  umem : Umem w F
  core : w.Tid → Option (Core σ F)
  signal : Bool

/-- Go on with what memory holds now. -/
def Core.withMem (mem : Memory σ F) : Core σ F → Core σ F
  | .next b => .next { b with mem := mem }
  | .walking b desc (_, pos) => .walking { b with mem := mem } desc (mem.nfs, pos)
  | core => core

namespace Dataplane

/-- What happens next. -/
inductive Event (w : Wiring) (σ F : Type) where
  | broadcast
  /-- The kernel moves a frame between its queues. -/
  | kernel (src dst : Queue w) (i : Nat)
  /-- A thread goes on. It shares memory with the kernel and with the other threads, so `mem` is
  whatever it finds there. -/
  | thread (t : w.Tid) (c : Choice) (mem : Memory σ F)
  /-- A call on the socket of a worker fails, and its result is unwrapped. -/
  | fail (t : w.Tid)

/-- A step of a thread. -/
def Event.IsThread : Event w σ F → Prop
  | .thread _ _ _ => True
  | _ => False

def start (w : Wiring) (σ : Type) (descs : List F) : Dataplane w σ F :=
  ⟨.init w descs, fun _ => none, false⟩

def setCore (s : Dataplane w σ F) (t : w.Tid) (core : Option (Core σ F)) : Dataplane w σ F :=
  { s with core := Function.update s.core t core }

/-- The places where a worker calls its socket: `poll_and_consume` and `produce_and_wakeup`. -/
def callsSocket (s : Dataplane w σ F) (t : w.Tid) : Bool :=
  t.isSome && (s.core t).isNone &&
    match (s.umem.thread t).pc with
    | .top | .send _ _ => true
    | _ => false

section

variable [DecidableEq F] (endian : Endian) (st : ChainState) (dylibs : Uuid → Option (UserNf σ))
  (cap : Nat) (A : Acceptance)

/-- A step of a thread. `try_recv` finds the signal if it is on the bus. -/
def stepThread (s : Dataplane w σ F) (t : w.Tid) (c : Choice) (mem : Memory σ F) :
    Option (Dataplane w σ F) :=
  match s.core t with
  | none =>
    match (s.umem.thread t).pc with
    | .received n => some (s.setCore t (some (.received mem (s.umem.thread t).frames n)))
    | _ =>
      (s.umem.stepThread cap A t { c with kill := s.signal }).map fun u => { s with umem := u }
  | some (.returned _ frames numTx n) =>
    some { s.setCore t none with umem := s.umem.setThread t ⟨frames, .send numTx n⟩ }
  | some core =>
    -- a thread that has panicked goes nowhere
    ((dataplaneCore endian st dylibs).step (core.withMem mem)).map fun r => s.setCore t (some r.2)

def step (s : Dataplane w σ F) : Event w σ F → Option (Dataplane w σ F)
  | .broadcast => if s.signal then none else some { s with signal := true }
  | .kernel src dst i => (s.umem.stepKernel src dst i).map fun u => { s with umem := u }
  | .thread t c mem => s.stepThread endian st dylibs cap A t c mem
  | .fail t => if s.callsSocket t then some (s.setCore t (some .panicked)) else none

end

end Dataplane

/-! ## What stopping relies on -/

/-- The functions that can follow another one are there, and return indices of their tables. -/
def ServesLinks (st : ChainState) (dylibs : Uuid → Option (UserNf σ)) : Prop :=
  ∀ u v, Follows st u v → ∃ lib state, dylibs v = some lib ∧ st.linkStates.lookup v = some state ∧
    ∀ els, state = .body els → ∀ s pkt, (lib s pkt (mapsOf st v)).2.2 < els.length

/-- The metadata of a frame are malformed, or lead to a function from which no cycle of links can be
reached. -/
def Memory.Leads (endian : Endian) (st : ChainState) (mem : Memory σ F) (desc : F) : Prop :=
  decodeMeta endian (mem.headroom desc) = none ∨
    ∃ srcNf act u, decodeMeta endian (mem.headroom desc) = some (srcNf, act) ∧
      upcallTarget st srcNf act = some u ∧ ¬ ReachesCycle (Follows st) u

/-- Nothing goes wrong: the metadata of the frames that a thread has received lead somewhere, and no
call on a socket fails. -/
def Dataplane.Smooth (endian : Endian) (st : ChainState) (s : Dataplane w σ F) :
    Dataplane.Event w σ F → Prop
  | .thread t _ mem => ∀ f ∈ (s.umem.thread t).batch, mem.Leads endian st f
  | .fail _ => False
  | _ => True

/-! ## The loop of a thread -/

/-- Where a step of a thread leads to, with or without the signal. -/
inductive Next (w : Wiring) (t : w.Tid) : (kill : Bool) → Pc w.rings F → Pc w.rings F → Prop where
  | stop : Next w t true .top .stopped
  | poll (n : Nat) (ht : t ≠ none) : Next w t false .top (.received n)
  | round (ht : t = none) : Next w t false .top (.scan 0)
  | sort (kill : Bool) (numTx n : Nat) : Next w t kill (.received n) (.send numTx n)
  | send (kill : Bool) (numTx n : Nat) (ht : t ≠ none) :
      Next w t kill (.send numTx n) (.dispose numTx n)
  | push (kill : Bool) (numTx n : Nat) (j : Fin w.rings) (hrole : w.role t = .otherMediate j) :
      Next w t kill (.dispose numTx n) .top
  | reap (kill : Bool) (numTx n m : Nat) : Next w t kill (.dispose numTx n) (.refill numTx (n + m))
  | collect (kill : Bool) (numTx n : Nat) (hrole : w.role t = .selfMediate) :
      Next w t kill (.refill numTx n) (.scan 0)
  | refill (kill : Bool) (numTx n : Nat) (hrole : w.role t ≠ .selfMediate) :
      Next w t kill (.refill numTx n) .top
  | skip (kill : Bool) (j : Nat) (hj : j < w.rings) : Next w t kill (.scan j) (.scan (j + 1))
  | slices (kill : Bool) (j : Fin w.rings) (s1 s2 : List F) :
      Next w t kill (.scan j) (.first j s1 s2)
  | collected (kill : Bool) (j : Nat) (hrole : w.role t = .disposal) :
      Next w t kill (.scan j) (.dispose 0 0)
  | scanned (kill : Bool) (j : Nat) (hrole : w.role t ≠ .disposal) : Next w t kill (.scan j) .top
  | first (kill : Bool) (j : Fin w.rings) (s1 s2 : List F) :
      Next w t kill (.first j s1 s2) (.second j s1 s2)
  | second (kill : Bool) (j : Fin w.rings) (s1 s2 : List F) :
      Next w t kill (.second j s1 s2) (.advance j (s1.length + s2.length))
  | advance (kill : Bool) (j : Fin w.rings) (n : Nat) :
      Next w t kill (.advance j n) (.scan (j.val + 1))

/-! ## How much is left -/

/-- The links that the runtime knows. -/
def ChainState.links (st : ChainState) : Finset Uuid := st.linkStates.keys.toFinset

/-- The steps that a turn of the outer loop of `dataplane_core` takes at most: one at the beginning,
one at the end, and the calls in between. -/
def ChainState.turnBound (st : ChainState) : Nat := st.links.card + 3

/-- How many steps `dataplane_core` takes at most until it has returned. -/
noncomputable def Core.left (st : ChainState) : Core σ F → Nat
  | .next b => (b.numTx - b.i) * st.turnBound + 2
  | .walking b _ (_, .user u _) =>
    (b.numTx - b.i - 1) * st.turnBound + rank (Follows st) st.links u + 4
  | .walking b _ _ => (b.numTx - b.i - 1) * st.turnBound + 3
  | .returned _ _ _ _ => 1
  | .panicked => 0

/-- How many steps a thread takes until it stops, if it hears the signal; a frame that it has
received takes `turn` of them. -/
def Pc.left (w : Wiring) (t : w.Tid) (turn : Nat) : Pc w.rings F → Nat
  | .stopped => 0
  | .top => 1
  | .received n => n * turn + 4 * w.rings + 8
  | .send _ _ => 4 * w.rings + 5
  | .dispose _ _ => (if w.role t = .selfMediate then 4 * w.rings + 2 else 1) + 2
  | .refill _ _ => (if w.role t = .selfMediate then 4 * w.rings + 2 else 1) + 1
  | .scan j => 4 * (w.rings - j) + 1 + (if w.role t = .disposal then 3 else 1)
  | .first j _ _ => 4 * (w.rings - (j.val + 1)) + 4 + (if w.role t = .disposal then 3 else 1)
  | .second j _ _ => 4 * (w.rings - (j.val + 1)) + 3 + (if w.role t = .disposal then 3 else 1)
  | .advance j _ => 4 * (w.rings - (j.val + 1)) + 2 + (if w.role t = .disposal then 3 else 1)

namespace Dataplane

/-- The steps that a thread has left. -/
noncomputable def leftAt (st : ChainState) (s : Dataplane w σ F) (t : w.Tid) : Nat :=
  match s.core t with
  | none => (s.umem.thread t).pc.left w t st.turnBound
  | some core => core.left st + (4 * w.rings + 5)

/-- The steps of all threads until they have stopped. -/
noncomputable def left (st : ChainState) (s : Dataplane w σ F) : Nat := ∑ t, s.leftAt st t

end Dataplane

end Galette.Pulley
