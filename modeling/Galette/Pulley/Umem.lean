import Galette.Lib.Ledger
import Galette.Pulley.Dataplane
import Mathlib.Data.Fintype.Option
import Mathlib.Data.Fintype.Sum
import Mathlib.Tactic.DeriveFintype

/-!
# Frames and threads

All packets lie in the frames of one `UMEM`. A frame is handed around by its descriptor: the kernel
takes frames from the fill queue, puts received packets into the rx queue of a socket, takes packets
to transmit from its tx queue, and gives the frames back through the completion queue. In between
the threads of the runtime hold them.

Every thread keeps a buffer of 2048 descriptors that it never clears. What it holds is a slice of
the buffer; the other descriptors are left over from earlier turns. `main` wires the threads up so
that one of them refills the fill queue; the others send it their dropped frames through rings.

A `State` is the state of all queues, rings and threads; `step` is one atomic step of a thread or of
the kernel. What a step leaves open (how many descriptors are taken or accepted, the decisions of
the functions) is chosen by the `Action`.
-/

namespace Galette.Pulley

/-- How dropped frames get back to the fill queue. -/
inductive UmemDisposalMode where
  /-- The first worker collects the frames of the others. -/
  | firstThread
  /-- A thread of its own collects the frames of all workers. -/
  | extraThread
  deriving DecidableEq, Repr

/-! ## Wiring -/

/-- The configuration of the dataplane. -/
structure Wiring where
  mode : UmemDisposalMode
  cores : Nat
  pos : 0 < cores

namespace Wiring

variable (w : Wiring)

/-- `needed_rings`. -/
def rings : Nat := w.cores - if w.mode = .firstThread then 1 else 0

/-- The ring that a worker sends its dropped frames to. The workers take the senders from the
last one on. -/
def sender (t : Fin w.cores) : Option (Fin w.rings) :=
  if h : w.mode = .extraThread ∨ t.val ≠ 0 then
    some ⟨w.cores - 1 - t.val, by
      have := t.isLt
      unfold rings
      split
      · rename_i hm
        rcases h with h | h
        · rw [hm] at h
          cases h
        · omega
      · omega⟩
  else none

/-- The threads: the workers and the extra thread (`none`), which exists in one mode only. -/
abbrev Tid := Option (Fin w.cores)

/-- The function that a thread runs. -/
inductive Role where
  /-- `dataplane_self_mediate_solo`. -/
  | solo
  /-- `dataplane_self_mediate`. -/
  | selfMediate
  /-- `dataplane_other_mediate`. -/
  | otherMediate (ring : Fin w.rings)
  | disposal
  deriving DecidableEq

def role : w.Tid → w.Role
  | none => .disposal
  | some t =>
    match w.sender t with
    | some ring => .otherMediate ring
    | none => if w.cores = 1 then .solo else .selfMediate

/-- The thread that empties the rings. -/
def drainer : w.Tid :=
  match w.mode with
  | .firstThread => some ⟨0, w.pos⟩
  | .extraThread => none

end Wiring

/-! ## Queues and rings -/

/-- Where the kernel has frames: in the queues that it shares with the threads, or for itself. -/
inductive Queue (w : Wiring) where
  | fill
  | comp
  | held
  | rx (t : Fin w.cores)
  | tx (t : Fin w.cores)
  deriving DecidableEq, Fintype

/-- A ring: its contents from the oldest entry on, and the slot of that entry. -/
structure Ring (F : Type) where
  head : Nat := 0
  buf : List F := []

namespace Ring

variable {F : Type}

/-- The contents in two slices: up to the end of the memory, and from its beginning. -/
def asSlices (cap : Nat) (r : Ring F) : List F × List F :=
  (r.buf.take (cap - r.head % cap), r.buf.drop (cap - r.head % cap))

/-- Append what was accepted of a slice. -/
def pushSlice (r : Ring F) (xs : List F) : Ring F := { r with buf := r.buf ++ xs }

/-- Free the slots of the oldest entries. -/
def advance (r : Ring F) (n : Nat) : Ring F := { head := r.head + n, buf := r.buf.drop n }

end Ring

/-- How many descriptors of a slice the queues and rings accept. -/
structure Acceptance where
  /-- `produce` on a queue with `len` entries may accept `k` of `n` descriptors. -/
  produce : (len n k : Nat) → Bool
  /-- `push_slice` on a ring with `len` entries may accept `k` of `n` descriptors. -/
  push : (len n k : Nat) → Bool
  produce_le : ∀ {len n k}, produce len n k = true → k ≤ n
  push_le : ∀ {len n k}, push len n k = true → k ≤ n

/-- Any part of a slice may be accepted. -/
def Acceptance.any : Acceptance where
  produce _ n k := k ≤ n
  push _ n k := k ≤ n
  produce_le h := by simpa using h
  push_le h := by simpa using h

/-- With `cap` slots `produce` accepts all or nothing, and `push_slice` what fits. -/
def Acceptance.exact (cap : Nat) : Acceptance where
  produce len n k := k = if len + n ≤ cap then n else 0
  push len n k := k = min n (cap - len)
  produce_le h := by
    simp only [decide_eq_true_eq] at h
    split at h <;> omega
  push_le h := by
    simp only [decide_eq_true_eq] at h
    omega

/-! ## Threads -/

/-- Where a thread is in its loop. -/
inductive Pc (rings : Nat) (F : Type) where
  | top
  /-- `n` frames are received. -/
  | received (n : Nat)
  /-- The first `numTx` of `n` frames are to be transmitted. -/
  | send (numTx n : Nat)
  /-- The frames from `numTx` to `n` are to be disposed of. -/
  | dispose (numTx n : Nat)
  /-- The frames from `numTx` to `n` go back to the fill queue. -/
  | refill (numTx n : Nat)
  /-- At ring `j` in the loop over the rings. -/
  | scan (j : Nat)
  /-- The slices `s1` and `s2` of ring `j` go back to the fill queue. -/
  | first (j : Fin rings) (s1 s2 : List F)
  /-- The slice `s2` is left. -/
  | second (j : Fin rings) (s1 s2 : List F)
  /-- The slots of `n` entries of ring `j` are to be freed. -/
  | advance (j : Fin rings) (n : Nat)
  | stopped

/-- A thread: its buffer of descriptors and its place in the loop. -/
structure Thread (rings : Nat) (F : Type) where
  frames : List F
  pc : Pc rings F

/-- `frames[a..b]`. -/
def slice {F : Type} (frames : List F) (a b : Nat) : List F := (frames.take b).drop a

/-- `frames[..].swap(i, j)`. -/
def swap {F : Type} (frames : List F) (i j : Nat) : List F :=
  match frames[i]?, frames[j]? with
  | some a, some b => (frames.set i b).set j a
  | _, _ => frames

/-- The loop of `dataplane_core` over the received frames: a frame that is not transmitted is
swapped with the last one that still may be. `doTx` is the decision of the functions, by the number
of the turn. Returns the buffer and the number of frames to transmit. -/
def sortFrames {F : Type} (doTx : Nat → Bool) (turn : Nat) (frames : List F) (i numTx : Nat) :
    List F × Nat :=
  if i < numTx then
    if doTx turn then sortFrames doTx (turn + 1) frames (i + 1) numTx
    else sortFrames doTx (turn + 1) (swap frames i (numTx - 1)) i (numTx - 1)
  else (frames, numTx)
termination_by numTx - i

/-! ## The dataplane -/

/-- The state of the dataplane. -/
structure Umem (w : Wiring) (F : Type) where
  queue : Queue w → List F
  ring : Fin w.rings → Ring F
  thread : w.Tid → Thread w.rings F

/-- What a step of a thread leaves open. -/
structure Choice where
  /-- How many descriptors are taken from a queue, or accepted by one. -/
  count : Nat := 0
  doTx : Nat → Bool := fun _ => false
  /-- Whether the thread is told to stop. -/
  kill : Bool := false

inductive Action (w : Wiring) where
  /-- The kernel moves the `i`th frame of one of its queues to another one. -/
  | kernel (src dst : Queue w) (i : Nat)
  | thread (t : w.Tid) (c : Choice)

namespace Umem

variable {w : Wiring} {F : Type}

/-- All frames are in the fill queue, and their descriptors in the buffer of every thread. -/
def init (w : Wiring) (descs : List F) : Umem w F where
  queue
    | .fill => descs
    | _ => []
  ring _ := {}
  thread t :=
    { frames := descs, pc := if t = none ∧ w.mode = .firstThread then .stopped else .top }

def setThread (s : Umem w F) (t : w.Tid) (th : Thread w.rings F) : Umem w F :=
  { s with thread := Function.update s.thread t th }

/-- Move a thread to another place. -/
def goto (s : Umem w F) (t : w.Tid) (pc : Pc w.rings F) : Umem w F :=
  s.setThread t { s.thread t with pc := pc }

/-- Overwrite a part of a thread's buffer, from position `a` on. -/
def write (s : Umem w F) (t : w.Tid) (a : Nat) (got : List F) (pc : Pc w.rings F) : Umem w F :=
  s.setThread t
    { frames := (s.thread t).frames.take a ++ got ++ (s.thread t).frames.drop (a + got.length)
      pc := pc }

def setQueue (s : Umem w F) (q : Queue w) (l : List F) : Umem w F :=
  { s with queue := Function.update s.queue q l }

def setRing (s : Umem w F) (j : Fin w.rings) (r : Ring F) : Umem w F :=
  { s with ring := Function.update s.ring j r }

/-- `poll_and_consume` of a worker. -/
def pollAndConsume (s : Umem w F) (t : Fin w.cores) (n : Nat) : Option (Umem w F) :=
  if n ≤ (s.queue (.rx t)).length ∧ n ≤ (s.thread (some t)).frames.length then
    some ((s.setQueue (.rx t) ((s.queue (.rx t)).drop n)).write (some t) 0
      ((s.queue (.rx t)).take n) (.received n))
  else none

/-- `cq.consume(&mut frames[n..])`. -/
def reap (s : Umem w F) (t : w.Tid) (numTx n m : Nat) : Option (Umem w F) :=
  if m ≤ (s.queue .comp).length ∧ n + m ≤ (s.thread t).frames.length then
    some ((s.setQueue .comp ((s.queue .comp).drop m)).write t n ((s.queue .comp).take m)
      (.refill numTx (n + m)))
  else none

/-- Hand a slice to a queue, which accepts `k` descriptors. -/
def produceSome (A : Acceptance) (s : Umem w F) (t : w.Tid) (q : Queue w) (xs : List F) (k : Nat)
    (pc : Pc w.rings F) : Option (Umem w F) :=
  if A.produce (s.queue q).length xs.length k then
    some ((s.setQueue q (s.queue q ++ xs.take k)).goto t pc)
  else none

/-- Hand a slice to a ring, which accepts `k` descriptors. -/
def pushSome (A : Acceptance) (s : Umem w F) (t : w.Tid) (j : Fin w.rings) (xs : List F) (k : Nat)
    (pc : Pc w.rings F) : Option (Umem w F) :=
  if A.push (s.ring j).buf.length xs.length k then
    some ((s.setRing j ((s.ring j).pushSlice (xs.take k))).goto t pc)
  else none

def stepThread (cap : Nat) (A : Acceptance) (s : Umem w F) (t : w.Tid) (c : Choice) :
    Option (Umem w F) :=
  match (s.thread t).pc with
  | .top =>
    -- the extra thread looks for the signal at the end of its loop
    if c.kill then some (s.goto t .stopped)
    else
      match t with
      | none => some (s.goto t (.scan 0))
      | some i => s.pollAndConsume i c.count
  | .received n =>
    let r := sortFrames c.doTx 0 (s.thread t).frames 0 n
    some (s.setThread t { frames := r.1, pc := .send r.2 n })
  | .send numTx n =>
    match t with
    | none => none
    | some i =>
      s.produceSome A t (.tx i) (slice (s.thread t).frames 0 numTx) c.count (.dispose numTx n)
  | .dispose numTx n =>
    match w.role t with
    | .otherMediate j => s.pushSome A t j (slice (s.thread t).frames numTx n) c.count .top
    | _ => s.reap t numTx n c.count
  | .refill numTx n =>
    s.produceSome A t .fill (slice (s.thread t).frames numTx n) c.count
      (if w.role t = .selfMediate then .scan 0 else .top)
  | .scan j =>
    if h : j < w.rings then
      if (s.ring ⟨j, h⟩).buf = [] then some (s.goto t (.scan (j + 1)))
      else
        some (s.goto t (.first ⟨j, h⟩ ((s.ring ⟨j, h⟩).asSlices cap).1
          ((s.ring ⟨j, h⟩).asSlices cap).2))
    else some (s.goto t (if w.role t = .disposal then .dispose 0 0 else .top))
  | .first j s1 s2 => s.produceSome A t .fill s1 c.count (.second j s1 s2)
  | .second j s1 s2 => s.produceSome A t .fill s2 c.count (.advance j (s1.length + s2.length))
  | .advance j n => some ((s.setRing j ((s.ring j).advance n)).goto t (.scan (j.val + 1)))
  | .stopped => none

/-- The kernel moves a frame between its queues. -/
def stepKernel (s : Umem w F) (src dst : Queue w) (i : Nat) : Option (Umem w F) :=
  match (s.queue src)[i]? with
  | some f =>
    let s' := s.setQueue src ((s.queue src).eraseIdx i)
    some (s'.setQueue dst (s'.queue dst ++ [f]))
  | none => none

/-- One step of the dataplane. -/
def step (cap : Nat) (A : Acceptance) (s : Umem w F) : Action w → Option (Umem w F)
  | .kernel src dst i => s.stepKernel src dst i
  | .thread t c => s.stepThread cap A t c

end Umem

/-! ## Ownership -/

/-- Where a frame can be. -/
inductive Place (w : Wiring) where
  | queue (q : Queue w)
  | ring (j : Fin w.rings)
  /-- Received by a thread and not disposed of. -/
  | batch (t : w.Tid)
  deriving DecidableEq, Fintype

/-- The frames that a thread holds. -/
def Thread.batch {rings : Nat} {F : Type} (th : Thread rings F) : List F :=
  match th.pc with
  | .received n => slice th.frames 0 n
  | .send _ n => slice th.frames 0 n
  | .dispose numTx n => slice th.frames numTx n
  | .refill numTx n => slice th.frames numTx n
  | _ => []

/-- How many entries of a ring are in the fill queue already, but still have their slots. -/
def Pc.handed {rings : Nat} {F : Type} (pc : Pc rings F) (j : Fin rings) : Nat :=
  match pc with
  | .second i s1 _ => if i = j then s1.length else 0
  | .advance i n => if i = j then n else 0
  | _ => 0

namespace Umem

variable {w : Wiring} {F : Type}

/-- The entries of a ring that are in the fill queue already. -/
def handed (s : Umem w F) (j : Fin w.rings) : Nat := (s.thread w.drainer).pc.handed j

/-- Who owns which frames. -/
def owned (s : Umem w F) : Lib.Ledger (Place w) F
  | .queue q => s.queue q
  | .ring j => (s.ring j).buf.drop (s.handed j)
  | .batch t => (s.thread t).batch

/-- The slice that a thread is about to hand to a queue or ring. -/
def offered (s : Umem w F) (t : w.Tid) : List F :=
  match (s.thread t).pc with
  | .send numTx _ => slice (s.thread t).frames 0 numTx
  | .dispose numTx n =>
    match w.role t with
    | .otherMediate _ => slice (s.thread t).frames numTx n
    | _ => []
  | .refill numTx n => slice (s.thread t).frames numTx n
  | .first _ s1 _ => s1
  | .second _ _ s2 => s2
  | _ => []

/-- The place that the slice comes from. -/
def source (s : Umem w F) (t : w.Tid) : Place w :=
  match (s.thread t).pc with
  | .first j _ _ => .ring j
  | .second j _ _ => .ring j
  | _ => .batch t

/-- The part of the slice that is not accepted. -/
def rejected (s : Umem w F) : Action w → List F
  | .kernel _ _ _ => []
  | .thread t c => (s.offered t).drop c.count

/-- A slice is pushed to a ring with too few free slots, while entries of the ring are in the fill
queue already. -/
def PushesTooEarly (cap : Nat) (s : Umem w F) : Action w → Prop
  | .kernel _ _ _ => False
  | .thread t _ => ∃ numTx n j, (s.thread t).pc = .dispose numTx n ∧ w.role t = .otherMediate j ∧
      0 < s.handed j ∧ cap - (s.ring j).buf.length < (slice (s.thread t).frames numTx n).length

/-- The states that are reached from the start by steps that meet a condition. -/
inductive Reach (cap : Nat) (A : Acceptance) (ok : Umem w F → Action w → Prop) (descs : List F) :
    Umem w F → Prop where
  | init : Reach cap A ok descs (init w descs)
  | step {s s' : Umem w F} {a : Action w} (hs : Reach cap A ok descs s) (ha : ok s a)
      (h : s.step cap A a = some s') : Reach cap A ok descs s'

end Umem

/-- The number of frames, and of slots in every queue and ring. -/
def umemFrames : Nat := 2048

/-- The descriptor of a frame. -/
abbrev FrameDesc := Fin umemFrames

end Galette.Pulley
