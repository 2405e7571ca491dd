import Galette.Pulley.Proofs.BatchProofs
import Galette.Pulley.Proofs.FrameProofs
import Galette.Pulley.Shutdown
import Mathlib.Algebra.BigOperators.Ring.Finset

/-!
# Proofs: stopping the threads

With the signal on the bus every step of a thread brings it closer to its end: a call of a function
leads to one from which fewer functions can be reached, a turn of the outer loop leaves fewer
frames, and outside of `dataplane_core` a thread goes round its loop. A thread that has not stopped
can always step. One that has stopped holds no frames.
-/

namespace Galette.Pulley

open Galette.Lib Galette.Protocol

variable {w : Wiring} {σ F : Type} {cap : Nat} {A : Acceptance} {descs : List F} {endian : Endian}
  {st : ChainState} {dylibs : Uuid → Option (UserNf σ)}

/-! ## One step in `dataplane_core` -/

/-- Some turns of the outer loop over the first `n` frames of a buffer are done. -/
structure Turned (frames : List F) (n : Nat) (b : Batch σ F) : Prop where
  recvd : b.pktsRecvd = n
  le : b.numTx ≤ n
  length : b.frames.length = frames.length
  perm : (b.frames.take n).Perm (frames.take n)
  sorted : ∃ (turn : Nat) (doTx₀ : Nat → Bool), ∀ doTx, (∀ k < turn, doTx k = doTx₀ k) →
    sortFrames doTx 0 frames 0 n = sortFrames doTx turn b.frames b.i b.numTx

theorem turned_received (mem : Memory σ F) (frames : List F) (n : Nat) :
    Turned frames n ⟨mem, frames, 0, n, n⟩ :=
  ⟨rfl, le_refl n, rfl, .refl _, 0, fun _ => false, fun _ _ => rfl⟩

theorem Turned.withMem {frames : List F} {n : Nat} {b : Batch σ F} (h : Turned frames n b)
    (mem : Memory σ F) : Turned frames n { b with mem := mem } :=
  ⟨h.recvd, h.le, h.length, h.perm, h.sorted⟩

/-- One more turn. -/
theorem Turned.sort {frames : List F} {n : Nat} {b : Batch σ F} (h : Turned frames n b)
    (hlt : b.i < b.numTx) (mem : Memory σ F) (doTx : Bool) : Turned frames n (b.sort mem doTx) where
  recvd := by
    cases doTx with
    | true => exact h.recvd
    | false => exact h.recvd
  le := by
    cases doTx with
    | true => exact h.le
    | false => exact (Nat.sub_le _ _).trans h.le
  length := by
    cases doTx with
    | true => exact h.length
    | false => exact (swap_length _ _ _).trans h.length
  perm := by
    cases doTx with
    | true => exact h.perm
    | false =>
      have hle := h.le
      have hswap : (swap b.frames b.i (b.numTx - 1)).take n =
          swap (b.frames.take n) b.i (b.numTx - 1) :=
        take_swap (by omega) (by omega)
      show ((swap b.frames b.i (b.numTx - 1)).take n).Perm (frames.take n)
      rw [hswap]
      exact (swap_perm _ _ _).trans h.perm
  sorted := by
    obtain ⟨turn, doTx₀, hsorted⟩ := h.sorted
    refine ⟨turn + 1, Function.update doTx₀ turn doTx, fun doTx' hagree => ?_⟩
    have hturn : doTx' turn = doTx := by
      rw [hagree turn (Nat.lt_succ_self turn), Function.update_self]
    have hbefore : ∀ k < turn, doTx' k = doTx₀ k := by
      intro k hk
      rw [hagree k (by omega), Function.update_of_ne (by omega)]
    rw [hsorted doTx' hbefore, sortFrames_sort doTx' turn mem b hlt, hturn]

/-- The frame of the next turn is one of those that were received. -/
theorem Turned.exists_desc {frames : List F} {n : Nat} {b : Batch σ F} (h : Turned frames n b)
    (hlt : b.i < b.numTx) (hn : n ≤ frames.length) :
    ∃ desc ∈ frames.take n, b.frames[b.i]? = some desc := by
  have hle := h.le
  have hlen := h.length
  have hi : b.i < b.frames.length := by omega
  refine ⟨b.frames[b.i], h.perm.subset ?_, List.getElem?_eq_getElem hi⟩
  exact List.mem_take_iff_getElem.2 ⟨b.i, by omega, rfl⟩

theorem Batch.sort_remaining (b : Batch σ F) (mem : Memory σ F) (doTx : Bool) :
    (b.sort mem doTx).numTx - (b.sort mem doTx).i = b.numTx - b.i - 1 := by
  cases doTx with
  | true => simp only [Batch.sort, if_true]; omega
  | false => simp only [Batch.sort, Bool.false_eq_true, if_false]; omega

/-- A thread works through the first `n` frames of its buffer, and has not panicked. -/
inductive Core.Working (st : ChainState) (frames : List F) (n : Nat) : Core σ F → Prop where
  | next {b : Batch σ F} (h : Turned frames n b) : Working st frames n (.next b)
  | walking {b : Batch σ F} {desc : F} {s : σ} {src u : Uuid} {pkt : Bytes} (h : Turned frames n b)
      (hlt : b.i < b.numTx) (hsrc : Follows st src u) (hcycle : ¬ ReachesCycle (Follows st) u) :
      Working st frames n (.walking b desc (s, .user u pkt))
  | decided {b : Batch σ F} {desc : F} {s : σ} {doTx : Bool} {pkt : Bytes} (h : Turned frames n b)
      (hlt : b.i < b.numTx) : Working st frames n (.walking b desc (s, .sorted doTx pkt))
  | returned {mem : Memory σ F} {frames' : List F} {numTx : Nat} (doTx : Nat → Bool)
      (h : sortFrames doTx 0 frames 0 n = (frames', numTx)) :
      Working st frames n (.returned mem frames' numTx n)

/-- Only links follow. -/
theorem ServesLinks.mem_links (h : ServesLinks st dylibs) (u v : Uuid) (huv : Follows st u v) :
    v ∈ st.links := by
  obtain ⟨_, state, _, hstate, _⟩ := h u v huv
  exact List.mem_toFinset.2 (AList.lookup_isSome.1 (by rw [hstate]; rfl))

/-- A turn of the outer loop leaves one frame less. -/
theorem turn_left {b : Batch σ F} (hlt : b.i < b.numTx) {x turn : Nat} (hx : x < turn) :
    (b.numTx - b.i - 1) * turn + x < (b.numTx - b.i) * turn := by
  obtain ⟨k, hk⟩ : ∃ k, b.numTx - b.i = k + 1 := ⟨b.numTx - b.i - 1, by omega⟩
  rw [hk, Nat.add_sub_cancel, Nat.succ_mul]
  omega

/-- **Step lemma**: a thread that works through its batch is never stuck there, and has less left
after each step, whatever it finds in memory. -/
theorem Core.Working.step [DecidableEq F] {frames : List F} {n : Nat} {core : Core σ F}
    (h : core.Working st frames n) (hserves : ServesLinks st dylibs) (hn : n ≤ frames.length)
    {mem : Memory σ F} (hmem : ∀ f ∈ frames.take n, mem.Leads endian st f)
    (hlive : ∀ mem frames numTx n, core ≠ .returned mem frames numTx n) :
    ∃ o core', (dataplaneCore endian st dylibs).step (core.withMem mem) = some (o, core') ∧
      core'.Working st frames n ∧ core'.left st < core.left st := by
  have hlinks := hserves.mem_links
  cases h with
  | @next b hb =>
    by_cases hlt : b.i < b.numTx
    · obtain ⟨desc, hbatch, hdesc⟩ := hb.exists_desc hlt hn
      rcases hmem desc hbatch with hmeta | ⟨srcNf, act, u, hmeta, htarget, hcycle⟩
      · refine ⟨none, .next (Batch.sort { b with mem := mem } mem false), ?_,
          .next ((hb.withMem mem).sort hlt mem false), ?_⟩
        · simp [dataplaneCore, Core.withMem, coreStep, beginTurn, hlt, hdesc, hmeta]
        · have hturn : 0 < st.turnBound := by simp [ChainState.turnBound]
          have hless := turn_left hlt hturn
          simp only [Core.left, Batch.sort_remaining]
          omega
      · obtain ⟨src, hsrc⟩ := follows_of_upcallTarget htarget
        refine ⟨some desc, .walking { b with mem := mem } desc (mem.nfs, .user u (mem.data desc)), ?_,
          .walking (hb.withMem mem) hlt hsrc hcycle, ?_⟩
        · simp [dataplaneCore, Core.withMem, coreStep, beginTurn, hlt, hdesc, hmeta, htarget]
        · have hrank := rank_le (Follows st) st.links u
          have hturn : rank (Follows st) st.links u + 2 < st.turnBound := by
            unfold ChainState.turnBound
            omega
          have hless := turn_left hlt hturn
          simp only [Core.left]
          omega
    · obtain ⟨turn, doTx, hsorted⟩ := hb.sorted
      have hdone := hsorted doTx fun _ _ => rfl
      rw [sortFrames.eq_1 doTx turn b.frames, if_neg hlt] at hdone
      refine ⟨none, .returned mem b.frames b.numTx n, ?_, .returned doTx hdone, ?_⟩
      · simp [dataplaneCore, Core.withMem, coreStep, hlt, hb.recvd]
      · simp only [Core.left]
        omega
  | @walking b desc s src u pkt hb hlt hsrc hcycle =>
    obtain ⟨lib, state, hlib, hstate, hindices⟩ := hserves src u hsrc
    obtain ⟨action, haction⟩ := exists_userAction hstate
      fun els hels => hindices els hels mem.nfs pkt
    have hstep : (walkLoop st dylibs).step (mem.nfs, .user u pkt) = _ := walkLoop_step_lib hlib
    rw [haction] at hstep
    cases hnext : action.nextNf with
    | none =>
      rw [afterUser_final hnext] at hstep
      refine ⟨none, _, by simp only [dataplaneCore, Core.withMem, coreStep, hstep]; rfl,
        .decided (hb.withMem mem) hlt, ?_⟩
      simp only [Core.left]
      omega
    | some v =>
      obtain ⟨_, hstate', hact⟩ := Option.bind_eq_some_iff.1 haction
      have huv : Follows st u v := ⟨_, _, action, hstate', hact, hnext⟩
      rw [afterUser_next hnext] at hstep
      refine ⟨none, _, by simp only [dataplaneCore, Core.withMem, coreStep, hstep]; rfl,
        .walking (hb.withMem mem) hlt huv fun hv => hcycle (.of_rel huv hv), ?_⟩
      have hrank := rank_lt hlinks huv hcycle
      simp only [Core.left]
      omega
  | @decided b desc s doTx pkt hb hlt =>
    refine ⟨none, .next (Batch.sort { b with mem := mem } (mem.store desc mem.nfs pkt) doTx), rfl,
      .next ((hb.withMem mem).sort hlt _ doTx), ?_⟩
    simp only [Core.left, Batch.sort_remaining]
    omega
  | returned doTx hsorted => exact absurd rfl (hlive _ _ _ _)

/-! ## One step of a thread -/

namespace Umem

variable {s s' : Umem w F} {t : w.Tid} {c : Choice}

/-- A step that moves one thread. -/
structure Moves (s : Umem w F) (t : w.Tid) (pc : Pc w.rings F) (s' : Umem w F) : Prop where
  pc : (s'.thread t).pc = pc
  others : ∀ t', t' ≠ t → s'.thread t' = s.thread t'

theorem moves_update {pc : Pc w.rings F} {th : Thread w.rings F}
    (hthread : s'.thread = Function.update s.thread t th) (hpc : th.pc = pc) : s.Moves t pc s' where
  pc := by rw [hthread, Function.update_self, hpc]
  others t' ht' := by rw [hthread, Function.update_of_ne ht']

theorem moves_produceSome {q : Queue w} {xs : List F} {k : Nat} {pc : Pc w.rings F}
    (h : s.produceSome A t q xs k pc = some s') : s.Moves t pc s' := by
  unfold produceSome at h
  split at h
  · obtain rfl := Option.some.inj h
    exact moves_update rfl rfl
  · cases h

theorem moves_pushSome {j : Fin w.rings} {xs : List F} {k : Nat} {pc : Pc w.rings F}
    (h : s.pushSome A t j xs k pc = some s') : s.Moves t pc s' := by
  unfold pushSome at h
  split at h
  · obtain rfl := Option.some.inj h
    exact moves_update rfl rfl
  · cases h

theorem moves_reap {numTx n m : Nat} (h : s.reap t numTx n m = some s') :
    s.Moves t (.refill numTx (n + m)) s' := by
  unfold reap at h
  split at h
  · obtain rfl := Option.some.inj h
    exact moves_update rfl rfl
  · cases h

/-- A step of a thread goes round its loop. -/
theorem stepThread_next (h : s.stepThread cap A t c = some s') :
    ∃ pc, Next w t c.kill (s.thread t).pc pc ∧ s.Moves t pc s' := by
  cases hpc : (s.thread t).pc with
  | top =>
    simp only [stepThread, hpc] at h
    cases hkill : c.kill with
    | true =>
      rw [hkill, if_pos rfl] at h
      obtain rfl := Option.some.inj h
      exact ⟨_, .stop, moves_update rfl rfl⟩
    | false =>
      rw [hkill, if_neg Bool.false_ne_true] at h
      cases t with
      | none =>
        obtain rfl := Option.some.inj h
        exact ⟨_, .round rfl, moves_update rfl rfl⟩
      | some i =>
        simp only [pollAndConsume] at h
        split at h
        · obtain rfl := Option.some.inj h
          exact ⟨_, .poll _ (by simp), moves_update rfl rfl⟩
        · cases h
  | received n =>
    simp only [stepThread, hpc] at h
    obtain rfl := Option.some.inj h
    exact ⟨_, .sort _ _ _, moves_update rfl rfl⟩
  | send numTx n =>
    cases t with
    | none => simp [stepThread, hpc] at h
    | some i =>
      simp only [stepThread, hpc] at h
      exact ⟨_, .send _ _ _ (by simp), moves_produceSome h⟩
  | dispose numTx n =>
    cases hrole : w.role t with
    | otherMediate j =>
      simp only [stepThread, hpc, hrole] at h
      exact ⟨_, .push _ _ _ j hrole, moves_pushSome h⟩
    | solo =>
      simp only [stepThread, hpc, hrole] at h
      exact ⟨_, .reap _ _ _ _, moves_reap h⟩
    | selfMediate =>
      simp only [stepThread, hpc, hrole] at h
      exact ⟨_, .reap _ _ _ _, moves_reap h⟩
    | disposal =>
      simp only [stepThread, hpc, hrole] at h
      exact ⟨_, .reap _ _ _ _, moves_reap h⟩
  | refill numTx n =>
    simp only [stepThread, hpc] at h
    by_cases hrole : w.role t = .selfMediate
    · rw [if_pos hrole] at h
      exact ⟨_, .collect _ _ _ hrole, moves_produceSome h⟩
    · rw [if_neg hrole] at h
      exact ⟨_, .refill _ _ _ hrole, moves_produceSome h⟩
  | scan j =>
    simp only [stepThread, hpc] at h
    by_cases hj : j < w.rings
    · rw [dif_pos hj] at h
      split at h
      · obtain rfl := Option.some.inj h
        exact ⟨_, .skip _ _ hj, moves_update rfl rfl⟩
      · obtain rfl := Option.some.inj h
        exact ⟨_, .slices _ ⟨j, hj⟩ _ _, moves_update rfl rfl⟩
    · rw [dif_neg hj] at h
      obtain rfl := Option.some.inj h
      by_cases hrole : w.role t = .disposal
      · rw [if_pos hrole]
        exact ⟨_, .collected _ _ hrole, moves_update rfl rfl⟩
      · rw [if_neg hrole]
        exact ⟨_, .scanned _ _ hrole, moves_update rfl rfl⟩
  | first j s1 s2 =>
    simp only [stepThread, hpc] at h
    exact ⟨_, .first _ _ _ _, moves_produceSome h⟩
  | second j s1 s2 =>
    simp only [stepThread, hpc] at h
    exact ⟨_, .second _ _ _ _, moves_produceSome h⟩
  | advance j n =>
    simp only [stepThread, hpc] at h
    obtain rfl := Option.some.inj h
    exact ⟨_, .advance _ _ _, moves_update rfl rfl⟩
  | stopped => simp [stepThread, hpc] at h

end Umem

/-! ## The way to the end -/

/-- A step brings a thread that hears the signal closer to its end. -/
theorem Next.left_lt {t : w.Tid} {pc pc' : Pc w.rings F} {turn : Nat} (h : Next w t true pc pc') :
    pc'.left w t turn < pc.left w t turn := by
  cases h with
  | stop => exact Nat.zero_lt_one
  | sort _ numTx n => simp only [Pc.left]; omega
  | send _ numTx n ht => simp only [Pc.left]; split <;> omega
  | push _ numTx n j hrole => simp [Pc.left]
  | reap _ numTx n m => simp [Pc.left]
  | collect _ numTx n hrole =>
    have hno : w.role t ≠ .disposal := by simp [hrole]
    simp only [Pc.left, if_pos hrole, if_neg hno]
    omega
  | refill _ numTx n hrole => simp [Pc.left, hrole]
  | skip _ j hj => simp only [Pc.left]; omega
  | slices _ j s1 s2 => have := j.isLt; simp only [Pc.left]; omega
  | collected _ j hrole => simp [Pc.left, hrole]
  | scanned _ j hrole => simp only [Pc.left, if_neg hrole]; omega
  | first _ j s1 s2 => simp [Pc.left]
  | second _ j s1 s2 => simp [Pc.left]
  | advance _ j n => simp [Pc.left]

/-- The extra thread receives nothing. -/
def Pc.Extra {rings : Nat} : Pc rings F → Prop
  | .received _ | .send _ _ => False
  | _ => True

theorem Next.extra {kill : Bool} {pc pc' : Pc w.rings F} (h : Next w none kill pc pc')
    (hpc : pc.Extra) : pc'.Extra := by
  cases h with
  | poll n ht => exact absurd rfl ht
  | sort _ numTx n => exact hpc.elim
  | _ => trivial

namespace Umem

variable {s s' : Umem w F} {t : w.Tid} {c : Choice}

theorem stepKernel_thread {src dst : Queue w} {i : Nat} (h : s.stepKernel src dst i = some s') :
    s'.thread = s.thread := by
  unfold stepKernel at h
  split at h
  · obtain rfl := Option.some.inj h
    rfl
  · cases h

/-- The extra thread receives nothing, in any run. -/
theorem Reach.extra {ok : Umem w F → Action w → Prop} (hs : Reach cap A ok descs s) :
    (s.thread none).pc.Extra := by
  induction hs with
  | init =>
    have hpc : ((Umem.init w descs).thread none).pc =
        if w.mode = .firstThread then .stopped else .top := by
      simp [Umem.init]
    rw [hpc]
    split <;> trivial
  | @step s s' a _ _ h ih =>
    cases a with
    | kernel src dst i =>
      rw [stepKernel_thread h]
      exact ih
    | thread t c =>
      obtain ⟨pc, hnext, hmoves⟩ := stepThread_next h
      cases t with
      | none =>
        rw [hmoves.pc]
        exact hnext.extra ih
      | some i =>
        rw [hmoves.others none (by simp)]
        exact ih

/-! ## No thread is stuck -/

end Umem

/-! ## Runs -/

namespace Dataplane

variable {s s' : Dataplane w σ F} {t : w.Tid} {c : Choice} {mem : Memory σ F}

/-- Threads that are in `dataplane_core` work through the frames that they have received. -/
structure Inv (cap : Nat) (A : Acceptance) (descs : List F) (st : ChainState)
    (s : Dataplane w σ F) : Prop where
  reach : Umem.Reach cap A (fun _ _ => True) descs s.umem
  working : ∀ t core, s.core t = some core →
    ∃ n, (s.umem.thread t).pc = .received n ∧ core.Working st (s.umem.thread t).frames n

/-- What a thread has received. -/
theorem batch_of_received {n : Nat} (hpc : (s.umem.thread t).pc = .received n) :
    (s.umem.thread t).batch = (s.umem.thread t).frames.take n := by
  rw [Thread.batch, hpc]
  rfl

theorem Inv.received_le (hI : s.Inv cap A descs st) {n : Nat}
    (hpc : (s.umem.thread t).pc = .received n) : n ≤ (s.umem.thread t).frames.length := by
  have hb := hI.reach.sound.1.bounds t
  rwa [Thread.InBounds, hpc] at hb

theorem leftAt_congr (hcore : s'.core t = s.core t)
    (hthread : s'.umem.thread t = s.umem.thread t) : s'.leftAt st t = s.leftAt st t := by
  unfold leftAt
  rw [hcore, hthread]

theorem left_lt_of_leftAt (hlt : s'.leftAt st t < s.leftAt st t)
    (hothers : ∀ t', t' ≠ t → s'.leftAt st t' = s.leftAt st t') : s'.left st < s.left st := by
  refine Finset.sum_lt_sum (fun t' _ => ?_) ⟨t, Finset.mem_univ t, hlt⟩
  by_cases ht : t' = t
  · rw [ht]
    exact hlt.le
  · rw [hothers t' ht]

variable [DecidableEq F]

/-- A step of a thread: it begins with its batch, goes round its loop, is done with its batch, or is
in the middle of it. -/
theorem stepThread_cases (h : s.stepThread endian st dylibs cap A t c mem = some s') :
    (∃ n, s.core t = none ∧ (s.umem.thread t).pc = .received n ∧
      s' = s.setCore t (some (.received mem (s.umem.thread t).frames n))) ∨
    (∃ u, s.core t = none ∧ (∀ n, (s.umem.thread t).pc ≠ .received n) ∧
      s.umem.stepThread cap A t { c with kill := s.signal } = some u ∧ s' = { s with umem := u }) ∨
    (∃ mem' frames numTx n, s.core t = some (.returned mem' frames numTx n) ∧
      s' = { s.setCore t none with umem := s.umem.setThread t ⟨frames, .send numTx n⟩ }) ∨
    ∃ core o core', s.core t = some core ∧
      (∀ mem frames numTx n, core ≠ .returned mem frames numTx n) ∧
      (dataplaneCore endian st dylibs).step (core.withMem mem) = some (o, core') ∧
      s' = s.setCore t (some core') := by
  unfold stepThread at h
  split at h
  · rename_i hcore
    split at h
    · rename_i n hpc
      exact Or.inl ⟨n, hcore, hpc, (Option.some.inj h).symm⟩
    · rename_i hpc
      obtain ⟨u, hu, rfl⟩ := Option.map_eq_some_iff.1 h
      exact Or.inr (Or.inl ⟨u, hcore, hpc, hu, rfl⟩)
  · rename_i mem' frames numTx n hcore
    exact Or.inr (Or.inr (Or.inl ⟨mem', frames, numTx, n, hcore, (Option.some.inj h).symm⟩))
  · rename_i core hlive hcore
    obtain ⟨⟨o, core'⟩, hstep, rfl⟩ := Option.map_eq_some_iff.1 h
    exact Or.inr (Or.inr (Or.inr ⟨core, o, core', hcore,
      fun mem frames numTx n he => hlive mem frames numTx n he, hstep, rfl⟩))

/-- **Step lemma**: the invariant of a thread. -/
theorem Inv.stepThread (hI : s.Inv cap A descs st) (hserves : ServesLinks st dylibs)
    (hmem : ∀ f ∈ (s.umem.thread t).batch, mem.Leads endian st f)
    (h : s.stepThread endian st dylibs cap A t c mem = some s') :
    s'.Inv cap A descs st := by
  rcases stepThread_cases h with ⟨n, hcore, hpc, rfl⟩ | ⟨u, hcore, hpc, hu, rfl⟩ |
    ⟨mem', frames, numTx, n, hcore, rfl⟩ | ⟨core, o, core', hcore, hlive, hstep, rfl⟩
  · refine ⟨hI.reach, fun t' core' hcore' => ?_⟩
    by_cases ht : t' = t
    · subst ht
      simp only [setCore, Function.update_self, Option.some.injEq] at hcore'
      subst hcore'
      exact ⟨n, hpc, .next (turned_received mem _ n)⟩
    · simp only [setCore, Function.update_of_ne ht] at hcore'
      exact hI.working t' core' hcore'
  · obtain ⟨pc, -, hmoves⟩ := Umem.stepThread_next hu
    refine ⟨hI.reach.step (a := .thread t _) trivial hu, fun t' core' hcore' => ?_⟩
    have ht : t' ≠ t := by
      rintro rfl
      rw [hcore] at hcore'
      cases hcore'
    rw [hmoves.others t' ht]
    exact hI.working t' core' hcore'
  · obtain ⟨n', hpc, hworking⟩ := hI.working t _ hcore
    cases hworking with
    | returned doTx hsorted =>
      have hu : s.umem.stepThread cap A t { doTx := doTx } =
          some (s.umem.setThread t ⟨frames, .send numTx n⟩) := by
        simp only [Umem.stepThread, hpc, hsorted]
      refine ⟨hI.reach.step (a := .thread t { doTx := doTx }) trivial hu, fun t' core' hcore' => ?_⟩
      by_cases ht : t' = t
      · subst ht
        simp only [setCore, Function.update_self] at hcore'
        cases hcore'
      · simp only [setCore, Function.update_of_ne ht] at hcore'
        simp only [Umem.setThread, Function.update_of_ne ht]
        exact hI.working t' core' hcore'
  · obtain ⟨n, hpc, hworking⟩ := hI.working t core hcore
    obtain ⟨o', core'', hstep', hworking', -⟩ :=
      hworking.step hserves (hI.received_le hpc) (batch_of_received hpc ▸ hmem) hlive
    obtain ⟨rfl, rfl⟩ := Prod.mk.inj (Option.some.inj (hstep.symm.trans hstep'))
    refine ⟨hI.reach, fun t' core hcore' => ?_⟩
    by_cases ht : t' = t
    · subst ht
      simp only [setCore, Function.update_self, Option.some.injEq] at hcore'
      subst hcore'
      exact ⟨n, hpc, hworking'⟩
    · simp only [setCore, Function.update_of_ne ht] at hcore'
      exact hI.working t' core hcore'

/-- **Step lemma**: a step of a thread that hears the signal leaves less to do. -/
theorem Inv.left_lt (hI : s.Inv cap A descs st) (hserves : ServesLinks st dylibs)
    (hmem : ∀ f ∈ (s.umem.thread t).batch, mem.Leads endian st f) (hsignal : s.signal = true)
    (h : s.stepThread endian st dylibs cap A t c mem = some s') : s'.left st < s.left st := by
  rcases stepThread_cases h with ⟨n, hcore, hpc, rfl⟩ | ⟨u, hcore, hpc, hu, rfl⟩ |
    ⟨mem', frames, numTx, n, hcore, rfl⟩ | ⟨core, o, core', hcore, hlive, hstep, rfl⟩
  · refine left_lt_of_leftAt (t := t) ?_ fun t' ht =>
      leftAt_congr (by simp only [setCore, Function.update_of_ne ht]) rfl
    simp only [leftAt, setCore, Function.update_self, hcore, hpc, Core.received, Core.left, Pc.left,
      Nat.sub_zero]
    omega
  · obtain ⟨pc, hnext, hmoves⟩ := Umem.stepThread_next hu
    refine left_lt_of_leftAt (t := t) ?_ fun t' ht => leftAt_congr rfl (hmoves.others t' ht)
    simp only [hsignal] at hnext
    simp only [leftAt, hcore, hmoves.pc]
    exact hnext.left_lt
  · refine left_lt_of_leftAt (t := t) ?_ fun t' ht => leftAt_congr
      (by simp only [setCore, Function.update_of_ne ht])
      (by simp only [Umem.setThread, Function.update_of_ne ht])
    simp only [leftAt, setCore, Umem.setThread, Function.update_self, hcore, Core.left, Pc.left]
    omega
  · obtain ⟨n, hpc, hworking⟩ := hI.working t core hcore
    obtain ⟨o', core'', hstep', -, hless⟩ :=
      hworking.step hserves (hI.received_le hpc) (batch_of_received hpc ▸ hmem) hlive
    obtain ⟨rfl, rfl⟩ := Prod.mk.inj (Option.some.inj (hstep.symm.trans hstep'))
    refine left_lt_of_leftAt (t := t) ?_ fun t' ht =>
      leftAt_congr (by simp only [setCore, Function.update_of_ne ht]) rfl
    simp only [leftAt, setCore, Function.update_self, hcore]
    omega

/-- What an event does to the invariant, the signal and what is left. -/
structure After (cap : Nat) (A : Acceptance) (descs : List F) (st : ChainState)
    (s : Dataplane w σ F) (e : Event w σ F) (s' : Dataplane w σ F) : Prop where
  inv : s'.Inv cap A descs st
  signal : s.signal = true → s'.signal = true
  thread : s.signal = true → e.IsThread → s'.left st < s.left st
  other : ¬ e.IsThread → s'.left st ≤ s.left st

theorem stepThread_signal (h : s.stepThread endian st dylibs cap A t c mem = some s') :
    s'.signal = s.signal := by
  rcases stepThread_cases h with ⟨n, _, _, rfl⟩ | ⟨u, _, _, _, rfl⟩ | ⟨mem', frames, numTx, n, _, rfl⟩ |
    ⟨core, o, core', _, _, _, rfl⟩ <;> rfl

/-- **Step lemma**: events that go well. -/
theorem Inv.step (hI : s.Inv cap A descs st) (hserves : ServesLinks st dylibs) {e : Event w σ F}
    (he : s.Smooth endian st e) (h : s.step endian st dylibs cap A e = some s') :
    After cap A descs st s e s' := by
  cases e with
  | broadcast =>
    simp only [Dataplane.step] at h
    split at h
    · cases h
    · obtain rfl := Option.some.inj h
      exact ⟨⟨hI.reach, hI.working⟩, fun _ => rfl, fun _ hthread => hthread.elim, fun _ => le_refl _⟩
  | kernel src dst i =>
    obtain ⟨u, hu, rfl⟩ := Option.map_eq_some_iff.1 h
    have hthread := Umem.stepKernel_thread hu
    refine ⟨⟨hI.reach.step (a := .kernel src dst i) trivial hu, fun t core hcore => ?_⟩, id,
      fun _ hthread => hthread.elim, fun _ => ?_⟩
    · simp only [hthread]
      exact hI.working t core hcore
    · refine le_of_eq (Finset.sum_congr rfl fun t _ => leftAt_congr rfl ?_)
      rw [hthread]
  | thread t c mem =>
    have hsame := stepThread_signal h
    exact ⟨hI.stepThread hserves he h, fun hsignal => hsame.trans hsignal,
      fun hsignal _ => hI.left_lt hserves he hsignal h, fun hno => absurd trivial hno⟩
  | fail t => exact he.elim

end Dataplane

end Galette.Pulley
