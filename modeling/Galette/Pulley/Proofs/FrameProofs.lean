import Galette.Pulley.Proofs.UmemProofs

/-!
# Proofs: runs of the dataplane

Over whole runs: no frame ever has two owners, whatever the queues and rings accept. A frame is lost
only by a push to a ring between the refill from that ring and the `advance` that frees its slots:
in between a worker can find the ring full of entries that are elsewhere already.
-/

namespace Galette.Pulley.Umem

open Galette.Lib

variable {w : Wiring} {F : Type} {cap : Nat} {A : Acceptance} {ok : Umem w F → Action w → Prop}
  {descs : List F} {s s' : Umem w F}

/-! ## One worker and the extra thread -/

/-- One worker and the extra thread. -/
def leakWiring : Wiring := ⟨.extraThread, 1, Nat.one_pos⟩

def leakWorker : Fin leakWiring.cores := ⟨0, Nat.one_pos⟩

theorem eq_leakWorker (i : Fin leakWiring.cores) : i = leakWorker :=
  Fin.ext (Nat.lt_one_iff.1 i.isLt)

def leakRing : Fin leakWiring.rings := ⟨0, Nat.one_pos⟩

theorem eq_leakRing (j : Fin leakWiring.rings) : j = leakRing := Fin.ext (Nat.lt_one_iff.1 j.isLt)

/-- The states of this run: all frames are in the fill queue, the rx queue, the ring, or with the
worker. -/
def shape (fill rx : List F) (ring : Ring F) (worker extra : Thread leakWiring.rings F) :
    Umem leakWiring F where
  queue
    | .fill => fill
    | .rx _ => rx
    | _ => []
  ring _ := ring
  thread
    | some _ => worker
    | none => extra

section Shape

variable {fill rx : List F} {ring : Ring F} {worker extra : Thread leakWiring.rings F}

theorem shape_setFill (l : List F) :
    (shape fill rx ring worker extra).setQueue .fill l = shape l rx ring worker extra := by
  unfold setQueue shape
  congr 1
  funext q
  cases q <;> rfl

theorem shape_setRx (l : List F) : (shape fill rx ring worker extra).setQueue (.rx leakWorker) l =
    shape fill l ring worker extra := by
  unfold setQueue shape
  congr 1
  funext q
  cases q with
  | rx i =>
    rw [eq_leakWorker i]
    simp
  | _ => rfl

theorem shape_setTx : (shape fill rx ring worker extra).setQueue (.tx leakWorker) [] =
    shape fill rx ring worker extra := by
  unfold setQueue shape
  congr 1
  funext q
  cases q with
  | tx i =>
    rw [eq_leakWorker i]
    simp
  | _ => rfl

theorem shape_setRing (r : Ring F) : (shape fill rx ring worker extra).setRing leakRing r =
    shape fill rx r worker extra := by
  unfold setRing shape
  congr 1
  funext j
  rw [eq_leakRing j]
  simp

theorem shape_setWorker (th : Thread leakWiring.rings F) :
    (shape fill rx ring worker extra).setThread (some leakWorker) th =
      shape fill rx ring th extra := by
  unfold setThread shape
  congr 1
  funext t
  cases t with
  | none => rfl
  | some i =>
    rw [eq_leakWorker i]
    simp

theorem shape_setExtra (th : Thread leakWiring.rings F) :
    (shape fill rx ring worker extra).setThread none th = shape fill rx ring worker th := by
  unfold setThread shape
  congr 1
  funext t
  cases t <;> rfl

theorem shape_init (descs : List F) :
    init leakWiring descs = shape descs [] {} ⟨descs, .top⟩ ⟨descs, .top⟩ := by
  unfold init shape
  congr 1
  · funext q
    cases q <;> rfl
  · funext t
    cases t <;> rfl

variable {ok : Umem leakWiring F → Action leakWiring → Prop} {frames : List F}

/-- The kernel receives packets. -/
theorem Reach.deliver (hok : ∀ s a, s.thread none = extra → ok s a) (xs : List F)
    (hs : Reach cap A ok descs (shape (xs ++ fill) rx ring worker extra)) :
    Reach cap A ok descs (shape fill (rx ++ xs) ring worker extra) := by
  induction xs generalizing rx with
  | nil => simpa using hs
  | cons x xs ih =>
    have hstep : (shape (x :: xs ++ fill) rx ring worker extra).step cap A
        (.kernel .fill (.rx leakWorker) 0) =
          some (shape (xs ++ fill) (rx ++ [x]) ring worker extra) := by
      show some _ = some _
      rw [shape_setFill, shape_setRx]
      rfl
    simpa using ih (hs.step (hok _ _ rfl) hstep)

theorem sortFrames_drop (turn : Nat) (frames : List F) (n : Nat) :
    (sortFrames (fun _ => false) turn frames 0 n).2 = 0 := by
  induction n generalizing turn frames with
  | zero => rw [sortFrames, if_neg (Nat.lt_irrefl 0)]
  | succ n ih =>
    rw [sortFrames, if_pos (Nat.succ_pos n), if_neg Bool.false_ne_true]
    exact ih _ _

/-- The worker drops all packets that it has received. -/
theorem Reach.dropAll (hok : ∀ s a, s.thread none = extra → ok s a)
    (hrx : rx.length ≤ frames.length)
    (hs : Reach cap (.exact cap) ok descs (shape fill rx ring ⟨frames, .top⟩ extra)) :
    ∃ frames' ys : List F, frames'.length = frames.length ∧ ys.Perm rx ∧
      Reach cap (.exact cap) ok descs
        (shape fill [] (ring.pushSlice (ys.take (cap - ring.buf.length))) ⟨frames', .top⟩ extra) := by
  let frames₁ := rx ++ frames.drop rx.length
  let frames₂ := (sortFrames (fun _ => false) 0 frames₁ 0 rx.length).1
  obtain ⟨hlen, -, hperm⟩ := sortFrames_spec (fun _ => false) 0 frames₁ 0 rx.length (le_refl _)
  have htake : frames₁.take rx.length = rx := by simp [frames₁]
  rw [htake] at hperm
  have hpoll : (shape fill rx ring ⟨frames, .top⟩ extra).step cap (.exact cap)
      (.thread (some leakWorker) { count := rx.length }) =
        some (shape fill [] ring ⟨frames₁, .received rx.length⟩ extra) := by
    show pollAndConsume _ leakWorker rx.length = _
    unfold pollAndConsume
    rw [if_pos ⟨le_refl _, hrx⟩, write, shape_setRx, shape_setWorker]
    simp [shape, frames₁]
  have hsort : (shape fill [] ring ⟨frames₁, .received rx.length⟩ extra).step cap (.exact cap)
      (.thread (some leakWorker) {}) =
        some (shape fill [] ring ⟨frames₂, .send 0 rx.length⟩ extra) := by
    show some (setThread _ _ ⟨_, .send (sortFrames (fun _ => false) 0 frames₁ 0 rx.length).2 _⟩) = _
    rw [shape_setWorker, sortFrames_drop]
    rfl
  have hsend : (shape fill [] ring ⟨frames₂, .send 0 rx.length⟩ extra).step cap (.exact cap)
      (.thread (some leakWorker) {}) =
        some (shape fill [] ring ⟨frames₂, .dispose 0 rx.length⟩ extra) := by
    show (if decide (0 = if 0 ≤ cap then 0 else 0) = true then
      some (goto (setQueue _ (.tx leakWorker) []) _ _) else none) = _
    rw [if_pos (by simp), shape_setTx, goto, shape_setWorker]
    rfl
  have hpush : (shape fill [] ring ⟨frames₂, .dispose 0 rx.length⟩ extra).step cap (.exact cap)
      (.thread (some leakWorker) { count := min rx.length (cap - ring.buf.length) }) =
        some (shape fill [] (ring.pushSlice ((frames₂.take rx.length).take (cap - ring.buf.length)))
          ⟨frames₂, .top⟩ extra) := by
    have hfits : (Acceptance.exact cap).push ring.buf.length (frames₂.take rx.length).length
        (min rx.length (cap - ring.buf.length)) = true := by
      rw [hperm.length_eq]
      exact decide_eq_true rfl
    have htaken : (frames₂.take rx.length).take (min rx.length (cap - ring.buf.length)) =
        (frames₂.take rx.length).take (cap - ring.buf.length) := by
      rw [List.take_eq_take_iff, hperm.length_eq]
      omega
    refine (if_pos hfits).trans ?_
    show some (goto (setRing _ leakRing (ring.pushSlice
      ((frames₂.take rx.length).take (min rx.length (cap - ring.buf.length))))) _ _) = _
    rw [htaken, shape_setRing, goto, shape_setWorker]
    rfl
  refine ⟨frames₂, frames₂.take rx.length, ?_, hperm, ?_⟩
  · rw [hlen]
    simp [frames₁]
    omega
  · exact (((hs.step (hok _ _ rfl) hpoll).step (hok _ _ rfl) hsort).step (hok _ _ rfl) hsend).step
      (hok _ _ rfl) hpush

/-- The extra thread hands the contents of the ring to the fill queue, and is about to free the
slots. -/
theorem Reach.refillAll (hok : ∀ s a, ok s a) (hring : ring.head = 0) (hne : ring.buf ≠ [])
    (hfill : fill.length + ring.buf.length ≤ cap)
    (hs : Reach cap (.exact cap) ok descs (shape fill rx ring worker ⟨frames, .top⟩)) :
    Reach cap (.exact cap) ok descs (shape (fill ++ ring.buf) rx ring worker
      ⟨frames, .advance leakRing ring.buf.length⟩) := by
  have hslices : ring.asSlices cap = (ring.buf, []) := by
    unfold Ring.asSlices
    rw [hring, Nat.zero_mod, Nat.sub_zero, List.take_of_length_le (by omega),
      List.drop_of_length_le (by omega)]
  have hstart : (shape fill rx ring worker ⟨frames, .top⟩).step cap (.exact cap) (.thread none {}) =
      some (shape fill rx ring worker ⟨frames, .scan 0⟩) := by
    show some (goto _ _ _) = _
    rw [goto, shape_setExtra]
    rfl
  have hscan : (shape fill rx ring worker ⟨frames, .scan 0⟩).step cap (.exact cap)
      (.thread none {}) = some (shape fill rx ring worker ⟨frames, .first leakRing ring.buf []⟩) := by
    show (if ring.buf = [] then _ else some (goto _ none (.first leakRing (ring.asSlices cap).1
      (ring.asSlices cap).2))) = _
    rw [if_neg hne, hslices, goto, shape_setExtra]
    rfl
  have hfirst : (shape fill rx ring worker ⟨frames, .first leakRing ring.buf []⟩).step cap
      (.exact cap) (.thread none { count := ring.buf.length }) =
        some (shape (fill ++ ring.buf) rx ring worker ⟨frames, .second leakRing ring.buf []⟩) := by
    show produceSome _ _ _ _ ring.buf ring.buf.length _ = _
    unfold produceSome
    rw [if_pos (by simp [Acceptance.exact, shape, hfill]), shape_setFill, goto, shape_setExtra,
      List.take_length]
    rfl
  have hsecond : (shape (fill ++ ring.buf) rx ring worker ⟨frames, .second leakRing ring.buf []⟩).step
      cap (.exact cap) (.thread none {}) =
        some (shape (fill ++ ring.buf) rx ring worker
          ⟨frames, .advance leakRing ring.buf.length⟩) := by
    show produceSome _ _ _ _ [] 0 _ = _
    unfold produceSome
    rw [if_pos (by simp [Acceptance.exact]), shape_setFill, goto, shape_setExtra, List.take_nil,
      show (shape (fill ++ ring.buf) rx ring worker _).queue .fill = fill ++ ring.buf from rfl,
      List.append_nil]
    rfl
  exact (((hs.step (hok _ _) hstart).step (hok _ _) hscan).step (hok _ _) hfirst).step (hok _ _)
    hsecond

/-- All packets are dropped: all frames are in the ring. -/
theorem exists_dropped (descs : List F) (ok : Umem leakWiring F → Action leakWiring → Prop)
    (hok : ∀ s a, s.thread none = ⟨descs, .top⟩ → ok s a) :
    ∃ frames ys : List F, frames.length = descs.length ∧ ys.Perm descs ∧
      Reach descs.length (.exact descs.length) ok descs
        (shape [] [] { buf := ys } ⟨frames, .top⟩ ⟨descs, .top⟩) := by
  have hinit : Reach descs.length (.exact descs.length) ok descs
      (shape (descs ++ []) [] {} ⟨descs, .top⟩ ⟨descs, .top⟩) := by
    rw [List.append_nil, ← shape_init]
    exact .init
  obtain ⟨frames, ys, hlen, hperm, hs⟩ := (hinit.deliver hok descs).dropAll hok (le_refl _)
  have hall : ys.take descs.length = ys := List.take_of_length_le (le_of_eq hperm.length_eq)
  exact ⟨frames, ys, hlen, hperm, by simpa [Ring.pushSlice, hall] using hs⟩

/-- A frame is dropped while the ring is full of entries that are in the fill queue again: it is
lost. -/
theorem exists_lost (hne : descs ≠ []) (hnodup : descs.Nodup) :
    ∃ y, ∃ s : Umem leakWiring F, Reach descs.length (.exact descs.length) (fun _ _ => True) descs s ∧
      ∀ p, y ∉ s.owned p := by
  obtain ⟨frames, ys, hlen, hperm, hs⟩ :=
    exists_dropped descs (fun _ _ => True) (fun _ _ _ => trivial)
  have hys : ys ≠ [] := by
    rintro rfl
    exact hne hperm.nil_eq.symm
  obtain ⟨y, ys, rfl⟩ := List.exists_cons_of_ne_nil hys
  have hfull := hs.refillAll (fun _ _ => trivial) rfl (List.cons_ne_nil y ys)
    (by simp [← hperm.length_eq])
  obtain ⟨frames', zs, -, -, hlost⟩ :=
    (hfull.deliver (fun _ _ _ => trivial) [y]).dropAll (fun _ _ _ => trivial)
      (by rw [hlen, ← hperm.length_eq]; simp)
  refine ⟨y, _, hlost, fun p => ?_⟩
  have hy : y ∉ ys := (List.nodup_cons.1 (hperm.nodup_iff.2 hnodup)).1
  cases p with
  | queue q => cases q <;> simp [owned, shape, hy]
  | ring j =>
    rw [eq_leakRing j, ← hperm.length_eq, Nat.sub_self]
    show y ∉ (((y :: ys ++ []).drop (if leakRing = leakRing then (y :: ys).length else 0) :
      List F) : Multiset F)
    rw [if_pos rfl, List.drop_left]
    exact Multiset.notMem_zero y
  | batch t => cases t <;> simp [owned, shape, Thread.batch]

end Shape

/-! ## Ownership -/

theorem owned_init (w : Wiring) (descs : List F) : (init w descs).owned.total = descs := by
  have hothers : ∀ p ∈ Finset.univ, p ≠ Place.queue Queue.fill → (init w descs).owned p = 0 := by
    intro p _ hp
    cases p with
    | queue q =>
      cases q with
      | fill => exact absurd rfl hp
      | _ => rfl
    | ring j => simp [owned, init]
    | batch t =>
      simp only [owned, Thread.batch, init]
      split <;> rename_i hpc <;> split at hpc <;> first | cases hpc | rfl
  rw [Ledger.total, Finset.sum_eq_single (Place.queue Queue.fill) hothers
    (fun h => absurd (Finset.mem_univ _) h)]
  rfl

/-- A run keeps the invariant, and never makes a second owner. -/
theorem Reach.sound (hs : Reach cap A ok descs s) :
    s.Inv ∧ s.owned.total ≤ (descs : Multiset F) := by
  induction hs with
  | init => exact ⟨inv_init w descs, le_of_eq (owned_init w descs)⟩
  | step _ _ h ih =>
    obtain ⟨hI, htotal⟩ := step_sound ih.1 h
    refine ⟨hI, le_trans ?_ ih.2⟩
    rw [htotal]
    exact Multiset.le_add_right _ _

/-- **No frame has two owners.** In every state that the dataplane reaches, every frame is at most
once in all queues, batches and rings together, and what a thread is about to hand over it owns. -/
theorem frames_owned_once {s : Umem w FrameDesc}
    (hs : Reach umemFrames A (fun _ _ => True) (List.finRange umemFrames) s) :
    (∀ f, s.owned.total.count f ≤ 1) ∧
      ∀ t, (s.offered t : Multiset FrameDesc) ≤ s.owned (s.source t) := by
  obtain ⟨hI, htotal⟩ := hs.sound
  refine ⟨fun f => ?_, hI.offered_le⟩
  have hnodup : (List.finRange umemFrames : Multiset FrameDesc).Nodup :=
    Multiset.coe_nodup.2 (List.nodup_finRange _)
  exact Multiset.nodup_iff_count_le_one.1 (Multiset.nodup_of_le htotal hnodup) f

/-- It is so after all frames went once through the ring, and all buffers are stale. -/
theorem frames_owned_once_after_drop : ∃ s : Umem leakWiring FrameDesc,
    ((s.ring leakRing).buf.Perm (List.finRange umemFrames) ∧ (s.thread (some leakWorker)).frames ≠ []) ∧
      (∀ f, s.owned.total.count f ≤ 1) ∧
        ∀ t, (s.offered t : Multiset FrameDesc) ≤ s.owned (s.source t) := by
  obtain ⟨frames, ys, hlen, hperm, hs⟩ :=
    exists_dropped (List.finRange umemFrames) (fun _ _ => True) (fun _ _ _ => trivial)
  rw [List.length_finRange] at hlen hs
  refine ⟨_, ⟨hperm, ?_⟩, frames_owned_once hs⟩
  rintro rfl
  cases hlen

/-! ## Capacity -/

/-- A slice fits into a queue, because both are made of different frames. -/
theorem Inv.fits_queue (hI : s.Inv) (q : Queue w) (t : w.Tid) :
    (s.queue q).length + (s.offered t).length ≤ s.owned.total.card := by
  have hne : Place.queue q ≠ s.source t := by
    unfold source
    split <;> simp
  have hle := Multiset.card_le_card (s.owned.add_le_total hne)
  have hoff := Multiset.card_le_card (hI.offered_le t)
  rw [Multiset.card_add] at hle
  simp only [owned, Multiset.coe_card] at hle hoff ⊢
  omega

/-- A slice fits into a ring, if none of its entries is elsewhere. -/
theorem Inv.fits_ring (hI : s.Inv) {j : Fin w.rings} {t : w.Tid} (hj : s.handed j = 0)
    (hsrc : s.source t = .batch t) :
    (s.ring j).buf.length + (s.offered t).length ≤ s.owned.total.card := by
  have hne : Place.ring j ≠ .batch t := by simp
  have hle := Multiset.card_le_card (s.owned.add_le_total hne)
  have hoff := Multiset.card_le_card (hI.offered_le t)
  rw [Multiset.card_add] at hle
  rw [hsrc] at hoff
  simp only [owned, hj, List.drop_zero, Multiset.coe_card] at hle hoff ⊢
  omega

/-- A slice that fits into a queue is accepted as a whole. -/
theorem rejected_of_produceSome {t : w.Tid} {c : Choice} {q : Queue w} {xs : List F}
    {pc : Pc w.rings F} (hoff : s.offered t = xs)
    (hfit : (s.queue q).length + (s.offered t).length ≤ cap)
    (h : s.produceSome (.exact cap) t q xs c.count pc = some s') :
    s.rejected (.thread t c) = [] := by
  subst hoff
  unfold produceSome at h
  split at h
  · rename_i hk
    have hcount : c.count = (s.offered t).length := by simpa [Acceptance.exact, hfit] using hk
    simp [rejected, hcount]
  · cases h

theorem count_of_pushSome {t : w.Tid} {j : Fin w.rings} {xs : List F} {k : Nat}
    {pc : Pc w.rings F} (h : s.pushSome (.exact cap) t j xs k pc = some s') :
    k = min xs.length (cap - (s.ring j).buf.length) := by
  unfold pushSome at h
  split at h
  · rename_i hk
    simpa [Acceptance.exact] using hk
  · cases h

/-- A slice that is not pushed too early fits into its ring. -/
theorem Inv.fits_push {t : w.Tid} {c : Choice} {numTx n : Nat} {j : Fin w.rings} (hI : s.Inv)
    (hcard : s.owned.total.card ≤ cap) (hok : ¬ s.PushesTooEarly cap (.thread t c))
    (hpc : (s.thread t).pc = .dispose numTx n) (hrole : w.role t = .otherMediate j) :
    (slice (s.thread t).frames numTx n).length ≤ cap - (s.ring j).buf.length := by
  by_cases hj : s.handed j = 0
  · have hfits := le_trans (hI.fits_ring (t := t) hj (by simp [source, hpc])) hcard
    simp only [offered, hpc, hrole] at hfits
    omega
  · by_contra hlt
    exact hok ⟨numTx, n, j, hpc, hrole, Nat.pos_of_ne_zero hj, by omega⟩

/-- With enough slots every slice is accepted as a whole. -/
theorem rejected_eq_nil {a : Action w} (hI : s.Inv) (hcard : s.owned.total.card ≤ cap)
    (hok : ¬ s.PushesTooEarly cap a) (h : s.step cap (.exact cap) a = some s') :
    s.rejected a = [] := by
  cases a with
  | kernel src dst i => rfl
  | thread t c =>
    have hfit := fun q => le_trans (hI.fits_queue q t) hcard
    simp only [step] at h
    cases hpc : (s.thread t).pc with
    | send numTx n =>
      cases t with
      | none => simp [stepThread, hpc] at h
      | some i =>
        simp only [stepThread, hpc] at h
        exact rejected_of_produceSome (by simp [offered, hpc]) (hfit _) h
    | dispose numTx n =>
      cases hrole : w.role t with
      | otherMediate j =>
        have hring := hI.fits_push hcard hok hpc hrole
        simp only [stepThread, hpc, hrole] at h
        have hcount := count_of_pushSome h
        simp only [rejected, offered, hpc, hrole, List.drop_eq_nil_iff]
        omega
      | _ => simp [rejected, offered, hpc, hrole]
    | refill numTx n =>
      simp only [stepThread, hpc] at h
      exact rejected_of_produceSome (by simp [offered, hpc]) (hfit _) h
    | first j s1 s2 =>
      simp only [stepThread, hpc] at h
      exact rejected_of_produceSome (by simp [offered, hpc]) (hfit _) h
    | second j s1 s2 =>
      simp only [stepThread, hpc] at h
      exact rejected_of_produceSome (by simp [offered, hpc]) (hfit _) h
    | _ => simp [rejected, offered, hpc]

/-- A part of a slice that is pushed too early is not accepted. -/
theorem rejected_ne_nil {a : Action w} (hearly : s.PushesTooEarly cap a)
    (h : s.step cap (.exact cap) a = some s') : s.rejected a ≠ [] := by
  cases a with
  | kernel src dst i => exact hearly.elim
  | thread t c =>
    obtain ⟨numTx, n, j, hpc, hrole, -, hlt⟩ := hearly
    simp only [step, stepThread, hpc, hrole] at h
    have hcount := count_of_pushSome h
    simp only [rejected, offered, hpc, hrole, ne_eq, List.drop_eq_nil_iff]
    omega

/-- A run without such pushes loses nothing. -/
theorem Reach.total_eq (hcap : descs.length ≤ cap)
    (hs : Reach cap (.exact cap) (fun s a => ¬ s.PushesTooEarly cap a) descs s) :
    s.Inv ∧ s.owned.total = (descs : Multiset F) := by
  induction hs with
  | init => exact ⟨inv_init w descs, owned_init w descs⟩
  | step _ ha h ih =>
    obtain ⟨hI, htotal⟩ := step_sound ih.1 h
    have hcard := le_trans (le_of_eq (congrArg Multiset.card ih.2)) hcap
    rw [rejected_eq_nil ih.1 hcard ha h, Multiset.coe_nil, add_zero] at htotal
    exact ⟨hI, by rw [← htotal]; exact ih.2⟩

/-- **No frame is lost** in a run without pushes that come too early: every frame is in a queue, a
batch or a ring. The next step accepts its slice as a whole, and loses no frame, if and only if it
is no such push either. -/
theorem frames_never_lost {s : Umem w FrameDesc} (hs : Reach umemFrames (.exact umemFrames)
    (fun s a => ¬ s.PushesTooEarly umemFrames a) (List.finRange umemFrames) s) :
    (∀ f, ∃ p, f ∈ s.owned p) ∧
      ∀ a s', s.step umemFrames (.exact umemFrames) a = some s' →
        (s.rejected a = [] ↔ ¬ s.PushesTooEarly umemFrames a) ∧
          ((∀ f, ∃ p, f ∈ s'.owned p) ↔ ¬ s.PushesTooEarly umemFrames a) := by
  have hcap : (List.finRange umemFrames).length ≤ umemFrames := le_of_eq List.length_finRange
  have hall : ∀ {s : Umem w FrameDesc}, Reach umemFrames (.exact umemFrames)
      (fun s a => ¬ s.PushesTooEarly umemFrames a) (List.finRange umemFrames) s →
        ∀ f, ∃ p, f ∈ s.owned p := by
    intro s hs f
    rw [← Ledger.mem_total, (hs.total_eq hcap).2]
    exact List.mem_finRange f
  obtain ⟨hI, htotal⟩ := hs.total_eq hcap
  refine ⟨hall hs, fun a s' h => ⟨⟨fun hnil hearly => ?_, fun ha => ?_⟩, fun hkept hearly => ?_,
    fun ha => hall (hs.step ha h)⟩⟩
  · exact rejected_ne_nil hearly h hnil
  · refine rejected_eq_nil hI ?_ ha h
    rw [htotal, Multiset.coe_card]
    exact hcap
  · -- every frame would have to be left, but one of them is rejected
    have hle : (List.finRange umemFrames : Multiset FrameDesc) ≤ s'.owned.total := by
      rw [Multiset.le_iff_subset (Multiset.coe_nodup.2 (List.nodup_finRange _))]
      intro f _
      exact Ledger.mem_total.2 (hkept f)
    have hstep := (step_sound hI h).2
    rw [htotal] at hstep
    have hcard := Multiset.card_le_card (le_trans (add_le_add_left hle _) (le_of_eq hstep.symm))
    rw [Multiset.card_add] at hcard
    have hpos := List.length_pos_of_ne_nil (rejected_ne_nil hearly h)
    simp only [Multiset.coe_card] at hcard
    omega

/-- Dropping all packets to a ring that nobody empties meets the condition. -/
theorem frames_never_lost_after_drop : ∃ s : Umem leakWiring FrameDesc,
    (s.ring leakRing).buf.Perm (List.finRange umemFrames) ∧ (∀ f, ∃ p, f ∈ s.owned p) ∧
      ∀ a s', s.step umemFrames (.exact umemFrames) a = some s' →
        (s.rejected a = [] ↔ ¬ s.PushesTooEarly umemFrames a) ∧
          ((∀ f, ∃ p, f ∈ s'.owned p) ↔ ¬ s.PushesTooEarly umemFrames a) := by
  have hok : ∀ (s : Umem leakWiring FrameDesc) (a : Action leakWiring),
      s.thread none = ⟨List.finRange umemFrames, .top⟩ → ¬ s.PushesTooEarly umemFrames a := by
    intro s a hs hearly
    cases a with
    | kernel src dst i => exact hearly
    | thread t c =>
      obtain ⟨_, _, j, _, _, hhanded, _⟩ := hearly
      have hnone : s.handed j = 0 := by
        show (s.thread none).pc.handed j = 0
        rw [hs]
        rfl
      omega
  obtain ⟨frames, ys, -, hperm, hs⟩ := exists_dropped _ _ hok
  rw [List.length_finRange] at hs
  exact ⟨_, hperm, frames_never_lost hs⟩

/-- Without the condition a frame can be lost, even with one worker. -/
theorem not_frames_never_lost : ¬ ∀ (w : Wiring) (s : Umem w FrameDesc), w.cores ≤ 8 →
    Reach umemFrames (.exact umemFrames) (fun _ _ => True) (List.finRange umemFrames) s →
      ∀ f, ∃ p, f ∈ s.owned p := by
  intro h
  have hne : List.finRange umemFrames ≠ [] := by
    intro hnil
    have hlen := List.length_finRange (n := umemFrames)
    rw [hnil] at hlen
    cases hlen
  obtain ⟨y, s, hs, hlost⟩ := exists_lost hne (List.nodup_finRange _)
  rw [List.length_finRange] at hs
  obtain ⟨p, hp⟩ := h leakWiring s (Nat.succ_le_succ (Nat.zero_le _)) hs y
  exact hlost p hp

end Galette.Pulley.Umem
