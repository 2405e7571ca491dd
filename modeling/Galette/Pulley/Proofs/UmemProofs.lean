import Galette.Pulley.Umem

/-!
# Proofs: ownership of frames

Every step of the dataplane moves frames between two places, or none at all, and what it hands to a
queue or ring is held by the thread that hands it over (`step_sound`, `Inv.offered_le`). So no frame
has two owners, whatever the queues accept. The places are those of the ledger `Umem.owned`: an
entry of a ring counts until it is handed to the fill queue, which is before its slot is freed.
-/

namespace Galette.Pulley

open Galette.Lib

variable {w : Wiring} {F : Type}

/-! ## Wiring -/

namespace Wiring

/-- Only the drainer runs `dataplane_self_mediate`. -/
theorem eq_drainer_of_selfMediate {w : Wiring} {t : w.Tid} (h : w.role t = .selfMediate) :
    t = w.drainer := by
  cases t with
  | none => cases h
  | some t =>
    unfold role at h
    cases hs : w.sender t with
    | some j => simp [hs] at h
    | none =>
      unfold sender at hs
      split at hs
      · cases hs
      · rename_i hno
        have hm : w.mode = .firstThread := by
          cases hm : w.mode with
          | firstThread => rfl
          | extraThread => exact absurd (Or.inl hm) hno
        have ht : t.val = 0 := by
          by_contra ht
          exact hno (Or.inr ht)
        unfold drainer
        split
        · rw [← Fin.ext_iff.2 (show t.val = (⟨0, w.pos⟩ : Fin w.cores).val from ht)]
        · rename_i hm'
          rw [hm] at hm'
          cases hm'

end Wiring

/-! ## Slices -/

theorem slice_zero (frames : List F) (n : Nat) : slice frames 0 n = frames.take n := rfl

theorem slice_split {frames : List F} {a b : Nat} (h : a ≤ b) :
    slice frames 0 b = slice frames 0 a ++ slice frames a b := by
  have := (List.take_append_drop a (frames.take b)).symm
  rwa [List.take_take, Nat.min_eq_left h] at this

/-- The buffer after descriptors are received into its beginning. -/
theorem slice_write_zero (frames got : List F) :
    slice (frames.take 0 ++ got ++ frames.drop (0 + got.length)) 0 got.length = got := by
  simp [slice_zero]

/-- The buffer after descriptors are received behind the first `n`. -/
theorem slice_write {frames : List F} {a n : Nat} (got : List F) (ha : a ≤ n)
    (hn : n ≤ frames.length) :
    slice (frames.take n ++ got ++ frames.drop (n + got.length)) a (n + got.length) =
      slice frames a n ++ got := by
  have hlen : (frames.take n ++ got).length = n + got.length := by simp; omega
  unfold slice
  rw [List.take_append_of_le_length (by omega), List.take_of_length_le (by omega),
    List.drop_append_of_le_length (by simp; omega)]

theorem swap_length (frames : List F) (i j : Nat) : (swap frames i j).length = frames.length := by
  unfold swap
  split <;> simp

theorem take_swap {frames : List F} {i j n : Nat} (hi : i < n) (hj : j < n) :
    (swap frames i j).take n = swap (frames.take n) i j := by
  unfold swap
  rw [List.getElem?_take_of_lt hi, List.getElem?_take_of_lt hj]
  split
  · rw [List.take_set, List.take_set]
  · rfl

theorem swap_perm (frames : List F) (i j : Nat) : (swap frames i j).Perm frames := by
  unfold swap
  split
  · rename_i a b ha hb
    obtain ⟨hi, rfl⟩ := List.getElem?_eq_some_iff.1 ha
    obtain ⟨hj, rfl⟩ := List.getElem?_eq_some_iff.1 hb
    exact List.set_set_perm hi hj
  · exact .refl _

/-- Sorting the received frames permutes them, and leaves the rest of the buffer where it is. -/
theorem sortFrames_spec (doTx : Nat → Bool) (turn : Nat) (frames : List F) (i numTx : Nat) {n : Nat}
    (hn : numTx ≤ n) :
    (sortFrames doTx turn frames i numTx).1.length = frames.length ∧
      (sortFrames doTx turn frames i numTx).2 ≤ numTx ∧
      ((sortFrames doTx turn frames i numTx).1.take n).Perm (frames.take n) := by
  fun_induction sortFrames doTx turn frames i numTx with
  | case1 turn frames i numTx hlt htx ih => exact ih hn
  | case2 turn frames i numTx hlt htx ih =>
    obtain ⟨h1, h2, h3⟩ := ih (by omega)
    refine ⟨h1.trans (swap_length _ _ _), by omega, h3.trans ?_⟩
    rw [take_swap (by omega) (by omega)]
    exact swap_perm _ _ _
  | case3 turn frames i numTx hge => exact ⟨rfl, le_refl _, .refl _⟩

/-! ## The invariant -/

/-- Whether a thread is in the loop over the rings. -/
def Pc.draining {rings : Nat} : Pc rings F → Prop
  | .scan _ | .first _ _ _ | .second _ _ _ | .advance _ _ => True
  | _ => False

/-- The slices of a thread lie in its buffer. -/
def Thread.InBounds {rings : Nat} (th : Thread rings F) : Prop :=
  match th.pc with
  | .received n => n ≤ th.frames.length
  | .send numTx n | .dispose numTx n | .refill numTx n => numTx ≤ n ∧ n ≤ th.frames.length
  | _ => True

/-- The slices of a ring are its oldest entries. -/
def Pc.Snapshot {rings : Nat} (ring : Fin rings → Ring F) : Pc rings F → Prop
  | .first j s1 s2 | .second j s1 s2 => s1 ++ s2 <+: (ring j).buf
  | .advance j n => n ≤ (ring j).buf.length
  | _ => True

namespace Umem

/-- The invariant of the dataplane. -/
structure Inv (s : Umem w F) : Prop where
  drains : ∀ t, (s.thread t).pc.draining → t = w.drainer
  idle : w.mode = .firstThread → (s.thread none).pc = .stopped
  bounds : ∀ t, (s.thread t).InBounds
  snapshots : ∀ t, (s.thread t).pc.Snapshot s.ring

theorem inv_init (w : Wiring) (descs : List F) : (init w descs).Inv := by
  have hpc : ∀ t, ((init w descs).thread t).pc = .stopped ∨
    ((init w descs).thread t).pc = .top := by
    intro t
    by_cases h : t = none ∧ w.mode = .firstThread
    · exact Or.inl (by simp [init, h])
    · exact Or.inr (by simp [init, h])
  refine ⟨fun t ht => ?_, fun hm => by simp [init, hm], fun t => ?_, fun t => ?_⟩
  · rcases hpc t with h | h
    · rw [h] at ht
      exact ht.elim
    · rw [h] at ht
      exact ht.elim
  · unfold Thread.InBounds
    rcases hpc t with h | h <;> rw [h] <;> trivial
  · rcases hpc t with h | h <;> rw [h] <;> trivial

/-- A snapshot outlasts pushes. -/
theorem snapshot_mono {ring ring' : Fin w.rings → Ring F} {pc : Pc w.rings F}
    (hr : ∀ j, (ring j).buf <+: (ring' j).buf) (h : pc.Snapshot ring) : pc.Snapshot ring' := by
  cases pc with
  | first j s1 s2 => exact h.trans (hr j)
  | second j s1 s2 => exact h.trans (hr j)
  | advance j n => exact le_trans h (hr j).length_le
  | _ => trivial

/-- A step of one thread keeps the invariant if it leaves the thread in order and does not take
entries from under the others. -/
theorem Inv.update {s s' : Umem w F} {t : w.Tid} (h : s.Inv) (hlive : (s.thread t).pc ≠ .stopped)
    (hothers : ∀ t', t' ≠ t → s'.thread t' = s.thread t')
    (hrings : ∀ t', t' ≠ t → (s.thread t').pc.Snapshot s'.ring)
    (hdrain : (s'.thread t).pc.draining → t = w.drainer) (hbounds : (s'.thread t).InBounds)
    (hsnap : (s'.thread t).pc.Snapshot s'.ring) : s'.Inv where
  drains t' ht' := by
    by_cases he : t' = t
    · rw [he] at ht' ⊢
      exact hdrain ht'
    · rw [hothers t' he] at ht'
      exact h.drains t' ht'
  idle hm := by
    have hne : none ≠ t := by
      rintro rfl
      exact hlive (h.idle hm)
    rw [hothers none hne]
    exact h.idle hm
  bounds t' := by
    by_cases he : t' = t
    · rw [he]
      exact hbounds
    · rw [hothers t' he]
      exact h.bounds t'
  snapshots t' := by
    by_cases he : t' = t
    · rw [he]
      exact hsnap
    · rw [hothers t' he]
      exact hrings t' he

/-! ## The ledger -/

@[simp] theorem setQueue_queue (s : Umem w F) (q : Queue w) (l : List F) :
    (s.setQueue q l).queue = Function.update s.queue q l := rfl
@[simp] theorem setQueue_ring (s : Umem w F) (q : Queue w) (l : List F) :
    (s.setQueue q l).ring = s.ring := rfl
@[simp] theorem setQueue_thread (s : Umem w F) (q : Queue w) (l : List F) :
    (s.setQueue q l).thread = s.thread := rfl
@[simp] theorem setRing_queue (s : Umem w F) (j : Fin w.rings) (r : Ring F) :
    (s.setRing j r).queue = s.queue := rfl
@[simp] theorem setRing_ring (s : Umem w F) (j : Fin w.rings) (r : Ring F) :
    (s.setRing j r).ring = Function.update s.ring j r := rfl
@[simp] theorem setRing_thread (s : Umem w F) (j : Fin w.rings) (r : Ring F) :
    (s.setRing j r).thread = s.thread := rfl
@[simp] theorem setThread_queue (s : Umem w F) (t : w.Tid) (th : Thread w.rings F) :
    (s.setThread t th).queue = s.queue := rfl
@[simp] theorem setThread_ring (s : Umem w F) (t : w.Tid) (th : Thread w.rings F) :
    (s.setThread t th).ring = s.ring := rfl
@[simp] theorem setThread_thread (s : Umem w F) (t : w.Tid) (th : Thread w.rings F) :
    (s.setThread t th).thread = Function.update s.thread t th := rfl

theorem owned_setQueue (s : Umem w F) (q : Queue w) (l : List F) :
    (s.setQueue q l).owned = Function.update s.owned (.queue q) (l : Multiset F) := by
  funext p
  cases p with
  | queue q' =>
    by_cases h : q' = q
    · subst h
      simp [owned]
    · rw [Function.update_of_ne (by simpa using h)]
      simp [owned, Function.update_of_ne h]
  | ring j =>
    rw [Function.update_of_ne (by simp)]
    rfl
  | batch t =>
    rw [Function.update_of_ne (by simp)]
    rfl

theorem owned_setRing (s : Umem w F) (j : Fin w.rings) (r : Ring F) :
    (s.setRing j r).owned =
      Function.update s.owned (.ring j) (r.buf.drop (s.handed j) : Multiset F) := by
  funext p
  cases p with
  | queue q =>
    rw [Function.update_of_ne (by simp)]
    rfl
  | ring i =>
    by_cases h : i = j
    · subst h
      simp [owned, handed]
    · rw [Function.update_of_ne (by simpa using h)]
      simp [owned, handed, Function.update_of_ne h]
  | batch t =>
    rw [Function.update_of_ne (by simp)]
    rfl

theorem owned_setThread (s : Umem w F) (t : w.Tid) (th : Thread w.rings F)
    (hsame : ∀ i, th.pc.handed i = (s.thread t).pc.handed i) :
    (s.setThread t th).owned = Function.update s.owned (.batch t) (th.batch : Multiset F) := by
  have hhanded : ∀ i, (s.setThread t th).handed i = s.handed i := by
    intro i
    unfold handed
    by_cases h : w.drainer = t
    · rw [setThread_thread, h, Function.update_self, hsame]
    · rw [setThread_thread, Function.update_of_ne h]
  funext p
  cases p with
  | queue q =>
    rw [Function.update_of_ne (by simp)]
    rfl
  | ring i =>
    rw [Function.update_of_ne (by simp)]
    simp [owned, hhanded]
  | batch t' =>
    by_cases h : t' = t
    · subst h
      simp [owned]
    · rw [Function.update_of_ne (by simpa using h)]
      simp [owned, Function.update_of_ne h]

/-- A queue and the batch of a thread change. -/
theorem total_queue_batch {s : Umem w F} {q : Queue w} {t : w.Tid} {l : List F}
    {th : Thread w.rings F} {lost : Multiset F}
    (hsame : ∀ i, th.pc.handed i = (s.thread t).pc.handed i)
    (h : (s.queue q : Multiset F) + (s.thread t).batch = l + th.batch + lost) :
    s.owned.total = ((s.setQueue q l).setThread t th).owned.total + lost := by
  rw [owned_setThread (s.setQueue q l) t th hsame, owned_setQueue]
  refine Ledger.total_transfer (a := .queue q) (b := .batch t) (by simp) ?_ ?_
  · intro p hq ht
    rw [Function.update_of_ne ht, Function.update_of_ne hq]
  · rw [Function.update_of_ne (by simp), Function.update_self, Function.update_self]
    exact h

/-- A ring and the batch of a thread change. -/
theorem total_ring_batch {s : Umem w F} {j : Fin w.rings} {t : w.Tid} {r : Ring F}
    {th : Thread w.rings F} {lost : Multiset F}
    (hsame : ∀ i, th.pc.handed i = (s.thread t).pc.handed i)
    (h : ((s.ring j).buf.drop (s.handed j) : Multiset F) + (s.thread t).batch =
      r.buf.drop (s.handed j) + th.batch + lost) :
    s.owned.total = ((s.setRing j r).setThread t th).owned.total + lost := by
  rw [owned_setThread (s.setRing j r) t th hsame, owned_setRing]
  refine Ledger.total_transfer (a := .ring j) (b := .batch t) (by simp) ?_ ?_
  · intro p hq ht
    rw [Function.update_of_ne ht, Function.update_of_ne hq]
  · rw [Function.update_of_ne (by simp), Function.update_self, Function.update_self]
    exact h

/-- Only the batch of a thread changes, and only in its order. -/
theorem total_batch {s : Umem w F} {t : w.Tid} {th : Thread w.rings F}
    (hsame : ∀ i, th.pc.handed i = (s.thread t).pc.handed i)
    (h : ((s.thread t).batch : Multiset F) = th.batch) :
    s.owned.total = (s.setThread t th).owned.total := by
  rw [owned_setThread s t th hsame, ← h]
  congr 1
  exact (Function.update_eq_self (Place.batch t) s.owned).symm

/-- The drainer hands entries of a ring to the fill queue. -/
theorem total_queue_ring {s : Umem w F} {q : Queue w} {t : w.Tid} {j : Fin w.rings} {l : List F}
    {pc : Pc w.rings F} {lost : Multiset F} (ht : t = w.drainer)
    (hbatch : (s.thread t).batch = [] ∧ Thread.batch { s.thread t with pc := pc } = [])
    (hothers : ∀ i, i ≠ j → pc.handed i = s.handed i)
    (h : (s.queue q : Multiset F) + (s.ring j).buf.drop (s.handed j) =
      l + (s.ring j).buf.drop (pc.handed j) + lost) :
    s.owned.total = ((s.setQueue q l).goto t pc).owned.total + lost := by
  have hhanded : ∀ i, ((s.setQueue q l).goto t pc).handed i = pc.handed i := by
    intro i
    unfold handed goto
    rw [setThread_thread, ← ht, Function.update_self]
  refine Ledger.total_transfer (a := .queue q) (b := .ring j) (by simp) ?_ ?_
  · intro p hq hr
    cases p with
    | queue q' =>
      have hne : q' ≠ q := by simpa using hq
      simp [owned, goto, Function.update_of_ne hne]
    | ring i =>
      have hne : i ≠ j := by simpa using hr
      simp only [owned, hhanded, hothers i hne]
      rfl
    | batch t' =>
      by_cases he : t' = t
      · subst he
        simp [owned, goto, hbatch.1, hbatch.2]
      · simp [owned, goto, Function.update_of_ne he]
  · simp only [owned, hhanded]
    simpa [goto] using h

/-- The drainer frees the slots of the entries it has handed over. -/
theorem total_advance {s : Umem w F} {t : w.Tid} {j : Fin w.rings} {n : Nat} (ht : t = w.drainer)
    (hpc : (s.thread t).pc = .advance j n) :
    s.owned.total = ((s.setRing j ((s.ring j).advance n)).goto t (.scan (j.val + 1))).owned.total := by
  have hhanded : ∀ i, s.handed i = if j = i then n else 0 := by
    intro i
    unfold handed
    rw [← ht, hpc]
    rfl
  have hhanded' : ∀ i,
      ((s.setRing j ((s.ring j).advance n)).goto t (.scan (j.val + 1))).handed i = 0 := by
    intro i
    unfold handed goto
    rw [setThread_thread, ← ht, Function.update_self]
    rfl
  congr 1
  funext p
  cases p with
  | queue q => rfl
  | ring i =>
    simp only [owned, hhanded, hhanded', List.drop_zero]
    by_cases he : j = i
    · subst he
      simp [goto, Ring.advance]
    · simp [goto, he, Function.update_of_ne (Ne.symm he)]
  | batch t' =>
    by_cases he : t' = t
    · subst he
      simp [owned, goto, Thread.batch, hpc]
    · simp [owned, goto, Function.update_of_ne he]

/-! ## Steps -/

/-- A step keeps the invariant, and only what is not accepted is lost. -/
structure Sound (s : Umem w F) (t : w.Tid) (c : Choice) (s' : Umem w F) : Prop where
  inv : s'.Inv
  total : s.owned.total = s'.owned.total + ((s.offered t).drop c.count : Multiset F)

/-- A step that changes one thread and at most appends to the rings. -/
theorem Inv.setThread {s s' : Umem w F} {t : w.Tid} {th : Thread w.rings F} (h : s.Inv)
    (hlive : (s.thread t).pc ≠ .stopped) (hthread : s'.thread = Function.update s.thread t th)
    (hring : ∀ j, (s.ring j).buf <+: (s'.ring j).buf) (hdrain : th.pc.draining → t = w.drainer)
    (hbounds : th.InBounds) (hsnap : th.pc.Snapshot s'.ring) : s'.Inv := by
  have hself : s'.thread t = th := by rw [hthread, Function.update_self]
  refine h.update hlive (fun t' ht' => by rw [hthread, Function.update_of_ne ht']) ?_ ?_ ?_ ?_
  · exact fun t' _ => snapshot_mono hring (h.snapshots t')
  · rw [hself]
    exact hdrain
  · rw [hself]
    exact hbounds
  · rw [hself]
    exact hsnap

variable {cap : Nat} {A : Acceptance} {s s' : Umem w F} {t : w.Tid} {c : Choice}

/-- The extra thread runs in its mode only. -/
theorem Inv.none_eq_drainer (h : s.Inv) (hlive : (s.thread none).pc ≠ .stopped) :
    none = w.drainer := by
  unfold Wiring.drainer
  split
  · rename_i hm
    exact absurd (h.idle hm) hlive
  · rfl

/-- The first `k` of the descriptors `xs` arrive, the others do not. -/
theorem hand_over (xs : List F) (k : Nat) (q r : Multiset F) :
    q + (xs + r) = q + xs.take k + r + xs.drop k := by
  have hxs : (xs : Multiset F) = xs.take k + xs.drop k := by
    rw [Multiset.coe_add, List.take_append_drop]
  rw [hxs]
  abel

/-- The first `k` entries of a queue are taken. -/
theorem take_over (q : List F) (k : Nat) (r : Multiset F) :
    (q : Multiset F) + r = q.drop k + (r + q.take k) := by
  have hq : (q : Multiset F) = q.take k + q.drop k := by
    rw [Multiset.coe_add, List.take_append_drop]
  rw [hq]
  abel

theorem sound_poll {i : Fin w.cores} (hI : s.Inv) (hpc : (s.thread (some i)).pc = .top)
    (h : s.pollAndConsume i c.count = some s') : s.Sound (some i) c s' := by
  unfold pollAndConsume at h
  split at h
  · rename_i hle
    obtain rfl := Option.some.inj h
    have hlen : ((s.queue (.rx i)).take c.count).length = c.count := by simp; omega
    refine ⟨hI.setThread (by simp [hpc]) rfl (fun _ => List.prefix_refl _) (fun h => h.elim) ?_ trivial,
      ?_⟩
    · simp [Thread.InBounds]
      omega
    · refine total_queue_batch (by simp [hpc, Pc.handed]) ?_
      have hslice := slice_write_zero (s.thread (some i)).frames ((s.queue (.rx i)).take c.count)
      rw [hlen] at hslice
      simp only [Thread.batch, hpc, offered, setQueue_thread, hlen, hslice, List.drop_nil]
      rw [take_over (s.queue (.rx i)) c.count]
      simp
  · cases h

/-- A step that changes the place of a thread and nothing else. -/
theorem sound_setThread {th : Thread w.rings F} (hI : s.Inv) (hlive : (s.thread t).pc ≠ .stopped)
    (hoff : s.offered t = []) (hsame : ∀ i, th.pc.handed i = (s.thread t).pc.handed i)
    (hbatch : ((s.thread t).batch : Multiset F) = th.batch)
    (hdrain : th.pc.draining → t = w.drainer)
    (hbounds : th.InBounds) (hsnap : th.pc.Snapshot s.ring) : s.Sound t c (s.setThread t th) := by
  refine ⟨hI.setThread hlive rfl (fun _ => List.prefix_refl _) hdrain hbounds hsnap, ?_⟩
  rw [hoff, total_batch hsame hbatch]
  simp

theorem sound_sort {n : Nat} (hI : s.Inv) (hpc : (s.thread t).pc = .received n)
    (h : s.stepThread cap A t c = some s') : s.Sound t c s' := by
  simp only [stepThread, hpc] at h
  obtain rfl := Option.some.inj h
  obtain ⟨hlen, hle, hperm⟩ := sortFrames_spec c.doTx 0 (s.thread t).frames 0 n (le_refl n)
  have hn : n ≤ (s.thread t).frames.length := by
    have := hI.bounds t
    rwa [Thread.InBounds, hpc] at this
  refine sound_setThread hI (by simp [hpc]) (by simp [offered, hpc]) (by simp [hpc, Pc.handed]) ?_
    (fun h => h.elim) ⟨hle, by rw [hlen]; exact hn⟩ trivial
  simp only [Thread.batch, hpc, slice_zero]
  exact Multiset.coe_eq_coe.2 hperm.symm

/-- A thread hands the first part of its batch to a queue. -/
theorem sound_produce {q : Queue w} {xs : List F} {pc : Pc w.rings F} (hI : s.Inv)
    (hlive : (s.thread t).pc ≠ .stopped) (h : s.produceSome A t q xs c.count pc = some s')
    (hoff : s.offered t = xs)
    (hbatch : (s.thread t).batch = xs ++ Thread.batch { s.thread t with pc := pc })
    (hsame : ∀ i, pc.handed i = (s.thread t).pc.handed i) (hdrain : pc.draining → t = w.drainer)
    (hbounds : Thread.InBounds { s.thread t with pc := pc }) (hsnap : pc.Snapshot s.ring) :
    s.Sound t c s' := by
  unfold produceSome at h
  split at h
  · obtain rfl := Option.some.inj h
    refine ⟨hI.setThread hlive rfl (fun _ => List.prefix_refl _) hdrain hbounds hsnap, ?_⟩
    refine total_queue_batch hsame ?_
    rw [hoff, hbatch, ← Multiset.coe_add, ← Multiset.coe_add]
    exact hand_over xs c.count _ _
  · cases h

theorem sound_send {numTx n : Nat} {i : Fin w.cores} (hI : s.Inv)
    (hpc : (s.thread (some i)).pc = .send numTx n)
    (h : s.stepThread cap A (some i) c = some s') : s.Sound (some i) c s' := by
  simp only [stepThread, hpc] at h
  have hb := hI.bounds (some i)
  rw [Thread.InBounds, hpc] at hb
  refine sound_produce hI (by simp [hpc]) h (by simp [offered, hpc]) ?_ (by simp [hpc, Pc.handed])
    (fun h => h.elim) hb trivial
  simp only [Thread.batch, hpc]
  exact slice_split hb.1

theorem sound_refill {numTx n : Nat} (hI : s.Inv) (hpc : (s.thread t).pc = .refill numTx n)
    (h : s.stepThread cap A t c = some s') : s.Sound t c s' := by
  simp only [stepThread, hpc] at h
  by_cases hrole : w.role t = .selfMediate
  · rw [if_pos hrole] at h
    exact sound_produce hI (by simp [hpc]) h (by simp [offered, hpc]) (by simp [Thread.batch, hpc])
      (by simp [hpc, Pc.handed]) (fun _ => Wiring.eq_drainer_of_selfMediate hrole) trivial trivial
  · rw [if_neg hrole] at h
    exact sound_produce hI (by simp [hpc]) h (by simp [offered, hpc]) (by simp [Thread.batch, hpc])
      (by simp [hpc, Pc.handed]) (fun h => h.elim) trivial trivial

/-- What is handed over is still in the ring. -/
theorem Inv.handed_le (hI : s.Inv) (j : Fin w.rings) : s.handed j ≤ (s.ring j).buf.length := by
  have hsnap := hI.snapshots w.drainer
  unfold handed
  cases hpc : (s.thread w.drainer).pc with
  | second i s1 s2 =>
    rw [hpc] at hsnap
    simp only [Pc.handed]
    split
    · rename_i he
      subst he
      have := hsnap.length_le
      simp at this
      omega
    · omega
  | advance i n =>
    rw [hpc] at hsnap
    simp only [Pc.handed]
    split
    · rename_i he
      subst he
      exact hsnap
    · omega
  | _ => exact Nat.zero_le _

theorem sound_push {numTx n : Nat} {j : Fin w.rings} (hI : s.Inv)
    (hpc : (s.thread t).pc = .dispose numTx n) (hrole : w.role t = .otherMediate j)
    (h : s.stepThread cap A t c = some s') : s.Sound t c s' := by
  simp only [stepThread, hpc, hrole] at h
  unfold pushSome at h
  split at h
  · obtain rfl := Option.some.inj h
    refine ⟨hI.setThread (by simp [hpc]) rfl (fun i => ?_) (fun h => h.elim) trivial trivial, ?_⟩
    · by_cases he : i = j
      · subst he
        simp [goto, Ring.pushSlice]
      · simp [goto, Function.update_of_ne he]
    · refine total_ring_batch (by simp [hpc, Pc.handed]) ?_
      simp only [Ring.pushSlice, offered, hpc, hrole, Thread.batch,
        List.drop_append_of_le_length (hI.handed_le j), ← Multiset.coe_add]
      simp
  · cases h

theorem sound_reap {numTx n : Nat} (hI : s.Inv) (hpc : (s.thread t).pc = .dispose numTx n)
    (hrole : ∀ j, w.role t ≠ .otherMediate j) (h : s.reap t numTx n c.count = some s') :
    s.Sound t c s' := by
  have hb := hI.bounds t
  rw [Thread.InBounds, hpc] at hb
  have hoff : s.offered t = [] := by
    simp only [offered, hpc]
  unfold reap at h
  split at h
  · rename_i hle
    obtain rfl := Option.some.inj h
    have hlen : ((s.queue .comp).take c.count).length = c.count := by simp; omega
    have hslice := slice_write ((s.queue .comp).take c.count) hb.1 hb.2
    rw [hlen] at hslice
    refine ⟨hI.setThread (by simp [hpc]) rfl (fun _ => List.prefix_refl _) (fun h => h.elim) ?_ trivial,
      ?_⟩
    · refine ⟨by omega, ?_⟩
      simp
      omega
    · refine total_queue_batch (by simp [hpc, Pc.handed]) ?_
      rw [hoff, take_over (s.queue .comp) c.count]
      simp only [Thread.batch, hpc, setQueue_thread, hlen, hslice, ← Multiset.coe_add, List.drop_nil]
      simp
  · cases h

theorem asSlices_append (cap : Nat) (r : Ring F) :
    (r.asSlices cap).1 ++ (r.asSlices cap).2 = r.buf :=
  List.take_append_drop _ _

theorem sound_scan {j : Nat} (hI : s.Inv) (hpc : (s.thread t).pc = .scan j)
    (h : s.stepThread cap A t c = some s') : s.Sound t c s' := by
  have ht : t = w.drainer := hI.drains t (by rw [hpc]; trivial)
  simp only [stepThread, hpc] at h
  split at h
  · split at h
    · obtain rfl := Option.some.inj h
      exact sound_setThread hI (by simp [hpc]) (by simp [offered, hpc]) (by simp [hpc, Pc.handed])
        (by simp [Thread.batch, hpc]) (fun _ => ht) trivial trivial
    · rename_i hj _
      obtain rfl := Option.some.inj h
      refine sound_setThread hI (by simp [hpc]) (by simp [offered, hpc]) (by simp [hpc, Pc.handed])
        (by simp [Thread.batch, hpc]) (fun _ => ht) trivial ?_
      show _ <+: _
      rw [asSlices_append]
  · obtain rfl := Option.some.inj h
    split
    · refine sound_setThread hI (by simp [hpc]) (by simp [offered, hpc]) (by simp [hpc, Pc.handed])
        ?_ (fun h => h.elim) ⟨le_refl 0, Nat.zero_le _⟩ trivial
      simp [Thread.batch, hpc, slice]
    · exact sound_setThread hI (by simp [hpc]) (by simp [offered, hpc]) (by simp [hpc, Pc.handed])
        (by simp [Thread.batch, hpc]) (fun h => h.elim) trivial trivial

theorem sound_first {j : Fin w.rings} {s1 s2 : List F} (hI : s.Inv)
    (hpc : (s.thread t).pc = .first j s1 s2) (h : s.stepThread cap A t c = some s') :
    s.Sound t c s' := by
  have ht : t = w.drainer := hI.drains t (by rw [hpc]; trivial)
  have hsnap := hI.snapshots t
  rw [hpc] at hsnap
  obtain ⟨rest, hrest⟩ := hsnap
  simp only [stepThread, hpc] at h
  unfold produceSome at h
  split at h
  · obtain rfl := Option.some.inj h
    refine ⟨hI.setThread (by simp [hpc]) rfl (fun _ => List.prefix_refl _) (fun _ => ht) trivial
      ⟨rest, hrest⟩, ?_⟩
    have hhanded : ∀ i, s.handed i = 0 := fun i => by rw [handed, ← ht, hpc]; rfl
    refine total_queue_ring (j := j) ht ⟨by simp [Thread.batch, hpc], rfl⟩ (fun i hi => ?_) ?_
    · rw [hhanded, Pc.handed, if_neg (Ne.symm hi)]
    · rw [hhanded, Pc.handed, if_pos rfl, ← hrest]
      simp only [offered, hpc, List.drop_zero, List.append_assoc, List.drop_left, ← Multiset.coe_add]
      exact hand_over s1 c.count _ _
  · cases h

theorem sound_second {j : Fin w.rings} {s1 s2 : List F} (hI : s.Inv)
    (hpc : (s.thread t).pc = .second j s1 s2) (h : s.stepThread cap A t c = some s') :
    s.Sound t c s' := by
  have ht : t = w.drainer := hI.drains t (by rw [hpc]; trivial)
  have hsnap := hI.snapshots t
  rw [hpc] at hsnap
  obtain ⟨rest, hrest⟩ := hsnap
  simp only [stepThread, hpc] at h
  unfold produceSome at h
  split at h
  · obtain rfl := Option.some.inj h
    refine ⟨hI.setThread (by simp [hpc]) rfl (fun _ => List.prefix_refl _) (fun _ => ht) trivial ?_, ?_⟩
    · show _ ≤ (s.ring j).buf.length
      rw [← hrest]
      simp
    have hhanded : ∀ i, s.handed i = if j = i then s1.length else 0 := fun i => by
      rw [handed, ← ht, hpc]
      rfl
    refine total_queue_ring (j := j) ht ⟨by simp [Thread.batch, hpc], rfl⟩ (fun i hi => ?_) ?_
    · rw [hhanded, Pc.handed, if_neg (Ne.symm hi), if_neg (Ne.symm hi)]
    · rw [hhanded, Pc.handed, if_pos rfl, if_pos rfl, ← hrest, ← List.length_append]
      simp only [offered, hpc, List.drop_left, List.append_assoc, ← Multiset.coe_add]
      rw [← List.append_assoc, List.drop_left]
      exact hand_over s2 c.count _ _
  · cases h

theorem sound_advance {j : Fin w.rings} {n : Nat} (hI : s.Inv)
    (hpc : (s.thread t).pc = .advance j n) (h : s.stepThread cap A t c = some s') :
    s.Sound t c s' := by
  have ht : t = w.drainer := hI.drains t (by rw [hpc]; trivial)
  simp only [stepThread, hpc] at h
  obtain rfl := Option.some.inj h
  refine ⟨?_, ?_⟩
  · refine hI.update (t := t) (by simp [hpc]) (fun t' ht' => ?_) (fun t' ht' => ?_) ?_ ?_ ?_
    · simp [goto, Function.update_of_ne ht']
    · -- no other thread has taken a snapshot
      have hno : ¬ (s.thread t').pc.draining := fun hd => ht' ((hI.drains t' hd).trans ht.symm)
      cases hpc' : (s.thread t').pc with
      | first i s1 s2 => exact absurd (by rw [hpc']; trivial) hno
      | second i s1 s2 => exact absurd (by rw [hpc']; trivial) hno
      | advance i m => exact absurd (by rw [hpc']; trivial) hno
      | _ => trivial
    · exact fun _ => ht
    · simp [goto, Thread.InBounds]
    · simp [goto, Pc.Snapshot]
  · rw [total_advance ht hpc]
    simp [offered, hpc]

/-- **One step of a thread.** -/
theorem stepThread_sound (hI : s.Inv) (h : s.stepThread cap A t c = some s') : s.Sound t c s' := by
  cases hpc : (s.thread t).pc with
  | top =>
    simp only [stepThread, hpc] at h
    split at h
    · obtain rfl := Option.some.inj h
      exact sound_setThread hI (by simp [hpc]) (by simp [offered, hpc]) (by simp [hpc, Pc.handed])
        (by simp [Thread.batch, hpc]) (fun h => h.elim) trivial trivial
    · cases t with
      | none =>
        obtain rfl := Option.some.inj h
        exact sound_setThread hI (by simp [hpc]) (by simp [offered, hpc]) (by simp [hpc, Pc.handed])
          (by simp [Thread.batch, hpc]) (fun _ => hI.none_eq_drainer (by simp [hpc])) trivial trivial
      | some i => exact sound_poll hI hpc h
  | received n => exact sound_sort hI hpc h
  | send numTx n =>
    cases t with
    | none => simp [stepThread, hpc] at h
    | some i => exact sound_send hI hpc h
  | dispose numTx n =>
    cases hrole : w.role t with
    | otherMediate j => exact sound_push hI hpc hrole h
    | solo =>
      simp only [stepThread, hpc, hrole] at h
      exact sound_reap hI hpc (by simp [hrole]) h
    | selfMediate =>
      simp only [stepThread, hpc, hrole] at h
      exact sound_reap hI hpc (by simp [hrole]) h
    | disposal =>
      simp only [stepThread, hpc, hrole] at h
      exact sound_reap hI hpc (by simp [hrole]) h
  | refill numTx n => exact sound_refill hI hpc h
  | scan j => exact sound_scan hI hpc h
  | first j s1 s2 => exact sound_first hI hpc h
  | second j s1 s2 => exact sound_second hI hpc h
  | advance j n => exact sound_advance hI hpc h
  | stopped => simp [stepThread, hpc] at h

/-- **One step of the kernel.** -/
theorem stepKernel_sound {src dst : Queue w} {i : Nat} (hI : s.Inv)
    (h : s.stepKernel src dst i = some s') : s'.Inv ∧ s.owned.total = s'.owned.total := by
  unfold stepKernel at h
  cases hf : (s.queue src)[i]? with
  | none => simp [hf] at h
  | some f =>
    simp only [hf] at h
    obtain rfl := Option.some.inj h
    refine ⟨⟨hI.drains, hI.idle, hI.bounds, hI.snapshots⟩, ?_⟩
    obtain ⟨hi, rfl⟩ := List.getElem?_eq_some_iff.1 hf
    have hmove : (s.queue src : Multiset F) = ((s.queue src).eraseIdx i : Multiset F) +
        ([(s.queue src)[i]] : List F) := by
      rw [add_comm, Multiset.coe_add]
      exact Multiset.coe_eq_coe.2 (List.getElem_cons_eraseIdx_perm hi).symm
    rw [owned_setQueue, owned_setQueue]
    by_cases he : dst = src
    · subst he
      rw [Function.update_idem, setQueue_queue, Function.update_self, ← Multiset.coe_add, ← hmove]
      congr 1
      exact (Function.update_eq_self (Place.queue dst) s.owned).symm
    · refine (Ledger.total_transfer (a := Place.queue src) (b := Place.queue dst)
        (by simpa using Ne.symm he) ?_ ?_).trans (add_zero _)
      · intro p hsrc hdst
        rw [Function.update_of_ne hdst, Function.update_of_ne hsrc]
      · rw [Function.update_of_ne (by simpa using Ne.symm he), Function.update_self,
          Function.update_self, setQueue_queue, Function.update_of_ne he, ← Multiset.coe_add]
        show (s.queue src : Multiset F) + s.queue dst = _
        rw [hmove]
        abel

/-- **One step.** The invariant is kept, and only what is not accepted is lost. -/
theorem step_sound {a : Action w} (hI : s.Inv) (h : s.step cap A a = some s') :
    s'.Inv ∧ s.owned.total = s'.owned.total + (s.rejected a : Multiset F) := by
  cases a with
  | kernel src dst i =>
    obtain ⟨hI', htotal⟩ := stepKernel_sound hI h
    exact ⟨hI', by simp [rejected, htotal]⟩
  | thread t c =>
    obtain ⟨hI', htotal⟩ := stepThread_sound hI h
    exact ⟨hI', htotal⟩

/-- What a thread hands over is what it holds, or what it has found in a ring. -/
theorem Inv.offered_le (hI : s.Inv) (t : w.Tid) :
    (s.offered t : Multiset F) ≤ s.owned (s.source t) := by
  have hb := hI.bounds t
  have hsnap := hI.snapshots t
  have hdrains := hI.drains t
  unfold offered source
  cases hpc : (s.thread t).pc with
  | send numTx n =>
    rw [Thread.InBounds, hpc] at hb
    simp only [owned, Thread.batch, hpc]
    rw [slice_split hb.1, ← Multiset.coe_add]
    exact Multiset.le_add_right _ _
  | dispose numTx n =>
    simp only [owned, Thread.batch, hpc]
    split
    · exact le_refl _
    · exact Multiset.zero_le _
  | refill numTx n =>
    simp only [owned, Thread.batch, hpc]
    exact le_refl _
  | first j s1 s2 =>
    rw [hpc] at hsnap hdrains
    obtain ⟨rest, hrest⟩ := hsnap
    have hhanded : s.handed j = 0 := by rw [handed, ← hdrains trivial, hpc]; rfl
    simp only [owned, hhanded, ← hrest, List.drop_zero, List.append_assoc]
    rw [← Multiset.coe_add]
    exact Multiset.le_add_right _ _
  | second j s1 s2 =>
    rw [hpc] at hsnap hdrains
    obtain ⟨rest, hrest⟩ := hsnap
    have hhanded : s.handed j = s1.length := by
      rw [handed, ← hdrains trivial, hpc, Pc.handed, if_pos rfl]
    simp only [owned, hhanded, ← hrest, List.append_assoc, List.drop_left]
    rw [← Multiset.coe_add]
    exact Multiset.le_add_right _ _
  | _ => exact Multiset.zero_le _

end Umem

end Galette.Pulley
