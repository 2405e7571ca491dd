import Galette.Pulley.Startup
import Galette.Pulley.Proofs.HandoverProofs
import Galette.Pulley.Proofs.UmemProofs

/-!
# Proofs: starting the threads

`main` refuses more than one core without a shared `UMEM`. With every other command line no thread
misses what it takes with it, and the threads are those of the `Wiring`.
-/

namespace Galette.Pulley

open Galette.Lib

/-- The wiring that the options ask for. -/
def ThreadOptions.wiring (config : ThreadOptions) (par : Option UInt64) : Wiring :=
  ⟨config.umemMode, (config.xdpCt par).toNat, (clampCores_toNat _).1⟩

/-! ## Sockets -/

@[simp] theorem openSockets_length (X : XskRs) (shareUmem : Bool) (n : Nat) :
    (openSockets X shareUmem n).length = n := by
  simp [openSockets]

/-- The first socket has the queues. -/
theorem openSockets_succ {X : XskRs} (hX : X.FirstOnly) (shareUmem : Bool) (n : Nat) :
    ∃ umem xsks, openSockets X shareUmem (n + 1) = ⟨umem, true⟩ :: xsks ∧ xsks.length = n := by
  have hfirst : X.queues [] (umemOf shareUmem 0) = true := (hX _ _).2 List.not_mem_nil
  have hsplit : openSockets X shareUmem (n + 1) =
      ⟨umemOf shareUmem 0, X.queues [] (umemOf shareUmem 0)⟩ ::
        (openSockets X shareUmem (n + 1)).tail := by
    simp [openSockets, List.range_succ_eq_map]
  rw [hfirst] at hsplit
  exact ⟨_, _, hsplit, by simp⟩

/-! ## Workers -/

/-- Every worker but the first takes the last sender that is left, and needs nothing else. -/
theorem spawnWorkers_senders (mode : UmemDisposalMode) (nCores : Nat) (xsks : List Xsk) (t m : Nat)
    (receivers : Option (List Nat)) (ht : mode = .extraThread ∨ t ≠ 0) (hm : xsks.length ≤ m) :
    spawnWorkers mode nCores xsks t ⟨List.range m, receivers⟩ =
      .ok ((List.range xsks.length).map fun i => .otherMediate (m - 1 - i)) := by
  induction xsks generalizing t m receivers with
  | nil => rfl
  | cons xsk xsks ih =>
    obtain ⟨m, rfl⟩ := Nat.exists_eq_add_of_le' (show 1 ≤ m by simp at hm; omega)
    have hlast : (List.range (m + 1)).getLast? = some m := by simp [List.range_succ]
    have hrest : (List.range (m + 1)).dropLast = List.range m := by simp [List.range_succ]
    have hrun := ih (t + 1) m none (Or.inr (Nat.succ_ne_zero t)) (by simp at hm; omega)
    rw [spawnWorkers, if_pos ht]
    dsimp only
    rw [hlast, hrest, hrun]
    simp only [workerOf, Except.bind, List.length_cons, List.range_succ_eq_map, List.map_cons,
      List.map_map]
    congr 2
    apply List.map_congr_left
    intro i _
    simp only [Function.comp_apply, Worker.otherMediate.injEq]
    omega

/-- The first worker collects the frames of the others. -/
theorem spawnWorkers_first (umem : Nat) (xsks : List Xsk) :
    spawnWorkers .firstThread (xsks.length + 1) (⟨umem, true⟩ :: xsks) 0
        ⟨List.range xsks.length, some (List.range xsks.length)⟩ =
      .ok ((if xsks.length = 0 then .solo else .selfMediate (List.range xsks.length)) ::
        (List.range xsks.length).map fun i => .otherMediate (xsks.length - 1 - i)) := by
  have hrun := spawnWorkers_senders .firstThread (xsks.length + 1) xsks (0 + 1) xsks.length none
    (Or.inr (Nat.succ_ne_zero 0)) le_rfl
  rw [spawnWorkers, if_neg (by simp)]
  dsimp only
  rw [hrun]
  by_cases h : xsks.length = 0 <;> simp [workerOf, takeMediate, Except.bind, h]

/-! ## Roles -/

namespace Wiring

variable {w : Wiring}

theorem rings_extraThread (h : w.mode = .extraThread) : w.rings = w.cores := by
  simp [rings, h]

theorem rings_firstThread (h : w.mode = .firstThread) : w.rings = w.cores - 1 := by
  simp [rings, h]

/-- A worker with a sender runs `dataplane_other_mediate`. -/
theorem ofRole_sender (t : Fin w.cores) (h : w.mode = .extraThread ∨ t.val ≠ 0) :
    Worker.ofRole (w.role (some t)) = some (.otherMediate (w.cores - 1 - t.val)) := by
  rw [role, sender, dif_pos h]
  rfl

/-- The first worker collects the frames, in the mode that has no extra thread. -/
theorem ofRole_first (t : Fin w.cores) (h : w.mode = .firstThread) (ht : t.val = 0) :
    Worker.ofRole (w.role (some t)) =
      some (if w.rings = 0 then .solo else .selfMediate (List.range w.rings)) := by
  have hno : ¬(w.mode = .extraThread ∨ t.val ≠ 0) := by simp [h, ht]
  have hr := rings_firstThread h
  have hpos := w.pos
  rw [role, sender, dif_neg hno]
  by_cases h1 : w.cores = 1
  · simp [h1, hr, Worker.ofRole]
  · have : w.rings ≠ 0 := by omega
    simp [h1, this, Worker.ofRole]

end Wiring

/-! ## Starting -/

/-- With as many sockets as workers, the first one with the queues, the threads start as wired. -/
theorem spawnThreads_wired (w : Wiring) (umem : Nat) (xsks : List Xsk)
    (hlen : xsks.length + 1 = w.cores) :
    ∃ threads, spawnThreads w.mode w.cores (⟨umem, true⟩ :: xsks) = .ok threads ∧
      threads.Wired w := by
  cases hm : w.mode with
  | extraThread =>
    refine ⟨⟨(List.range w.cores).map fun i => .otherMediate (w.cores - 1 - i),
      some (List.range w.rings)⟩, ?_, ?_, ?_, ?_⟩
    · have hrun := spawnWorkers_senders .extraThread (xsks.length + 1) (⟨umem, false⟩ :: xsks) 0
        w.cores none (Or.inl rfl) (by simp [hlen])
      simp only [List.length_cons, hlen] at hrun
      simp [spawnThreads, spawnDisposal, Except.bind, hlen, hrun, Wiring.rings_extraThread hm]
    · simp
    · intro t
      rw [Wiring.ofRole_sender t (Or.inl hm)]
      simp
    · simp [hm]
  | firstThread =>
    have hr := Wiring.rings_firstThread hm
    have hcount : w.rings = xsks.length := by omega
    refine ⟨⟨(if w.rings = 0 then .solo else .selfMediate (List.range w.rings)) ::
      (List.range w.rings).map fun i => .otherMediate (w.rings - 1 - i), none⟩, ?_, ?_, ?_, ?_⟩
    · have hrun := spawnWorkers_first umem xsks
      rw [← hcount] at hrun
      simp [spawnThreads, Except.bind, ← hlen, ← hcount, hrun]
    · simp [hcount, hlen]
    · intro t
      by_cases ht : t.val = 0
      · rw [Wiring.ofRole_first t hm ht, ht]
        rfl
      · obtain ⟨i, hi⟩ := Nat.exists_eq_succ_of_ne_zero ht
        have hlt := t.isLt
        rw [Wiring.ofRole_sender t (Or.inr ht), hi]
        simp only [List.getElem?_cons_succ, List.getElem?_map]
        rw [List.getElem?_range (by omega)]
        simp only [Option.map_some, Option.some.injEq, Worker.otherMediate.injEq]
        omega
    · simp [hm]

/-- For every number of cores that the machine or the user asks for, the threads start as wired, if
they share a `UMEM` or there is one only. None of them panics. -/
theorem startThreads_wired {X : XskRs} (hX : X.FirstOnly) (config : ThreadOptions)
    (par : Option UInt64) (h : config.shareUmem = true ∨ config.xdpCt par ≤ 1) :
    ∃ threads, startThreads X config par = .ok threads ∧ threads.Wired (config.wiring par) := by
  have hpos : 1 ≤ (config.xdpCt par).toNat := (config.wiring par).pos
  obtain ⟨n, hn⟩ := Nat.exists_eq_add_of_le' hpos
  obtain ⟨umem, xsks, hopen, hlen⟩ := openSockets_succ hX config.shareUmem n
  have hgo : ¬(1 < config.xdpCt par ∧ config.shareUmem = false) := by
    rintro ⟨hlt, hno⟩
    rcases h with h | h
    · rw [h] at hno
      cases hno
    · exact absurd hlt (UInt32.not_lt.2 h)
  obtain ⟨threads, hspawn, hwired⟩ :=
    spawnThreads_wired (config.wiring par) umem xsks (by rw [hlen]; exact hn.symm)
  refine ⟨threads, ?_, hwired⟩
  rw [startThreads, if_neg hgo, hn, hopen, ← hn]
  exact Except.mapError_eq_ok.2 hspawn

/-- Four cores that share a `UMEM`, with an extra thread. -/
theorem startThreads_wired_four :
    let X : XskRs := ⟨fun earlier umem => decide (umem ∉ earlier)⟩
    let config : ThreadOptions := ⟨some 4, true, .extraThread⟩
    X.FirstOnly ∧ config.shareUmem = true ∧
      ∃ threads, startThreads X config none = .ok threads ∧ threads.Wired (config.wiring none) := by
  intro X config
  have hX : X.FirstOnly := fun _ _ => decide_eq_true_iff
  exact ⟨hX, rfl, startThreads_wired hX config none (Or.inl rfl)⟩

end Galette.Pulley
