import Galette.Pulley.Batch
import Galette.Pulley.Proofs.UmemProofs

/-!
# Sorting a batch

The buffer has four parts: the frames that stay, those that have not been looked at, those that
were removed, and the rest of the buffer. A turn takes the first frame of the second part; what
is left of this part is only known up to its order, since the last of its frames takes the place
of a removed one.
-/

namespace Galette.Pulley

open Galette.Lib Galette.Protocol

section

variable {F : Type}

theorem leftover_perm (doTx : Bool) (others : List F) : (leftover doTx others).Perm others := by
  cases doTx with
  | true => exact .refl _
  | false =>
    rcases List.eq_nil_or_concat others with rfl | ⟨init, last, rfl⟩
    · exact .refl _
    · simpa [leftover] using (List.perm_append_singleton last init).symm

/-- Removing the first frame of a window: it becomes the last one, the others stay in front of
it. -/
theorem swap_window (pre post : List F) (f : F) (win : List F) :
    swap (pre ++ f :: win ++ post) pre.length (pre.length + win.length) =
      pre ++ leftover false win ++ f :: post := by
  rcases List.eq_nil_or_concat win with rfl | ⟨init, l, rfl⟩
  · simp [swap, leftover]
  · have hfst : (pre ++ f :: init.concat l ++ post)[pre.length]? = some f := by simp
    have hsnd : (pre ++ f :: init.concat l ++ post)[pre.length + (init.concat l).length]? =
        some l := by
      simp
    unfold swap
    rw [hfst, hsnd]
    simp [leftover]

theorem framesWith_cons (p : Fate → Bool) (e : F × Fate) (log : List (F × Fate)) :
    framesWith p (e :: log) = framesWith p [e] ++ framesWith p log := by
  unfold framesWith
  by_cases h : p e.2 <;> simp [h]

theorem framesWith_singleton (p : Fate → Bool) (f : F) (fate : Fate) :
    framesWith p [(f, fate)] = if p fate then [f] else [] := by
  unfold framesWith
  by_cases h : p fate <;> simp [h]

end

section

variable {σ F : Type} {endian : Endian} {st : ChainState} {dylibs : Uuid → Option (UserNf σ)}

/-- The position of a function is not the end of the inner loop. -/
theorem walkLoop_step_user (s : σ) (uuid : Uuid) (pkt : Bytes) :
    (walkLoop st dylibs).step (s, .user uuid pkt) ≠ none := by
  simp only [walkLoop, walkLoopStep]
  split <;> simp

theorem afterUser_final {action : LinkAction} (h : action.nextNf = none) (pkt : Bytes) :
    afterUser pkt (some action) = .sorted (Fate.walked action).sent pkt := by
  cases action with
  | upcall id => cases h
  | tailcall id => cases h
  | _ => rfl

theorem afterUser_next {action : LinkAction} {v : Uuid} (h : action.nextNf = some v) (pkt : Bytes) :
    afterUser pkt (some action) = .user v pkt := by
  cases action with
  | upcall id => exact congrArg (Sys.user · pkt) (Option.some.inj h)
  | tailcall id => exact congrArg (Sys.user · pkt) (Option.some.inj h)
  | _ => cases h

/-- One turn: the function is run and the packet goes where its action says. -/
theorem walkLoop_step_lib {s : σ} {uuid : Uuid} {pkt : Bytes} {lib : UserNf σ}
    (hlib : dylibs uuid = some lib) :
    (walkLoop st dylibs).step (s, .user uuid pkt) = some (some (uuid, pkt),
      ((lib s pkt (mapsOf st uuid)).1, afterUser (lib s pkt (mapsOf st uuid)).2.1
        (userAction st uuid (lib s pkt (mapsOf st uuid)).2.2))) := by
  simp [walkLoop, walkLoopStep, hlib]

/-- A valid index has an action, also once it is cast. -/
theorem exists_userAction {u : Uuid} {state : XdpLinkState} {idx : Nat}
    (hstate : st.linkStates.lookup u = some state)
    (hidx : ∀ els, state = .body els → idx < els.length) :
    ∃ action, userAction st u idx = some action := by
  cases state with
  | tail => exact ⟨.tx, by simp [userAction, hstate, XdpLinkState.act]⟩
  | body els =>
    have hlt : (UInt32.ofNat idx).toNat < els.length := by
      rw [UInt32.toNat_ofNat']
      exact lt_of_le_of_lt (Nat.mod_le _ _) (hidx els rfl)
    refine ⟨els[(UInt32.ofNat idx).toNat], ?_⟩
    simp [userAction, hstate, XdpLinkState.act]

theorem follows_of_upcallTarget {srcNf : ProgId} {act : UInt32} {u : Uuid}
    (h : upcallTarget st srcNf act = some u) : ∃ src, Follows st src u := by
  obtain ⟨src, _, h⟩ := Option.bind_eq_some_iff.1 h
  obtain ⟨state, hstate, h⟩ := Option.bind_eq_some_iff.1 h
  obtain ⟨action, haction, hnext⟩ := Option.bind_eq_some_iff.1 h
  exact ⟨src, state, act, action, hstate, haction, hnext⟩

/-- Where a packet can be in the inner loop. -/
def Sys.InLoop : Sys → Prop
  | .user _ _ | .sorted _ _ | .panicked => True
  | _ => False

theorem afterUser_inLoop (pkt : Bytes) (action : Option LinkAction) :
    (afterUser pkt action).InLoop := by
  rcases action with _ | action
  · trivial
  · cases action <;> trivial

/-- Functions without a state: the inner loop is the part of `system` that is in userland. -/
theorem system_agree_walkLoop (host : Host) (libs : HashMap Uuid NfUserApi) (uuid : Uuid)
    (pkt : Bytes) :
    Machine.Agree (system host st libs)
      (walkLoop st fun u => (libs.lookup u).map fun lib (_ : Unit) pkt maps => ((), lib pkt maps))
      (fun a b => b = ((), a)) (.user uuid pkt) ((), .user uuid pkt) := by
  refine Machine.Sim.agree (R := fun a b => b = ((), a) ∧ a.InLoop) ⟨?_, ?_⟩ ⟨rfl, trivial⟩
  · rintro a _ o a' ⟨rfl, hin⟩ hstep
    cases a with
    | user uuid pkt =>
      simp only [system, sysStep] at hstep
      cases hlib : libs.lookup uuid with
      | none =>
        rw [hlib] at hstep
        cases hstep
        exact ⟨0, ((), .panicked), walkLoop_step_user _ _ _, by
          simp [Machine.run, walkLoop, walkLoopStep, hlib], rfl, trivial⟩
      | some lib =>
        rw [hlib] at hstep
        cases hstep
        exact ⟨0, ((), _), walkLoop_step_user _ _ _, by
          simp [Machine.run, walkLoop, walkLoopStep, hlib], rfl, afterUser_inLoop _ _⟩
    | kernel fd pkt => exact hin.elim
    | socket core metadata pkt => exact hin.elim
    | _ => cases hstep
  · rintro a _ ⟨rfl, hin⟩ hfinal
    refine ⟨0, ((), a), rfl, ?_, rfl⟩
    cases a with
    | user uuid pkt =>
      simp only [system, sysStep] at hfinal
      split at hfinal <;> cases hfinal
    | kernel fd pkt => exact hin.elim
    | socket core metadata pkt => exact hin.elim
    | _ => rfl

variable [DecidableEq F]

/-- The inner loop inside of the outer one. -/
theorem dataplaneCore_run_walking (b : Batch σ F) (desc : F) (k : Nat) (pos : σ × Sys)
    (h : (walkLoop st dylibs).step ((walkLoop st dylibs).run k pos).2 ≠ none) :
    (dataplaneCore endian st dylibs).run k (.walking b desc pos) =
      ([], .walking b desc ((walkLoop st dylibs).run k pos).2) := by
  induction k generalizing pos with
  | zero => rfl
  | succ k ih =>
    cases hs : (walkLoop st dylibs).step pos with
    | none =>
      rw [Machine.run_final _ hs] at h
      exact absurd hs h
    | some r =>
      obtain ⟨o, pos'⟩ := r
      have hstep : (dataplaneCore endian st dylibs).step (.walking b desc pos) =
          some (none, .walking b desc pos') := by
        simp [dataplaneCore, coreStep, hs]
      rw [Machine.run_succ _ hs] at h ⊢
      rw [Machine.run_succ _ hstep, ih pos' h]
      rfl

/-- **Step lemma**: one turn of the outer loop. -/
theorem Handles.turn {b : Batch σ F} {desc : F} {fate : Fate} {mem' : Memory σ F}
    (h : Handles endian st dylibs b.mem desc fate mem') (hlt : b.i < b.numTx)
    (hdesc : b.frames[b.i]? = some desc) :
    ∃ k, (dataplaneCore endian st dylibs).run k (.next b) =
      (framesWith Fate.wellFormed [(desc, fate)], .next (b.sort mem' fate.sent)) := by
  cases h with
  | malformed hmeta =>
    have hstep : (dataplaneCore endian st dylibs).step (.next b) =
        some (none, .next (b.sort b.mem false)) := by
      simp [dataplaneCore, coreStep, beginTurn, hlt, hdesc, hmeta]
    exact ⟨1, by simp [Machine.run, hstep, framesWith, Fate.wellFormed, Fate.sent]⟩
  | @walked srcNf act uuid last k t s pkt lib action hmeta htarget hrun hlib haction hfinal =>
    have hbegin : (dataplaneCore endian st dylibs).step (.next b) =
        some (some desc, .walking b desc (b.mem.nfs, .user uuid (b.mem.data desc))) := by
      simp [dataplaneCore, coreStep, beginTurn, hlt, hdesc, hmeta, htarget]
    have hwalk : (dataplaneCore endian st dylibs).run k
        (.walking b desc (b.mem.nfs, .user uuid (b.mem.data desc))) =
        ([], .walking b desc (s, .user last pkt)) := by
      rw [dataplaneCore_run_walking b desc k _ (by rw [hrun]; exact walkLoop_step_user _ _ _), hrun]
    have hlast : (dataplaneCore endian st dylibs).step (.walking b desc (s, .user last pkt)) =
        some (none, .walking b desc ((lib s pkt (mapsOf st last)).1,
          .sorted (Fate.walked action).sent (lib s pkt (mapsOf st last)).2.1)) := by
      simp [dataplaneCore, coreStep, walkLoop_step_lib hlib, haction, afterUser_final hfinal]
    have hend : (dataplaneCore endian st dylibs).step (.walking b desc
        ((lib s pkt (mapsOf st last)).1,
          .sorted (Fate.walked action).sent (lib s pkt (mapsOf st last)).2.1)) =
        some (none, .next (b.sort (b.mem.store desc (lib s pkt (mapsOf st last)).1
          (lib s pkt (mapsOf st last)).2.1) (Fate.walked action).sent)) := rfl
    refine ⟨k + 2 + 1, ?_⟩
    rw [Machine.run_succ _ hbegin, Machine.run_add, hwalk, Machine.run_succ _ hlast,
      Machine.run_succ _ hend]
    simp [framesWith, Fate.wellFormed]

theorem WalksEnd.head {mem : Memory σ F} {desc : F} {others : List F}
    (h : WalksEnd endian st dylibs mem (desc :: others)) :
    ∃ fate mem', Handles endian st dylibs mem desc fate mem' :=
  h [] mem desc others (.nil mem) (List.Perm.refl _)

theorem WalksEnd.tail {mem mem' : Memory σ F} {desc : F} {fate : Fate} {others others' : List F}
    (h : WalksEnd endian st dylibs mem (desc :: others))
    (hdesc : Handles endian st dylibs mem desc fate mem') (hperm : others'.Perm others) :
    WalksEnd endian st dylibs mem' others' := by
  intro log mem'' f fs hlog hfs
  exact h ((desc, fate) :: log) mem'' f fs (.cons hdesc hlog) ((hfs.trans hperm).cons desc)

omit [DecidableEq F] in
/-- The parts of the buffer after a turn. -/
theorem Batch.sort_window (n : Nat) (kept others post : List F) (f : F) (fate : Fate)
    (mem mem' : Memory σ F) :
    Batch.sort ⟨mem, kept ++ f :: others ++ post, kept.length, kept.length + (f :: others).length,
      n⟩ mem' fate.sent =
    ⟨mem', kept ++ framesWith Fate.sent [(f, fate)] ++ leftover fate.sent others ++
        (framesWith (fun fate => !fate.sent) [(f, fate)] ++ post),
      (kept ++ framesWith Fate.sent [(f, fate)]).length,
      (kept ++ framesWith Fate.sent [(f, fate)]).length + (leftover fate.sent others).length, n⟩ := by
  rw [framesWith_singleton, framesWith_singleton]
  cases hsent : fate.sent with
  | true => simp [Batch.sort, leftover, Nat.add_assoc, Nat.add_comm 1]
  | false =>
    have hlen := (leftover_perm false others).length_eq
    simpa [Batch.sort, hlen] using swap_window kept post f others

omit [DecidableEq F] in
/-- A turn of `sortFrames` does the same to the buffer. -/
theorem sortFrames_sort (doTx : Nat → Bool) (turn : Nat) (mem' : Memory σ F) (b : Batch σ F)
    (hlt : b.i < b.numTx) :
    sortFrames doTx turn b.frames b.i b.numTx =
      sortFrames doTx (turn + 1) (b.sort mem' (doTx turn)).frames (b.sort mem' (doTx turn)).i
        (b.sort mem' (doTx turn)).numTx := by
  rw [sortFrames, if_pos hlt]
  cases hdoTx : doTx turn with
  | true => rfl
  | false => rfl

/-- **Run lemma**: the outer loop from a point where `kept` stay in place and `win` have not been
looked at. The induction is on the length of `win`. -/
theorem dataplaneCore_window (n : Nat) (kept win post : List F) (mem : Memory σ F)
    (hends : WalksEnd endian st dylibs mem win) :
    ∃ log mem', HandlesAll endian st dylibs mem log mem' ∧ (log.map Prod.fst).Perm win ∧
      (dataplaneCore endian st dylibs).Halts
        (.next ⟨mem, kept ++ win ++ post, kept.length, kept.length + win.length, n⟩)
        (framesWith Fate.wellFormed log)
        (.returned mem' (kept ++ framesWith Fate.sent log ++
          ((framesWith (fun fate => !fate.sent) log).reverse ++ post))
          (kept.length + (framesWith Fate.sent log).length) n) ∧
      ∀ doTx turn, (∀ j f fate, log[j]? = some (f, fate) → doTx (turn + j) = fate.sent) →
        sortFrames doTx turn (kept ++ win ++ post) kept.length (kept.length + win.length) =
          (kept ++ framesWith Fate.sent log ++
            ((framesWith (fun fate => !fate.sent) log).reverse ++ post),
            kept.length + (framesWith Fate.sent log).length) := by
  induction hlen : win.length generalizing kept win post mem with
  | zero =>
    obtain rfl := List.length_eq_zero_iff.1 hlen
    refine ⟨[], mem, .nil mem, List.Perm.refl _, ⟨1, ?_, rfl⟩, fun doTx turn _ => ?_⟩
    · simp [Machine.run, dataplaneCore, coreStep, framesWith]
    · rw [sortFrames, if_neg (by simp)]
      simp [framesWith]
  | succ m ih =>
    obtain ⟨f, others, rfl⟩ := List.exists_cons_of_length_eq_add_one hlen
    obtain ⟨fate, mem', hf⟩ := hends.head
    have hperm := leftover_perm fate.sent others
    have hsort := Batch.sort_window n kept others post f fate mem mem'
    generalize leftover fate.sent others = others' at hperm hsort
    have hturn : ∃ k, (dataplaneCore endian st dylibs).run k
        (.next ⟨mem, kept ++ f :: others ++ post, kept.length, kept.length + (f :: others).length, n⟩) =
        (framesWith Fate.wellFormed [(f, fate)], .next _) := hf.turn (by simp) (by simp)
    obtain ⟨k, hk⟩ := hturn
    rw [hsort] at hk
    have hlen' : others'.length = m := by
      simpa [hperm.length_eq] using hlen
    obtain ⟨log, mem'', hlog, hlogperm, hhalts, hsorted⟩ := ih
      (kept ++ framesWith Fate.sent [(f, fate)]) others'
      (framesWith (fun fate => !fate.sent) [(f, fate)] ++ post) mem' (hends.tail hf hperm) hlen'
    have hrev : (framesWith (fun fate => !fate.sent) [(f, fate)]).reverse =
        framesWith (fun fate => !fate.sent) [(f, fate)] := by
      rw [framesWith_singleton]
      split <;> rfl
    refine ⟨(f, fate) :: log, mem'', .cons hf hlog, (hlogperm.trans hperm).cons f, ?_, ?_⟩
    · rw [← hlen]
      refine (Machine.halts_after _ hk).2 ⟨_, framesWith_cons _ _ _, ?_⟩
      rw [framesWith_cons Fate.sent _ log, framesWith_cons (fun fate => !fate.sent) _ log]
      simpa [hrev, hlen', Nat.add_assoc] using hhalts
    · intro doTx turn hdoTx
      have hfst : doTx turn = fate.sent := hdoTx 0 f fate rfl
      have hrest : ∀ j g fate', log[j]? = some (g, fate') → doTx (turn + 1 + j) = fate'.sent := by
        intro j g fate' hj
        rw [Nat.add_assoc, Nat.add_comm 1]
        exact hdoTx (j + 1) g fate' hj
      have hstep := sortFrames_sort doTx turn mem'
        ⟨mem, kept ++ f :: others ++ post, kept.length, kept.length + (f :: others).length, n⟩
        (by simp)
      rw [hfst, hsort] at hstep
      rw [← hlen]
      refine hstep.trans ?_
      rw [framesWith_cons Fate.sent _ log, framesWith_cons (fun fate => !fate.sent) _ log]
      simpa [hrev, hlen', Nat.add_assoc] using hsorted doTx (turn + 1) hrest

omit [DecidableEq F] in
/-- The frames with a kind of fate and the others are all frames. -/
theorem framesWith_perm (p : Fate → Bool) (log : List (F × Fate)) :
    (framesWith p log ++ framesWith (fun fate => !p fate) log).Perm (log.map Prod.fst) := by
  unfold framesWith
  rw [← List.map_append]
  exact (List.filter_append_perm (fun e => p e.2) log).map Prod.fst

/-- **The sorted batch.** Whatever buffer a batch lies in, and whatever the functions do with its
frames as long as every walk ends, `dataplane_core` returns, and the buffer is sorted by the fates
of the frames. -/
theorem dataplaneCore_sorts (endian : Endian) (st : ChainState) (dylibs : Uuid → Option (UserNf σ))
    (mem : Memory σ F) (batch rest : List F) (hends : WalksEnd endian st dylibs mem batch) :
    ∃ log mem' frames numTx runs, HandlesAll endian st dylibs mem log mem' ∧
      (dataplaneCore endian st dylibs).Halts (.received mem (batch ++ rest) batch.length) runs
        (.returned mem' frames numTx batch.length) ∧
      SortedBy log batch rest frames numTx runs := by
  obtain ⟨log, mem', hlog, hperm, hhalts, _⟩ :=
    dataplaneCore_window batch.length [] batch rest mem hends
  have hall := framesWith_perm Fate.sent log
  have hlen := (hall.trans hperm).length_eq
  rw [List.length_append] at hlen
  refine ⟨log, mem', framesWith Fate.sent log ++
    (framesWith (fun fate => !fate.sent) log).reverse ++ rest, (framesWith Fate.sent log).length,
    framesWith Fate.wellFormed log, hlog, ?_, ?_⟩
  · simpa [Core.received] using hhalts
  · have htake : (framesWith Fate.sent log ++ (framesWith (fun fate => !fate.sent) log).reverse ++
        rest).take batch.length =
        framesWith Fate.sent log ++ (framesWith (fun fate => !fate.sent) log).reverse := by
      rw [← hlen]
      exact List.take_left' (by simp)
    have hrev := (framesWith (fun fate => !fate.sent) log).reverse_perm
    refine ⟨hperm, by omega, ?_, ?_, ?_, ?_, rfl⟩
    · rw [htake]
      exact ((hrev.append_left _).trans hall).trans hperm
    · rw [List.append_assoc]
      exact List.take_left' rfl
    · rw [slice, htake, List.drop_left' rfl]
      exact hrev
    · rw [← hlen]
      exact List.drop_left' (by simp)

omit [DecidableEq F] in
/-- If the fates are those of an assignment, the buffer is sorted by the assignment. -/
theorem SortedBy.assigned {log : List (F × Fate)} {batch rest frames runs : List F} {numTx : Nat}
    (h : SortedBy log batch rest frames numTx runs) {fate : F → Fate}
    (hfate : ∀ e ∈ log, e.2 = fate e.1) :
    (frames.take numTx).Perm (batch.filter fun f => (fate f).sent) ∧
      (slice frames numTx batch.length).Perm (batch.filter fun f => !(fate f).sent) ∧
      runs.Perm (batch.filter fun f => (fate f).wellFormed) := by
  have hwith : ∀ p : Fate → Bool, (framesWith p log).Perm (batch.filter fun f => p (fate f)) := by
    intro p
    have hfilter : framesWith p log = (log.map Prod.fst).filter fun f => p (fate f) := by
      rw [framesWith, List.filter_map]
      congr 1
      exact List.filter_congr fun e he => by simp [hfate e he]
    rw [hfilter]
    exact h.handled.filter _
  exact ⟨h.sent ▸ hwith Fate.sent, h.removed.trans (hwith fun fate => !fate.sent),
    h.runs ▸ hwith Fate.wellFormed⟩

/-! ## When walks end -/

/-- Handling a frame changes no headroom. -/
theorem Handles.headroom {mem mem' : Memory σ F} {desc : F} {fate : Fate}
    (h : Handles endian st dylibs mem desc fate mem') : mem'.headroom = mem.headroom := by
  cases h with
  | malformed => rfl
  | walked => rfl

theorem HandlesAll.headroom {mem mem' : Memory σ F} {log : List (F × Fate)}
    (h : HandlesAll endian st dylibs mem log mem') : mem'.headroom = mem.headroom := by
  induction h with
  | nil mem => rfl
  | cons hd _ ih => exact ih.trans hd.headroom

/-- The inner loop gets to a function that chooses a final action. -/
def ReachesFinal (st : ChainState) (dylibs : Uuid → Option (UserNf σ)) (pos : σ × Sys) : Prop :=
  ∃ k t s last pkt lib action, (walkLoop st dylibs).run k pos = (t, (s, .user last pkt)) ∧
    dylibs last = some lib ∧
    userAction st last (lib s pkt (mapsOf st last)).2.2 = some action ∧ action.nextNf = none

theorem ReachesFinal.of_step {pos pos' : σ × Sys} {o : Option (Uuid × Bytes)}
    (hstep : (walkLoop st dylibs).step pos = some (o, pos')) (h : ReachesFinal st dylibs pos') :
    ReachesFinal st dylibs pos := by
  obtain ⟨k, t, s, last, pkt, lib, action, hrun, hlast⟩ := h
  refine ⟨k + 1, o.toList ++ t, s, last, pkt, lib, action, ?_, hlast⟩
  rw [Machine.run_succ _ hstep, hrun]

/-- A walk that ends with a decision has a last function, which chose a final action. -/
theorem reachesFinal_of_run {n : Nat} {s s' : σ} {uuid : Uuid} {pkt pkt' : Bytes} {doTx : Bool}
    (h : ((walkLoop st dylibs).run n (s, .user uuid pkt)).2 = (s', .sorted doTx pkt')) :
    ReachesFinal st dylibs (s, .user uuid pkt) := by
  induction n generalizing s uuid pkt with
  | zero => cases h
  | succ n ih =>
    cases hlib : dylibs uuid with
    | none =>
      have hstep : (walkLoop st dylibs).step (s, .user uuid pkt) = some (none, (s, .panicked)) := by
        simp [walkLoop, walkLoopStep, hlib]
      rw [Machine.run_succ _ hstep, Machine.run_final _ rfl] at h
      cases h
    | some lib =>
      have hstep : (walkLoop st dylibs).step (s, .user uuid pkt) = _ := walkLoop_step_lib hlib
      cases haction : userAction st uuid (lib s pkt (mapsOf st uuid)).2.2 with
      | none =>
        rw [haction] at hstep
        rw [Machine.run_succ _ hstep, Machine.run_final _ rfl] at h
        cases h
      | some action =>
        cases hnext : action.nextNf with
        | none => exact ⟨0, _, s, uuid, pkt, lib, _, rfl, hlib, haction, hnext⟩
        | some v =>
          rw [haction, afterUser_next hnext] at hstep
          rw [Machine.run_succ _ hstep] at h
          exact .of_step hstep (ih h)

/-- Every batch can be handled if all its walks end, in whatever state and with whatever packet they
begin. -/
theorem walksEnd_of_halts {mem : Memory σ F} {batch : List F}
    (h : ∀ f ∈ batch, decodeMeta endian (mem.headroom f) = none ∨
      ∃ srcNf act uuid, decodeMeta endian (mem.headroom f) = some (srcNf, act) ∧
        upcallTarget st srcNf act = some uuid ∧
        ∀ s pkt, ∃ t s' doTx pkt', (walkLoop st dylibs).Halts (s, .user uuid pkt) t
          (s', .sorted doTx pkt')) :
    WalksEnd endian st dylibs mem batch := by
  intro log mem' desc others hlog hperm
  have hmem : desc ∈ batch := hperm.subset (by simp)
  rw [← hlog.headroom] at h
  rcases h desc hmem with hmeta | ⟨srcNf, act, uuid, hmeta, htarget, hwalk⟩
  · exact ⟨_, _, .malformed hmeta⟩
  · obtain ⟨t, s', doTx, pkt', n, hrun, _⟩ := hwalk mem'.nfs (mem'.data desc)
    obtain ⟨k, t₁, s₁, last, pkt₁, lib, action, hrun₁, hlib, haction, hfinal⟩ :=
      reachesFinal_of_run (congrArg Prod.snd hrun)
    exact ⟨_, _, .walked hmeta htarget hrun₁ hlib haction hfinal⟩

/-- A function that lets the first packet pass and drops all others, in a chain of its own: the
state is the number of packets so far. Frames beyond the first two have malformed metadata. -/
def firstOnly : ChainState × (Uuid → Option (UserNf Nat)) × Memory Nat Nat where
  fst :=
    { linkedEbpfs := ∅
      progFds := ∅
      instanceIds := AList.singleton 0 1
      linkStates := AList.insert 1 (.body [.upcall 2]) (AList.singleton 2 (.body [.tx, .drop]))
      rawMaps := ∅ }
  snd :=
    (fun _ => some fun s pkt _ => (s + 1, pkt, if s = 0 then 0 else 1),
      { nfs := 0
        headroom := fun f => if f < 2 then List.replicate 8 0 else []
        data := fun _ => [] })

theorem firstOnly_halts (s : Nat) (pkt : Bytes) : ∃ t s' doTx pkt',
    (walkLoop firstOnly.1 firstOnly.2.1).Halts (s, .user 2 pkt) t (s', .sorted doTx pkt') := by
  cases s with
  | zero => exact ⟨[(2, pkt)], 1, true, pkt, 1, rfl, rfl⟩
  | succ s => exact ⟨[(2, pkt)], s + 2, false, pkt, 1, rfl, rfl⟩

/-- Three frames in a buffer of four, of which the last one received is malformed. -/
theorem firstOnly_sorts :
    ∃ log mem' frames numTx runs,
      HandlesAll .little firstOnly.1 firstOnly.2.1 firstOnly.2.2 log mem' ∧
      (dataplaneCore .little firstOnly.1 firstOnly.2.1).Halts
        (.received firstOnly.2.2 [0, 1, 2, 7] 3) runs (.returned mem' frames numTx 3) ∧
      SortedBy log [0, 1, 2] [7] frames numTx runs := by
  refine dataplaneCore_sorts .little firstOnly.1 firstOnly.2.1 firstOnly.2.2 [0, 1, 2] [7]
    (walksEnd_of_halts fun f _ => ?_)
  by_cases hf : f < 2
  · have hmeta : firstOnly.2.2.headroom f = List.replicate 8 0 := if_pos hf
    rw [hmeta]
    exact Or.inr ⟨0, 0, 2, by decide, by decide, firstOnly_halts⟩
  · have hmeta : firstOnly.2.2.headroom f = [] := if_neg hf
    rw [hmeta]
    exact Or.inl rfl

end

end Galette.Pulley
