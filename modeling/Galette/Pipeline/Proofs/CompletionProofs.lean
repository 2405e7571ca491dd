import Galette.Lib.Graph
import Galette.Pipeline.Proofs.IntegrityProofs
import Galette.Pulley.Proofs.BatchProofs

/-!
# Proofs: running to completion

Nothing in the compiler or the runtime looks for cycles in the links of a chain, and the inner loop
of `dataplane_core` has no bound. It ends for whatever the functions do exactly if no cycle can be
reached from the function it starts with, and then it runs no function twice.
-/

namespace Galette.Pipeline

open Galette.Lib Galette.Protocol Galette.Chainsmith Galette.Pulley

section

variable {σ : Type} {st : ChainState} {dylibs : Uuid → Option (UserNf σ)}

/-- **Step lemma**: a valid call goes on with a function that can follow, or ends the walk. -/
theorem validCalls_step {s : σ} {u : Uuid} {pkt : Bytes} {state : XdpLinkState}
    (h : ValidCalls st dylibs (s, .user u pkt)) (hstate : st.linkStates.lookup u = some state) :
    ∃ s' pkt',
      (∃ v, (walkLoop st dylibs).step (s, .user u pkt) = some (some (u, pkt), (s', .user v pkt')) ∧
        Follows st u v ∧ ValidCalls st dylibs (s', .user v pkt')) ∨
      ∃ doTx, (walkLoop st dylibs).step (s, .user u pkt) =
        some (some (u, pkt), (s', .sorted doTx pkt')) := by
  obtain ⟨lib, hlib, hidx⟩ := h 0 [] s u pkt rfl
  obtain ⟨action, haction⟩ := exists_userAction hstate fun els hels =>
    hidx els (hels ▸ hstate)
  have hstep : (walkLoop st dylibs).step (s, .user u pkt) = _ := walkLoop_step_lib hlib
  rw [haction] at hstep
  refine ⟨(lib s pkt (mapsOf st u)).1, (lib s pkt (mapsOf st u)).2.1, ?_⟩
  cases hnext : action.nextNf with
  | none =>
    right
    rw [afterUser_final hnext] at hstep
    exact ⟨_, hstep⟩
  | some v =>
    left
    rw [afterUser_next hnext] at hstep
    refine ⟨v, hstep, ?_, ?_⟩
    · obtain ⟨state', hstate', hact⟩ := Option.bind_eq_some_iff.1 haction
      exact ⟨state', _, action, hstate', hact, hnext⟩
    · intro k t s' u' pkt' hrun
      exact h (k + 1) _ s' u' pkt' (by rw [Machine.run_succ _ hstep, hrun])

/-- Without a cycle the walk ends, and its trace follows the links. -/
theorem walkLoop_chain_of_acyclic {nodes : List Uuid} (hnodes : ∀ u v, Follows st u v → v ∈ nodes)
    (hstates : ∀ u ∈ nodes, ∃ state, st.linkStates.lookup u = some state) {u : Uuid}
    (hcycle : ¬ ReachesCycle (Follows st) u) :
    ∀ s pkt, ValidCalls st dylibs (s, .user u pkt) → u ∈ nodes →
      ∃ t l s' doTx pkt', (walkLoop st dylibs).Halts (s, .user u pkt) t (s', .sorted doTx pkt') ∧
        t.map Prod.fst = u :: l ∧ (u :: l).IsChain (Follows st) := by
  refine acyclic_induction (P := fun u => ∀ s pkt, ValidCalls st dylibs (s, .user u pkt) →
    u ∈ nodes → ∃ t l s' doTx pkt', (walkLoop st dylibs).Halts (s, .user u pkt) t
      (s', .sorted doTx pkt') ∧ t.map Prod.fst = u :: l ∧ (u :: l).IsChain (Follows st))
    hnodes ?_ hcycle
  intro u ih s pkt hvalid hu
  obtain ⟨state, hstate⟩ := hstates u hu
  obtain ⟨s', pkt', ⟨v, hstep, hfollows, hvalid'⟩ | ⟨doTx, hstep⟩⟩ := validCalls_step hvalid hstate
  · obtain ⟨t, l, s'', doTx, pkt'', hhalts, ht, hl⟩ :=
      ih v hfollows s' pkt' hvalid' (hnodes u v hfollows)
    refine ⟨(u, pkt) :: t, v :: l, s'', doTx, pkt'', ?_, by rw [List.map_cons, ht],
      List.isChain_cons_cons.2 ⟨hfollows, hl⟩⟩
    exact (Machine.halts_after _ (k := 1) (u := [(u, pkt)]) (by simp [Machine.run, hstep])).2
      ⟨t, rfl, hhalts⟩
  · exact ⟨[(u, pkt)], [], s', doTx, pkt', ⟨1, by simp [Machine.run, hstep], rfl⟩, rfl,
      List.isChain_singleton u⟩

/-- **Run lemma**: without a cycle the walk ends before it comes to a function twice. -/
theorem walkLoop_halts_of_acyclic {nodes : List Uuid} (hnodes : ∀ u v, Follows st u v → v ∈ nodes)
    (hstates : ∀ u ∈ nodes, ∃ state, st.linkStates.lookup u = some state) {u : Uuid}
    (hu : u ∈ nodes) (hcycle : ¬ ReachesCycle (Follows st) u) {s : σ} {pkt : Bytes}
    (hvalid : ValidCalls st dylibs (s, .user u pkt)) :
    ∃ t s' doTx pkt', (walkLoop st dylibs).Halts (s, .user u pkt) t (s', .sorted doTx pkt') ∧
      (t.map Prod.fst).Nodup ∧ t.length ≤ nodes.length := by
  obtain ⟨t, l, s', doTx, pkt', hhalts, ht, hl⟩ :=
    walkLoop_chain_of_acyclic hnodes hstates hcycle s pkt hvalid hu
  have hnodup := nodup_of_isChain hcycle hl
  refine ⟨t, s', doTx, pkt', hhalts, ht ▸ hnodup, ?_⟩
  have hsub : ∀ x ∈ u :: l, x ∈ nodes := by
    intro x hx
    rcases List.mem_cons.1 hx with rfl | hx
    · exact hu
    · exact mem_of_isChain hnodes hl x hx
  have hlen : t.length = (u :: l).length := by rw [← ht, List.length_map]
  rw [hlen]
  exact (hnodup.subperm hsub).length_le

/-- Frames whose metadata lead to functions without a cycle behind them can all be handled. -/
theorem walksEnd_of_acyclic {F : Type} [DecidableEq F] {endian : Endian} {mem : Memory σ F}
    {batch : List F} {nodes : List Uuid} (hnodes : ∀ u v, Follows st u v → v ∈ nodes)
    (hstates : ∀ u ∈ nodes, ∃ state, st.linkStates.lookup u = some state)
    (hbatch : ∀ f ∈ batch, decodeMeta endian (mem.headroom f) = none ∨
      ∃ srcNf act u, decodeMeta endian (mem.headroom f) = some (srcNf, act) ∧
        upcallTarget st srcNf act = some u ∧ ¬ ReachesCycle (Follows st) u ∧
        ∀ s pkt, ValidCalls st dylibs (s, .user u pkt)) : WalksEnd endian st dylibs mem batch := by
  refine walksEnd_of_halts fun f hf => ?_
  rcases hbatch f hf with hnone | ⟨srcNf, act, u, hmeta, htarget, hcycle, hvalid⟩
  · exact Or.inl hnone
  · refine Or.inr ⟨srcNf, act, u, hmeta, htarget, fun s pkt => ?_⟩
    -- an upcall comes from a function, so its target is one that follows
    obtain ⟨src, hsrc⟩ := follows_of_upcallTarget htarget
    obtain ⟨t, s', doTx, pkt', hhalts, _⟩ :=
      walkLoop_halts_of_acyclic hnodes hstates (hnodes src u hsrc) hcycle (hvalid s pkt)
    exact ⟨t, s', doTx, pkt', hhalts⟩

end

/-- Functions that walk along a path, one node with each call. -/
def pathNf (out : Nat → UInt32) : Uuid → Option (UserNf Nat) :=
  fun _ => some fun n pkt _ => (n + 1, pkt, (out n).toNat)

/-- A cycle can be walked forever, with valid indices. -/
theorem walkLoop_diverges_of_cycle {st : ChainState} {u : Uuid}
    (hcycle : ReachesCycle (Follows st) u) :
    ∃ dylibs : Uuid → Option (UserNf Nat), ValidCalls st dylibs (0, .user u []) ∧
      (walkLoop st dylibs).Diverges (0, .user u []) := by
  obtain ⟨p, rfl, hp⟩ := hcycle.exists_path
  choose state out action hstate hact hnext using hp
  have hstep : ∀ n, (walkLoop st (pathNf out)).step (n, .user (p n) []) =
      some (some (p n, []), (n + 1, .user (p (n + 1)) [])) := by
    intro n
    have haction : userAction st (p n) (out n).toNat = some (action n) := by
      simp [userAction, hstate n, hact n]
    have hstep : (walkLoop st (pathNf out)).step (n, .user (p n) []) = _ := walkLoop_step_lib rfl
    rw [haction, afterUser_next (hnext n)] at hstep
    exact hstep
  have hrun : ∀ k n, ((walkLoop st (pathNf out)).run k (n, .user (p n) [])).2 =
      (n + k, .user (p (n + k)) []) := by
    intro k
    induction k with
    | zero => exact fun n => rfl
    | succ k ih =>
      intro n
      rw [Machine.run_succ _ (hstep n), show n + (k + 1) = n + 1 + k by omega]
      exact ih (n + 1)
  refine ⟨pathNf out, ?_, ?_⟩
  · intro k t s u pkt hk
    have hpos := hrun k 0
    rw [hk, Nat.zero_add] at hpos
    cases hpos
    refine ⟨_, rfl, fun els hels => ?_⟩
    have hbody := hact k
    rw [Option.some.inj ((hstate k).symm.trans hels)] at hbody
    exact (List.getElem?_eq_some_iff.1 hbody).1
  · intro n
    rw [hrun n 0]
    exact walkLoop_step_user _ _ _

/-! ## Chains -/

/-- The states that an installed chain keeps are those of its links. -/
theorem installChain_linkStates {K : Libbpf} {msg : Protocol.Chain} {config : Cli} {xsks : List Fd}
    {st : ChainState} (h : installChain K msg config xsks = .ok st) :
    st.linkStates = HashMap.insertAll XdpLink.uuid XdpLink.state msg.links ∅ := by
  obtain ⟨iface, ld, tb, progs, _, htb, _, rfl⟩ := installChain_stages h
  have key := foldE_inv (fun done tb => tb.linkStates =
    HashMap.insertAll XdpLink.uuid XdpLink.state (done.map Prod.fst) ∅) htb rfl ?_
  · rw [List.zipIdx_map_fst] at key
    exact key
  · intro done e rest tb tb' _ hI hstep
    rw [List.map_append, HashMap.insertAll_append, ← hI]
    obtain ⟨_, rfl⟩ | ⟨els, prog, obj, _, _, _, rfl⟩ := patchLink_cases hstep
    · rfl
    · rfl

section

variable {chain : Chainsmith.Chain} {fnMap : HashMap String Uuid} {resolved links : List XdpLink}
  {st : ChainState}

/-- In a chain that `make_concrete` accepts, only functions of the chain follow. -/
theorem mem_of_follows (hconcrete : makeConcrete chain fnMap = .ok resolved)
    (hperm : links.Perm resolved)
    (hst : st.linkStates = HashMap.insertAll XdpLink.uuid XdpLink.state links ∅) {u v : Uuid}
    (h : Follows st u v) : v ∈ links.map XdpLink.uuid := by
  obtain ⟨fns, hfns, rfl⟩ := makeConcrete_ok hconcrete
  have hC := concreteFns_ok hfns
  obtain ⟨state, out, action, hstate, hact, hnext⟩ := h
  rw [hst] at hstate
  obtain hnone | ⟨l, hl, _, rfl⟩ := HashMap.lookup_insertAll_cases hstate
  · simp at hnone
  · obtain ⟨name, hname⟩ := HashMap.mem_values.1 (hperm.mem_iff.1 hl)
    obtain ⟨w, f, _, _, rfl⟩ := hC.link_of_lookup hname
    cases hs : stateAfter fns chain.links name with
    | tail =>
      simp only [linkAfter, hs, XdpLinkState.act, Option.some.injEq] at hact
      subst hact
      cases hnext
    | body els =>
      simp only [linkAfter, hs, XdpLinkState.act] at hact
      obtain ⟨target, htarget⟩ := hC.mem_acts hs (List.mem_of_getElem? hact)
      obtain ⟨n, _, hn, _⟩ := targetAction_nextNf htarget hnext
      obtain ⟨l', hl', rfl, _⟩ := hC.exists_link hperm hn
      exact List.mem_map_of_mem hl'

theorem exists_state_of_mem
    (hst : st.linkStates = HashMap.insertAll XdpLink.uuid XdpLink.state links ∅) :
    ∀ u ∈ links.map XdpLink.uuid, ∃ state, st.linkStates.lookup u = some state := by
  intro u hu
  obtain ⟨l, hl, rfl⟩ := List.mem_map.1 hu
  rw [hst]
  exact HashMap.exists_lookup_insertAll _ _ _ hl

/-- **Running to completion.** In a chain that `make_concrete` accepts, the inner loop ends for
every packet and all functions that return valid indices, after at most one call of each function,
exactly if no cycle of the chain can be reached from where it starts, and where one can be reached
some functions keep it running forever. So `dataplane_core` returns from every batch whose packets
start at functions that reach no cycle. -/
theorem runs_to_completion_iff (hconcrete : makeConcrete chain fnMap = .ok resolved)
    (hperm : links.Perm resolved)
    (hst : st.linkStates = HashMap.insertAll XdpLink.uuid XdpLink.state links ∅) :
    (∀ u ∈ links.map XdpLink.uuid,
      (∀ (σ : Type) (dylibs : Uuid → Option (UserNf σ)) (s : σ) (pkt : Bytes),
        ValidCalls st dylibs (s, .user u pkt) →
        ∃ t s' doTx pkt', (walkLoop st dylibs).Halts (s, .user u pkt) t (s', .sorted doTx pkt') ∧
          (t.map Prod.fst).Nodup ∧ t.length ≤ links.length) ↔
      ¬ ReachesCycle (Follows st) u) ∧
    (∀ u ∈ links.map XdpLink.uuid, ReachesCycle (Follows st) u →
      ∃ dylibs : Uuid → Option (UserNf Nat), ValidCalls st dylibs (0, .user u []) ∧
        (walkLoop st dylibs).Diverges (0, .user u [])) ∧
    ∀ (σ F : Type) [DecidableEq F] (dylibs : Uuid → Option (UserNf σ)) (endian : Endian)
      (mem : Memory σ F) (batch rest : List F),
      (∀ f ∈ batch, decodeMeta endian (mem.headroom f) = none ∨
        ∃ srcNf act u, decodeMeta endian (mem.headroom f) = some (srcNf, act) ∧
          upcallTarget st srcNf act = some u ∧ ¬ ReachesCycle (Follows st) u ∧
          ∀ s pkt, ValidCalls st dylibs (s, .user u pkt)) →
      ∃ runs mem' frames numTx, (dataplaneCore endian st dylibs).Halts
        (.received mem (batch ++ rest) batch.length) runs
        (.returned mem' frames numTx batch.length) := by
  have hnodes : ∀ u v, Follows st u v → v ∈ links.map XdpLink.uuid :=
    fun _ _ => mem_of_follows hconcrete hperm hst
  have hstates := exists_state_of_mem hst
  refine ⟨?_, fun u _ => walkLoop_diverges_of_cycle, ?_⟩
  · intro u hu
    constructor
    · intro h hcycle
      obtain ⟨dylibs, hvalid, hdiverges⟩ := walkLoop_diverges_of_cycle hcycle
      obtain ⟨t, s', doTx, pkt', hhalts, _⟩ := h Nat dylibs 0 [] hvalid
      exact Machine.Halts.not_diverges _ hhalts hdiverges
    · intro hcycle σ dylibs s pkt hvalid
      have hhalts := walkLoop_halts_of_acyclic hnodes hstates hu hcycle hvalid
      rwa [List.length_map] at hhalts
  · intro σ F _ dylibs endian mem batch rest hbatch
    have hends := walksEnd_of_acyclic hnodes hstates hbatch
    obtain ⟨log, mem', _, _, hhalts, _⟩ := dataplaneCore_window batch.length [] batch rest mem hends
    rw [List.length_nil, Nat.zero_add] at hhalts
    exact ⟨_, mem', _, _, hhalts⟩

end

/-! ## A chain with and without a cycle -/

section

variable {cyclic : Bool} {st : ChainState} {u v : Uuid}

theorem ferry_state {state : XdpLinkState}
    (hst : st.linkStates = HashMap.insertAll XdpLink.uuid XdpLink.state (ferryLinks cyclic) ∅)
    (h : st.linkStates.lookup u = some state) :
    ∃ l ∈ ferryLinks cyclic, l.uuid = u ∧ l.state = state := by
  rw [hst] at h
  obtain hnone | hl := HashMap.lookup_insertAll_cases h
  · simp at hnone
  · exact hl

/-- Without the cycle the links lead from lower to higher uuids. -/
theorem ferry_lt_of_follows
    (hst : st.linkStates = HashMap.insertAll XdpLink.uuid XdpLink.state (ferryLinks false) ∅)
    (h : Follows st u v) : u.toNat < v.toNat := by
  obtain ⟨state, out, action, hstate, hact, hnext⟩ := h
  obtain ⟨l, hl, rfl, rfl⟩ := ferry_state hst hstate
  simp only [ferryLinks, List.mem_cons, List.not_mem_nil, or_false] at hl
  rcases hl with rfl | rfl | rfl
  · obtain rfl := List.mem_singleton.1 (List.mem_of_getElem? hact)
    cases hnext
  · obtain rfl := List.mem_singleton.1 (List.mem_of_getElem? hact)
    obtain rfl := Option.some.inj hnext
    decide
  · have haction := List.mem_of_getElem? hact
    simp only [List.mem_cons, List.not_mem_nil, or_false] at haction
    rcases haction with rfl | rfl
    · obtain rfl := Option.some.inj hnext
      decide
    · obtain rfl := Option.some.inj hnext
      decide

theorem ferry_acyclic
    (hst : st.linkStates = HashMap.insertAll XdpLink.uuid XdpLink.state (ferryLinks false) ∅) :
    ¬ ReachesCycle (Follows st) u := by
  rintro ⟨w, -, hcycle⟩
  have hlt := hcycle.lift BitVec.toNat fun _ _ => ferry_lt_of_follows hst
  rw [Relation.transGen_eq_self] at hlt
  exact lt_irrefl _ hlt

/-- With the cycle `middle` and `rear` follow each other. -/
theorem ferry_cyclic
    (hst : st.linkStates = HashMap.insertAll XdpLink.uuid XdpLink.state (ferryLinks true) ∅) :
    ReachesCycle (Follows st) 1 := by
  have hrear : Follows st 1 2 := ⟨.body [.tailcall 2], 0, .tailcall 2, by rw [hst]; rfl, rfl, rfl⟩
  have hback : Follows st 2 1 := ⟨.body [.upcall 1], 0, .upcall 1, by rw [hst]; rfl, rfl, rfl⟩
  exact ⟨1, .refl, .tail (.single hrear) hback⟩

/-- Functions that count their calls, and always return 0. -/
def countNf : Uuid → Option (UserNf Nat) := fun _ => some fun n pkt _ => (n + 1, pkt, 0)

theorem countNf_valid
    (hst : st.linkStates = HashMap.insertAll XdpLink.uuid XdpLink.state (ferryLinks cyclic) ∅)
    (pos : Nat × Sys) : ValidCalls st countNf pos := by
  intro k t s w pkt _
  refine ⟨_, rfl, fun els hels => ?_⟩
  obtain ⟨l, hl, -, hbody⟩ := ferry_state hst hels
  simp only [ferryLinks, List.mem_cons, List.not_mem_nil, or_false] at hl
  rcases hl with rfl | rfl | rfl <;> cases hbody <;> exact Nat.succ_pos _

end

/-- Every frame holds an empty packet that `front` has sent to userland. -/
def ferryMem : Memory Nat Nat where
  nfs := 0
  headroom _ := upcallMeta .little { progId := 2, numCores := 3 } 1
  data _ := []

/-- A packet that starts at `front` is done after at most three calls, and `dataplane_core` returns
from a batch of two packets. With the cycle some functions never let go of a packet. -/
theorem ferryChain_runs_to_completion : ∃ (build build' : BuildState) (st st' : ChainState),
    installChain ferryBpf ⟨ferryLinks false, build.binaries⟩ wideCli
      (createUpcallSockets id wideCli) = .ok st ∧
    (∃ t s' doTx pkt', (walkLoop st countNf).Halts (0, .user 0 []) t (s', .sorted doTx pkt') ∧
      (t.map Prod.fst).Nodup ∧ t.length ≤ 3) ∧
    (∃ runs mem' frames numTx, (dataplaneCore .little st countNf).Halts
      (.received ferryMem [0, 1] 2) runs (.returned mem' frames numTx 2)) ∧
    installChain ferryBpf ⟨ferryLinks true, build'.binaries⟩ wideCli
      (createUpcallSockets id wideCli) = .ok st' ∧
    ∃ dylibs : Uuid → Option (UserNf Nat), (walkLoop st' dylibs).Diverges (0, .user 1 []) := by
  obtain ⟨build, -, st, -, -, hlinks, -, hst, -, htarget⟩ := ferryChain_installs false
  obtain ⟨build', -, st', -, -, hlinks', -, hst', -, -⟩ := ferryChain_installs true
  have hstates := installChain_linkStates hst
  have hstates' := installChain_linkStates hst'
  obtain ⟨hwalk, -, hbatch⟩ := runs_to_completion_iff hlinks (.refl _) hstates
  obtain ⟨dylibs, -, hdiverges⟩ := (runs_to_completion_iff hlinks' (.refl _) hstates').2.1 1
    (by decide) (ferry_cyclic hstates')
  refine ⟨build, build', st, st', hst, ?_, ?_, hst', dylibs, hdiverges⟩
  · exact (hwalk 0 (by decide)).2 (ferry_acyclic hstates) Nat countNf 0 []
      (countNf_valid hstates _)
  · exact hbatch Nat Nat countNf .little ferryMem [0, 1] [] fun f _ =>
      Or.inr ⟨2, 1, 1, decodeMeta_upcallMeta _ _ _, htarget, ferry_acyclic hstates,
        fun s pkt => countNf_valid hstates _⟩

/-- Functions that are linked in a circle can keep a packet forever. -/
theorem not_runs_to_completion : ¬ ∀ (chain : Chainsmith.Chain) (fnMap : HashMap String Uuid)
    (links : List XdpLink) (st : ChainState), makeConcrete chain fnMap = .ok links →
    st.linkStates = HashMap.insertAll XdpLink.uuid XdpLink.state links ∅ →
    ∀ (σ : Type) (dylibs : Uuid → Option (UserNf σ)) (s : σ) (u : Uuid) (pkt : Bytes),
      UserReach links u → ValidCalls st dylibs (s, .user u pkt) →
      ∃ t pos, (walkLoop st dylibs).Halts (s, .user u pkt) t pos ∧ t.length ≤ links.length := by
  intro h
  obtain ⟨_, _, st, _, _, hlinks, _, hst, _⟩ := ferryChain_installs true
  have hstates := installChain_linkStates hst
  obtain ⟨dylibs, hvalid, hdiverges⟩ := walkLoop_diverges_of_cycle (ferry_cyclic hstates)
  have hfront : ⟨0, .body [.tailcall 1, .upcall 1], true, false, []⟩ ∈ ferryLinks true := by decide
  have hreach : UserReach (ferryLinks true) 1 := .upcall hfront rfl (by decide)
  obtain ⟨t, pos, hhalts, _⟩ := h _ _ _ st hlinks hstates Nat dylibs 0 1 [] hreach hvalid
  exact Machine.Halts.not_diverges _ hhalts hdiverges

end Galette.Pipeline
