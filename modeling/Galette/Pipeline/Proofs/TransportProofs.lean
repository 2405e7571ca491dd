import Galette.Pipeline.Proofs.IntegrityProofs
import Galette.Pipeline.Proofs.MapProofs
import Galette.Pipeline.Proofs.SessionProofs

/-!
# Proofs: from the compiler to the runtime

What a runtime gets is the chain that was compiled for its target, with its hash map in another
order. The order makes no difference: everything that the runtime does with the binaries is a
lookup, or a loop whose result does not depend on it.
-/

namespace Galette.Pipeline

open Galette.Lib Galette.Protocol Galette.Chainsmith Galette.Pulley

/-! ## Hash maps in another order -/

section Same

variable {nfs nfs' : HashMap Uuid Protocol.Function} {c c' : Protocol.Chain}
  {dlopen : Bytes → Option NfUserApi} {d d' : HashMap Uuid NfUserApi}

theorem loadLink_same (h : Codec.SameMap nfs nfs') (K : Libbpf) :
    loadLink K nfs' = loadLink K nfs := by
  funext st link
  simp only [loadLink, h link.uuid]

theorem installChain_same (h : SameChain c c') (K : Libbpf) (config : Pulley.Cli) (xsks : List Fd) :
    installChain K c' config xsks = installChain K c config xsks := by
  simp only [installChain, loadChain, patchChain, h.links, loadLink_same h.nfs K]

theorem loadDylib_cases {e : Σ _ : Uuid, Protocol.Function} (h : loadDylib dlopen d e = .ok d') :
    d' = d ∨ ∃ b api, e.2.elf = some b ∧ d' = AList.insert e.1 api d := by
  unfold loadDylib at h
  split at h
  · exact .inl (Except.ok.inj h).symm
  · rename_i b hb
    split at h
    · cases h
    · exact .inr ⟨b, _, hb, (Except.ok.inj h).symm⟩

/-- A library in the store belongs to a function. -/
theorem loadDylibNfs_mem (h : loadDylibNfs dlopen nfs = .ok d) {u : Uuid} {api : NfUserApi}
    (hu : d.lookup u = some api) : ∃ f b, nfs.lookup u = some f ∧ f.elf = some b := by
  have key := foldE_inv (fun done (m : HashMap Uuid NfUserApi) => ∀ u api, m.lookup u = some api →
    ∃ e ∈ done, e.1 = u ∧ ∃ b, e.2.elf = some b) h (by simp) ?_
  · obtain ⟨e, he, rfl, b, hb⟩ := key u api hu
    exact ⟨e.2, b, AList.mem_lookup_iff.2 he, hb⟩
  · intro done e rest m m' _ hP hm u api hu
    have hold : ∀ u api, m.lookup u = some api →
        ∃ e' ∈ done ++ [e], e'.1 = u ∧ ∃ b, e'.2.elf = some b := by
      intro u api hu
      obtain ⟨e', he', hrest⟩ := hP u api hu
      exact ⟨e', List.mem_append_left _ he', hrest⟩
    rcases loadDylib_cases hm with rfl | ⟨b, api', hb, rfl⟩
    · exact hold u api hu
    · rw [HashMap.lookup_insert_ite] at hu
      split at hu
      · rename_i hue
        exact ⟨e, List.mem_append_right _ (List.mem_singleton_self e), hue.symm, b, hb⟩
      · exact hold u api hu

/-- The stores that are loaded from a hash map have the same libraries, in whatever order its
entries are. -/
theorem loadDylibNfs_same (hsame : Codec.SameMap nfs nfs') (h : loadDylibNfs dlopen nfs = .ok d)
    (h' : loadDylibNfs dlopen nfs' = .ok d') : Codec.SameMap d d' := by
  have key : ∀ {nfs nfs' : HashMap Uuid Protocol.Function} {d d' : HashMap Uuid NfUserApi},
      Codec.SameMap nfs nfs' → loadDylibNfs dlopen nfs = .ok d →
      loadDylibNfs dlopen nfs' = .ok d' →
      ∀ u api, d.lookup u = some api → d'.lookup u = some api := by
    intro nfs nfs' d d' hsame h h' u api hu
    obtain ⟨f, b, hf, hb⟩ := loadDylibNfs_mem h hu
    obtain ⟨api₁, hopen, hu₁⟩ := loadDylibNfs_lookup h hf hb
    obtain ⟨api₂, hopen', hu₂⟩ := loadDylibNfs_lookup h' ((hsame u).trans hf) hb
    rw [hu₂, ← hopen', hopen, ← hu₁, hu]
  intro u
  cases hu : d.lookup u with
  | some api => exact key hsame h h' u api hu
  | none =>
    cases hu' : d'.lookup u with
    | none => rfl
    | some api =>
      have hback := key (fun u => (hsame u).symm) h' h u api hu'
      rw [hu] at hback
      cases hback

/-- Loading succeeds if every library can be opened, and only then. -/
theorem loadDylibNfs_ok_iff : (∃ d, loadDylibNfs dlopen nfs = .ok d) ↔
    ∀ u f b, nfs.lookup u = some f → f.elf = some b → ∃ api, dlopen b = some api := by
  constructor
  · rintro ⟨d, hd⟩ u f b hf hb
    obtain ⟨api, hapi, _⟩ := loadDylibNfs_lookup hd hf hb
    exact ⟨api, hapi⟩
  · exact loadDylibNfs_total

theorem system_same (h : Codec.SameMap d d') (host : Host) (st : ChainState) :
    system host st d' = system host st d := by
  have hstep : sysStep host st d' = sysStep host st d := by
    funext s
    cases s with
    | user uuid pkt => simp only [sysStep, h uuid]
    | _ => rfl
  simp only [system, hstep]

theorem sameRuntime (h : SameChain c c') : SameRuntime c c' where
  install := installChain_same h
  loads dlopen := by
    simp only [loadDylibNfs_ok_iff, h.nfs _]
  system dlopen d d' hd hd' := system_same (loadDylibNfs_same h.nfs hd hd')

theorem hasEbpf_same (h : SameChain c c') (u : Uuid) : HasEbpf c' u ↔ HasEbpf c u := by
  simp only [HasEbpf, h.nfs u]

theorem linked_same (h : SameChain c c') (hL : Linked c) : Linked c' where
  nodup := by rw [h.links]; exact hL.nodup
  root := by rw [h.links]; exact hL.root
  targets := by rw [h.links]; exact hL.targets
  calls := by
    intro l hl els hs u hu
    rw [h.links] at hl
    exact (hasEbpf_same h u).2 (hL.calls l hl els hs u hu)
  dylibs := by
    intro l hl
    rw [h.links] at hl
    rw [h.nfs]
    exact hL.dylibs l hl

end Same

/-! ## What is served -/

section Served

variable {T : CaseTable} {env : BuildEnv} {target : Option String} {chain : Chainsmith.Chain}
  {analyses : List FnAnalysis} {data : ChainData}
  {compile : String → Option String → Outcome CompileChainError ChainData}
  {arches : List (String × Option String)} {cDat : ChainDatas}

theorem compileChain_ok (h : compileChain T env target chain analyses = .ok data) :
    ∃ st, compileBinaries env chain target = .ok st ∧ data.binaries = st.binaries ∧
      makeConcrete chain st.fnMap = .ok data.links := by
  unfold compileChain at h
  obtain ⟨_, _, h⟩ := Except.bind_eq_ok.1 h
  obtain ⟨st₀, hx, h⟩ := Except.bind_eq_ok.1 h
  obtain ⟨_, _, h⟩ := Except.bind_eq_ok.1 h
  obtain ⟨st, hu, h⟩ := Except.bind_eq_ok.1 h
  obtain ⟨links, hl, h⟩ := Except.bind_eq_ok.1 h
  obtain rfl := Except.ok.inj h
  refine ⟨st, ?_, rfl, Except.mapError_eq_ok.1 hl⟩
  exact Except.bind_eq_ok.2 ⟨st₀, Except.mapError_eq_ok.1 hx, Except.mapError_eq_ok.1 hu⟩

/-- The message of a compiled chain is linked. -/
theorem compileChain_linked (hfresh : FreshUuids env chain.functions.entries.length)
    (h : compileChain T env target chain analyses = .ok data) : Linked data.intoSingleMessage := by
  obtain ⟨st, hst, hbin, hlinks⟩ := compileChain_ok h
  obtain ⟨fns, hfns, hval⟩ := makeConcrete_ok hlinks
  have hL := linked_message (compileBinaries_compiled hfresh hst) (concreteFns_ok hfns)
    (List.Perm.refl _)
  rw [← hval, ← hbin] at hL
  exact hL

theorem prepareTarget_ok {arch : String × Option String} {cDat' : ChainDatas}
    (h : prepareTarget compile cDat arch = .ok cDat') :
    ∃ data, compile arch.1 arch.2 = .ok data ∧
      cDat' = AList.insert arch.1 (.chain data.intoSingleMessage) cDat := by
  obtain ⟨data, hdata, h⟩ := Except.bind_eq_ok.1 h
  exact ⟨data, hdata, (Except.ok.inj h).symm⟩

/-- A target is in the table with what was compiled for it, and only if it was iterated. -/
theorem prepareTargets_lookup (h : prepareTargets compile arches = .ok cDat) :
    (∀ target m, cDat.lookup target = some m → ∃ vmlinux data, (target, vmlinux) ∈ arches ∧
      compile target vmlinux = .ok data ∧ m = .chain data.intoSingleMessage) ∧
    ∀ arch ∈ arches, ∃ m, cDat.lookup arch.1 = some m := by
  refine foldE_inv (fun done (cDat : ChainDatas) =>
    (∀ target m, cDat.lookup target = some m → ∃ vmlinux data, (target, vmlinux) ∈ done ∧
      compile target vmlinux = .ok data ∧ m = .chain data.intoSingleMessage) ∧
    ∀ arch ∈ done, ∃ m, cDat.lookup arch.1 = some m) h ⟨by simp, by simp⟩ ?_
  rintro done arch rest cDat cDat' _ ⟨hfrom, hall⟩ hstep
  obtain ⟨data, hdata, rfl⟩ := prepareTarget_ok hstep
  refine ⟨fun target m hm => ?_, fun e he => ?_⟩
  · rw [HashMap.lookup_insert_ite] at hm
    split at hm
    · rename_i htarget
      subst htarget
      exact ⟨arch.2, data, by simp, hdata, (Option.some.inj hm).symm⟩
    · obtain ⟨vmlinux, data', hmem, hrest⟩ := hfrom target m hm
      exact ⟨vmlinux, data', List.mem_append_left _ hmem, hrest⟩
  · rw [HashMap.lookup_insert_ite]
    split
    · exact ⟨_, rfl⟩
    · rename_i hne
      rcases List.mem_append.1 he with he | he
      · exact hall e he
      · exact absurd (congrArg Prod.fst (List.mem_singleton.1 he)) hne

end Served

/-! ## What is received -/

section Received

variable {cDat : ChainDatas} {target : String}

theorem answer_chain {c' : Protocol.Chain} (h : SameMessage (answer cDat target) (.chain c')) :
    ∃ c, cDat.lookup target = some (.chain c) ∧ SameChain c c' := by
  unfold answer at h
  split at h
  · rename_i m hm
    cases h with
    | chain hc => exact ⟨_, hm, hc⟩
  · cases h

theorem answer_error {msg : String} (h : SameMessage (answer cDat target) (.requestChainError msg)) :
    cDat.lookup target = some (.requestChainError msg) ∨
      cDat.lookup target = none ∧ msg = unsupported target := by
  unfold answer at h
  split at h
  · rename_i m hm
    cases h
    exact .inl hm
  · rename_i hm
    cases h
    exact .inr ⟨hm, rfl⟩

variable {ι : Type} [DecidableEq ι] {S : Service} {peer : ι → Peer} {s : ι → Conn} {i : ι}
  {t : Target}

/-- A runtime that has a chain got it as the answer. -/
theorem Sessions.received (hs : Sessions S peer s) (hi : peer i = .runtime t) {c' : Protocol.Chain}
    (hr : (s i).client = .done (.ok c')) :
    ∃ c, S.cDat.lookup t.triple = some (.chain c) ∧ SameChain c c' := by
  cases (runtimeInv_of_reachable (hs.runtime hi)).done _ hr with
  | answered h =>
    cases h with
    | chain h => exact answer_chain h

/-- **The transport makes no difference.** In every interleaving, the chain that a runtime has got
and the one that is served for its target are the same to the runtime: one can be installed if the
other can, and then the same machine runs. -/
theorem received_chain_runs (hs : Sessions S peer s) (hi : peer i = .runtime t)
    {c' : Protocol.Chain} (hr : (s i).client = .done (.ok c')) :
    ∃ c, S.cDat.lookup t.triple = some (.chain c) ∧ SameRuntime c c' := by
  obtain ⟨c, hc, hsame⟩ := hs.received hi hr
  exact ⟨c, hc, sameRuntime hsame⟩

theorem loopChain_received : ∃ s c, Sessions loopService twoPeers s ∧
    (s true).client = .done (.ok c) ∧ SameRuntime loopChain c := by
  obtain ⟨s, hs, hstart, _⟩ := twoPeers_stranger
  have hi : twoPeers true = .runtime x86 := rfl
  obtain ⟨s', r, hs', hr, ha⟩ := exists_answered hs hi hstart
  obtain ⟨c, rfl, _⟩ := answeredBy_loopChain ha
  obtain ⟨c₀, hc₀, hrun⟩ := received_chain_runs hs' hi hr
  obtain rfl : loopChain = c₀ := by
    have hserved : loopService.cDat.lookup x86.triple = some (.chain loopChain) := rfl
    rw [hserved] at hc₀
    exact ServerToClient.chain.inj (Option.some.inj hc₀)
  exact ⟨s', c, hs', hr, hrun⟩

variable {T : CaseTable} {env : String → Option String → BuildEnv} {chain : Chainsmith.Chain}
  {analyses : List FnAnalysis} {arches : List (String × Option String)}

/-- **A runtime gets what was compiled for it.** If the server could build the description for all
of its targets, a runtime that gets a chain has the one that was compiled for its own target, and
that chain is linked; and a runtime is refused only if its target is not supported. -/
theorem received_chain_compiled (harches : arches.Perm supportedArches)
    (hfresh : ∀ target vmlinux, FreshUuids (env target vmlinux) chain.functions.entries.length)
    (hprep : prepareTargets (fun target vmlinux =>
      compileChain T (env target vmlinux) (some target) chain analyses) arches = .ok S.cDat)
    (hs : Sessions S peer s) (hi : peer i = .runtime t) :
    (∀ c', (s i).client = .done (.ok c') → ∃ vmlinux data,
      (t.triple, vmlinux) ∈ supportedArches ∧
      compileChain T (env t.triple vmlinux) (some t.triple) chain analyses = .ok data ∧
      SameChain data.intoSingleMessage c' ∧ Linked c') ∧
    ∀ msg, (s i).client = .done (.error (.serverError msg)) →
      t.triple ∉ supportedArches.map Prod.fst ∧ msg = unsupported t.triple := by
  obtain ⟨hfrom, hall⟩ := prepareTargets_lookup hprep
  refine ⟨fun c' hr => ?_, fun msg hr => ?_⟩
  · obtain ⟨c, hc, hsame⟩ := hs.received hi hr
    obtain ⟨vmlinux, data, hmem, hdata, hm⟩ := hfrom _ _ hc
    obtain rfl := ServerToClient.chain.inj hm
    exact ⟨vmlinux, data, harches.mem_iff.1 hmem, hdata, hsame,
      linked_same hsame (compileChain_linked (hfresh _ _) hdata)⟩
  · have hends := (runtimeInv_of_reachable (hs.runtime hi)).done _ hr
    have hanswer : SameMessage (answer S.cDat t.triple) (.requestChainError msg) := by
      cases hends with
      | answered h =>
        cases h with
        | error h => exact h
    rcases answer_error hanswer with hc | ⟨hnone, hmsg⟩
    · obtain ⟨_, _, _, _, hm⟩ := hfrom _ _ hc
      cases hm
    · refine ⟨?_, hmsg⟩
      intro hmem
      obtain ⟨arch, harch, htriple⟩ := List.mem_map.1 hmem
      obtain ⟨m, hm⟩ := hall arch (harches.mem_iff.2 harch)
      rw [htriple, hnone] at hm
      cases hm

def echoAnalyses : List FnAnalysis := [{ retTy := .enum "Action" ["Yes"], mapTyName := none }]

/-- A build for a target, in which the files tell the targets apart. -/
def archEnv (target : String) (_ : Option String) : BuildEnv :=
  { echoEnv with read := fun _ => some [if target = "x86_64-unknown-linux-gnu" then 1 else 2] }

theorem archEnv_fresh (target : String) (vmlinux : Option String) :
    FreshUuids (archEnv target vmlinux) (echoChain false).functions.entries.length :=
  echoEnv_fresh false

/-- The chain that is compiled from files with a single byte. -/
def archData (b : UInt8) : ChainData where
  binaries := AList.insert 0
    { uuid := 0, elf := some [b], ebpf := some { link := [b], «end» := [b] } } ∅
  nameToUuid := AList.insert "nf" 0 ∅
  links := [echoLink false]

theorem archData_fits (b : UInt8) :
    (ServerToClient.chain (archData b).intoSingleMessage).Fits := by
  refine ⟨Nat.one_lt_two_pow (by decide), ?_, Nat.one_lt_two_pow (by decide), ?_⟩
  · intro l hl
    obtain rfl := List.mem_singleton.1 hl
    exact ⟨trivial, by decide, by simp [echoLink]⟩
  · intro e he
    obtain rfl := List.mem_singleton.1 he
    refine ⟨?_, ?_⟩
    · intro b hb
      obtain rfl := Option.some.inj hb
      simp [BytesFit]
    · intro e he
      obtain rfl := Option.some.inj he
      exact ⟨by simp [BytesFit], by simp [BytesFit]⟩

/-- The server that serves a chain of its own for each target. -/
def archService : Service where
  wire := leb128
  cDat := AList.insert "aarch64-unknown-linux-gnu" (.chain (archData 2).intoSingleMessage)
    (AList.insert "x86_64-unknown-linux-gnu" (.chain (archData 1).intoSingleMessage) ∅)
  fits := by
    intro target m hm
    rw [HashMap.lookup_insert_ite, HashMap.lookup_insert_ite] at hm
    split at hm
    · obtain rfl := Option.some.inj hm
      exact archData_fits 2
    · split at hm
      · obtain rfl := Option.some.inj hm
        exact archData_fits 1
      · cases hm

theorem archData_compiled : compileChain asciiCase (archEnv x86.triple none) (some x86.triple)
    (echoChain false) echoAnalyses = .ok (archData 1) := rfl

theorem arch_prepared : prepareTargets (fun target vmlinux =>
    compileChain asciiCase (archEnv target vmlinux) (some target) (echoChain false) echoAnalyses)
      supportedArches = .ok archService.cDat := rfl

/-- The runtime gets the chain of its target, and not the one of the other. -/
theorem arch_received : ∃ s c, Sessions archService twoPeers s ∧ (s true).client = .done (.ok c) ∧
    SameChain (archData 1).intoSingleMessage c ∧ Linked c := by
  have hstart : Sessions archService twoPeers fun _ => {} := .start
  have hi : twoPeers true = .runtime x86 := rfl
  obtain ⟨s, r, hs, hr, ha⟩ := exists_answered hstart hi rfl
  have hanswer : answer archService.cDat x86.triple = .chain (archData 1).intoSingleMessage := rfl
  rw [hanswer] at ha
  cases ha with
  | @chain c h =>
    obtain ⟨vmlinux, data, _, hdata, hsame, hlinked⟩ := (received_chain_compiled (List.Perm.refl _)
      archEnv_fresh arch_prepared hs hi).1 c hr
    obtain rfl := Except.ok.inj (archData_compiled.symm.trans hdata)
    exact ⟨s, c, hs, hr, hsame, hlinked⟩
  | error h => cases h

end Received

end Galette.Pipeline
