import Galette.Chainsmith.Compile

/-!
# Proofs: maps in the generated sources

Both wrappers take the maps of a function in the order of their names; the eBPF wrapper names the
static of a map by `toScreamingSnake`. Also, the stages of a compilation that succeeds.
-/

namespace Galette.Chainsmith

open Galette.Lib Galette.Protocol

variable {T : CaseTable} {chain : Chain} {name : String} {info : Function} {analysis : FnAnalysis}

theorem xdpMaps_ok {maps : List (String × MapDef)}
    (h : xdpMaps T chain name info analysis = .ok maps) :
    maps.map Prod.fst = info.maps.keys ∧
      maps.map (fun m => m.2.name) = info.maps.keys.map T.toScreamingSnake := by
  unfold xdpMaps at h
  split at h
  · have key := foldE_inv (fun done defs => defs.map Prod.fst = done.map (fun e => e.1.1) ∧
      defs.map (fun m => m.2.name) = done.map fun e => T.toScreamingSnake e.1.1) h ⟨rfl, rfl⟩ ?_
    · obtain ⟨h1, h2⟩ := key
      have hfst : info.maps.entries.zipIdx.map Prod.fst = info.maps.entries := by simp
      constructor
      · rw [h1, BTreeMap.keys, ← hfst, List.map_map, hfst]
        rfl
      · rw [h2, BTreeMap.keys, ← hfst, List.map_map, List.map_map, hfst]
        rfl
    · rintro done e rest defs defs' _ ⟨h1, h2⟩ hb
      obtain ⟨data, _, hb⟩ := Except.bind_eq_ok.1 hb
      obtain rfl := Except.ok.inj hb
      rw [List.map_append, List.map_append, List.map_append, List.map_append, h1, h2]
      exact ⟨rfl, rfl⟩
  · cases h

theorem writeXdpProgram_ok {src : XdpSource}
    (h : writeXdpProgram T chain name info analysis = .ok src) :
    src.maps.map (fun m => m.2.name) = info.maps.keys.map T.toScreamingSnake ∧
      src.slots = neededSlots analysis ∧ ∃ link, myLinks chain name analysis = .ok link := by
  obtain ⟨maps, hmaps, h⟩ := Except.bind_eq_ok.1 h
  obtain ⟨link, hlink, h⟩ := Except.bind_eq_ok.1 h
  obtain rfl := Except.ok.inj h
  exact ⟨(xdpMaps_ok hmaps).2, rfl, link, Except.mapError_eq_ok.1 hlink⟩

/-- The userland wrapper binds the maps to the fields in the order of their names. -/
theorem writeUserlandProgram_ok {src : UserSource}
    (h : writeUserlandProgram chain name info analysis = .ok src) :
    src.fields = info.maps.keys := by
  unfold writeUserlandProgram at h
  split at h
  · obtain ⟨fields, hf, h⟩ := Except.bind_eq_ok.1 h
    obtain rfl := Except.ok.inj h
    refine foldE_inv (fun done fields => fields = done.map Prod.fst) hf rfl ?_
    intro done e rest fields fields' _ h1 hb
    obtain ⟨data, _, hb⟩ := Except.bind_eq_ok.1 hb
    obtain rfl := Except.ok.inj hb
    rw [h1, List.map_append]
    rfl
  · cases h

/-- Every function of the chain is in the list that the generators go through. -/
theorem exists_analysed {analyses : List FnAnalysis}
    (hlen : analyses.length = chain.functions.entries.length)
    (hf : chain.functions.get? name = some info) :
    ∃ analysis, ((name, info), analysis) ∈ analysed chain analyses := by
  obtain ⟨i, hi⟩ := List.getElem?_of_mem (BTreeMap.get?_eq_some.1 hf)
  have hlt : i < analyses.length := by
    rw [hlen]
    exact (List.getElem?_eq_some_iff.1 hi).1
  refine ⟨analyses[i], List.mem_of_getElem? (i := i) ?_⟩
  rw [analysed, List.getElem?_zip_eq_some]
  exact ⟨hi, List.getElem?_eq_getElem hlt⟩

theorem writeXdpPrograms_ok {analyses : List FnAnalysis} {srcs : List (String × XdpSource)}
    (h : writeXdpPrograms T chain analyses = .ok srcs) :
    ∀ e ∈ analysed chain analyses, ∃ src, writeXdpProgram T chain e.1.1 e.1.2 e.2 = .ok src := by
  intro e he
  obtain ⟨_, _, hb⟩ := foldE_forall h e he
  obtain ⟨src, hsrc, _⟩ := Except.bind_eq_ok.1 hb
  exact ⟨src, hsrc⟩

theorem writeUserlandPrograms_ok {analyses : List FnAnalysis} {srcs : List (String × UserSource)}
    (h : writeUserlandPrograms chain analyses = .ok srcs) :
    ∀ e ∈ analysed chain analyses, ∃ src, writeUserlandProgram chain e.1.1 e.1.2 e.2 = .ok src := by
  intro e he
  obtain ⟨_, _, hb⟩ := foldE_forall h e he
  obtain ⟨src, hsrc, _⟩ := Except.bind_eq_ok.1 hb
  exact ⟨src, hsrc⟩

/-- The stages of a compilation. -/
theorem compileChain_stages {env : BuildEnv} {target : Option String} {analyses : List FnAnalysis}
    {data : ChainData} (h : compileChain T env target chain analyses = .ok data) :
    ∃ srcs usrcs st, writeXdpPrograms T chain analyses = .ok srcs ∧
      writeUserlandPrograms chain analyses = .ok usrcs ∧
      compileBinaries env chain target = .ok st ∧ makeConcrete chain st.fnMap = .ok data.links ∧
      data.binaries = st.binaries ∧ data.nameToUuid = st.fnMap := by
  obtain ⟨srcs, hsrcs, h⟩ := Except.bind_eq_ok.1 h
  obtain ⟨st₀, hst₀, h⟩ := Except.bind_eq_ok.1 h
  obtain ⟨usrcs, husrcs, h⟩ := Except.bind_eq_ok.1 h
  obtain ⟨st, hst, h⟩ := Except.bind_eq_ok.1 h
  obtain ⟨links, hlinks, h⟩ := Except.bind_eq_ok.1 h
  obtain rfl := Except.ok.inj h
  refine ⟨srcs, usrcs, st, Except.mapError_eq_ok.1 hsrcs, Except.mapError_eq_ok.1 husrcs,
    Except.bind_eq_ok.2 ⟨st₀, Except.mapError_eq_ok.1 hst₀, Except.mapError_eq_ok.1 hst⟩,
    Except.mapError_eq_ok.1 hlinks, rfl, rfl⟩

end Galette.Chainsmith
