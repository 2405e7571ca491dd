import Galette.Chainsmith.Proofs.GenerateProofs
import Galette.Pipeline.Build
import Galette.Pipeline.Proofs.IntegrityProofs

/-!
# Proofs: the maps of the functions

A map has three names: the key in the chain description, the static in the generated wrapper and the
name the runtime looks up. The last two are made from the first by different conversions, which
agree on plain names only (`toScreamingSnake_eq_iff`).
-/

namespace Galette.Pipeline

open Galette.Lib Galette.Protocol Galette.Chainsmith Galette.Pulley

variable {T : CaseTable} {env : BuildEnv} {target : Option String} {chain : Chainsmith.Chain}
  {analyses : List FnAnalysis} {data : ChainData} {links : List XdpLink} {K : Libbpf}

/-! ## Names -/

theorem lower_notMem_toAsciiUppercase (s : String) : 'a' ∉ (toAsciiUppercase s).toList := by
  intro h
  rw [toAsciiUppercase, String.toList_ofList] at h
  obtain ⟨c, _, hc⟩ := List.mem_map.1 h
  rcases CaseTable.toUpper_cases c with h' | ⟨h1, h2, h3⟩
  · rw [h'] at hc
    subst hc
    revert h'
    decide
  · rw [hc] at h3
    have : 'a'.toNat = 97 := rfl
    omega

/-- The name of a function's own map is never that of a table. -/
theorem toAsciiUppercase_notMem_tableNames (s : String) : toAsciiUppercase s ∉ tableNames := by
  intro h
  have ha := lower_notMem_toAsciiUppercase s
  simp only [tableNames, List.mem_cons, List.not_mem_nil, or_false] at h
  rcases h with h | h | h | h <;> (rw [h] at ha; revert ha; decide)

/-- Two conversions that agree and statics that differ: exactly for plain names. -/
theorem plainNames_iff {names : List String} : PlainNames T names ↔
    (∀ n ∈ names, T.toScreamingSnake n = toAsciiUppercase n) ∧
      ∀ a ∈ names, ∀ b ∈ names, a ≠ b → T.toScreamingSnake a ≠ T.toScreamingSnake b := by
  unfold PlainNames
  have hsame : (∀ n ∈ names, T.Plain n.toList) ↔
      ∀ n ∈ names, T.toScreamingSnake n = toAsciiUppercase n := by
    simp only [T.toScreamingSnake_eq_iff]
  rw [hsame]
  constructor
  · rintro ⟨h1, h2⟩
    refine ⟨h1, fun a ha b hb hab => ?_⟩
    rw [h1 a ha, h1 b hb]
    exact h2 a ha b hb hab
  · rintro ⟨h1, h2⟩
    refine ⟨h1, fun a ha b hb hab => ?_⟩
    rw [← h1 a ha, ← h1 b hb]
    exact h2 a ha b hb hab

/-! ## Compiled functions -/

/-- What a compilation makes of a function: a concrete link, and binaries under its uuid. -/
structure FnOf (T : CaseTable) (chain : Chainsmith.Chain) (analyses : List FnAnalysis)
    (data : ChainData) (l : XdpLink) (name : String) (info : Chainsmith.Function) : Prop where
  uuid : data.nameToUuid.lookup name = some l.uuid
  get : chain.functions.get? name = some info
  mapNames : l.mapNames = info.maps.keys
  source : ∃ analysis src, ((name, info), analysis) ∈ analysed chain analyses ∧
    writeXdpProgram T chain name info analysis = .ok src
  binary : ∃ b, data.binaries.lookup l.uuid = some b ∧
    (b.ebpf.isSome = true ↔ info.disableXdp = false)

/-- A chain that was compiled: its message is linked, and links and functions belong together. -/
theorem compiled_functions (hfresh : FreshUuids env chain.functions.entries.length)
    (hlen : analyses.length = chain.functions.entries.length)
    (hcomp : compileChain T env target chain analyses = .ok data) (hperm : links.Perm data.links) :
    Linked ⟨links, data.binaries⟩ ∧
      (∀ l ∈ links, ∃ name info, FnOf T chain analyses data l name info) ∧
      ∀ name info, chain.functions.get? name = some info →
        ∃ l ∈ links, FnOf T chain analyses data l name info := by
  obtain ⟨srcs, usrcs, st, hsrcs, _, hst, hlinks, hbin, hnames⟩ := compileChain_stages hcomp
  have hB := compileBinaries_compiled hfresh hst
  obtain ⟨fns, hfns, hv⟩ := makeConcrete_ok hlinks
  have hC := concreteFns_ok hfns
  rw [hv] at hperm
  have hfn : ∀ name l, fns.lookup name = some l →
      ∃ info, FnOf T chain analyses data l name info := by
    intro name l hl
    obtain ⟨u, info, hu, hinfo, rfl⟩ := hC.link_of_lookup hl
    obtain ⟨analysis, han⟩ := exists_analysed hlen hinfo
    obtain ⟨src, hsrc⟩ := writeXdpPrograms_ok hsrcs _ han
    obtain ⟨b, hb, _, hebpf, _⟩ := hB.entry name u info hu hinfo
    exact ⟨info, by rw [hnames]; exact hu, hinfo, rfl, ⟨analysis, src, han, hsrc⟩, b,
      by rw [hbin]; exact hb, hebpf⟩
  refine ⟨by rw [hbin]; exact linked_message hB hC hperm, fun l hl => ?_, fun name info hinfo => ?_⟩
  · obtain ⟨name, hn⟩ := HashMap.mem_values.1 (hperm.mem_iff.1 hl)
    obtain ⟨info, hF⟩ := hfn name l hn
    exact ⟨name, info, hF⟩
  · obtain ⟨u, hu⟩ := (hB.names name).2 (BTreeMap.mem_keys.2 ⟨info, hinfo⟩)
    obtain ⟨l, hl, _, hlk⟩ := hC.exists_link hperm hu
    obtain ⟨info', hF⟩ := hfn name l hlk
    obtain rfl := Option.some.inj (hinfo.symm.trans hF.get)
    exact ⟨l, hl, hF⟩

/-- The statics in the object file of a function. -/
theorem ObjectsOf.nfMaps (hobj : ObjectsOf K T chain analyses data) {l : XdpLink} {name : String}
    {info : Chainsmith.Function} (hF : FnOf T chain analyses data l name info)
    {b : Protocol.Function}
    {e : EbpfFunction} {file : ObjectFile} (hb : data.binaries.lookup l.uuid = some b)
    (he : b.ebpf = some e) (ho : K.openMemory (myProg l.state e) = some file) :
    file.nfMaps = info.maps.keys.map T.toScreamingSnake := by
  obtain ⟨analysis, src, han, hsrc⟩ := hF.source
  rw [← (writeXdpProgram_ok hsrc).1]
  cases hs : l.state with
  | tail =>
    rw [hs] at ho
    exact (hobj.end name info analysis src l.uuid b e file han hsrc hF.uuid hb he ho).2
  | body els =>
    rw [hs] at ho
    exact (hobj.link name info analysis src l.uuid b e file han hsrc hF.uuid hb he ho).2

theorem mem_mapNames_of_nfMaps {file : ObjectFile} {name : String} (h : name ∈ file.nfMaps) :
    name ∈ file.mapNames := by
  unfold ObjectFile.mapNames
  split <;> simp [h]

/-- **Names of maps.** The compiler and the runtime name the maps of a chain alike exactly if the
names of every function are plain and differ in more than their case. -/
theorem mapsAlike_iff_plainNames (hfresh : FreshUuids env chain.functions.entries.length)
    (hlen : analyses.length = chain.functions.entries.length)
    (hcomp : compileChain T env target chain analyses = .ok data)
    (hobj : ObjectsOf K T chain analyses data) (hperm : links.Perm data.links) :
    MapsAlike K T chain ⟨links, data.binaries⟩ ↔
      ∀ e ∈ chain.functions.entries, PlainNames T e.2.maps.keys := by
  obtain ⟨hL, hlinks, _⟩ := compiled_functions hfresh hlen hcomp hperm
  constructor
  · intro h e he
    exact plainNames_iff.2 ⟨h.same e he, h.distinct e he⟩
  · intro h
    refine ⟨fun e he => (plainNames_iff.1 (h e he)).1, fun e he => (plainNames_iff.1 (h e he)).2, ?_⟩
    intro config xsks l hl n hn herr
    generalize herr' : ChainInstallError.missingMap l.uuid (toAsciiUppercase n) = err at herr
    cases installChain_fault hL.nodup herr with
    | missingTable hmem =>
      rw [← (ChainInstallError.missingMap.inj herr').2] at hmem
      exact toAsciiUppercase_notMem_tableNames n hmem
    | missingMap hl' hf he ho hn' hno =>
      obtain ⟨name, info, hF⟩ := hlinks _ hl'
      rw [hF.mapNames] at hn'
      apply hno
      apply mem_mapNames_of_nfMaps
      rw [hobj.nfMaps hF hf he ho, ← (plainNames_iff.1 (h _ (BTreeMap.get?_eq_some.1 hF.get))).1 _ hn']
      exact List.mem_map.2 ⟨_, hn', rfl⟩
    | _ => cases herr'

/-! ## A chain with one map -/

theorem toUpper_toUpper (c : Char) : c.toUpper.toUpper = c.toUpper := by
  rcases CaseTable.toUpper_cases c with h | ⟨h1, h2, h3⟩
  · rw [h, h]
  · rcases CaseTable.toUpper_cases c.toUpper with h | ⟨h4, _⟩
    · exact h
    · omega

/-- The case mappings of ASCII; no other character has a case. -/
def asciiCase : CaseTable where
  toUppercase c := [c.toUpper]
  toLowercase c := [c.toLower]
  upper_ascii _ _ := rfl
  lower_ascii _ _ := rfl
  upper_upper c d hd := by
    obtain rfl := List.mem_singleton.1 hd
    rw [toUpper_toUpper]

def frontFn : Chainsmith.Function where
  path := none
  disableXdp := false
  slice := none
  maps := .empty

def meterFn (map : String) (disableXdp : Bool) : Chainsmith.Function where
  path := none
  disableXdp := disableXdp
  slice := none
  maps := .singleton map (.owned ⟨.array, 1⟩)

/-- A chain of two functions, the second of which has a map and runs in userland. -/
def meterChain (map : String) (disableXdp : Bool) : Chainsmith.Chain where
  functions :=
    ⟨[("front", frontFn), ("meter", meterFn map disableXdp)],
      List.pairwise_pair.2 (show "front" < "meter" by decide)⟩
  links := [⟨"rx", ["front"]⟩, ⟨"front", ["!meter"]⟩, ⟨"meter", ["tx"]⟩]
  maps := .empty

/-- The functions return an enum with one variant. -/
def meterAnalyses : List FnAnalysis :=
  [⟨.enum "Action" ["Go"], none⟩, ⟨.enum "Action" ["Go"], some "Maps"⟩]

/-- A build in which every object file has contents of its own. -/
def meterEnv : BuildEnv where
  newV4 n := BitVec.ofNat 128 n
  cargoBpf := .ok ()
  cargoBuild := .ok ()
  read path :=
    some (if path = elfPath "front" then [1] else if path = elfPath "front-chain" then [2]
      else if path = elfPath "meter" then [3] else if path = elfPath "meter-chain" then [4] else [5])
  host := "x86_64-unknown-linux-gnu"

/-- libbpf on the object files of this build. -/
def meterBpf (map : String) : Libbpf where
  openMemory
    | [1] => some ⟨.wrapper, fun pkt => (pkt, 0), []⟩
    | [2] => some ⟨.wrapperChain 1, fun pkt => (pkt, 0), []⟩
    | [3] => some ⟨.wrapper, fun pkt => (pkt, 0), [asciiCase.toScreamingSnake map]⟩
    | [4] => some ⟨.wrapperChain 1, fun pkt => (pkt, 0), [asciiCase.toScreamingSnake map]⟩
    | _ => none
  load _ := true
  seed _ := true
  attachXdp := true
  ifNametoindex _ := some 1

/-- What the compiler makes of this chain. -/
structure MeterData (map : String) (disableXdp : Bool) (data : ChainData) : Prop where
  front : data.nameToUuid.lookup "front" = some 0
  meter : data.nameToUuid.lookup "meter" = some 1
  frontBin : data.binaries.lookup 0 = some ⟨0, some [5], some ⟨[2], [1]⟩⟩
  meterBin : data.binaries.lookup 1 = some ⟨1, some [5], if disableXdp then none else some ⟨[4], [3]⟩⟩
  links : data.links =
    [⟨1, .tail, false, disableXdp, [map]⟩, ⟨0, .body [.upcall 1], true, false, []⟩]

theorem meterChain_compiles (map : String) (disableXdp : Bool) :
    ∃ data, compileChain asciiCase meterEnv none (meterChain map disableXdp) meterAnalyses = .ok data ∧
      MeterData map disableXdp data := by
  cases disableXdp with
  | false => exact ⟨_, rfl, rfl, rfl, rfl, rfl, rfl⟩
  | true => exact ⟨_, rfl, rfl, rfl, rfl, rfl, rfl⟩

theorem MeterData.userReach {map : String} {disableXdp : Bool} {data : ChainData}
    (hd : MeterData map disableXdp data) : UserReach data.links 1 := by
  have hl : ⟨0, .body [.upcall 1], true, false, []⟩ ∈ data.links := by simp [hd.links]
  exact .upcall hl rfl (List.mem_singleton.2 rfl)

theorem meterEnv_fresh (map : String) (disableXdp : Bool) :
    FreshUuids meterEnv (meterChain map disableXdp).functions.entries.length := by
  intro i j hi hj h
  simp only [meterChain, List.length_cons, List.length_nil] at hi hj
  have hij := congrArg BitVec.toNat h
  simp only [meterEnv, BitVec.toNat_ofNat] at hij
  omega

/-- The object files of a function of this chain. -/
theorem MeterData.ebpf {map : String} {disableXdp : Bool} {data : ChainData}
    (hd : MeterData map disableXdp data) {name : String} {info : Chainsmith.Function}
    {analysis : FnAnalysis} {u : Uuid} {b : Protocol.Function} {e : EbpfFunction}
    (han : ((name, info), analysis) ∈ analysed (meterChain map disableXdp) meterAnalyses)
    (hu : data.nameToUuid.lookup name = some u) (hb : data.binaries.lookup u = some b)
    (he : b.ebpf = some e) :
    neededSlots analysis = 1 ∧ (info.maps.keys = [] ∧ e = ⟨[2], [1]⟩ ∨
      info.maps.keys = [map] ∧ e = ⟨[4], [3]⟩) := by
  obtain ⟨hfn, hty⟩ := List.of_mem_zip han
  have hret : analysis.retTy = .enum "Action" ["Go"] := by
    simp only [meterAnalyses, List.mem_cons, List.not_mem_nil, or_false] at hty
    rcases hty with rfl | rfl <;> rfl
  refine ⟨by simp [neededSlots, hret, NfReturnType.len, nextPowerOfTwo], ?_⟩
  simp only [meterChain, List.mem_cons, List.not_mem_nil, or_false, Prod.mk.injEq] at hfn
  rcases hfn with ⟨rfl, rfl⟩ | ⟨rfl, rfl⟩
  · obtain rfl := Option.some.inj (hd.front.symm.trans hu)
    obtain rfl := Option.some.inj (hd.frontBin.symm.trans hb)
    exact Or.inl ⟨rfl, (Option.some.inj he).symm⟩
  · obtain rfl := Option.some.inj (hd.meter.symm.trans hu)
    obtain rfl := Option.some.inj (hd.meterBin.symm.trans hb)
    cases disableXdp with
    | true => cases he
    | false => exact Or.inr ⟨rfl, (Option.some.inj he).symm⟩

theorem meterChain_objects {map : String} {disableXdp : Bool} {data : ChainData}
    (hd : MeterData map disableXdp data) :
    ObjectsOf (meterBpf map) asciiCase (meterChain map disableXdp) meterAnalyses data := by
  constructor <;> intro name info analysis src u b e file han hsrc hu hb he ho <;>
    obtain ⟨hmaps, hslots, _⟩ := writeXdpProgram_ok hsrc <;>
    rw [hmaps] <;> obtain ⟨hone, ⟨hk, rfl⟩ | ⟨hk, rfl⟩⟩ := hd.ebpf han hu hb he <;>
    obtain rfl := Option.some.inj ho <;> rw [hk]
  · rw [hslots, hone]
    exact ⟨rfl, rfl⟩
  · rw [hslots, hone]
    exact ⟨rfl, rfl⟩
  · exact ⟨rfl, rfl⟩
  · exact ⟨rfl, rfl⟩

theorem meterChain_mapsAlike : ∃ data,
    compileChain asciiCase meterEnv none (meterChain "hits" false) meterAnalyses = .ok data ∧
    MapsAlike (meterBpf "hits") asciiCase (meterChain "hits" false) data.intoSingleMessage := by
  obtain ⟨data, hcomp, hd⟩ := meterChain_compiles "hits" false
  refine ⟨data, hcomp, (mapsAlike_iff_plainNames (meterEnv_fresh _ _) rfl hcomp (meterChain_objects hd)
    (List.Perm.refl _)).2 ?_⟩
  intro e he
  rw [plainNames_iff]
  simp only [meterChain, List.mem_cons, List.not_mem_nil, or_false] at he
  rcases he with rfl | rfl
  · exact ⟨by simp [frontFn, BTreeMap.keys, BTreeMap.empty],
      by simp [frontFn, BTreeMap.keys, BTreeMap.empty]⟩
  · have hhits : asciiCase.toScreamingSnake "hits" = toAsciiUppercase "hits" := by decide
    exact ⟨by simp [meterFn, BTreeMap.keys, BTreeMap.singleton, hhits],
      by simp [meterFn, BTreeMap.keys, BTreeMap.singleton]⟩

/-- A map `ip4` becomes the static `IP_4` and is looked up as `IP4`. -/
theorem not_mapsAlike_of_digit : ¬ ∀ (T : CaseTable) (env : BuildEnv) (target : Option String)
    (chain : Chainsmith.Chain) (analyses : List FnAnalysis) (data : ChainData)
    (links : List XdpLink) (K : Libbpf), FreshUuids env chain.functions.entries.length →
    analyses.length = chain.functions.entries.length →
    compileChain T env target chain analyses = .ok data → ObjectsOf K T chain analyses data →
    links.Perm data.links → (∀ e ∈ chain.functions.entries, ∀ n ∈ e.2.maps.keys, isFieldName n) →
    MapsAlike K T chain ⟨links, data.binaries⟩ := by
  intro hall
  obtain ⟨data, hcomp, hd⟩ := meterChain_compiles "ip4" false
  have hnames : ∀ e ∈ (meterChain "ip4" false).functions.entries, ∀ n ∈ e.2.maps.keys,
      isFieldName n := by
    intro e he n hn
    simp only [meterChain, List.mem_cons, List.not_mem_nil, or_false] at he
    rcases he with rfl | rfl
    · cases hn
    · obtain rfl := List.mem_singleton.1 hn
      decide
  have h := hall asciiCase meterEnv none _ _ data _ (meterBpf "ip4") (meterEnv_fresh _ _) rfl hcomp
    (meterChain_objects hd) (List.Perm.refl _) hnames
  have hl : ⟨1, .tail, false, false, ["ip4"]⟩ ∈ data.links := by simp [hd.links]
  obtain rfl := Except.ok.inj hcomp
  exact h.found wideCli (createUpcallSockets id wideCli) _ hl "ip4" (List.mem_singleton.2 rfl) rfl

/-! ## Maps in userland -/

/-- Maps of different names have different descriptors. -/
theorem load_map_inj {file : ObjectFile} {fd m : Fd} {a b : String}
    (ha : (Object.load file fd).map a = some m) (hb : (Object.load file fd).map b = some m) :
    a = b := by
  have hmem : ∀ {n}, (Object.load file fd).map n = some m →
      file.mapNames[m - (fd + 1)]? = some n := by
    intro n hn
    obtain ⟨⟨n', m'⟩, hf, rfl⟩ := Option.map_eq_some_iff.1 hn
    obtain rfl : n' = n := by simpa using List.find?_some hf
    exact (List.mk_mem_zipIdx_iff_le_and_getElem?_sub.1 (List.mem_of_find?_eq_some hf)).2
  exact Option.some.inj ((hmem ha).symm.trans (hmem hb))

/-- A function that is built for eBPF gets, for each of its names, the map of the upper-cased
name. -/
theorem mapsOf_of_enabled (hL : Linked ⟨links, data.binaries⟩) {config : Cli} {xsks : List Fd}
    {st : ChainState} (hinst : installChain K ⟨links, data.binaries⟩ config xsks = .ok st)
    {l : XdpLink} (hl : l ∈ links) {name : String} {info : Chainsmith.Function}
    (hF : FnOf T chain analyses data l name info) (hx : info.disableXdp = false) :
    ∃ file fd prog, st.linkedEbpfs.lookup l.uuid = some prog ∧
      (∀ n, prog.object.map n = (Object.load file fd).map n) ∧
      List.Forall₂ (fun n m => (Object.load file fd).map (toAsciiUppercase n) = some m.fd)
        info.maps.keys (mapsOf st l.uuid) := by
  obtain ⟨b, hb, hebpf⟩ := hF.binary
  obtain ⟨e, he⟩ := Option.isSome_iff_exists.1 (hebpf.2 hx)
  rw [← hF.mapNames]
  exact (installed hL.nodup hinst).mapsOf_loaded hl hb he

/-- A function that is not built for eBPF gets no maps. -/
theorem mapsOf_of_disabled (hL : Linked ⟨links, data.binaries⟩) {config : Cli} {xsks : List Fd}
    {st : ChainState} (hinst : installChain K ⟨links, data.binaries⟩ config xsks = .ok st)
    {l : XdpLink} (hl : l ∈ links) {name : String} {info : Chainsmith.Function}
    (hF : FnOf T chain analyses data l name info) (hx : info.disableXdp = true) :
    mapsOf st l.uuid = [] := by
  obtain ⟨b, hb, hebpf⟩ := hF.binary
  have hnone : b.ebpf = none := by
    rw [← Option.not_isSome_iff_eq_none, hebpf, hx]
    simp
  exact (installed hL.nodup hinst).mapsOf_skipped hl hb hnone

/-- Looked-up maps differ from each other exactly if their upper-cased names do. -/
theorem nodup_of_looked_up {file : ObjectFile} {fd : Fd} {names : List String} {maps : List RawMap}
    (hnames : names.Nodup) (hmaps : List.Forall₂
      (fun n m => (Object.load file fd).map (toAsciiUppercase n) = some m.fd) names maps) :
    maps.Nodup ↔ ∀ a ∈ names, ∀ b ∈ names, a ≠ b → toAsciiUppercase a ≠ toAsciiUppercase b := by
  constructor
  · intro hnd a ha b hb hab heq
    obtain ⟨i, hi⟩ := List.getElem?_of_mem ha
    obtain ⟨j, hj⟩ := List.getElem?_of_mem hb
    obtain ⟨m, hat, hm⟩ := forall₂_getElem? hmaps hi
    obtain ⟨m', hat', hm'⟩ := forall₂_getElem? hmaps hj
    rw [heq, hm'] at hm
    obtain rfl : m' = m := by cases m; cases m'; simpa using hm
    have hij := (List.getElem?_inj (List.getElem?_eq_some_iff.1 hat).1 hnd).1 (hat.trans hat'.symm)
    rw [hij, hj] at hi
    exact hab (Option.some.inj hi).symm
  · intro hdiff
    have huniq : Relator.BiUnique fun n (m : RawMap) => n ∈ names ∧
        (Object.load file fd).map (toAsciiUppercase n) = some m.fd := by
      constructor
      · rintro a b m ⟨ha, ham⟩ ⟨hb, hbm⟩
        by_contra hab
        exact hdiff a ha b hb hab (load_map_inj ham hbm)
      · rintro a ⟨m⟩ ⟨m'⟩ ⟨_, hm⟩ ⟨_, hm'⟩
        exact congrArg RawMap.mk (Option.some.inj (hm.symm.trans hm'))
    exact (List.rel_nodup huniq ((List.forall₂_and_left _ _).2 ⟨fun _ h => h, hmaps⟩)).1 hnames

/-- A function without maps gets none, and its wrapper needs none. -/
theorem mapsBound_of_no_maps {st : ChainState} {u : Uuid} {info : Chainsmith.Function}
    {src : UserSource} (hsrc : src.fields = info.maps.keys) (hk : info.maps.keys = [])
    (hnil : mapsOf st u = []) : MapsBound T st u info src where
  fields := hsrc
  length := by rw [hnil, hk]; rfl
  bound i n hn := by simp [hk] at hn
  distinct := by rw [hnil]; exact List.nodup_nil
  runs packet pkt := by
    rw [hk] at hsrc
    simp [UserSource.userNfProgram, hsrc]

/-- The maps of a function that is built for eBPF: the looked-up maps are those of the statics
exactly if the looked-up names are. -/
theorem FnOf.mapsBound_of_enabled (hL : Linked ⟨links, data.binaries⟩) {config : Cli}
    {xsks : List Fd} {st : ChainState}
    (hinst : installChain K ⟨links, data.binaries⟩ config xsks = .ok st) {l : XdpLink}
    (hl : l ∈ links) {name : String} {info : Chainsmith.Function}
    (hF : FnOf T chain analyses data l name info) {src : UserSource}
    (hsrc : src.fields = info.maps.keys) (hx : info.disableXdp = false) :
    MapsBound T st l.uuid info src ↔ PlainNames T info.maps.keys := by
  obtain ⟨file, fd, prog, hprog, hmap, hmaps⟩ := mapsOf_of_enabled hL hinst hl hF hx
  have hnodup := nodup_of_looked_up info.maps.keys_nodup hmaps
  constructor
  · intro h
    refine ⟨fun n hn => (T.toScreamingSnake_eq_iff n).1 ?_, hnodup.1 h.distinct⟩
    obtain ⟨i, hi⟩ := List.getElem?_of_mem hn
    obtain ⟨prog', m, hprog', hm, hat⟩ := h.bound i n hi
    obtain rfl := Option.some.inj (hprog.symm.trans hprog')
    obtain ⟨m', hat', hm'⟩ := forall₂_getElem? hmaps hi
    obtain rfl := Option.some.inj (hat.symm.trans hat')
    rw [hmap] at hm
    exact load_map_inj hm hm'
  · intro hplain
    have hlen := hmaps.length_eq
    refine ⟨hsrc, hlen.symm, fun i n hi => ?_, hnodup.2 hplain.2, fun packet pkt => ?_⟩
    · obtain ⟨m, hat, hm⟩ := forall₂_getElem? hmaps hi
      refine ⟨prog, m.fd, hprog, ?_, hat⟩
      rw [hmap, (plainNames_iff.1 hplain).1 n (List.mem_of_getElem? hi)]
      exact hm
    · unfold UserSource.userNfProgram
      rw [hsrc, if_pos hlen.symm]
      split
      · rename_i hk
        rw [hk]
        rfl
      · rfl

/-- The maps of one function. -/
theorem FnOf.mapsBound_iff (hL : Linked ⟨links, data.binaries⟩) {config : Cli} {xsks : List Fd}
    {st : ChainState} (hinst : installChain K ⟨links, data.binaries⟩ config xsks = .ok st)
    {l : XdpLink} (hl : l ∈ links) {name : String} {info : Chainsmith.Function}
    (hF : FnOf T chain analyses data l name info) {src : UserSource}
    (hsrc : src.fields = info.maps.keys) :
    MapsBound T st l.uuid info src ↔
      info.maps.keys = [] ∨ info.disableXdp = false ∧ PlainNames T info.maps.keys := by
  cases hx : info.disableXdp with
  | false =>
    rw [hF.mapsBound_of_enabled hL hinst hl hsrc hx]
    refine ⟨fun h => Or.inr ⟨rfl, h⟩, ?_⟩
    rintro (hk | ⟨-, hplain⟩)
    · rw [hk]
      exact ⟨by simp, by simp⟩
    · exact hplain
  | true =>
    have hnil := mapsOf_of_disabled hL hinst hl hF hx
    constructor
    · intro h
      have hlen := h.length
      rw [hnil] at hlen
      exact Or.inl (List.length_eq_zero_iff.1 hlen.symm)
    · rintro (hk | ⟨h, -⟩)
      · exact mapsBound_of_no_maps hsrc hk hnil
      · cases h

/-- **Maps in userland.** Every function that userland can run gets its own maps exactly if each of
them either has no maps, or is built for eBPF and has plain names for them. -/
theorem userMapsBound_iff (hfresh : FreshUuids env chain.functions.entries.length)
    (hlen : analyses.length = chain.functions.entries.length)
    (hcomp : compileChain T env target chain analyses = .ok data) (hperm : links.Perm data.links)
    {config : Cli} {xsks : List Fd} {st : ChainState}
    (hinst : installChain K ⟨links, data.binaries⟩ config xsks = .ok st) :
    UserMapsBound T chain analyses data links st ↔
      ∀ name info u, chain.functions.get? name = some info → data.nameToUuid.lookup name = some u →
        UserReach links u →
        info.maps.keys = [] ∨ info.disableXdp = false ∧ PlainNames T info.maps.keys := by
  obtain ⟨hL, _, hfns⟩ := compiled_functions hfresh hlen hcomp hperm
  constructor
  · intro h name info u hinfo hu hreach
    obtain ⟨l, hl, hF⟩ := hfns name info hinfo
    obtain rfl := Option.some.inj (hu.symm.trans hF.uuid)
    obtain ⟨analysis, han⟩ := exists_analysed hlen hinfo
    obtain ⟨_, usrcs, _, _, husrcs, _⟩ := compileChain_stages hcomp
    obtain ⟨src, hsrc⟩ := writeUserlandPrograms_ok husrcs _ han
    exact (hF.mapsBound_iff hL hinst hl (writeUserlandProgram_ok hsrc)).1
      (h name info analysis src _ han hsrc hu hreach)
  · intro h name info analysis src u han hsrc hu hreach
    have hinfo := BTreeMap.get?_eq_some.2 (List.of_mem_zip han).1
    obtain ⟨l, hl, hF⟩ := hfns name info hinfo
    obtain rfl := Option.some.inj (hu.symm.trans hF.uuid)
    exact (hF.mapsBound_iff hL hinst hl (writeUserlandProgram_ok hsrc)).2
      (h name info _ hinfo hu hreach)

theorem meterChain_userMapsBound : ∃ data st,
    compileChain asciiCase meterEnv none (meterChain "hits" false) meterAnalyses = .ok data ∧
    installChain (meterBpf "hits") data.intoSingleMessage wideCli (createUpcallSockets id wideCli) =
      .ok st ∧ data.nameToUuid.lookup "meter" = some 1 ∧ UserReach data.links 1 ∧
    UserMapsBound asciiCase (meterChain "hits" false) meterAnalyses data data.links st := by
  obtain ⟨data, hcomp, hd⟩ := meterChain_compiles "hits" false
  have hreach := hd.userReach
  have hinst : ∃ st, installChain (meterBpf "hits") data.intoSingleMessage wideCli
      (createUpcallSockets id wideCli) = .ok st := by
    obtain rfl := Except.ok.inj hcomp
    exact ⟨_, rfl⟩
  obtain ⟨st, hst⟩ := hinst
  refine ⟨data, st, hcomp, hst, hd.meter, hreach, (userMapsBound_iff (meterEnv_fresh _ _) rfl hcomp
    (List.Perm.refl _) hst).2 ?_⟩
  intro name info u hinfo _ _
  have hmem := BTreeMap.get?_eq_some.1 hinfo
  simp only [meterChain, List.mem_cons, List.not_mem_nil, or_false, Prod.mk.injEq] at hmem
  rcases hmem with ⟨rfl, rfl⟩ | ⟨rfl, rfl⟩
  · exact Or.inl rfl
  · refine Or.inr ⟨rfl, plainNames_iff.2 ?_⟩
    have hhits : asciiCase.toScreamingSnake "hits" = toAsciiUppercase "hits" := by decide
    exact ⟨by simp [meterFn, BTreeMap.keys, BTreeMap.singleton, hhits],
      by simp [meterFn, BTreeMap.keys, BTreeMap.singleton]⟩

/-- A function with a map that is not built for eBPF gets none in userland, and its wrapper returns
`usize::MAX`. -/
theorem not_userMapsBound_of_disableXdp : ∃ data st src,
    compileChain asciiCase meterEnv none (meterChain "hits" true) meterAnalyses = .ok data ∧
    installChain (meterBpf "hits") data.intoSingleMessage wideCli (createUpcallSockets id wideCli) =
      .ok st ∧ data.nameToUuid.lookup "meter" = some 1 ∧ UserReach data.links 1 ∧
    writeUserlandProgram (meterChain "hits" true) "meter" (meterFn "hits" true)
      ⟨.enum "Action" ["Go"], some "Maps"⟩ = .ok src ∧
    (∀ packet pkt, src.userNfProgram packet pkt (mapsOf st 1) = (pkt, usizeMax)) ∧
    ¬ UserMapsBound asciiCase (meterChain "hits" true) meterAnalyses data data.links st := by
  obtain ⟨data, hcomp, hd⟩ := meterChain_compiles "hits" true
  have hreach := hd.userReach
  have hinst : ∃ st, installChain (meterBpf "hits") data.intoSingleMessage wideCli
      (createUpcallSockets id wideCli) = .ok st ∧ mapsOf st 1 = [] := by
    obtain rfl := Except.ok.inj hcomp
    exact ⟨_, rfl, rfl⟩
  obtain ⟨st, hst, hmaps⟩ := hinst
  have hsrc : writeUserlandProgram (meterChain "hits" true) "meter" (meterFn "hits" true)
      ⟨.enum "Action" ["Go"], some "Maps"⟩ = .ok ⟨"meter", ["hits"]⟩ := rfl
  refine ⟨data, st, _, hcomp, hst, hd.meter, hreach, hsrc, ?_, fun h => ?_⟩
  · intro packet pkt
    rw [hmaps]
    rfl
  · have hlen := (h "meter" (meterFn "hits" true) _ _ 1 (by simp [analysed, meterChain, meterAnalyses])
      hsrc hd.meter hreach).length
    rw [hmaps] at hlen
    cases hlen

end Galette.Pipeline
