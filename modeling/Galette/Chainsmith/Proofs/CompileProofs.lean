import Galette.Chainsmith.Compile
import Galette.Chainsmith.Proofs.MakeConcreteProofs

/-!
# Proofs: the maps of the build

The first pass of the build gives a fresh uuid to every function and stores its eBPF payload under
it; the second pass finds every name in the map of the first and adds the dynamic library.
`Compiled` describes the two maps at the end.
-/

namespace Galette.Chainsmith

open Galette.Lib Galette.Protocol

variable {env : BuildEnv} {chain : Chain} {target : Option String}

/-! ## The first pass -/

/-- The maps once the functions in `done` have their eBPF payload. -/
structure XdpInv (env : BuildEnv) (done : List (String × Function)) (st : BuildState) : Prop where
  drawn : st.drawn = done.length
  names : ∀ name u, st.fnMap.lookup name = some u →
    ∃ i e, done[i]? = some e ∧ e.1 = name ∧ env.newV4 i = u
  uuids : ∀ u b, st.binaries.lookup u = some b →
    ∃ i < done.length, env.newV4 i = u
  entry : ∀ i e, done[i]? = some e → st.fnMap.lookup e.1 = some (env.newV4 i) ∧
    ∃ b, st.binaries.lookup (env.newV4 i) = some b ∧ b.uuid = env.newV4 i ∧
      (b.ebpf.isSome = true ↔ e.2.disableXdp = false)

theorem readEbpf_isSome {name : String} {props : Function} {ebpf : Option EbpfFunction}
    (h : readEbpf env name props = .ok ebpf) : ebpf.isSome = true ↔ props.disableXdp = false := by
  unfold readEbpf at h
  split at h
  · rename_i hd
    obtain rfl := Except.ok.inj h
    simp [hd]
  · rename_i hd
    obtain ⟨e, _, h⟩ := Except.bind_eq_ok.1 h
    obtain ⟨l, _, h⟩ := Except.bind_eq_ok.1 h
    obtain rfl := Except.ok.inj h
    simpa using hd

theorem compileXdpBinary_inv {done : List (String × Function)} {e : String × Function}
    {st st' : BuildState} {n : Nat} (hfresh : FreshUuids env n) (hn : done.length < n)
    (hnew : ∀ d ∈ done, d.1 ≠ e.1) (hI : XdpInv env done st)
    (h : compileXdpBinary env st e = .ok st') : XdpInv env (done ++ [e]) st' := by
  obtain ⟨ebpf, hebpf, h⟩ := Except.bind_eq_ok.1 h
  obtain rfl := Except.ok.inj h
  have hlast : (done ++ [e])[done.length]? = some e := by simp
  refine ⟨by simp [hI.drawn], fun name u hu => ?_, fun u b hb => ?_, fun i d hd => ?_⟩
  · simp only [HashMap.lookup_insert_ite] at hu
    split at hu
    · rename_i hname
      exact ⟨done.length, e, hlast, hname.symm, by rw [← hI.drawn]; exact Option.some.inj hu⟩
    · obtain ⟨i, d, hi, h1, h2⟩ := hI.names name u hu
      have hlt := (List.getElem?_eq_some_iff.1 hi).1
      exact ⟨i, d, by rw [List.getElem?_append_left hlt]; exact hi, h1, h2⟩
  · simp only [HashMap.lookup_insert_ite] at hb
    split at hb
    · rename_i hu
      exact ⟨done.length, by simp, by rw [hu, hI.drawn]⟩
    · obtain ⟨i, hi, h1⟩ := hI.uuids u b hb
      exact ⟨i, by simp; omega, h1⟩
  · rcases getElem?_snoc hd with ⟨hlt, hd⟩ | ⟨rfl, rfl⟩
    · obtain ⟨h1, b, h2, h3⟩ := hI.entry i d hd
      have hname := hnew d (List.mem_of_getElem? hd)
      have huuid : env.newV4 i ≠ env.newV4 st.drawn := by
        intro hc
        have := hfresh i st.drawn (by omega) (by rw [hI.drawn]; exact hn) hc
        rw [hI.drawn] at this
        omega
      refine ⟨by rw [AList.lookup_insert_ne hname]; exact h1, b, ?_, h3⟩
      rw [AList.lookup_insert_ne huuid]
      exact h2
    · rw [← hI.drawn]
      exact ⟨by simp, _, AList.lookup_insert _, rfl, readEbpf_isSome hebpf⟩

theorem compileXdpBinaries_inv {st : BuildState}
    (hfresh : FreshUuids env chain.functions.entries.length)
    (h : compileXdpBinaries env chain = .ok st) : XdpInv env chain.functions.entries st := by
  obtain ⟨_, _, h⟩ := Except.bind_eq_ok.1 h
  refine foldE_inv (XdpInv env) h ⟨rfl, by simp, by simp, by simp⟩ ?_
  intro done e rest st st' hl hI hst
  refine compileXdpBinary_inv hfresh ?_ (BTreeMap.key_ne_of_entries hl) hI hst
  rw [hl]
  simp

/-! ## The second pass -/

/-- The maps once the functions in `done` have their dynamic library, from the maps `st₀` of the
first pass. -/
structure UserInv (st₀ : BuildState) (done : List String) (st : BuildState) : Prop where
  fnMap : st.fnMap = st₀.fnMap
  same : ∀ u, (st.binaries.lookup u).map (fun b => (b.uuid, b.ebpf)) =
    (st₀.binaries.lookup u).map fun b => (b.uuid, b.ebpf)
  elf : ∀ name ∈ done, ∀ u, st₀.fnMap.lookup name = some u →
    ∃ b, st.binaries.lookup u = some b ∧ b.elf.isSome = true

/-- One more library: its function has a uuid already, and binaries under it. -/
theorem compileUserlandBinary_inv {st₀ st st' : BuildState} {done : List String} {name : String}
    {u : Uuid} {b₀ : Protocol.Function} (hu : st₀.fnMap.lookup name = some u)
    (hb : st₀.binaries.lookup u = some b₀) (hI : UserInv st₀ done st)
    (h : compileUserlandBinary env target st name = .ok st') :
    UserInv st₀ (done ++ [name]) st' := by
  obtain ⟨dylib, _, h⟩ := Except.bind_eq_ok.1 h
  have hfn : st.fnMap.lookup name = some u := by rw [hI.fnMap]; exact hu
  have hsame := hI.same u
  rw [hb] at hsame
  obtain ⟨b, hbu, hpair⟩ := Option.map_eq_some_iff.1 hsame
  have hentry : uuidEntry env st name = (u, st) := by simp [uuidEntry, hfn]
  rw [hentry] at h
  obtain rfl := Except.ok.inj h
  have hset : setDylib u dylib st.binaries =
      AList.insert u { b with elf := some dylib } st.binaries := by
    simp [setDylib, hbu]
  refine ⟨hI.fnMap, fun v => ?_, fun n hn v hv => ?_⟩
  · rw [hset, HashMap.lookup_insert_ite]
    split
    · rename_i hvu
      subst hvu
      simpa [hb] using hpair
    · exact hI.same v
  · rw [hset, HashMap.lookup_insert_ite]
    rcases List.mem_append.1 hn with hn | hn
    · split
      · exact ⟨_, rfl, rfl⟩
      · exact hI.elf n hn v hv
    · obtain rfl : n = name := by simpa using hn
      obtain rfl : v = u := Option.some.inj (hv.symm.trans hu)
      rw [if_pos rfl]
      exact ⟨_, rfl, rfl⟩

/-! ## Both passes -/

/-- The maps of a finished build. -/
structure Compiled (chain : Chain) (st : BuildState) : Prop where
  names : ∀ name, (∃ u, st.fnMap.lookup name = some u) ↔ name ∈ chain.functions.keys
  inj : ∀ a b u, st.fnMap.lookup a = some u → st.fnMap.lookup b = some u → a = b
  uuids : ∀ u, (∃ b, st.binaries.lookup u = some b) ↔ ∃ name, st.fnMap.lookup name = some u
  entry : ∀ name u f, st.fnMap.lookup name = some u → chain.functions.get? name = some f →
    ∃ b, st.binaries.lookup u = some b ∧ b.uuid = u ∧
      (b.ebpf.isSome = true ↔ f.disableXdp = false) ∧ b.elf.isSome = true

theorem XdpInv.lookup {st : BuildState} (h : XdpInv env chain.functions.entries st) {name : String}
    (hn : name ∈ chain.functions.keys) :
    ∃ u b, st.fnMap.lookup name = some u ∧ st.binaries.lookup u = some b := by
  obtain ⟨e, he, rfl⟩ := List.mem_map.1 hn
  obtain ⟨i, hi⟩ := List.getElem?_of_mem he
  obtain ⟨h1, b, h2, _⟩ := h.entry i e hi
  exact ⟨_, b, h1, h2⟩

/-- The second pass leaves the maps of a finished build. -/
theorem compileUserlandBinaries_inv {st₀ st : BuildState}
    (h₀ : XdpInv env chain.functions.entries st₀)
    (h : compileUserlandBinaries env chain target st₀ = .ok st) :
    UserInv st₀ chain.functions.keys st := by
  unfold compileUserlandBinaries at h
  split at h
  · obtain ⟨_, _, h⟩ := Except.bind_eq_ok.1 h
    refine foldE_inv (UserInv st₀) h ⟨rfl, fun _ => rfl, by simp⟩ ?_
    intro done name rest st st' hl hI hst
    obtain ⟨u, b, hu, hb⟩ := h₀.lookup (show name ∈ chain.functions.keys by rw [hl]; simp)
    exact compileUserlandBinary_inv hu hb hI hst
  · cases h

/-- **The maps of the build.** -/
theorem compileBinaries_compiled {st : BuildState}
    (hfresh : FreshUuids env chain.functions.entries.length)
    (h : compileBinaries env chain target = .ok st) : Compiled chain st := by
  obtain ⟨st₀, hx, hu⟩ := Except.bind_eq_ok.1 h
  have h₀ := compileXdpBinaries_inv hfresh hx
  have h₁ := compileUserlandBinaries_inv h₀ hu
  -- a name and its uuid stand at one position
  have hpos : ∀ name u, st₀.fnMap.lookup name = some u →
    ∃ i e, chain.functions.entries[i]? = some e ∧
      e.1 = name ∧ env.newV4 i = u := h₀.names
  refine ⟨fun name => ?_, fun a b u ha hb => ?_, fun u => ?_, fun name u f hu hf => ?_⟩
  · rw [h₁.fnMap]
    constructor
    · rintro ⟨u, hu⟩
      obtain ⟨i, e, hi, rfl, _⟩ := hpos name u hu
      exact List.mem_map.2 ⟨e, List.mem_of_getElem? hi, rfl⟩
    · intro hn
      obtain ⟨u, b, hu, _⟩ := h₀.lookup hn
      exact ⟨u, hu⟩
  · rw [h₁.fnMap] at ha hb
    obtain ⟨i, e, hi, rfl, hiu⟩ := hpos a u ha
    obtain ⟨j, d, hj, rfl, hju⟩ := hpos b u hb
    have hlt := (List.getElem?_eq_some_iff.1 hi).1
    have hlt' := (List.getElem?_eq_some_iff.1 hj).1
    obtain rfl := hfresh i j hlt hlt' (hiu.trans hju.symm)
    rw [Option.some.inj (hi.symm.trans hj)]
  · have hsome : (∃ b, st.binaries.lookup u = some b) ↔ ∃ b, st₀.binaries.lookup u = some b := by
      have := congrArg Option.isSome (h₁.same u)
      rw [Option.isSome_map, Option.isSome_map] at this
      rw [← Option.isSome_iff_exists, ← Option.isSome_iff_exists, this]
    rw [hsome, h₁.fnMap]
    constructor
    · rintro ⟨b, hb⟩
      obtain ⟨i, hi, rfl⟩ := h₀.uuids u b hb
      exact ⟨_, (h₀.entry i _ (List.getElem?_eq_getElem hi)).1⟩
    · rintro ⟨name, hn⟩
      obtain ⟨i, e, hi, _, rfl⟩ := hpos name u hn
      obtain ⟨_, b, hb, _⟩ := h₀.entry i e hi
      exact ⟨b, hb⟩
  · rw [h₁.fnMap] at hu
    obtain ⟨i, e, hi, rfl, rfl⟩ := hpos name u hu
    have hmem : (e.1, f) ∈ chain.functions.entries := BTreeMap.get?_eq_some.1 hf
    have hef : e.2 = f := chain.functions.entries_inj (List.mem_of_getElem? hi) hmem
    obtain ⟨_, b₀, hb₀, hu₀, heb⟩ := h₀.entry i e hi
    obtain ⟨b, hb, helf⟩ := h₁.elf e.1 (List.mem_map.2 ⟨e, List.mem_of_getElem? hi, rfl⟩) _ hu
    have hsame := h₁.same (env.newV4 i)
    rw [hb, hb₀] at hsame
    obtain ⟨hbu, hbe⟩ := Prod.mk.inj (Option.some.inj hsame)
    refine ⟨b, hb, hbu.trans hu₀, ?_, helf⟩
    rw [show b.ebpf = b₀.ebpf from hbe, heb, hef]

end Galette.Chainsmith
