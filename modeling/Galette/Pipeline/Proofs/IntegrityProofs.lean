import Galette.Pipeline.Proofs.MessageProofs
import Galette.Pulley.Proofs.ErrorProofs

/-!
# Proofs: referential integrity from compiler to runtime

What the compiler sends is resolved by the runtime without a miss, and the only thing that can go
wrong at the end of the installation is a root that was excluded from the eBPF build.
-/

namespace Galette.Pipeline

open Galette.Lib Galette.Protocol Galette.Chainsmith Galette.Pulley

/-- The runtime finds everything that a message refers to. -/
structure Resolves (K : Libbpf) (msg : Protocol.Chain) (config : Cli) (xsks : List Fd) : Prop where
  errors : ∀ e, installChain K msg config xsks = .error (.error e) → e.dangling = false
  calls : ∀ ld, loadChain K msg = .ok ld → ∀ l ∈ msg.links, ∀ els, l.state = .body els →
    ∀ u, .tailcall u ∈ els → ∃ fd, ld.progFds.lookup u = some fd
  reach : ∀ st dlopen dylibs, installChain K msg config xsks = .ok st →
    loadDylibNfs dlopen msg.nfs = .ok dylibs → ∀ u, UserReach msg.links u →
    (∃ api, dylibs.lookup u = some api) ∧ ∃ s, st.linkStates.lookup u = some s

theorem resolves_of_linked {msg : Protocol.Chain} (h : Linked msg) (K : Libbpf) (config : Cli)
    (xsks : List Fd) : Resolves K msg config xsks where
  errors _ he := installChain_not_dangling h he
  calls ld hld l hl els hs u hu := (loadChain_inv h.nodup hld).progFd_of_call h hl hs hu
  reach st dlopen dylibs hst hd u hu := by
    obtain ⟨l, hl, rfl⟩ := h.link_of_userReach hu
    obtain ⟨f, b, hf, hb⟩ := h.dylibs l hl
    obtain ⟨api, _, hapi⟩ := loadDylibNfs_lookup hd hf hb
    exact ⟨⟨api, hapi⟩, l.state, (installed h.nodup hst).states l hl⟩

variable {env : BuildEnv} {chain : Chainsmith.Chain} {target : Option String} {st : BuildState}

/-- On the names of a build `make_concrete` does not panic. -/
theorem makeConcrete_no_panic (hB : Compiled chain st) (msg : String) :
    makeConcrete chain st.fnMap ≠ .error (.panic msg) := by
  have hfns : ∀ name u, st.fnMap.lookup name = some u → ∃ f, chain.functions.get? name = some f :=
    fun name u hu => BTreeMap.mem_keys.1 ((hB.names name).1 ⟨u, hu⟩)
  obtain ⟨init, hinit⟩ := initialFns_total hfns
  intro h
  unfold makeConcrete concreteFns at h
  rw [hinit] at h
  cases hp : processLinks chain init with
  | error e => simp [hp, Except.bind, Except.mapError, Except.map] at h
  | ok fns => simp [hp, Except.bind, Except.mapError, Except.map] at h

/-- **Referential integrity.** The maps of a build have exactly the functions of the chain, the name
resolution does not panic on them, and the runtime finds everything that the message refers to. -/
theorem build_referential_integrity (hfresh : FreshUuids env chain.functions.entries.length)
    (h : compileBinaries env chain target = .ok st) :
    Compiled chain st ∧ (∀ msg, makeConcrete chain st.fnMap ≠ .error (.panic msg)) ∧
      ∀ links₀ links, makeConcrete chain st.fnMap = .ok links₀ → links.Perm links₀ →
        ∀ K config xsks, Resolves K ⟨links, st.binaries⟩ config xsks := by
  have hB := compileBinaries_compiled hfresh h
  refine ⟨hB, makeConcrete_no_panic hB, ?_⟩
  intro links₀ links hlinks hperm K config xsks
  obtain ⟨fns, hfns, rfl⟩ := makeConcrete_ok hlinks
  exact resolves_of_linked (linked_message hB (concreteFns_ok hfns) hperm) K config xsks

/-! ## A chain of three functions -/

def ferryFn : Chainsmith.Function where
  path := none
  disableXdp := false
  slice := none
  maps := .empty

/-- A chain in which `front` hands packets to `middle` in either place, and `middle` to `rear`. -/
def ferryChain (cyclic : Bool) : Chainsmith.Chain where
  functions := ⟨[("front", ferryFn), ("middle", ferryFn), ("rear", ferryFn)], by decide⟩
  links := [⟨"rx", ["front"]⟩, ⟨"front", ["middle", "!middle"]⟩, ⟨"middle", ["rear"]⟩,
    ⟨"rear", [if cyclic then "!middle" else "pass"]⟩]
  maps := .empty

/-- A build in which a wrapper is its number of slots. -/
def ferryEnv : BuildEnv where
  newV4 n := BitVec.ofNat 128 n
  cargoBpf := .ok ()
  cargoBuild := .ok ()
  read path :=
    some (if path = elfPath "front-chain" then [2]
      else if path ∈ ["middle-chain", "rear-chain"].map elfPath then [1] else [0])
  host := "x86_64-unknown-linux-gnu"

def ferryBpf : Libbpf where
  openMemory
    | [2] => some ⟨.wrapperChain 2, fun pkt => (pkt, 1), []⟩
    | [1] => some ⟨.wrapperChain 1, fun pkt => (pkt, 0), []⟩
    | _ => some ⟨.wrapper, fun pkt => (pkt, 0), []⟩
  load _ := true
  seed _ := true
  attachXdp := true
  ifNametoindex _ := some 1

def ferryLinks (cyclic : Bool) : List XdpLink :=
  [⟨2, .body [if cyclic then .upcall 1 else .pass], false, false, []⟩,
    ⟨1, .body [.tailcall 2], false, false, []⟩,
    ⟨0, .body [.tailcall 1, .upcall 1], true, false, []⟩]

theorem ferryEnv_fresh (cyclic : Bool) :
    FreshUuids ferryEnv (ferryChain cyclic).functions.entries.length := by
  intro i j hi hj h
  simp only [ferryChain, List.length_cons, List.length_nil] at hi hj
  exact wideUuid_inj (n := 2) (by omega) (by omega) (by omega) h

theorem ferryChain_installs (cyclic : Bool) : ∃ build ld st dylibs,
    compileBinaries ferryEnv (ferryChain cyclic) none = .ok build ∧
    makeConcrete (ferryChain cyclic) build.fnMap = .ok (ferryLinks cyclic) ∧
    loadChain ferryBpf ⟨ferryLinks cyclic, build.binaries⟩ = .ok ld ∧
    installChain ferryBpf ⟨ferryLinks cyclic, build.binaries⟩ wideCli
      (createUpcallSockets id wideCli) = .ok st ∧
    loadDylibNfs wideLib build.binaries = .ok dylibs ∧ upcallTarget st 2 1 = some 1 := by
  cases cyclic with
  | false => exact ⟨_, _, _, _, rfl, rfl, rfl, rfl, rfl, rfl⟩
  | true => exact ⟨_, _, _, _, rfl, rfl, rfl, rfl, rfl, rfl⟩

/-- The programs of `middle` and `rear` are called from the kernel, and their libraries can be
reached in userland. -/
theorem ferryChain_integrity : ∃ build ld st dylibs,
    compileBinaries ferryEnv (ferryChain false) none = .ok build ∧
    Compiled (ferryChain false) build ∧
    loadChain ferryBpf ⟨ferryLinks false, build.binaries⟩ = .ok ld ∧
    installChain ferryBpf ⟨ferryLinks false, build.binaries⟩ wideCli
      (createUpcallSockets id wideCli) = .ok st ∧
    loadDylibNfs wideLib build.binaries = .ok dylibs ∧
    ∀ u : Uuid, u = 1 ∨ u = 2 → (∃ fd, ld.progFds.lookup u = some fd) ∧
      (∃ api, dylibs.lookup u = some api) ∧ ∃ state, st.linkStates.lookup u = some state := by
  obtain ⟨build, ld, st, dylibs, hbuild, hlinks, hld, hst, hd, -⟩ := ferryChain_installs false
  obtain ⟨hB, _, hres⟩ := build_referential_integrity (ferryEnv_fresh false) hbuild
  have hR := hres _ _ hlinks (.refl _) ferryBpf wideCli (createUpcallSockets id wideCli)
  have hfront : ⟨0, .body [.tailcall 1, .upcall 1], true, false, []⟩ ∈ ferryLinks false := by decide
  have hmiddle : ⟨1, .body [.tailcall 2], false, false, []⟩ ∈ ferryLinks false := by decide
  have hreach : UserReach (ferryLinks false) 1 := .upcall hfront rfl (by decide)
  refine ⟨build, ld, st, dylibs, hbuild, hB, hld, hst, hd, ?_⟩
  rintro u (rfl | rfl)
  · exact ⟨hR.calls ld hld _ hfront _ rfl 1 (by decide), hR.reach st wideLib dylibs hst hd 1 hreach⟩
  · exact ⟨hR.calls ld hld _ hmiddle _ rfl 2 (by decide),
      hR.reach st wideLib dylibs hst hd 2 (hreach.next hmiddle rfl (List.mem_singleton.2 rfl) rfl)⟩

/-! ## The root -/

/-- The panic of `unreachable!()`. -/
def unreachablePanic : Fail ChainInstallError := .panic "internal error: entered unreachable code"

/-- The root of the message is the function that `rx` is linked to, and it has a payload exactly if
that function is built for eBPF. -/
theorem message_root {links : List XdpLink} {fns : HashMap String XdpLink} {root : String}
    {f : Chainsmith.Function} (hB : Compiled chain st) (hC : Concrete chain st.fnMap fns)
    (hperm : links.Perm (HashMap.values fns)) (hrx : root ∈ rxDests chain.links)
    (hf : chain.functions.get? root = some f) :
    ∃ l ∈ links, l.root = true ∧ (HasEbpf ⟨links, st.binaries⟩ l.uuid ↔ f.disableXdp = false) := by
  obtain ⟨r, hr, hsome⟩ := hC.rx
  obtain rfl : root = r := by rw [hr] at hrx; simpa using hrx
  obtain ⟨l, hl⟩ := Option.isSome_iff_exists.1 hsome
  obtain ⟨u, f', hu, hf', rfl⟩ := hC.link_of_lookup hl
  obtain rfl := Option.some.inj (hf.symm.trans hf')
  obtain ⟨b, hb, _, hebpf, _⟩ := hB.entry root u f hu hf
  refine ⟨_, hperm.mem_iff.2 (HashMap.mem_values.2 ⟨root, hl⟩), (hC.root_iff hr hl).2 rfl, ?_⟩
  rw [← hebpf, Option.isSome_iff_exists]
  constructor
  · rintro ⟨b', e, hb', he⟩
    obtain rfl := Option.some.inj (hb.symm.trans hb')
    exact ⟨e, he⟩
  · rintro ⟨e, he⟩
    exact ⟨b, e, hb, he⟩

/-- **The end of the installation.** When loading and updating succeed, `install_chain` stays clear
of its `unreachable!()` exactly if the function that `rx` is linked to is built for eBPF. -/
theorem installChain_reaches_attach_iff {links₀ links : List XdpLink} {root : String}
    {f : Chainsmith.Function} {K : Libbpf} {config : Cli} {xsks : List Fd} {iface : Nat}
    (hfresh : FreshUuids env chain.functions.entries.length)
    (hbuild : compileBinaries env chain target = .ok st)
    (hlinks : makeConcrete chain st.fnMap = .ok links₀) (hperm : links.Perm links₀)
    (hrx : root ∈ rxDests chain.links) (hf : chain.functions.get? root = some f)
    (hacc : Accepts K ⟨links, st.binaries⟩ xsks)
    (hi : K.ifNametoindex config.interface = some iface) :
    installChain K ⟨links, st.binaries⟩ config xsks ≠ .error unreachablePanic ↔
      f.disableXdp = false := by
  have hB := compileBinaries_compiled hfresh hbuild
  obtain ⟨fns, hfns, rfl⟩ := makeConcrete_ok hlinks
  have hC := concreteFns_ok hfns
  have hL := linked_message hB hC hperm
  obtain ⟨l, hl, hr, hebpf⟩ := message_root hB hC hperm hrx hf
  constructor
  · intro hne
    rw [← hebpf]
    by_contra hno
    exact hne (installChain_unreachable hL hacc hi hl hr hno)
  · intro hd
    obtain ⟨cs, hcs⟩ := installChain_attaches hL hacc hi hl hr (hebpf.2 hd)
    rw [hcs]
    split
    · simp
    · simp [unwrapPanic, unreachablePanic]

/-- The chain of a single function that transmits everything. -/
def echoChain (disableXdp : Bool) : Chainsmith.Chain where
  functions := .singleton "nf"
    { path := none, disableXdp := disableXdp, slice := none, maps := .empty }
  links := [⟨"rx", ["nf"]⟩, ⟨"nf", ["tx"]⟩]
  maps := .empty

/-- A build in which every file has the same contents. -/
def echoEnv : BuildEnv where
  newV4 n := BitVec.ofNat 128 n
  cargoBpf := .ok ()
  cargoBuild := .ok ()
  read _ := some [1]
  host := "x86_64-unknown-linux-gnu"

def echoLink (disableXdp : Bool) : XdpLink where
  uuid := 0
  state := .tail
  root := true
  disableXdp := disableXdp
  mapNames := []

theorem echoEnv_fresh (disableXdp : Bool) :
    FreshUuids echoEnv (echoChain disableXdp).functions.entries.length := by
  intro i j hi hj _
  simp only [echoChain, BTreeMap.singleton, List.length_cons, List.length_nil] at hi hj
  omega

theorem echoChain_compiles (disableXdp : Bool) :
    ∃ st, compileBinaries echoEnv (echoChain disableXdp) none = .ok st ∧
      makeConcrete (echoChain disableXdp) st.fnMap = .ok [echoLink disableXdp] ∧
      st.binaries.lookup 0 = some
        { uuid := 0
          elf := some [1]
          ebpf := if disableXdp then none else some { link := [1], «end» := [1] } } := by
  cases disableXdp with
  | false => exact ⟨_, rfl, rfl, rfl⟩
  | true => exact ⟨_, rfl, rfl, rfl⟩

theorem echoAccepts {disableXdp : Bool} {st : BuildState}
    (hb : st.binaries.lookup 0 = some
      { uuid := 0
        elf := some [1]
        ebpf := if disableXdp then none else some { link := [1], «end» := [1] } }) :
    Accepts wideBpf ⟨[echoLink disableXdp], st.binaries⟩ (createUpcallSockets id wideCli) where
  objects := by
    intro l hl f e hf he
    obtain rfl := List.mem_singleton.1 hl
    obtain rfl := Option.some.inj (hb.symm.trans hf)
    cases disableXdp with
    | true => cases he
    | false =>
      obtain rfl := Option.some.inj he
      exact ⟨_, rfl, rfl, rfl, by simp [echoLink], by simp [echoLink]⟩
  sockets := wideSockets_le

theorem echoChain_reaches_attach : ∃ st, compileBinaries echoEnv (echoChain false) none = .ok st ∧
    installChain wideBpf ⟨[echoLink false], st.binaries⟩ wideCli (createUpcallSockets id wideCli) ≠
      .error unreachablePanic := by
  obtain ⟨st, hst, hlinks, hb⟩ := echoChain_compiles false
  have hrx : "nf" ∈ rxDests (echoChain false).links := by decide
  exact ⟨st, hst, (installChain_reaches_attach_iff (echoEnv_fresh false) hst hlinks (List.Perm.refl _)
    hrx rfl (echoAccepts hb) rfl).2 rfl⟩

/-- With `disable_xdp` on the root the installation runs into `unreachable!()`. -/
theorem not_reaches_attach_of_disableXdp : ¬ ∀ (env : BuildEnv) (chain : Chainsmith.Chain)
    (target : Option String) (st : BuildState) (links₀ links : List XdpLink) (K : Libbpf)
    (config : Cli) (xsks : List Fd) (iface : Nat),
    FreshUuids env chain.functions.entries.length → compileBinaries env chain target = .ok st →
    makeConcrete chain st.fnMap = .ok links₀ → links.Perm links₀ →
    Accepts K ⟨links, st.binaries⟩ xsks → K.ifNametoindex config.interface = some iface →
    installChain K ⟨links, st.binaries⟩ config xsks ≠ .error unreachablePanic := by
  intro hall
  obtain ⟨st, hst, hlinks, hb⟩ := echoChain_compiles true
  have hB := compileBinaries_compiled (echoEnv_fresh true) hst
  obtain ⟨fns, hfns, hv⟩ := makeConcrete_ok hlinks
  have hL := linked_message hB (concreteFns_ok hfns) (List.Perm.refl _)
  rw [← hv] at hL
  refine hall echoEnv (echoChain true) none st _ _ wideBpf wideCli _ 1 (echoEnv_fresh true) hst hlinks
    (List.Perm.refl _) (echoAccepts hb) rfl ?_
  refine installChain_unreachable hL (echoAccepts hb) rfl (List.mem_singleton.2 rfl) rfl ?_
  rintro ⟨g, e, hg, he⟩
  obtain rfl := Option.some.inj (hb.symm.trans hg)
  cases he

end Galette.Pipeline
