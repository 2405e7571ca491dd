import Galette.Pulley.Proofs.TotalProofs

/-!
# Proofs: the installed chain refines the walk

The two main results about a running chain: the combined execution performs the walk from the root,
and the hand-over between kernel and userland is exact. Both need the program ids of the chain to be
distinct; a chain of more than `2 ^ 32` links, in which the ids of the first and the last link
coincide, shows what goes wrong otherwise.
-/

namespace Galette.Pulley

open Galette.Lib Galette.Protocol

/-! ## Wide chains -/

/-- The link at position `i` of the chain of `n + 1` links in which only the first and the last one
have programs. The first one upcalls the second, the last one upcalls the third. -/
def wideLink (n i : Nat) : XdpLink where
  uuid := BitVec.ofNat 128 i
  state := if i = 0 then .body [.upcall 1] else if i = n then .body [.upcall 2] else .tail
  root := i = 0
  disableXdp := ¬ (i = 0 ∨ i = n)
  mapNames := []

/-- The binaries for the link at position `i`. -/
def wideFn (n i : Nat) : Function where
  uuid := BitVec.ofNat 128 i
  elf := some []
  ebpf := if i = 0 ∨ i = n then some { link := [0], «end» := [1] } else none

/-- A chain of `n + 1` links, with its binaries. -/
def wideChain (n : Nat) : Chain where
  links := (List.range (n + 1)).map (wideLink n)
  nfs := HashMap.insertAll (BitVec.ofNat 128) (wideFn n) (List.range (n + 1)) ∅

/-- Every function of a wide chain leaves the packet alone and returns 0. -/
def wideNf : Behaviour := fun _ pkt => (pkt, 0)

/-- libbpf for the payloads of a wide chain. -/
def wideBpf : Libbpf where
  openMemory b :=
    if b = [0] then some { template := .wrapperChain 1, packet := fun pkt => (pkt, 0), nfMaps := [] }
    else some { template := .wrapper, packet := fun pkt => (pkt, 0), nfMaps := [] }
  load _ := true
  seed _ := true
  attachXdp := true
  ifNametoindex _ := some 1

/-- The dynamic libraries of a wide chain. -/
def wideLib : Bytes → Option NfUserApi := fun _ => some fun pkt _ => (pkt, 0)

section Wide

variable {n : Nat}

theorem wideUuid_inj {i j : Nat} (hn : n < 2 ^ 128) (hi : i ≤ n) (hj : j ≤ n)
    (h : BitVec.ofNat 128 i = BitVec.ofNat 128 j) : i = j := by
  have := congrArg BitVec.toNat h
  rwa [BitVec.toNat_ofNat, BitVec.toNat_ofNat, Nat.mod_eq_of_lt (by omega),
    Nat.mod_eq_of_lt (by omega)] at this

theorem mem_wideChain {l : XdpLink} :
    l ∈ (wideChain n).links ↔ ∃ i ≤ n, wideLink n i = l := by
  simp only [wideChain, List.mem_map, List.mem_range, Nat.lt_succ_iff]

theorem wideChain_nodup (hn : n < 2 ^ 128) : ((wideChain n).links.map XdpLink.uuid).Nodup := by
  simp only [wideChain, List.map_map]
  apply List.Nodup.map_on _ List.nodup_range
  intro i hi j hj h
  rw [List.mem_range] at hi hj
  exact wideUuid_inj hn (by omega) (by omega) h

theorem wideChain_lookup (hn : n < 2 ^ 128) {i : Nat} (hi : i ≤ n) :
    (wideChain n).nfs.lookup (BitVec.ofNat 128 i) = some (wideFn n i) := by
  apply HashMap.lookup_insertAll_of_mem
  · apply List.Nodup.map_on _ List.nodup_range
    intro i hi j hj h
    rw [List.mem_range] at hi hj
    exact wideUuid_inj hn (by omega) (by omega) h
  · simpa [Nat.lt_succ_iff] using hi

/-- The actions of a wide chain are upcalls of its second and third link. -/
theorem wideLink_body {i : Nat} {els : List LinkAction} (h : (wideLink n i).state = .body els) :
    (i = 0 ∨ i = n) ∧ (els = [.upcall 1] ∨ els = [.upcall 2]) := by
  simp only [wideLink] at h
  split_ifs at h with h0 h1
  · exact ⟨Or.inl h0, Or.inl (XdpLinkState.body.inj h).symm⟩
  · exact ⟨Or.inr h1, Or.inr (XdpLinkState.body.inj h).symm⟩

theorem wideLink_last (h3 : 3 ≤ n) : (wideLink n n).state = .body [.upcall 2] := by
  have hne : n ≠ 0 := by omega
  simp [wideLink, hne]

theorem wideLink_middle {i : Nat} (h0 : i ≠ 0) (hn : i ≠ n) : (wideLink n i).state = .tail := by
  simp [wideLink, h0, hn]

theorem wideChain_hasEbpf (hn : n < 2 ^ 128) {i : Nat} (hi : i ≤ n) (h : i = 0 ∨ i = n) :
    HasEbpf (wideChain n) (wideLink n i).uuid :=
  ⟨_, { link := [0], «end» := [1] }, wideChain_lookup hn hi, by simp [wideFn, h]⟩

theorem wideChain_wellFormed (h3 : 3 ≤ n) (hn : n < 2 ^ 128) : WellFormed (wideChain n) where
  nodup := wideChain_nodup hn
  root := by
    refine ⟨wideLink n 0, ⟨mem_wideChain.2 ⟨0, by omega, rfl⟩, by simp [wideLink]⟩, ?_⟩
    rintro l ⟨hl, hr⟩
    obtain ⟨i, hi, rfl⟩ := mem_wideChain.1 hl
    obtain rfl : i = 0 := by simpa [wideLink] using hr
    rfl
  rootEbpf := by
    intro l hl hr
    obtain ⟨i, hi, rfl⟩ := mem_wideChain.1 hl
    exact wideChain_hasEbpf hn hi (Or.inl (by simpa [wideLink] using hr))
  targets := by
    intro l hl els hs a ha u hu
    obtain ⟨i, hi, rfl⟩ := mem_wideChain.1 hl
    obtain ⟨_, rfl | rfl⟩ := wideLink_body hs
    · obtain rfl : a = .upcall 1 := by simpa using ha
      obtain rfl := Option.some.inj hu
      exact ⟨wideLink n 1, mem_wideChain.2 ⟨1, by omega, rfl⟩, rfl⟩
    · obtain rfl : a = .upcall 2 := by simpa using ha
      obtain rfl := Option.some.inj hu
      exact ⟨wideLink n 2, mem_wideChain.2 ⟨2, by omega, rfl⟩, rfl⟩
  calls := by
    intro l hl els hs u hu
    obtain ⟨i, hi, rfl⟩ := mem_wideChain.1 hl
    obtain ⟨_, rfl | rfl⟩ := wideLink_body hs <;> simp at hu
  dylibs := by
    intro l hl
    obtain ⟨i, hi, rfl⟩ := mem_wideChain.1 hl
    exact ⟨_, _, wideChain_lookup hn hi, rfl⟩

theorem wideChain_ebpf (hn : n < 2 ^ 128) {l : XdpLink} (hl : l ∈ (wideChain n).links)
    {f : Function}
    {e : EbpfFunction} (hf : (wideChain n).nfs.lookup l.uuid = some f) (he : f.ebpf = some e) :
    e = { link := [0], «end» := [1] } := by
  obtain ⟨i, hi, rfl⟩ := mem_wideChain.1 hl
  obtain rfl := Option.some.inj ((wideChain_lookup hn hi).symm.trans hf)
  simp only [wideFn] at he
  split_ifs at he
  exact (Option.some.inj he).symm

theorem wideChain_builds (hn : n < 2 ^ 128) : Builds wideBpf wideLib (wideChain n) wideNf where
  ends := by
    intro l hl f e file hf he ho
    obtain rfl := wideChain_ebpf hn hl hf he
    obtain rfl := Option.some.inj ho
    exact ⟨rfl, rfl⟩
  links := by
    intro l hl f e file hf he ho
    obtain rfl := wideChain_ebpf hn hl hf he
    obtain rfl := Option.some.inj ho
    exact ⟨⟨1, rfl⟩, rfl⟩
  user := by
    intro l _ f b api _ _ hapi pkt maps
    obtain rfl := Option.some.inj hapi
    rfl
  range := by
    intro l hl els hs pkt
    obtain ⟨i, hi, rfl⟩ := mem_wideChain.1 hl
    obtain ⟨_, rfl | rfl⟩ := wideLink_body hs <;> simp [wideNf]

theorem wideChain_accepts (hn : n < 2 ^ 128) {xsks : List Fd} (hx : xsks.length ≤ xskSlots) :
    Accepts wideBpf (wideChain n) xsks where
  objects := by
    intro l hl f e hf he
    obtain rfl := wideChain_ebpf hn hl hf he
    obtain ⟨i, hi, rfl⟩ := mem_wideChain.1 hl
    cases hs : (wideLink n i).state with
    | tail => exact ⟨_, rfl, rfl, rfl, by simp [wideLink], by simp⟩
    | body els =>
      refine ⟨_, rfl, rfl, rfl, by simp [wideLink], ?_⟩
      rintro els' ⟨⟩
      obtain ⟨_, rfl | rfl⟩ := wideLink_body hs <;> exact ⟨1, rfl, by simp⟩
  sockets := hx

/-- A wide chain can be installed. -/
theorem wideChain_installs (h3 : 3 ≤ n) (hn : n < 2 ^ 128) {xsks : List Fd}
    (hx : xsks.length ≤ xskSlots) (config : Cli) :
    ∃ st, installChain wideBpf (wideChain n) config xsks = .ok st :=
  (wideChain_wellFormed h3 hn).installs (wideChain_accepts hn hx) rfl rfl

theorem wideChain_dylibs (n : Nat) :
    ∃ dylibs, loadDylibNfs wideLib (wideChain n).nfs = .ok dylibs :=
  loadDylibNfs_total fun _ _ _ _ _ => ⟨_, rfl⟩

/-- Walking a wide chain: the root upcalls the second link, which transmits. -/
theorem wideWalk_halts (h3 : 3 ≤ n) (hn : n < 2 ^ 128) (pkt : Bytes) :
    (walk wideNf (wideChain n).links).Halts (.at (wideLink n 0).uuid pkt)
      [((wideLink n 0).uuid, pkt), ((wideLink n 1).uuid, pkt)] (.done .tx pkt) := by
  have hnd := wideChain_nodup hn
  have h0 := chosen_mem wideNf hnd (mem_wideChain.2 ⟨0, by omega, rfl⟩) pkt
  have h1 := chosen_mem wideNf hnd (mem_wideChain.2 ⟨1, by omega, rfl⟩) pkt
  have hs1 : (wideLink n 1).state = .tail := wideLink_middle (by omega) (by omega)
  have hstep0 : (walk wideNf (wideChain n).links).step (.at (wideLink n 0).uuid pkt) =
      some (some ((wideLink n 0).uuid, pkt), .at (wideLink n 1).uuid pkt) := by
    simp only [walk, walkStep, h0]
    rfl
  have hstep1 : (walk wideNf (wideChain n).links).step (.at (wideLink n 1).uuid pkt) =
      some (some ((wideLink n 1).uuid, pkt), .done .tx pkt) := by
    simp only [walk, walkStep, h1, hs1]
    rfl
  exact ⟨2, by simp [Machine.run_succ _ hstep0, Machine.run_succ _ hstep1], rfl⟩

variable {config : Cli} {xsks : List Fd} {st : ChainState}

/-- The last link of a wide chain that is long enough takes the program id of the first. -/
theorem wideChain_instanceId (h3 : 3 ≤ n) (hn : n < 2 ^ 128) (hmod : n % 2 ^ 32 = 0)
    (hI : Installed wideBpf (wideChain n) config xsks st) :
    st.instanceIds.lookup 0 = some (wideLink n n).uuid := by
  have hl : (wideChain n).links = (List.range n).map (wideLink n) ++ [wideLink n n] := by
    simp [wideChain, List.range_succ]
  have h := hI.instanceId_of_last hl
    ⟨⟨_, wideLink_last h3⟩, wideChain_hasEbpf hn (le_refl n) (Or.inr rfl)⟩
  have hzero : UInt32.ofNat n = 0 := by
    apply UInt32.toNat_inj.1
    rw [UInt32.toNat_ofNat', hmod]
    rfl
  rwa [List.length_map, List.length_range, hzero] at h

/-- The program of the first link of a wide chain. -/
theorem wideChain_root (h3 : 3 ≤ n) (hn : n < 2 ^ 128)
    (hI : Installed wideBpf (wideChain n) config xsks st) :
    ∃ p, st.linkedEbpfs.lookup (wideLink n 0).uuid = some p ∧
      attachedFd st = some p.object.fd ∧
      Patched st.progFds config.xdpCores xsks [.upcall 1] 0 p.object ∧
      ∀ host pkt, xdpSockProg host p.object pkt = (pkt, upcallArm host p.object 0) := by
  obtain ⟨l, hl, hr, p, hp, hfd⟩ := hI.root
  have h0 : wideLink n 0 ∈ (wideChain n).links := mem_wideChain.2 ⟨0, by omega, rfl⟩
  obtain rfl : l = wideLink n 0 :=
    (wideChain_wellFormed h3 hn).root.unique ⟨hl, hr⟩ ⟨h0, by simp [wideLink]⟩
  have hpos : (wideChain n).links[0]? = some (wideLink n 0) := by simp [wideChain]
  obtain ⟨f, e, file, maps, hf, he, hP⟩ := hI.progFor hpos hp
  refine ⟨p, hp, hfd, hP.tables _ rfl, fun host pkt => ?_⟩
  exact hP.xdpSockProg (wideChain_builds hn).toPrograms hl hf he host pkt (a := .upcall 1) rfl

end Wide

/-! ## The walk -/

/-- **Refinement.** The execution that `install_chain` sets up performs the walk of the chain from
its root: it runs the same functions on the same packets, diverges exactly when the walk does, and
ends as the walk does. -/
theorem installChain_refines_walk {K : Libbpf} {dlopen : Bytes → Option NfUserApi} {chain : Chain}
    {nf : Behaviour} {host : Host} {n : UInt32} {config : Cli} {socket : Nat → Fd} {st : ChainState}
    {dylibs : HashMap Uuid NfUserApi} {root : XdpLink} (hwf : WellFormed chain)
    (hbuilds : Builds K dlopen chain nf) (hids : DistinctIds chain)
    (hcores : config.xdpCores = clampCores n) (hmeta : host.adjustMeta = true)
    (hinst : installChain K chain config (createUpcallSockets socket config) = .ok st)
    (hlibs : loadDylibNfs dlopen chain.nfs = .ok dylibs) (hmem : root ∈ chain.links)
    (hroot : root.root = true) (pkt : Bytes) :
    ∃ fd, attachedFd st = some fd ∧ Machine.Agree (walk nf chain.links) (system host st dylibs)
      SameEnd (.at root.uuid pkt) (.kernel fd pkt) := by
  have hrun : Running K chain config (createUpcallSockets socket config) nf host st :=
    { wf := hwf
      programs := hbuilds.toPrograms
      ids := hids
      cores := by rw [hcores]; exact (clampCores_toNat n).1
      sockets := createUpcallSockets_length socket config
      headroom := hmeta
      inst := installed hwf.nodup hinst }
  exact hrun.agree (fun l hl => hbuilds.calls hwf.toLinked hlibs hl)
    (fun l hl => hbuilds.exists_act hl) hmem hroot pkt

/-- The command line of a runtime with three threads. -/
def wideCli : Cli := { interface := "eth0", xdpCores := clampCores 3 }

def wideHost : Host := { endian := .little, adjustMeta := true, prandom := 5 }

theorem wideSockets_le : (createUpcallSockets id wideCli).length ≤ xskSlots := by decide

/-- An installed wide chain that is long enough: the packet goes on at the third link. -/
theorem wideSystem_halts {n : Nat} (h3 : 3 ≤ n) (hn : n < 2 ^ 128) (hmod : n % 2 ^ 32 = 0)
    {st : ChainState} {dylibs : HashMap Uuid NfUserApi}
    (hI : Installed wideBpf (wideChain n) wideCli (createUpcallSockets id wideCli) st)
    (hd : loadDylibNfs wideLib (wideChain n).nfs = .ok dylibs) {host : Host}
    (hmeta : host.adjustMeta = true) (pkt : Bytes) :
    ∃ fd, attachedFd st = some fd ∧ (system host st dylibs).Halts (.kernel fd pkt)
      [((wideLink n 0).uuid, pkt), ((wideLink n 2).uuid, pkt)] (.sorted true pkt) := by
  obtain ⟨p, hp, hfd, hP, hprog⟩ := wideChain_root h3 hn hI
  have h2 : wideLink n 2 ∈ (wideChain n).links := mem_wideChain.2 ⟨2, by omega, rfl⟩
  have hlast : wideLink n n ∈ (wideChain n).links := mem_wideChain.2 ⟨n, le_refl n, rfl⟩
  -- the kernel program hands the packet over with program id 0
  obtain ⟨_, xsk, _, hxsk⟩ := hP.socket (by decide) (createUpcallSockets_length id wideCli)
    host.prandom
  have hstep0 : (system host st dylibs).step (.kernel p.object.fd pkt) =
      some (some ((wideLink n 0).uuid, pkt), .socket (targetCore p.object.myStateMap host.prandom)
        (upcallMeta host.endian p.object.myStateMap 0) pkt) := by
    simp [system, sysStep, hI.progOf hp, hprog, upcallArm, hmeta, hxsk, afterExit]
  -- userland takes that for the id of the last link
  have htarget : upcallTarget st p.object.myStateMap.progId 0 = some (wideLink n 2).uuid := by
    rw [hP.state, upcallTarget, show UInt32.ofNat 0 = 0 from rfl,
      wideChain_instanceId h3 hn hmod hI, Option.bind_some, hI.states _ hlast, wideLink_last h3]
    rfl
  have hstep1 : (system host st dylibs).step (.socket (targetCore p.object.myStateMap host.prandom)
      (upcallMeta host.endian p.object.myStateMap 0) pkt) =
      some (none, .user (wideLink n 2).uuid pkt) := by
    simp [system, sysStep, afterSocket, htarget]
  obtain ⟨api, hapi, hlib⟩ := loadDylibNfs_lookup hd (wideChain_lookup hn (show 2 ≤ n by omega)) rfl
  obtain rfl := Option.some.inj hapi
  have hlib' : dylibs.lookup (wideLink n 2).uuid = some fun pkt _ => (pkt, 0) := hlib
  have hact : userAction st (wideLink n 2).uuid 0 = some .tx := by
    rw [userAction, hI.states _ h2, wideLink_middle (by omega) (by omega)]
    rfl
  have hstep2 : (system host st dylibs).step (.user (wideLink n 2).uuid pkt) =
      some (some ((wideLink n 2).uuid, pkt), .sorted true pkt) := by
    simp only [system, sysStep]
    rw [hlib']
    simp only [hact]
    rfl
  refine ⟨p.object.fd, hfd, 3, ?_, rfl⟩
  simp [Machine.run_succ _ hstep0, Machine.run_succ _ hstep1, Machine.run_succ _ hstep2]

theorem wideChain_refines_walk : ∃ st dylibs fd,
    installChain wideBpf (wideChain 3) wideCli (createUpcallSockets id wideCli) = .ok st ∧
    loadDylibNfs wideLib (wideChain 3).nfs = .ok dylibs ∧ attachedFd st = some fd ∧
    Machine.Agree (walk wideNf (wideChain 3).links) (system wideHost st dylibs) SameEnd
      (.at 0 [1, 2]) (.kernel fd [1, 2]) := by
  obtain ⟨st, hst⟩ := wideChain_installs (n := 3) (by omega) (by omega) wideSockets_le wideCli
  obtain ⟨dylibs, hd⟩ := wideChain_dylibs 3
  have hmeta : wideHost.adjustMeta = true := rfl
  have hroot : wideLink 3 0 ∈ (wideChain 3).links := by decide
  obtain ⟨fd, hfd, hagree⟩ := installChain_refines_walk (n := 3)
    (wideChain_wellFormed (by omega) (by omega)) (wideChain_builds (by omega))
    (distinctIds_of_length_le (by simp [wideChain])) rfl hmeta hst hd hroot (by decide) [1, 2]
  exact ⟨st, dylibs, fd, hst, hd, hfd, hagree⟩

/-- Without distinct program ids the execution need not be the walk: in a chain of `2 ^ 32 + 1`
links a packet that the first link upcalls continues where the last link would have sent it. -/
theorem not_installChain_refines_walk_of_any_length :
    ¬ ∀ (K : Libbpf) (dlopen : Bytes → Option NfUserApi) (chain : Chain) (nf : Behaviour)
      (host : Host) (n : UInt32) (config : Cli) (socket : Nat → Fd) (st : ChainState)
      (dylibs : HashMap Uuid NfUserApi) (root : XdpLink) (pkt : Bytes), WellFormed chain →
      Builds K dlopen chain nf → config.xdpCores = clampCores n → host.adjustMeta = true →
      installChain K chain config (createUpcallSockets socket config) = .ok st →
      loadDylibNfs dlopen chain.nfs = .ok dylibs → root ∈ chain.links → root.root = true →
      ∃ fd, attachedFd st = some fd ∧ Machine.Agree (walk nf chain.links) (system host st dylibs)
        SameEnd (.at root.uuid pkt) (.kernel fd pkt) := by
  intro hall
  obtain ⟨st, hinst⟩ := wideChain_installs (n := 2 ^ 32) (by omega) (by omega) wideSockets_le wideCli
  obtain ⟨dylibs, hlibs⟩ := wideChain_dylibs (2 ^ 32)
  have hmeta : wideHost.adjustMeta = true := rfl
  obtain ⟨fd₀, hfd, hsys⟩ := wideSystem_halts (by omega) (by omega) (by omega)
    (installed (wideChain_nodup (by omega)) hinst) hlibs hmeta []
  have h0 : wideLink (2 ^ 32) 0 ∈ (wideChain (2 ^ 32)).links := mem_wideChain.2 ⟨0, by omega, rfl⟩
  obtain ⟨fd, hfd', hagree⟩ := hall wideBpf wideLib (wideChain (2 ^ 32)) wideNf wideHost 3 wideCli id st
    dylibs (wideLink (2 ^ 32) 0) [] (wideChain_wellFormed (by omega) (by omega))
    (wideChain_builds (by omega)) rfl rfl hinst hlibs h0 (by simp [wideLink])
  obtain rfl := Option.some.inj (hfd.symm.trans hfd')
  obtain ⟨s, hs, _⟩ := hagree.halts _ _ (wideWalk_halts (by omega) (by omega) [])
  obtain ⟨htrace, _⟩ := Machine.Halts.unique _ hs hsys
  have huuid : (wideLink (2 ^ 32) 1).uuid = (wideLink (2 ^ 32) 2).uuid := by simpa using htrace
  have := wideUuid_inj (n := 2 ^ 32) (by omega) (by omega) (by omega) huuid
  omega

/-! ## The hand-over -/

/-- **The hand-over of an upcall is exact**, and the ids of distinct programs are distinct. -/
theorem upcall_handover_exact {K : Libbpf} {chain : Chain} {n : UInt32} {config : Cli}
    {socket : Nat → Fd} {st : ChainState} {i : Nat} {l : XdpLink} {prog : Prog} {out : UInt32}
    (hnd : (chain.links.map XdpLink.uuid).Nodup) (hids : DistinctIds chain)
    (hcores : config.xdpCores = clampCores n)
    (hinst : installChain K chain config (createUpcallSockets socket config) = .ok st)
    (hl : chain.links[i]? = some l) (hprog : st.linkedEbpfs.lookup l.uuid = some prog)
    (harm : prog.object.actsGet out = some 3) (host : Host) :
    ExactHandover host st (createUpcallSockets socket config) l prog.object out ∧
      ∀ m q, m ∈ chain.links → (∃ els, m.state = .body els) →
        st.linkedEbpfs.lookup m.uuid = some q →
        q.object.myStateMap.progId = prog.object.myStateMap.progId → m = l := by
  have hI := installed hnd hinst
  have hone : 1 ≤ config.xdpCores.toNat := by rw [hcores]; exact (clampCores_toNat n).1
  obtain ⟨els, hs, hp, hP⟩ := hI.body_of_upcall hl hprog harm
  have hx := hI.exactHandover hids hone (createUpcallSockets_length socket config) hl hp hs hP harm host
  refine ⟨hx, ?_⟩
  rintro m q hm ⟨els', hs'⟩ hq hid
  obtain ⟨j, hj⟩ := List.getElem?_of_mem hm
  obtain ⟨f, e, file, maps, hf, he, hQ⟩ := hI.progFor hj hq
  have hfound := hI.instanceId hids hj ⟨⟨els', hs'⟩, f, e, hf, he⟩
  have hqid : q.object.myStateMap.progId = UInt32.ofNat j := by rw [(hQ.tables els' hs').state]
  rw [← hqid, hid, hx.source] at hfound
  exact List.inj_on_of_nodup_map hnd hm (List.mem_of_getElem? hl) (Option.some.inj hfound).symm

theorem wideChain_handover_exact : ∃ st prog,
    installChain wideBpf (wideChain 3) wideCli (createUpcallSockets id wideCli) = .ok st ∧
    st.linkedEbpfs.lookup (wideLink 3 0).uuid = some prog ∧ prog.object.actsGet 0 = some 3 ∧
    ExactHandover wideHost st (createUpcallSockets id wideCli) (wideLink 3 0) prog.object 0 := by
  obtain ⟨st, hst⟩ := wideChain_installs (n := 3) (by omega) (by omega) wideSockets_le wideCli
  have hnd := wideChain_nodup (n := 3) (by omega)
  obtain ⟨p, hp, _, hP, _⟩ := wideChain_root (by omega) (by omega) (installed hnd hst)
  have harm : p.object.actsGet 0 = some 3 := hP.toTables.actsGet (a := .upcall 1) rfl
  have hids : DistinctIds (wideChain 3) := distinctIds_of_length_le (by simp [wideChain])
  exact ⟨st, p, hst, hp, harm,
    (upcall_handover_exact (n := 3) (i := 0) hnd hids rfl hst rfl hp harm wideHost).1⟩

/-- In a chain of `2 ^ 32 + 1` links the program id of the first link is taken for that of the
last. -/
theorem not_handover_exact_of_any_length :
    ¬ ∀ (K : Libbpf) (chain : Chain) (n : UInt32) (config : Cli) (socket : Nat → Fd)
      (st : ChainState) (i : Nat) (l : XdpLink) (prog : Prog) (out : UInt32) (host : Host),
      (chain.links.map XdpLink.uuid).Nodup → config.xdpCores = clampCores n →
      installChain K chain config (createUpcallSockets socket config) = .ok st →
      chain.links[i]? = some l → st.linkedEbpfs.lookup l.uuid = some prog →
      prog.object.actsGet out = some 3 →
      ExactHandover host st (createUpcallSockets socket config) l prog.object out := by
  intro hall
  obtain ⟨st, hinst⟩ := wideChain_installs (n := 2 ^ 32) (by omega) (by omega) wideSockets_le wideCli
  have hnd := wideChain_nodup (n := 2 ^ 32) (by omega)
  have hI := installed hnd hinst
  obtain ⟨p, hp, _, hP, _⟩ := wideChain_root (by omega) (by omega) hI
  have hpos : (wideChain (2 ^ 32)).links[0]? = some (wideLink (2 ^ 32) 0) := by simp [wideChain]
  have hx := hall wideBpf (wideChain (2 ^ 32)) 3 wideCli id st 0 (wideLink (2 ^ 32) 0) p 0 wideHost hnd
    rfl hinst hpos hp (hP.toTables.actsGet (a := .upcall 1) rfl)
  have hsource := hx.source
  rw [hP.state] at hsource
  have hlast := wideChain_instanceId (by omega) (by omega) (by omega) hI
  have huuid : (wideLink (2 ^ 32) 0).uuid = (wideLink (2 ^ 32) (2 ^ 32)).uuid :=
    Option.some.inj (hsource.symm.trans hlast)
  have := wideUuid_inj (n := 2 ^ 32) (by omega) (by omega) (by omega) huuid
  omega

end Galette.Pulley
