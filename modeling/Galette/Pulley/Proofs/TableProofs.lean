import Galette.Pulley.Dataplane
import Galette.Pulley.Proofs.InstallProofs

/-!
# Proofs: the tables of an installed chain

The invariant of the table loop, and the description `Installed` of a chain that `install_chain` has
installed. The program ids are positions cast to 32 bits; which uuid is found under an id is decided
by the last link that uses it (`Installed.ids`).
-/

namespace Galette.Pulley

open Galette.Lib Galette.Protocol

variable {K : Libbpf}

/-- Whether the table loop fills the tables of a program for a link. -/
def hasTable (progs : HashMap Uuid Prog) (e : XdpLink × Nat) : Bool :=
  match e.1.state with
  | .tail => false
  | .body _ => (progs.lookup e.1.uuid).isSome

/-- The state of the table loop once the links in `done` are processed. -/
structure TableInv (ld : LoadState) (numCores : UInt32) (xsks : List Fd)
    (done : List (XdpLink × Nat)) (tb : TableState) : Prop where
  states : ∀ e ∈ done, tb.linkStates.lookup e.1.uuid = some e.1.state
  patched : ∀ e ∈ done, ∀ els obj, e.1.state = .body els →
    ld.linkedEbpfs.lookup e.1.uuid = some (.unlinked obj) →
    ∃ obj', tb.linkedEbpfs.lookup e.1.uuid = some (.unlinked obj') ∧
      Patched ld.progFds numCores xsks els e.2 obj' ∧ SameObject obj obj'
  untouched : ∀ u, (∀ e ∈ done, e.1.uuid = u → e.1.state = .tail) →
    tb.linkedEbpfs.lookup u = ld.linkedEbpfs.lookup u
  missing : ∀ u, ld.linkedEbpfs.lookup u = none → tb.linkedEbpfs.lookup u = none
  ids : tb.instanceIds = HashMap.insertAll (fun e => UInt32.ofNat e.2) (fun e => e.1.uuid)
    (done.filter (hasTable ld.linkedEbpfs)) ∅

theorem TableInv.empty (ld : LoadState) (numCores : UInt32) (xsks : List Fd) :
    TableInv ld numCores xsks [] { linkedEbpfs := ld.linkedEbpfs } where
  states := by simp
  patched := by simp
  untouched _ _ := rfl
  missing _ h := h
  ids := rfl

/-- A link is processed without touching a program, or fills the tables of its program. -/
theorem patchLink_cases {progFds : HashMap Uuid Fd} {numCores : UInt32} {xsks : List Fd}
    {tb tb' : TableState} {e : XdpLink × Nat} (h : patchLink progFds numCores xsks tb e = .ok tb') :
    (hasTable tb.linkedEbpfs e = false ∧
      tb' = { tb with linkStates := AList.insert e.1.uuid e.1.state tb.linkStates }) ∨
    ∃ els prog obj, e.1.state = .body els ∧ tb.linkedEbpfs.lookup e.1.uuid = some prog ∧
      patchObject progFds numCores xsks e.1.uuid els e.2 prog.object = .ok obj ∧
      tb' =
        { linkedEbpfs := AList.insert e.1.uuid (prog.setObject obj) tb.linkedEbpfs
          linkStates := AList.insert e.1.uuid e.1.state tb.linkStates
          instanceIds := AList.insert (UInt32.ofNat e.2) e.1.uuid tb.instanceIds } := by
  unfold patchLink at h
  cases hs : e.1.state with
  | tail =>
    simp only [hs] at h
    exact Or.inl ⟨by simp [hasTable, hs], (Except.ok.inj h).symm⟩
  | body els =>
    simp only [hs] at h
    cases hp : tb.linkedEbpfs.lookup e.1.uuid with
    | none =>
      simp only [hp] at h
      exact Or.inl ⟨by simp [hasTable, hs, hp], (Except.ok.inj h).symm⟩
    | some prog =>
      simp only [hp] at h
      obtain ⟨obj, ho, h⟩ := Except.bind_eq_ok.1 h
      exact Or.inr ⟨els, prog, obj, rfl, rfl, ho, (Except.ok.inj h).symm⟩

/-- The state of a new link is stored without overwriting that of another. -/
theorem linkStates_insert {done : List (XdpLink × Nat)} {m : HashMap Uuid XdpLinkState}
    {e : XdpLink × Nat} (hnew : ∀ d ∈ done, d.1.uuid ≠ e.1.uuid)
    (h : ∀ d ∈ done, m.lookup d.1.uuid = some d.1.state) :
    ∀ d ∈ done ++ [e], (AList.insert e.1.uuid e.1.state m).lookup d.1.uuid = some d.1.state := by
  intro d hd
  rcases List.mem_append.1 hd with hd | hd
  · rw [AList.lookup_insert_ne (hnew d hd)]
    exact h d hd
  · obtain rfl : d = e := by simpa using hd
    simp

theorem hasTable_congr {progs progs' : HashMap Uuid Prog} {e : XdpLink × Nat}
    (h : progs.lookup e.1.uuid = progs'.lookup e.1.uuid) :
    hasTable progs e = hasTable progs' e := by
  unfold hasTable
  rw [h]

/-- One link of the table loop. -/
theorem patchLink_inv {ld : LoadState} {numCores : UInt32} {xsks : List Fd}
    {done : List (XdpLink × Nat)} {tb tb' : TableState} {e : XdpLink × Nat}
    (hld : ∀ u p, ld.linkedEbpfs.lookup u = some p →
      ∃ file fd, p = .unlinked (Object.load file fd) ∧ fd < ld.nextFd)
    (hnew : ∀ d ∈ done, d.1.uuid ≠ e.1.uuid) (hI : TableInv ld numCores xsks done tb)
    (h : patchLink ld.progFds numCores xsks tb e = .ok tb') :
    TableInv ld numCores xsks (done ++ [e]) tb' := by
  have hsame : tb.linkedEbpfs.lookup e.1.uuid = ld.linkedEbpfs.lookup e.1.uuid :=
    hI.untouched _ fun d hd he => absurd he (hnew d hd)
  obtain ⟨ht, rfl⟩ | ⟨els, prog, obj, hs, hp, ho, rfl⟩ := patchLink_cases h
  · have ht' : hasTable ld.linkedEbpfs e = false := by rw [← hasTable_congr hsame]; exact ht
    refine ⟨linkStates_insert hnew hI.states, ?_, ?_, hI.missing, ?_⟩
    · intro d hd els obj hs hl
      rcases List.mem_append.1 hd with hd | hd
      · exact hI.patched d hd els obj hs hl
      · obtain rfl : d = e := by simpa using hd
        simp [hasTable, hs, hl] at ht'
    · intro u hu
      exact hI.untouched u fun d hd he => hu d (List.mem_append_left _ hd) he
    · rw [List.filter_append]
      simp [ht', hI.ids]
  · obtain ⟨file, fd, rfl, _⟩ := hld e.1.uuid prog (by rw [← hsame]; exact hp)
    obtain ⟨hP, hS⟩ := patchObject_ok (fun _ => rfl) ho
    have ht' : hasTable ld.linkedEbpfs e = true := by
      rw [← hasTable_congr hsame]
      simp [hasTable, hs, hp]
    refine ⟨linkStates_insert hnew hI.states, ?_, ?_, ?_, ?_⟩
    · intro d hd els' obj' hs' hl
      rcases List.mem_append.1 hd with hd | hd
      · obtain ⟨o, h1, h2, h3⟩ := hI.patched d hd els' obj' hs' hl
        exact ⟨o, by rw [AList.lookup_insert_ne (hnew d hd)]; exact h1, h2, h3⟩
      · obtain rfl : d = e := by simpa using hd
        obtain rfl : els = els' := by rw [hs] at hs'; exact XdpLinkState.body.inj hs'
        rw [← hsame, hp] at hl
        obtain rfl := Prog.unlinked.inj (Option.some.inj hl)
        exact ⟨obj, by simp [Prog.setObject], hP, hS⟩
    · intro u hu
      have hne : u ≠ e.1.uuid := by
        rintro rfl
        have := hu e (by simp) rfl
        rw [hs] at this
        cases this
      rw [AList.lookup_insert_ne hne]
      exact hI.untouched u fun d hd he => hu d (List.mem_append_left _ hd) he
    · intro u hu
      have hne : u ≠ e.1.uuid := by
        rintro rfl
        rw [← hsame, hp] at hu
        cases hu
      rw [AList.lookup_insert_ne hne]
      exact hI.missing u hu
    · rw [List.filter_append]
      simp [ht', hI.ids, HashMap.insertAll]

/-- What the table loop leaves behind. -/
theorem patchChain_inv {chain : Chain} {ld : LoadState} {numCores : UInt32} {xsks : List Fd}
    {tb : TableState} (hnd : (chain.links.map XdpLink.uuid).Nodup)
    (hld : LoadInv K chain.nfs chain.links ld) (h : patchChain chain numCores xsks ld = .ok tb) :
    TableInv ld numCores xsks chain.links.zipIdx tb := by
  refine foldE_inv (TableInv ld numCores xsks) h (TableInv.empty ld numCores xsks) ?_
  intro done e rest b b' hl hI hb
  refine patchLink_inv hld.unlinked (fun d hd => ?_) hI hb
  have hmap : chain.links = done.map Prod.fst ++ e.1 :: rest.map Prod.fst := by
    have := congrArg (List.map Prod.fst) hl
    simpa using this
  exact uuid_ne_of_nodup hnd hmap d.1 (List.mem_map.2 ⟨d, hd, rfl⟩)

/-! ## Attaching the root -/

/-- The programs after the root is attached. -/
theorem attachRoot_cases {iface : Nat} {rootIdx : Option Uuid} {progs progs' : HashMap Uuid Prog}
    (h : attachRoot K iface rootIdx progs = .ok progs') :
    ∃ root obj, rootIdx = some root ∧ progs.lookup root = some (.unlinked obj) ∧
      progs' = AList.insert root (.linked obj iface) progs := by
  unfold attachRoot at h
  cases rootIdx with
  | none => cases h
  | some root =>
    simp only at h
    cases hp : progs.lookup root with
    | none => simp [hp] at h
    | some p =>
      cases p with
      | linked o i => simp [hp] at h
      | unlinked obj =>
        simp only [hp] at h
        split at h
        · exact ⟨root, obj, rfl, hp, (Except.ok.inj h).symm⟩
        · cases h

/-- Attaching the root keeps the objects. -/
theorem lookup_attached {progs : HashMap Uuid Prog} {root : Uuid} {obj : Object}
    (h : progs.lookup root = some (.unlinked obj)) (u : Uuid) (iface : Nat) :
    ((AList.insert root (.linked obj iface) progs).lookup u).map Prog.object =
      (progs.lookup u).map Prog.object := by
  rw [HashMap.lookup_insert_ite]
  split
  · rename_i hu
    subst hu
    simp [h, Prog.object]
  · rfl

/-! ## Installed chains -/

/-- What an installed chain has for a link at position `i` with eBPF payload `e`. -/
structure ProgFor (K : Libbpf) (config : Cli) (xsks : List Fd) (st : ChainState) (i : Nat)
    (l : XdpLink) (e : EbpfFunction) (file : ObjectFile) (prog : Prog) (maps : List RawMap) :
    Prop where
  opened : K.openMemory (myProg l.state e) = some file
  linked : st.linkedEbpfs.lookup l.uuid = some prog
  same : SameObject (Object.load file prog.object.fd) prog.object
  progFd : st.progFds.lookup l.uuid = some prog.object.fd
  found : myMaps (Object.load file prog.object.fd) l.uuid l.mapNames = .ok maps
  raw : st.rawMaps.lookup l.uuid = some maps
  bare : l.state = .tail → prog.object = Object.load file prog.object.fd
  tables : ∀ els, l.state = .body els → Patched st.progFds config.xdpCores xsks els i prog.object

/-- A chain that `install_chain` has installed. -/
structure Installed (K : Libbpf) (chain : Chain) (config : Cli) (xsks : List Fd) (st : ChainState) :
    Prop where
  nf : ∀ l ∈ chain.links, ∃ f, chain.nfs.lookup l.uuid = some f
  states : ∀ l ∈ chain.links, st.linkStates.lookup l.uuid = some l.state
  skipped : ∀ l ∈ chain.links, ∀ f, chain.nfs.lookup l.uuid = some f → f.ebpf = none →
    st.linkedEbpfs.lookup l.uuid = none ∧ st.rawMaps.lookup l.uuid = none
  loaded : ∀ i l f e, chain.links[i]? = some l → chain.nfs.lookup l.uuid = some f →
    f.ebpf = some e → ∃ file prog maps, ProgFor K config xsks st i l e file prog maps
  ids : st.instanceIds = HashMap.insertAll (fun e => UInt32.ofNat e.2) (fun e => e.1.uuid)
    (chain.links.zipIdx.filter (hasTable st.linkedEbpfs)) ∅
  fdInj : ∀ u v p q, st.linkedEbpfs.lookup u = some p → st.linkedEbpfs.lookup v = some q →
    p.object.fd = q.object.fd → u = v
  root : ∃ l ∈ chain.links, l.root = true ∧
    ∃ p, st.linkedEbpfs.lookup l.uuid = some p ∧ attachedFd st = some p.object.fd

/-- The stages of a successful installation. -/
theorem installChain_stages {chain : Chain} {config : Cli} {xsks : List Fd} {st : ChainState}
    (h : installChain K chain config xsks = .ok st) :
    ∃ iface ld tb progs, loadChain K chain = .ok ld ∧
      patchChain chain config.xdpCores xsks ld = .ok tb ∧
      attachRoot K iface ld.rootIdx tb.linkedEbpfs = .ok progs ∧
      st =
        { linkedEbpfs := progs
          progFds := ld.progFds
          instanceIds := tb.instanceIds
          linkStates := tb.linkStates
          rawMaps := ld.rawMaps } := by
  unfold installChain at h
  cases hi : K.ifNametoindex config.interface with
  | none => simp [hi] at h
  | some iface =>
    simp only [hi] at h
    obtain ⟨ld, hld, h⟩ := Except.bind_eq_ok.1 h
    obtain ⟨_, _, h⟩ := Except.bind_eq_ok.1 h
    obtain ⟨tb, htb, h⟩ := Except.bind_eq_ok.1 h
    obtain ⟨progs, hp, h⟩ := Except.bind_eq_ok.1 h
    exact ⟨iface, ld, tb, progs, hld, htb, hp, (Except.ok.inj h).symm⟩

/-- The object that the table loop leaves for a loaded link. -/
theorem TableInv.object {ld : LoadState} {numCores : UInt32} {xsks : List Fd} {links : List XdpLink}
    {tb : TableState} (hI : TableInv ld numCores xsks links.zipIdx tb)
    (hnd : (links.map XdpLink.uuid).Nodup) {i : Nat} {l : XdpLink} (hl : links[i]? = some l)
    {file : ObjectFile} {fd : Fd}
    (hp : ld.linkedEbpfs.lookup l.uuid = some (.unlinked (Object.load file fd))) :
    ∃ obj, tb.linkedEbpfs.lookup l.uuid = some (.unlinked obj) ∧
      SameObject (Object.load file fd) obj ∧ (l.state = .tail → obj = Object.load file fd) ∧
      ∀ els, l.state = .body els → Patched ld.progFds numCores xsks els i obj := by
  have hmem : (l, i) ∈ links.zipIdx := List.mem_zipIdx_iff_getElem?.2 hl
  cases hs : l.state with
  | tail =>
    refine ⟨_, ?_, SameObject.refl _, fun _ => rfl, fun els h => by cases h⟩
    rw [hI.untouched l.uuid, hp]
    intro d hd he
    have hd1 : d.1 ∈ links := List.mem_of_getElem? (List.mem_zipIdx_iff_getElem?.1 hd)
    have : d.1 = l := List.inj_on_of_nodup_map hnd hd1 (List.mem_of_getElem? hl) he
    rw [this, hs]
  | body els =>
    obtain ⟨obj, h1, h2, h3⟩ := hI.patched (l, i) hmem els _ hs hp
    refine ⟨obj, h1, h3, (fun h => by cases h), ?_⟩
    rintro els' ⟨⟩
    exact h2

/-- Whatever is loaded belongs to a link. -/
theorem LoadInv.exists_link {nfs : HashMap Uuid Function} {links : List XdpLink} {ld : LoadState}
    (hL : LoadInv K nfs links ld) {u : Uuid} {p : Prog} (hu : ld.linkedEbpfs.lookup u = some p) :
    ∃ (i : Nat) (l : XdpLink), links[i]? = some l ∧ l.uuid = u := by
  have hin : ∃ l ∈ links, l.uuid = u := by
    by_contra hcon
    push Not at hcon
    have hnone := (hL.fresh u hcon).prog
    rw [hu] at hnone
    cases hnone
  obtain ⟨l, hl, he⟩ := hin
  obtain ⟨i, hi⟩ := List.getElem?_of_mem hl
  exact ⟨i, l, hi, he⟩

section Attached

variable {nfs : HashMap Uuid Function} {links : List XdpLink} {ld : LoadState} {numCores : UInt32}
  {xsks : List Fd} {tb : TableState} {progs : HashMap Uuid Prog}

/-- The program of a loaded link, once the root is attached. -/
theorem TableInv.attached (hT : TableInv ld numCores xsks links.zipIdx tb)
    (hnd : (links.map XdpLink.uuid).Nodup)
    (hobj : ∀ u, (progs.lookup u).map Prog.object = (tb.linkedEbpfs.lookup u).map Prog.object)
    {i : Nat} {l : XdpLink} (hl : links[i]? = some l) {file : ObjectFile} {fd : Fd}
    (hp : ld.linkedEbpfs.lookup l.uuid = some (.unlinked (Object.load file fd))) :
    ∃ prog, progs.lookup l.uuid = some prog ∧ prog.object.fd = fd ∧
      SameObject (Object.load file fd) prog.object ∧
      (l.state = .tail → prog.object = Object.load file fd) ∧
      ∀ els, l.state = .body els → Patched ld.progFds numCores xsks els i prog.object := by
  obtain ⟨obj, ho, hS, hB, hP⟩ := hT.object hnd hl hp
  have hmap := hobj l.uuid
  rw [ho] at hmap
  obtain ⟨prog, hprog, hpo⟩ := Option.map_eq_some_iff.1 hmap
  obtain rfl : prog.object = obj := hpo
  exact ⟨prog, hprog, hS.fd, hS, hB, hP⟩

/-- Both loops and the attachment leave the same descriptor behind for a uuid. -/
theorem TableInv.attached_fd (hT : TableInv ld numCores xsks links.zipIdx tb)
    (hL : LoadInv K nfs links ld) (hnd : (links.map XdpLink.uuid).Nodup)
    (hobj : ∀ u, (progs.lookup u).map Prog.object = (tb.linkedEbpfs.lookup u).map Prog.object)
    (u : Uuid) : (progs.lookup u).map (fun p => p.object.fd) =
      (ld.linkedEbpfs.lookup u).map fun p => p.object.fd := by
  cases hu : ld.linkedEbpfs.lookup u with
  | none =>
    have hmap := hobj u
    rw [hT.missing u hu, Option.map_none, Option.map_eq_none_iff] at hmap
    rw [hmap, Option.map_none]
  | some p =>
    obtain ⟨i, l, hl, rfl⟩ := hL.exists_link hu
    obtain ⟨file, fd, rfl, _⟩ := hL.unlinked _ p hu
    obtain ⟨prog, hprog, hfd, _⟩ := hT.attached hnd hobj hl hu
    rw [hprog]
    exact congrArg some hfd

end Attached

/-- **What `install_chain` installs.** -/
theorem installed {chain : Chain} {config : Cli} {xsks : List Fd} {st : ChainState}
    (hnd : (chain.links.map XdpLink.uuid).Nodup) (h : installChain K chain config xsks = .ok st) :
    Installed K chain config xsks st := by
  obtain ⟨iface, ld, tb, progs, hld, htb, hpr, rfl⟩ := installChain_stages h
  have hL := loadChain_inv hnd hld
  have hT := patchChain_inv hnd hL htb
  obtain ⟨root, robj, hroot, hrp, rfl⟩ := attachRoot_cases hpr
  have hobj := fun u => lookup_attached hrp u iface
  have hfds := hT.attached_fd hL hnd hobj
  have hdom : ∀ u, ((AList.insert root (.linked robj iface) tb.linkedEbpfs).lookup u).isSome
      = (ld.linkedEbpfs.lookup u).isSome := by
    intro u
    simpa using congrArg Option.isSome (hfds u)
  refine
    { nf := fun l hl => ?_
      states := fun l hl => ?_
      skipped := fun l hl f hf he => ?_
      loaded := fun i l f e hi hf he => ?_
      ids := ?_
      fdInj := fun u v p q hp hq hfd => ?_
      root := ?_ }
  · obtain ⟨f, hf, _⟩ := hL.loaded l hl
    exact ⟨f, hf⟩
  · obtain ⟨i, hi⟩ := List.getElem?_of_mem hl
    exact hT.states (l, i) (List.mem_zipIdx_iff_getElem?.2 hi)
  · obtain ⟨f', hf', h1, _⟩ := hL.loaded l hl
    obtain rfl : f = f' := Option.some.inj (hf.symm.trans hf')
    refine ⟨?_, (h1 he).raw⟩
    have := hdom l.uuid
    rw [(h1 he).prog] at this
    simpa using this
  · obtain ⟨f', hf', _, h2⟩ := hL.loaded l (List.mem_of_getElem? hi)
    obtain rfl : f = f' := Option.some.inj (hf.symm.trans hf')
    obtain ⟨file, fd, maps, hA⟩ := h2 e he
    obtain ⟨prog, hprog, rfl, hS, hB, hP⟩ := hT.attached hnd hobj hi hA.prog
    exact ⟨file, prog, maps, hA.opened, hprog, hS, hA.progFd, hA.found, hA.raw, hB, hP⟩
  · have hfun : hasTable ld.linkedEbpfs =
        hasTable (AList.insert root (.linked robj iface) tb.linkedEbpfs) := by
      funext e
      unfold hasTable
      rw [hdom]
    rw [← hfun]
    exact hT.ids
  · have hu := hfds u
    have hv := hfds v
    rw [hp] at hu
    rw [hq] at hv
    obtain ⟨p', hp', ep⟩ := Option.map_eq_some_iff.1 hu.symm
    obtain ⟨q', hq', eq⟩ := Option.map_eq_some_iff.1 hv.symm
    exact hL.fdInj u v p' q' hp' hq' (ep.trans (hfd.trans eq.symm))
  · rw [hL.root] at hroot
    obtain ⟨l, hl, rfl⟩ := Option.map_eq_some_iff.1 hroot
    obtain ⟨h1, h2⟩ := List.mem_filter.1 (List.mem_of_getLast? hl)
    refine ⟨l, h1, h2, .linked robj iface, by simp, ?_⟩
    simp [attachedFd, Prog.object]

end Galette.Pulley
