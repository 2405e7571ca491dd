import Galette.Pulley.Proofs.SimulationProofs

/-!
# Proofs: installations that succeed

When libbpf opens and loads every object file, and every object has the maps and the slots that the
links ask of it, both loops of `install_chain` run to their end. What is left is the attachment of
the root.
-/

namespace Galette.Pulley

open Galette.Lib Galette.Protocol

/-! ## Maps of an object -/

theorem exists_find_zipIdx {names : List String} {name : String} (h : name ∈ names) (n : Nat) :
    ∃ fd, ((names.zipIdx n).find? fun m => m.1 = name).map Prod.snd = some fd := by
  cases hf : (names.zipIdx n).find? fun m => m.1 = name with
  | some m => exact ⟨m.2, rfl⟩
  | none =>
    rw [← List.zipIdx_map_fst n names] at h
    obtain ⟨m, hm, rfl⟩ := List.mem_map.1 h
    exact absurd (by simp) (List.find?_eq_none.1 hf m hm)

/-- A loaded object has the maps of its file. -/
theorem load_map {file : ObjectFile} {name : String} (h : name ∈ file.mapNames) (fd : Fd) :
    ∃ m, (Object.load file fd).map name = some m :=
  exists_find_zipIdx h (fd + 1)

theorem SameObject.hasMap {o o' : Object} (h : SameObject o o') (name : String) :
    o'.hasMap name = o.hasMap name := by
  simp [Object.hasMap, Object.map, h.maps]

theorem load_hasMap {file : ObjectFile} {name : String} (h : name ∈ file.mapNames) (fd : Fd) :
    (Object.load file fd).hasMap name = true := by
  obtain ⟨m, hm⟩ := load_map h fd
  simp [Object.hasMap, hm]

theorem myMaps_total {obj : Object} (uuid : Uuid) {names : List String}
    (h : ∀ name ∈ names, ∃ fd, obj.map (toAsciiUppercase name) = some fd) :
    ∃ maps, myMaps obj uuid names = .ok maps := by
  induction names with
  | nil => exact ⟨[], rfl⟩
  | cons name names ih =>
    obtain ⟨fd, hfd⟩ := h name (by simp)
    obtain ⟨maps, hmaps⟩ := ih fun n hn => h n (List.mem_cons_of_mem _ hn)
    exact ⟨⟨fd⟩ :: maps, by simp [myMaps, hfd, hmaps, Except.bind]⟩

/-! ## Tables of an object -/

theorem putXsk_total (uuid : Uuid) {xsks : List Fd} (h : xsks.length ≤ xskSlots) (o : Object) :
    ∃ o', foldE (putXsk uuid) o xsks.zipIdx = .ok o' := by
  have key := foldE_total (f := putXsk uuid) (l := xsks.zipIdx) (b := o) (fun _ _ => True) trivial ?_
  · obtain ⟨o', ho', _⟩ := key
    exact ⟨o', ho'⟩
  · intro done x rest b hl _
    have hpos := zipIdx_pos hl
    have hlt : x.2 < xskSlots := by
      have := (List.getElem?_eq_some_iff.1 hpos.2).1
      omega
    have hcast : (UInt32.ofNat x.2).toNat = x.2 := ofNat_toNat_of_le (Nat.le_of_lt hlt) (by decide)
    exact ⟨_, by rw [putXsk, hcast, if_pos hlt], trivial⟩

/-- An action is stored if the object has the tables and a slot for it, and the target of a tail
call is loaded. -/
theorem putAction_total {progFds : HashMap Uuid Fd} (uuid : Uuid) {o : Object} {a : LinkAction}
    {i : Nat} (hi : (UInt32.ofNat i).toNat = i) (hacts : o.hasMap "acts_map" = true)
    (hprogs : o.hasMap "progs_map" = true) (hslot : i < o.file.slots)
    (hcall : ∀ id, a = .tailcall id → ∃ fd, progFds.lookup id = some fd) :
    ∃ o', putAction progFds uuid o (a, i) = .ok o' ∧ SameObject o o' := by
  have hact : ∃ o₁, putAct uuid o a i = .ok o₁ ∧ SameObject o o₁ := by
    refine ⟨{ o with actsMap := Function.update o.actsMap i a.toKind }, ?_, ⟨rfl, rfl, rfl⟩⟩
    simp [putAct, hi, hslot, hacts]
  obtain ⟨o₁, h₁, hS₁⟩ := hact
  cases a with
  | tailcall id =>
    obtain ⟨fd, hfd⟩ := hcall id rfl
    have hmap : o₁.hasMap "progs_map" = true := by rw [hS₁.hasMap]; exact hprogs
    have hslot₁ : i < o₁.file.slots := by rw [hS₁.file]; exact hslot
    refine ⟨{ o₁ with progsMap := Function.update o₁.progsMap i (some fd) }, ?_,
      hS₁.trans ⟨rfl, rfl, rfl⟩⟩
    simp [putAction, h₁, Except.bind, putProg, hfd, hmap, hi, hslot₁]
  | _ => exact ⟨o₁, by simp [putAction, h₁, Except.bind, putProg], hS₁⟩

theorem mapNames_wrapperChain {file : ObjectFile} {slots : UInt32}
    (h : file.template = .wrapperChain slots) :
    file.mapNames = "acts_map" :: "progs_map" :: "my_state_map" :: "xsk_map" :: file.nfMaps := by
  simp [ObjectFile.mapNames, h]

/-- All tables of a freshly loaded `link` object can be filled. -/
theorem patchObject_total {progFds : HashMap Uuid Fd} {xsks : List Fd} {els : List LinkAction}
    {file : ObjectFile} {slots : UInt32} (numCores : UInt32) (uuid : Uuid) (id : Nat) (fd : Fd)
    (hfile : file.template = .wrapperChain slots) (hxsks : xsks.length ≤ xskSlots)
    (hfits : els.length ≤ slots.toNat)
    (hcall : ∀ id, .tailcall id ∈ els → ∃ fd, progFds.lookup id = some fd) :
    ∃ o, patchObject progFds numCores xsks uuid els id (Object.load file fd) = .ok o := by
  have hmap : ∀ name ∈ ["acts_map", "progs_map", "my_state_map", "xsk_map"],
      (Object.load file fd).hasMap name = true := by
    intro name hn
    apply load_hasMap
    rw [mapNames_wrapperChain hfile]
    simp only [List.mem_cons, List.not_mem_nil, or_false] at hn ⊢
    tauto
  unfold patchObject
  rw [if_neg (by simp [hmap]), if_neg (by simp [hmap])]
  obtain ⟨o₁, h₁⟩ := putXsk_total uuid hxsks { Object.load file fd with
    myStateMap := { progId := UInt32.ofNat id, numCores := numCores } }
  obtain ⟨_, _, hS, _⟩ := putXsk_loop h₁
  rw [h₁]
  have hslots : o₁.file.slots = slots.toNat := by
    rw [hS.file]
    simp [ObjectFile.slots, Object.load, hfile]
  have key := foldE_total (f := putAction progFds uuid) (l := els.zipIdx) (b := o₁)
    (fun _ b => SameObject o₁ b) (SameObject.refl _) ?_
  · obtain ⟨o₂, h₂, _⟩ := key
    exact ⟨o₂, h₂⟩
  · intro done x rest b hl hb
    obtain ⟨a, i⟩ := x
    obtain ⟨hi, ha⟩ := zipIdx_pos hl
    obtain rfl : i = done.length := hi
    have hlt := (List.getElem?_eq_some_iff.1 ha).1
    have hslot : done.length < b.file.slots := by rw [hb.file, hslots]; omega
    have hcast : (UInt32.ofNat done.length).toNat = done.length :=
      ofNat_toNat_of_le (Nat.le_of_lt hslot) (slots_lt _)
    have hhas : ∀ name ∈ ["acts_map", "progs_map", "my_state_map", "xsk_map"],
        b.hasMap name = true := by
      intro name hn
      rw [hb.hasMap, hS.hasMap]
      exact hmap name hn
    obtain ⟨b', h1, h2⟩ := putAction_total uuid hcast (hhas _ (by simp)) (hhas _ (by simp))
      hslot fun id hid => hcall id (hid ▸ List.mem_of_getElem? ha)
    exact ⟨b', h1, hb.trans h2⟩

/-! ## The loops -/

variable {K : Libbpf} {chain : Chain} {config : Cli} {xsks : List Fd}

theorem loadLink_total (hacc : Accepts K chain xsks) {l : XdpLink} (hl : l ∈ chain.links)
    {f : Function} (hf : chain.nfs.lookup l.uuid = some f) (st : LoadState) :
    ∃ st', loadLink K chain.nfs st l = .ok st' := by
  unfold loadLink
  simp only [hf]
  cases he : f.ebpf with
  | none => exact ⟨_, rfl⟩
  | some e =>
    obtain ⟨file, ho, hload, _, hmaps, _⟩ := hacc.objects l hl f e hf he
    have hfound : ∀ name ∈ l.mapNames, ∃ fd,
        (Object.load file st.nextFd).map (toAsciiUppercase name) = some fd :=
      fun name hn => load_map (hmaps name hn) st.nextFd
    obtain ⟨maps, hm⟩ := myMaps_total l.uuid hfound
    simp [ho, hload, hm, Except.bind]

/-- The load loop runs to its end. -/
theorem loadChain_total (hC : Linked chain) (hacc : Accepts K chain xsks) :
    ∃ ld, loadChain K chain = .ok ld ∧ LoadInv K chain.nfs chain.links ld := by
  refine foldE_total (LoadInv K chain.nfs) LoadInv.empty ?_
  intro done l rest st hl hI
  have hmem : l ∈ chain.links := by rw [hl]; simp
  obtain ⟨f, _, hf, _⟩ := hC.dylibs l hmem
  obtain ⟨st', hst'⟩ := loadLink_total hacc hmem hf st
  exact ⟨st', hst', loadLink_inv hC.nodup hl hI hst'⟩

/-- A loaded program belongs to a link with a payload. -/
theorem LoadInv.loadedAs {ld : LoadState} (h : LoadInv K chain.nfs chain.links ld) {u : Uuid}
    {p : Prog}
    (hp : ld.linkedEbpfs.lookup u = some p) :
    ∃ l ∈ chain.links, l.uuid = u ∧ ∃ f e file fd maps, chain.nfs.lookup u = some f ∧
      f.ebpf = some e ∧ LoadedAs K ld l e file fd maps ∧ p = .unlinked (Object.load file fd) := by
  have hin : ∃ l ∈ chain.links, l.uuid = u := by
    by_contra hcon
    push Not at hcon
    rw [(h.fresh u hcon).prog] at hp
    cases hp
  obtain ⟨l, hl, rfl⟩ := hin
  obtain ⟨f, hf, h1, h2⟩ := h.loaded l hl
  cases he : f.ebpf with
  | none =>
    rw [(h1 he).prog] at hp
    cases hp
  | some e =>
    obtain ⟨file, fd, maps, hA⟩ := h2 e he
    exact ⟨l, hl, rfl, f, e, file, fd, maps, hf, he, hA, Option.some.inj (hp.symm.trans hA.prog)⟩

theorem seedMaps_total {ld : LoadState} (hacc : Accepts K chain xsks)
    (hI : LoadInv K chain.nfs chain.links ld) : seedMaps K ld.linkedEbpfs = .ok () := by
  unfold seedMaps
  rw [if_pos]
  rw [List.all_eq_true]
  rintro ⟨u, p⟩ hmem
  obtain ⟨l, hl, rfl, f, e, file, fd, maps, hf, he, hA, rfl⟩ :=
    hI.loadedAs (AList.mem_lookup_iff.2 hmem)
  obtain ⟨file', ho, _, hseed, _⟩ := hacc.objects l hl f e hf he
  obtain rfl := Option.some.inj (ho.symm.trans hA.opened)
  exact hseed

/-- A uuid with a payload has a descriptor. -/
theorem LoadInv.progFd {ld : LoadState} (hI : LoadInv K chain.nfs chain.links ld) {l : XdpLink}
    (hl : l ∈ chain.links) (he : HasEbpf chain l.uuid) :
    ∃ fd, ld.progFds.lookup l.uuid = some fd := by
  obtain ⟨f, e, hf, he⟩ := he
  obtain ⟨f', hf', _, h2⟩ := hI.loaded l hl
  obtain rfl := Option.some.inj (hf.symm.trans hf')
  obtain ⟨file, fd, maps, hA⟩ := h2 e he
  exact ⟨fd, hA.progFd⟩

/-- The target of a tail call has a descriptor. -/
theorem LoadInv.progFd_of_call {ld : LoadState} (hL : LoadInv K chain.nfs chain.links ld)
    (hC : Linked chain) {l : XdpLink} (hl : l ∈ chain.links) {els : List LinkAction}
    (hs : l.state = .body els) {u : Uuid} (hu : .tailcall u ∈ els) :
    ∃ fd, ld.progFds.lookup u = some fd := by
  obtain ⟨l', hl', rfl⟩ := hC.targets l hl els hs _ hu u rfl
  exact hL.progFd hl' (hC.calls l hl els hs _ hu)

theorem patchLink_total {ld : LoadState} {numCores : UInt32} {done : List (XdpLink × Nat)}
    {tb : TableState} {e : XdpLink × Nat} (hC : Linked chain) (hacc : Accepts K chain xsks)
    (hL : LoadInv K chain.nfs chain.links ld) (hmem : e.1 ∈ chain.links)
    (hnew : ∀ d ∈ done, d.1.uuid ≠ e.1.uuid) (hI : TableInv ld numCores xsks done tb) :
    ∃ tb', patchLink ld.progFds numCores xsks tb e = .ok tb' := by
  unfold patchLink
  cases hs : e.1.state with
  | tail => exact ⟨_, rfl⟩
  | body els =>
    have hsame : tb.linkedEbpfs.lookup e.1.uuid = ld.linkedEbpfs.lookup e.1.uuid :=
      hI.untouched _ fun d hd he => absurd he (hnew d hd)
    simp only [hsame]
    cases hp : ld.linkedEbpfs.lookup e.1.uuid with
    | none => exact ⟨_, rfl⟩
    | some p =>
      obtain ⟨l, hl, hu, f, elfs, file, fd, maps, hf, he, hA, rfl⟩ := hL.loadedAs hp
      obtain rfl : l = e.1 := List.inj_on_of_nodup_map hC.nodup hl hmem hu
      obtain ⟨file', ho, _, _, _, hslots⟩ := hacc.objects e.1 hmem f elfs hf he
      obtain rfl := Option.some.inj (ho.symm.trans hA.opened)
      obtain ⟨slots, htmpl, hfits⟩ := hslots els hs
      obtain ⟨o, ho⟩ := patchObject_total numCores e.1.uuid e.2 fd htmpl hacc.sockets hfits
        fun u hcall => hL.progFd_of_call hC hmem hs hcall
      simp only [Prog.object, ho, Except.bind]
      exact ⟨_, rfl⟩

/-- The table loop runs to its end. -/
theorem patchChain_total {ld : LoadState} (numCores : UInt32) (hC : Linked chain)
    (hacc : Accepts K chain xsks) (hL : LoadInv K chain.nfs chain.links ld) :
    ∃ tb, patchChain chain numCores xsks ld = .ok tb ∧
      TableInv ld numCores xsks chain.links.zipIdx tb := by
  refine foldE_total (TableInv ld numCores xsks) (TableInv.empty ld numCores xsks) ?_
  intro done e rest tb hl hI
  have hmap : chain.links = done.map Prod.fst ++ e.1 :: rest.map Prod.fst := by
    have := congrArg (List.map Prod.fst) hl
    simpa using this
  have hmem : e.1 ∈ chain.links := by rw [hmap]; simp
  have hnew : ∀ d ∈ done, d.1.uuid ≠ e.1.uuid := fun d hd =>
    uuid_ne_of_nodup hC.nodup hmap d.1 (List.mem_map.2 ⟨d, hd, rfl⟩)
  obtain ⟨tb', htb'⟩ := patchLink_total hC hacc hL hmem hnew hI
  exact ⟨tb', htb', patchLink_inv hL.unlinked hnew hI htb'⟩

/-! ## The attachment -/

/-- Both loops run to their end. -/
theorem loops_total (hC : Linked chain) (hacc : Accepts K chain xsks) (config : Cli) :
    ∃ ld tb, LoadInv K chain.nfs chain.links ld ∧
      TableInv ld config.xdpCores xsks chain.links.zipIdx tb ∧
      ∀ iface, K.ifNametoindex config.interface = some iface →
        installChain K chain config xsks =
          (attachRoot K iface ld.rootIdx tb.linkedEbpfs).bind fun progs => .ok
            { linkedEbpfs := progs
              progFds := ld.progFds
              instanceIds := tb.instanceIds
              linkStates := tb.linkStates
              rawMaps := ld.rawMaps } := by
  obtain ⟨ld, hld, hL⟩ := loadChain_total hC hacc
  obtain ⟨tb, htb, hT⟩ := patchChain_total config.xdpCores hC hacc hL
  refine ⟨ld, tb, hL, hT, fun iface hi => ?_⟩
  unfold installChain
  simp only [hi, hld, htb, seedMaps_total hacc hL, Except.bind]

/-- With a single root its uuid is the one that was noted. -/
theorem LoadInv.rootIdx_eq {ld : LoadState} (hL : LoadInv K chain.nfs chain.links ld)
    (hC : Linked chain) {root : XdpLink} (hroot : root ∈ chain.links) (hr : root.root = true) :
    ld.rootIdx = some root.uuid := by
  rw [hL.root]
  have hne : chain.links.filter XdpLink.root ≠ [] := by
    intro hnil
    have : root ∈ chain.links.filter XdpLink.root := List.mem_filter.2 ⟨hroot, hr⟩
    rw [hnil] at this
    cases this
  rw [List.getLast?_eq_getLast_of_ne_nil hne]
  obtain ⟨h1, h2⟩ := List.mem_filter.1 (List.getLast_mem hne)
  rw [hC.root.unique ⟨h1, h2⟩ ⟨hroot, hr⟩]
  rfl

/-- With a payload for the root, only its attachment to the interface is left to fail. -/
theorem installChain_attaches (hC : Linked chain) (hacc : Accepts K chain xsks) {iface : Nat}
    (hi : K.ifNametoindex config.interface = some iface) {root : XdpLink}
    (hroot : root ∈ chain.links) (hr : root.root = true) (heb : HasEbpf chain root.uuid) :
    ∃ st, installChain K chain config xsks =
      if K.attachXdp = true then .ok st else .error unwrapPanic := by
  obtain ⟨ld, tb, hL, hT, hinst⟩ := loops_total hC hacc config
  obtain ⟨f, e, hf, he⟩ := heb
  obtain ⟨f', hf', _, h2⟩ := hL.loaded root hroot
  obtain rfl := Option.some.inj (hf.symm.trans hf')
  obtain ⟨file, fd, maps, hA⟩ := h2 e he
  obtain ⟨i, hpos⟩ := List.getElem?_of_mem hroot
  obtain ⟨obj, ho, _⟩ := hT.object hC.nodup hpos hA.prog
  rw [hinst iface hi, hL.rootIdx_eq hC hroot hr]
  refine ⟨{ linkedEbpfs := AList.insert root.uuid (.linked obj iface) tb.linkedEbpfs
            progFds := ld.progFds
            instanceIds := tb.instanceIds
            linkStates := tb.linkStates
            rawMaps := ld.rawMaps }, ?_⟩
  by_cases hatt : K.attachXdp = true <;> simp [attachRoot, ho, hatt, Except.bind]

/-- Without a payload for the root the installation runs into `unreachable!()`. -/
theorem installChain_unreachable (hC : Linked chain) (hacc : Accepts K chain xsks) {iface : Nat}
    (hi : K.ifNametoindex config.interface = some iface) {root : XdpLink}
    (hroot : root ∈ chain.links) (hr : root.root = true) (heb : ¬ HasEbpf chain root.uuid) :
    installChain K chain config xsks =
      .error (.panic "internal error: entered unreachable code") := by
  obtain ⟨ld, tb, hL, hT, hinst⟩ := loops_total hC hacc config
  obtain ⟨f, hf, h1, _⟩ := hL.loaded root hroot
  have he : f.ebpf = none := by
    cases he : f.ebpf with
    | none => rfl
    | some e => exact absurd ⟨f, e, hf, he⟩ heb
  have hnone := hT.missing root.uuid (h1 he).prog
  rw [hinst iface hi, hL.rootIdx_eq hC hroot hr]
  simp [attachRoot, hnone, Except.bind]

/-- A well-formed chain can be installed. -/
theorem WellFormed.installs (hwf : WellFormed chain) (hacc : Accepts K chain xsks) {iface : Nat}
    (hi : K.ifNametoindex config.interface = some iface) (hatt : K.attachXdp = true) :
    ∃ st, installChain K chain config xsks = .ok st := by
  obtain ⟨root, ⟨hroot, hr⟩, _⟩ := hwf.root
  obtain ⟨st, hst⟩ :=
    installChain_attaches hwf.toLinked hacc hi hroot hr (hwf.rootEbpf root hroot hr)
  exact ⟨st, by rw [hst, if_pos hatt]⟩

/-- All libraries are loaded if every one of them can be opened. -/
theorem loadDylibNfs_total {dlopen : Bytes → Option NfUserApi} {nfs : HashMap Uuid Function}
    (h : ∀ u f b, nfs.lookup u = some f → f.elf = some b → ∃ api, dlopen b = some api) :
    ∃ dylibs, loadDylibNfs dlopen nfs = .ok dylibs := by
  have key := foldE_total (f := loadDylib dlopen) (l := nfs.entries) (b := ∅) (fun _ _ => True)
    trivial ?_
  · obtain ⟨dylibs, hd, _⟩ := key
    exact ⟨dylibs, hd⟩
  · intro done e rest m hl _
    unfold loadDylib
    cases he : e.2.elf with
    | none => exact ⟨m, rfl, trivial⟩
    | some b =>
      have hmem : e ∈ nfs.entries := by rw [hl]; simp
      obtain ⟨api, hapi⟩ := h e.1 e.2 b (AList.mem_lookup_iff.2 hmem) he
      exact ⟨AList.insert e.1 api m, by simp [hapi], trivial⟩

end Galette.Pulley
