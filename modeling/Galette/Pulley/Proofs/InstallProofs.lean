import Galette.Pulley.Install

/-!
# Proofs: what an installed chain looks like

Both loops of `install_chain` are followed by an invariant on the links processed so far. Together
they describe the result by `Installed`: which objects are loaded, what their tables hold, and what
the maps of the runtime find under a uuid or a program id.
-/

namespace Galette.Pulley

open Galette.Lib Galette.Protocol

/-! ## Filling the tables of one object -/

theorem ofNat_toNat_of_le {i n : Nat} (hi : i ≤ n) (hn : n < 2 ^ 32) :
    (UInt32.ofNat i).toNat = i := by
  rw [UInt32.toNat_ofNat']
  exact Nat.mod_eq_of_lt (by omega)

/-- The parts of an object that filling its tables leaves alone. -/
structure SameObject (o o' : Object) : Prop where
  file : o'.file = o.file
  fd : o'.fd = o.fd
  maps : o'.maps = o.maps

theorem SameObject.refl (o : Object) : SameObject o o := ⟨rfl, rfl, rfl⟩

theorem SameObject.trans {o₁ o₂ o₃ : Object} (h : SameObject o₁ o₂) (h' : SameObject o₂ o₃) :
    SameObject o₁ o₃ :=
  ⟨h'.file.trans h.file, h'.fd.trans h.fd, h'.maps.trans h.maps⟩

/-- The sockets end up in the slots of their positions; there are at most eight. -/
theorem putXsk_loop {uuid : Uuid} {xsks : List Fd} {o o' : Object}
    (h : foldE (putXsk uuid) o xsks.zipIdx = .ok o') :
    xsks.length ≤ xskSlots ∧ (∀ i, (hi : i < xsks.length) → o'.xskMap i = some xsks[i]) ∧
      SameObject o o' ∧ o'.actsMap = o.actsMap ∧ o'.progsMap = o.progsMap ∧
      o'.myStateMap = o.myStateMap := by
  have key := foldE_inv (fun done b => done.length ≤ xskSlots ∧
    (∀ i x, done[i]? = some x → b.xskMap i = some x.1) ∧ SameObject o b ∧
    b.actsMap = o.actsMap ∧ b.progsMap = o.progsMap ∧ b.myStateMap = o.myStateMap) h
    ⟨by simp, by simp, SameObject.refl o, rfl, rfl, rfl⟩ ?_
  · obtain ⟨h1, h2, h3⟩ := key
    refine ⟨by simpa using h1, fun i hi => ?_, h3⟩
    have := h2 i (xsks[i], i) (by simp [hi])
    simpa using this
  · intro done x rest b b' hl hP hb
    obtain ⟨h1, h2, h3, h4, h5, h6⟩ := hP
    have hx := (zipIdx_pos hl).1
    have hkey : (UInt32.ofNat x.2).toNat = done.length := by
      rw [hx]
      exact ofNat_toNat_of_le h1 (by decide)
    unfold putXsk at hb
    rw [hkey] at hb
    split at hb
    · rename_i hlt
      obtain rfl := Except.ok.inj hb
      refine ⟨by simp; omega, ?_, ⟨h3.file, h3.fd, h3.maps⟩, h4, h5, h6⟩
      intro i y hy
      rcases getElem?_snoc hy with ⟨hi, hy⟩ | ⟨rfl, rfl⟩
      · simp [Function.update_of_ne (show i ≠ done.length by omega), h2 i y hy]
      · simp
    · cases hb

/-- What `putAction` stores for an action at position `i`. -/
theorem putAction_ok {progFds : HashMap Uuid Fd} {uuid : Uuid} {o o' : Object} {a : LinkAction}
    {i : Nat} (hi : (UInt32.ofNat i).toNat = i) (h : putAction progFds uuid o (a, i) = .ok o') :
    i < o.file.slots ∧ SameObject o o' ∧ o'.xskMap = o.xskMap ∧ o'.myStateMap = o.myStateMap ∧
      o'.actsMap = Function.update o.actsMap i a.toKind ∧
        (∀ j, j ≠ i → o'.progsMap j = o.progsMap j) ∧
      (∀ id, a = .tailcall id → ∃ fd, progFds.lookup id = some fd ∧ o'.progsMap i = some fd) := by
  unfold putAction at h
  obtain ⟨o₁, h₁, h₂⟩ := Except.bind_eq_ok.1 h
  simp only [putAct, hi] at h₁
  split at h₁
  · cases h₁
  · split at h₁
    · rename_i hlt
      obtain rfl := Except.ok.inj h₁
      cases a with
      | tailcall id =>
        simp only [putProg, hi] at h₂
        cases hfd : progFds.lookup id with
        | none => simp [hfd] at h₂
        | some fd =>
          simp only [hfd] at h₂
          split at h₂
          · cases h₂
          · obtain rfl := Except.ok.inj h₂
            refine ⟨hlt, ⟨rfl, rfl, rfl⟩, rfl, rfl, rfl, ?_, ?_⟩
            · intro j hj
              simp [Function.update_of_ne hj]
            · rintro id' ⟨⟩
              exact ⟨fd, hfd, by simp⟩
      | _ =>
        obtain rfl := Except.ok.inj h₂
        exact ⟨hlt, ⟨rfl, rfl, rfl⟩, rfl, rfl, rfl, fun _ _ => rfl, fun id hid => by cases hid⟩
    · cases h₁

/-- What the tables of an object hold once the actions `els` are stored. -/
structure Tables (progFds : HashMap Uuid Fd) (els : List LinkAction) (o : Object) : Prop where
  fits : els.length ≤ o.file.slots
  acts : ∀ i a, els[i]? = some a → o.actsMap i = a.toKind
  zero : ∀ i, els.length ≤ i → o.actsMap i = 0
  progs : ∀ i id, els[i]? = some (.tailcall id) →
    ∃ fd, progFds.lookup id = some fd ∧ o.progsMap i = some fd

/-- The actions end up in the slots of their positions, and all other slots stay zero. The table has
fewer than `2 ^ 32` slots, so a position that fits is not changed by the cast to 32 bits. -/
theorem putAction_loop {progFds : HashMap Uuid Fd} {uuid : Uuid} {els : List LinkAction}
    {o o' : Object} (hslots : o.file.slots < 2 ^ 32) (hzero : ∀ i, o.actsMap i = 0)
    (h : foldE (putAction progFds uuid) o els.zipIdx = .ok o') :
    Tables progFds els o' ∧ SameObject o o' ∧ o'.xskMap = o.xskMap ∧
      o'.myStateMap = o.myStateMap := by
  have key := foldE_inv (fun done b => Tables progFds (done.map Prod.fst) b ∧ SameObject o b ∧
    b.xskMap = o.xskMap ∧ b.myStateMap = o.myStateMap) h
    ⟨⟨by simp, by simp, fun i _ => hzero i, by simp⟩, SameObject.refl o, rfl, rfl⟩ ?_
  · obtain ⟨h1, h2⟩ := key
    have hmap : els.zipIdx.map Prod.fst = els := by simp
    rw [hmap] at h1
    exact ⟨h1, h2⟩
  · intro done x rest b b' hl hP hb
    obtain ⟨hT, hS, hX, hM⟩ := hP
    obtain ⟨a, i⟩ := x
    obtain rfl : i = done.length := (zipIdx_pos hl).1
    have hlen : done.length ≤ b.file.slots := by simpa using hT.fits
    have hcast : (UInt32.ofNat done.length).toNat = done.length :=
      ofNat_toNat_of_le hlen (by rw [hS.file]; exact hslots)
    obtain ⟨hlt, hS', hX', hM', hA, hO, hPr⟩ := putAction_ok hcast hb
    refine ⟨⟨?_, ?_, ?_, ?_⟩, hS.trans hS', hX'.trans hX, hM'.trans hM⟩
    · rw [hS'.file]
      simp
      omega
    · intro j c hj
      rw [List.map_append, List.map_singleton] at hj
      rw [hA]
      rcases getElem?_snoc hj with ⟨hlt', hj⟩ | ⟨rfl, rfl⟩
      · rw [Function.update_of_ne (by simp at hlt'; omega)]
        exact hT.acts j c hj
      · simp
    · intro j hj
      simp at hj
      rw [hA, Function.update_of_ne (by omega)]
      exact hT.zero j (by simp; omega)
    · intro j id hj
      rw [List.map_append, List.map_singleton] at hj
      rcases getElem?_snoc hj with ⟨hlt', hj⟩ | ⟨rfl, hc⟩
      · obtain ⟨fd, hfd, hp⟩ := hT.progs j id hj
        exact ⟨fd, hfd, by rw [hO j (by simp at hlt'; omega)]; exact hp⟩
      · obtain ⟨fd, hfd, hp⟩ := hPr id hc.symm
        exact ⟨fd, hfd, by simpa using hp⟩

/-- The tables of the program of a `Body` at position `id`. -/
structure Patched (progFds : HashMap Uuid Fd) (numCores : UInt32) (xsks : List Fd)
    (els : List LinkAction) (id : Nat) (o : Object) : Prop extends Tables progFds els o where
  state : o.myStateMap = { progId := UInt32.ofNat id, numCores := numCores }
  sockets : xsks.length ≤ xskSlots
  xsk : ∀ i, (hi : i < xsks.length) → o.xskMap i = some xsks[i]

theorem slots_lt (file : ObjectFile) : file.slots < 2 ^ 32 := by
  unfold ObjectFile.slots
  split
  · decide
  · rename_i slots _
    exact slots.toNat_lt

theorem patchObject_ok {progFds : HashMap Uuid Fd} {numCores : UInt32} {xsks : List Fd}
    {uuid : Uuid}
    {els : List LinkAction} {id : Nat} {o o' : Object} (hzero : ∀ i, o.actsMap i = 0)
    (h : patchObject progFds numCores xsks uuid els id o = .ok o') :
    Patched progFds numCores xsks els id o' ∧ SameObject o o' := by
  unfold patchObject at h
  split at h
  · cases h
  · split at h
    · cases h
    · obtain ⟨o₁, h₁, h₂⟩ := Except.bind_eq_ok.1 h
      obtain ⟨hle, hx, hS, hA, _, hM⟩ := putXsk_loop h₁
      have hzero' : ∀ i, o₁.actsMap i = 0 := fun i => by rw [hA]; exact hzero i
      obtain ⟨hT, hS', hX', hM'⟩ := putAction_loop (slots_lt _) hzero' h₂
      refine ⟨⟨hT, by rw [hM', hM], hle, fun i hi => by rw [hX', hx i hi]⟩, ?_⟩
      exact ⟨hS'.file.trans hS.file, hS'.fd.trans hS.fd, hS'.maps.trans hS.maps⟩

/-! ## The load loop -/

variable {K : Libbpf} {nfs : HashMap Uuid Function}

/-- Nothing is stored under a uuid. -/
structure NotLoaded (st : LoadState) (u : Uuid) : Prop where
  prog : st.linkedEbpfs.lookup u = none
  progFd : st.progFds.lookup u = none
  raw : st.rawMaps.lookup u = none

/-- What is stored for a link with an eBPF payload. -/
structure LoadedAs (K : Libbpf) (st : LoadState) (link : XdpLink) (elfs : EbpfFunction)
    (file : ObjectFile) (fd : Fd) (maps : List RawMap) : Prop where
  opened : K.openMemory (myProg link.state elfs) = some file
  prog : st.linkedEbpfs.lookup link.uuid = some (.unlinked (Object.load file fd))
  progFd : st.progFds.lookup link.uuid = some fd
  found : myMaps (Object.load file fd) link.uuid link.mapNames = .ok maps
  raw : st.rawMaps.lookup link.uuid = some maps

/-- The state of the load loop once the links in `done` are processed. -/
structure LoadInv (K : Libbpf) (nfs : HashMap Uuid Function) (done : List XdpLink)
    (st : LoadState) :
    Prop where
  loaded : ∀ l ∈ done, ∃ f, nfs.lookup l.uuid = some f ∧ (f.ebpf = none → NotLoaded st l.uuid) ∧
    ∀ e, f.ebpf = some e → ∃ file fd maps, LoadedAs K st l e file fd maps
  fresh : ∀ u, (∀ l ∈ done, l.uuid ≠ u) → NotLoaded st u
  unlinked : ∀ u p, st.linkedEbpfs.lookup u = some p →
    ∃ file fd, p = .unlinked (Object.load file fd) ∧ fd < st.nextFd
  fdInj : ∀ u v p q, st.linkedEbpfs.lookup u = some p → st.linkedEbpfs.lookup v = some q →
    p.object.fd = q.object.fd → u = v
  root : st.rootIdx = (done.filter XdpLink.root).getLast?.map XdpLink.uuid

@[simp] theorem noteRoot_linkedEbpfs (link : XdpLink) (st : LoadState) :
    (noteRoot link st).linkedEbpfs = st.linkedEbpfs := by
  unfold noteRoot
  split <;> rfl

@[simp] theorem noteRoot_progFds (link : XdpLink) (st : LoadState) :
    (noteRoot link st).progFds = st.progFds := by
  unfold noteRoot
  split <;> rfl

@[simp] theorem noteRoot_rawMaps (link : XdpLink) (st : LoadState) :
    (noteRoot link st).rawMaps = st.rawMaps := by
  unfold noteRoot
  split <;> rfl

@[simp] theorem noteRoot_nextFd (link : XdpLink) (st : LoadState) :
    (noteRoot link st).nextFd = st.nextFd := by
  unfold noteRoot
  split <;> rfl

theorem noteRoot_rootIdx (link : XdpLink) (st : LoadState) {done : List XdpLink}
    (h : st.rootIdx = (done.filter XdpLink.root).getLast?.map XdpLink.uuid) :
    (noteRoot link st).rootIdx = ((done ++ [link]).filter XdpLink.root).getLast?.map XdpLink.uuid := by
  unfold noteRoot
  by_cases hr : link.root = true
  · simp [hr]
  · simp [hr, h]

/-- The state after an object is loaded for a link. -/
def LoadState.withObject (st : LoadState) (link : XdpLink) (file : ObjectFile)
    (maps : List RawMap) :
    LoadState :=
  { noteRoot link st with
    linkedEbpfs := AList.insert link.uuid (.unlinked (Object.load file st.nextFd)) st.linkedEbpfs
    progFds := AList.insert link.uuid (Object.load file st.nextFd).fd st.progFds
    rawMaps := AList.insert link.uuid maps st.rawMaps
    nextFd := st.nextFd + Object.fdCount file }

/-- A link that is processed is skipped or loaded. -/
theorem loadLink_cases {st st' : LoadState} {link : XdpLink}
    (h : loadLink K nfs st link = .ok st') :
    ∃ f, nfs.lookup link.uuid = some f ∧
      (f.ebpf = none ∧ st' = noteRoot link st ∨
        ∃ e file maps, f.ebpf = some e ∧ K.openMemory (myProg link.state e) = some file ∧
          myMaps (Object.load file st.nextFd) link.uuid link.mapNames = .ok maps ∧
          st' = st.withObject link file maps) := by
  unfold loadLink at h
  cases hf : nfs.lookup link.uuid with
  | none => simp [hf] at h
  | some f =>
    refine ⟨f, rfl, ?_⟩
    simp only [hf] at h
    cases he : f.ebpf with
    | none =>
      simp only [he] at h
      exact Or.inl ⟨rfl, (Except.ok.inj h).symm⟩
    | some e =>
      simp only [he] at h
      cases ho : K.openMemory (myProg link.state e) with
      | none => simp [ho] at h
      | some file =>
        simp only [ho] at h
        split at h
        · obtain ⟨maps, hm, h⟩ := Except.bind_eq_ok.1 h
          exact Or.inr ⟨e, file, maps, rfl, ho, hm, (Except.ok.inj h).symm⟩
        · cases h

theorem NotLoaded.withObject {st : LoadState} {link : XdpLink} {file : ObjectFile}
    {maps : List RawMap} {u : Uuid} (h : NotLoaded st u) (hu : u ≠ link.uuid) :
    NotLoaded (st.withObject link file maps) u := by
  refine ⟨?_, ?_, ?_⟩ <;>
    simp [LoadState.withObject, AList.lookup_insert_ne hu, h.prog, h.progFd, h.raw]

theorem LoadedAs.withObject {st : LoadState} {l link : XdpLink} {e : EbpfFunction}
    {file file' : ObjectFile} {fd : Fd} {maps maps' : List RawMap}
    (h : LoadedAs K st l e file fd maps) (hu : l.uuid ≠ link.uuid) :
    LoadedAs K (st.withObject link file' maps') l e file fd maps where
  opened := h.opened
  prog := by simp [LoadState.withObject, AList.lookup_insert_ne hu, h.prog]
  progFd := by simp [LoadState.withObject, AList.lookup_insert_ne hu, h.progFd]
  found := h.found
  raw := by simp [LoadState.withObject, AList.lookup_insert_ne hu, h.raw]

theorem NotLoaded.noteRoot {st : LoadState} {u : Uuid} (link : XdpLink) (h : NotLoaded st u) :
    NotLoaded (noteRoot link st) u :=
  ⟨by simpa using h.prog, by simpa using h.progFd, by simpa using h.raw⟩

theorem LoadedAs.noteRoot {st : LoadState} {l : XdpLink} {e : EbpfFunction} {file : ObjectFile}
    {fd : Fd} {maps : List RawMap} (link : XdpLink) (h : LoadedAs K st l e file fd maps) :
    LoadedAs K (noteRoot link st) l e file fd maps :=
  ⟨h.opened, by simpa using h.prog, by simpa using h.progFd, h.found, by simpa using h.raw⟩

theorem LoadInv.empty : LoadInv K nfs [] { nextFd := 3 } where
  loaded := by simp
  fresh u _ := ⟨rfl, rfl, rfl⟩
  unlinked u p h := by simp at h
  fdInj u v p q h := by simp at h
  root := rfl

/-- A link without payload changes nothing but the root. -/
theorem LoadInv.skip {done : List XdpLink} {st : LoadState} (hI : LoadInv K nfs done st)
    {link : XdpLink} (hnew : ∀ l ∈ done, l.uuid ≠ link.uuid) {f : Function}
    (hf : nfs.lookup link.uuid = some f) (he : f.ebpf = none) :
    LoadInv K nfs (done ++ [link]) (noteRoot link st) where
  loaded := by
    intro l hl
    rcases List.mem_append.1 hl with hl | hl
    · obtain ⟨g, hg, h1, h2⟩ := hI.loaded l hl
      refine ⟨g, hg, fun hn => (h1 hn).noteRoot link, fun e hge => ?_⟩
      obtain ⟨file, fd, maps, hL⟩ := h2 e hge
      exact ⟨file, fd, maps, hL.noteRoot link⟩
    · obtain rfl : l = link := by simpa using hl
      exact ⟨f, hf, fun _ => (hI.fresh l.uuid hnew).noteRoot l,
        fun e h => by rw [he] at h; cases h⟩
  fresh u hu := (hI.fresh u fun l hl => hu l (List.mem_append_left _ hl)).noteRoot link
  unlinked := by simpa using hI.unlinked
  fdInj := by simpa using hI.fdInj
  root := noteRoot_rootIdx link st hI.root

/-- A link with payload is loaded under its own uuid, with new descriptors. -/
theorem LoadInv.load {done : List XdpLink} {st : LoadState} (hI : LoadInv K nfs done st)
    {link : XdpLink} (hnew : ∀ l ∈ done, l.uuid ≠ link.uuid) {f : Function} {e : EbpfFunction}
    {file : ObjectFile} {maps : List RawMap} (hf : nfs.lookup link.uuid = some f)
    (he : f.ebpf = some e) (ho : K.openMemory (myProg link.state e) = some file)
    (hm : myMaps (Object.load file st.nextFd) link.uuid link.mapNames = .ok maps) :
    LoadInv K nfs (done ++ [link]) (st.withObject link file maps) where
  loaded := by
    intro l hl
    rcases List.mem_append.1 hl with hl | hl
    · obtain ⟨g, hg, h1, h2⟩ := hI.loaded l hl
      refine ⟨g, hg, fun hn => (h1 hn).withObject (hnew l hl), fun e' hge => ?_⟩
      obtain ⟨file', fd, maps', hL⟩ := h2 e' hge
      exact ⟨file', fd, maps', hL.withObject (hnew l hl)⟩
    · obtain rfl : l = link := by simpa using hl
      refine ⟨f, hf, fun hn => absurd (he.symm.trans hn) (by simp), fun e' he' => ?_⟩
      obtain rfl : e = e' := by rw [he] at he'; exact Option.some.inj he'
      exact ⟨file, st.nextFd, maps, ho, by simp [LoadState.withObject],
        by simp [LoadState.withObject, Object.load], hm, by simp [LoadState.withObject]⟩
  fresh u hu := by
    have hne : u ≠ link.uuid := fun h => hu link (by simp) h.symm
    exact (hI.fresh u fun l hl => hu l (List.mem_append_left _ hl)).withObject hne
  unlinked u p hp := by
    simp only [LoadState.withObject, HashMap.lookup_insert_ite] at hp
    split at hp
    · obtain rfl := Option.some.inj hp
      refine ⟨file, st.nextFd, rfl, ?_⟩
      exact Nat.lt_add_of_pos_right (Nat.add_pos_left Nat.one_pos _)
    · obtain ⟨file', fd, rfl, hlt⟩ := hI.unlinked u p hp
      refine ⟨file', fd, rfl, ?_⟩
      exact Nat.lt_add_right _ hlt
  fdInj u v p q hp hq heq := by
    -- the new descriptor is not below the old bound, all others are
    simp only [LoadState.withObject, HashMap.lookup_insert_ite] at hp hq
    split at hp <;> split at hq
    · rename_i h1 h2
      exact h1.trans h2.symm
    · obtain rfl := Option.some.inj hp
      obtain ⟨file', fd, rfl, hlt⟩ := hI.unlinked v q hq
      exact absurd heq (Nat.ne_of_gt hlt)
    · obtain rfl := Option.some.inj hq
      obtain ⟨file', fd, rfl, hlt⟩ := hI.unlinked u p hp
      exact absurd heq (Nat.ne_of_lt hlt)
    · exact hI.fdInj u v p q hp hq heq
  root := noteRoot_rootIdx link st hI.root

/-- Distinct uuids: a link differs from all links before it. -/
theorem uuid_ne_of_nodup {links done rest : List XdpLink} {link : XdpLink}
    (hnd : (links.map XdpLink.uuid).Nodup) (hl : links = done ++ link :: rest) :
    ∀ l ∈ done, l.uuid ≠ link.uuid := by
  intro l hd he
  rw [hl, List.map_append, List.map_cons] at hnd
  have := (List.nodup_append.1 hnd).2.2 l.uuid (List.mem_map.2 ⟨l, hd, rfl⟩) link.uuid (by simp)
  exact this he

theorem loadLink_inv {links done rest : List XdpLink} {link : XdpLink} {st st' : LoadState}
    (hnd : (links.map XdpLink.uuid).Nodup) (hl : links = done ++ link :: rest)
    (hI : LoadInv K nfs done st) (h : loadLink K nfs st link = .ok st') :
    LoadInv K nfs (done ++ [link]) st' := by
  have hnew := uuid_ne_of_nodup hnd hl
  obtain ⟨f, hf, ⟨he, rfl⟩ | ⟨e, file, maps, he, ho, hm, rfl⟩⟩ := loadLink_cases h
  · exact hI.skip hnew hf he
  · exact hI.load hnew hf he ho hm

/-- What the load loop leaves behind. -/
theorem loadChain_inv {chain : Chain} {ld : LoadState} (hnd : (chain.links.map XdpLink.uuid).Nodup)
    (h : loadChain K chain = .ok ld) : LoadInv K chain.nfs chain.links ld :=
  foldE_inv (LoadInv K chain.nfs) h LoadInv.empty
    fun _ _ _ _ _ hl hP hb => loadLink_inv hnd hl hP hb

end Galette.Pulley
