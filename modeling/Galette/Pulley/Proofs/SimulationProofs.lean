import Galette.Pulley.Proofs.HandoverProofs

/-!
# Proofs: an installed chain performs the walk

The placed walk is simulated by the installed chain: in the kernel a packet at a function is at the
descriptor of its program, in userland it is at the function. A step of the walk is one step of the
system, or two if the packet is handed over on the way.
-/

namespace Galette.Pulley

open Galette.Lib Galette.Protocol

/-! ## Dynamic libraries -/

/-- Every function with a dynamic library is found in the store. -/
theorem loadDylibNfs_lookup {dlopen : Bytes → Option NfUserApi} {nfs : HashMap Uuid Function}
    {dylibs : HashMap Uuid NfUserApi} (h : loadDylibNfs dlopen nfs = .ok dylibs) {u : Uuid}
    {f : Function} {b : Bytes} (hf : nfs.lookup u = some f) (hb : f.elf = some b) :
    ∃ api, dlopen b = some api ∧ dylibs.lookup u = some api := by
  have key := foldE_inv (fun done m => ∀ e ∈ done, ∀ b, e.2.elf = some b →
    ∃ api, dlopen b = some api ∧ m.lookup e.1 = some api) h (by simp) ?_
  · exact key ⟨u, f⟩ (AList.mem_lookup_iff.1 hf) b hb
  · intro done x rest m m' hl hP hm
    unfold loadDylib at hm
    have hne := HashMap.key_ne_of_entries hl
    intro e he b hb
    rcases List.mem_append.1 he with he | he
    · obtain ⟨api, h1, h2⟩ := hP e he b hb
      refine ⟨api, h1, ?_⟩
      split at hm
      · obtain rfl := Except.ok.inj hm
        exact h2
      · split at hm
        · cases hm
        · obtain rfl := Except.ok.inj hm
          rw [AList.lookup_insert_ne (hne e he)]
          exact h2
    · obtain rfl : e = x := by simpa using he
      simp only [hb] at hm
      cases hd : dlopen b with
      | none => simp [hd] at hm
      | some api =>
        simp only [hd] at hm
        obtain rfl := Except.ok.inj hm
        exact ⟨api, rfl, by simp⟩

/-! ## Steps of the system -/

variable {K : Libbpf} {chain : Chain} {config : Cli} {xsks : List Fd} {st : ChainState}

/-- The program behind a descriptor is the one that was loaded with it. -/
theorem Installed.progOf (h : Installed K chain config xsks st) {u : Uuid} {p : Prog}
    (hp : st.linkedEbpfs.lookup u = some p) : progOf st p.object.fd = some (u, p.object) := by
  unfold Pulley.progOf
  have hmem := AList.mem_lookup_iff.1 hp
  cases hf : st.linkedEbpfs.entries.find? fun e => e.2.object.fd = p.object.fd with
  | none => exact absurd (by simp) (List.find?_eq_none.1 hf _ hmem)
  | some e =>
    obtain ⟨v, q⟩ := e
    have hfd : q.object.fd = p.object.fd := by simpa using List.find?_some hf
    have hq := AList.mem_lookup_iff.2 (List.mem_of_find?_eq_some hf)
    obtain rfl := h.fdInj v u q p hq hp hfd
    obtain rfl := Option.some.inj (hq.symm.trans hp)
    rfl

theorem stateOf_mem {links : List XdpLink} (hnd : (links.map XdpLink.uuid).Nodup) {l : XdpLink}
    (hl : l ∈ links) : stateOf links l.uuid = some l.state := by
  unfold stateOf
  cases hf : links.find? fun m => m.uuid = l.uuid with
  | none => exact absurd (by simp) (List.find?_eq_none.1 hf _ hl)
  | some m =>
    have hu : m.uuid = l.uuid := by simpa using List.find?_some hf
    have : m = l := List.inj_on_of_nodup_map hnd (List.mem_of_find?_eq_some hf) hl hu
    simp [this]

/-- The action that a link of the chain chooses. -/
theorem chosen_mem (nf : Behaviour) {links : List XdpLink} (hnd : (links.map XdpLink.uuid).Nodup)
    {l : XdpLink} (hl : l ∈ links) (pkt : Bytes) :
    chosen nf links l.uuid pkt = l.state.act (nf l.uuid pkt).2 := by
  simp [chosen, stateOf_mem hnd hl]

/-- A function of a chain always chooses an action. -/
theorem Builds.exists_act {dlopen : Bytes → Option NfUserApi} {nf : Behaviour}
    (h : Builds K dlopen chain nf) {l : XdpLink} (hl : l ∈ chain.links) (pkt : Bytes) :
    ∃ a, l.state.act (nf l.uuid pkt).2 = some a := by
  cases hs : l.state with
  | tail => exact ⟨.tx, rfl⟩
  | body els => exact ⟨_, List.getElem?_eq_getElem (h.range l hl els hs pkt)⟩

/-- The library of a function computes what the function does, on the maps it is given. -/
def Calls (nf : Behaviour) (st : ChainState) (dylibs : HashMap Uuid NfUserApi) (u : Uuid) : Prop :=
  ∃ lib, dylibs.lookup u = some lib ∧
    ∀ pkt, lib pkt (mapsOf st u) = ((nf u pkt).1, (nf u pkt).2.toNat)

/-- The library of a build computes what the function does. -/
theorem Builds.calls {dlopen : Bytes → Option NfUserApi} {nf : Behaviour}
    {dylibs : HashMap Uuid NfUserApi} (h : Builds K dlopen chain nf) (hC : Linked chain)
    (hlibs : loadDylibNfs dlopen chain.nfs = .ok dylibs) {l : XdpLink} (hl : l ∈ chain.links) :
    Calls nf st dylibs l.uuid := by
  obtain ⟨f, b, hf, hb⟩ := hC.dylibs l hl
  obtain ⟨api, hapi, hlib⟩ := loadDylibNfs_lookup hlibs hf hb
  exact ⟨api, hlib, fun pkt => h.user l hl f b api hf hb hapi pkt (mapsOf st l.uuid)⟩

/-- The arm of `xdp_wrapper_chain` for an action. -/
def armOf (host : Host) (obj : Object) (out : UInt32) : LinkAction → Exit
  | .upcall _ => upcallArm host obj out
  | .tailcall _ => tailcallArm obj out
  | a => .ret (verdictOf a)

/-- The program takes the arm of the action in its table. -/
theorem Tables.chainExit {progFds : HashMap Uuid Fd} {els : List LinkAction} {o : Object}
    (h : Tables progFds els o) (host : Host) {out : UInt32} {a : LinkAction}
    (ha : els[out.toNat]? = some a) : chainExit host o out = armOf host o out a := by
  unfold Pulley.chainExit
  rw [h.actsGet ha]
  cases a <;> rfl

/-- An installed program takes the arm of the action that the state has for the returned index. -/
theorem ProgramOf.exit {uuid : Uuid} {state : XdpLinkState} {obj : Object}
    (h : ProgramOf uuid state obj) (host : Host) (pkt : Bytes) {a : LinkAction}
    (ha : state.act (obj.file.packet pkt).2 = some a) :
    (xdpSockProg host obj pkt).2 = armOf host obj (obj.file.packet pkt).2 a := by
  cases h with
  | tail ht =>
    obtain rfl : LinkAction.tx = a := Option.some.inj ha
    simp [xdpSockProg, Object.load, ht, armOf, verdictOf]
  | body ht hp =>
    obtain ⟨hP, hsame⟩ := patchObject_ok (fun _ => rfl) hp
    have hfile := hsame.file
    simp only [Object.load] at hfile
    simp only [xdpSockProg, hfile, ht]
    rw [← hfile]
    exact hP.toTables.chainExit host ha

variable {nf : Behaviour}

/-- What the program of a link does with a packet: a `Tail` transmits, a `Body` takes the arm of the
action it finds. -/
theorem ProgFor.xdpSockProg (hb : Programs K chain nf) {i : Nat} {l : XdpLink}
    (hl : l ∈ chain.links) {f : Function} {e : EbpfFunction} (hf : chain.nfs.lookup l.uuid = some f)
    (he : f.ebpf = some e) {file : ObjectFile} {prog : Prog} {maps : List RawMap}
    (hP : ProgFor K config xsks st i l e file prog maps) (host : Host) (pkt : Bytes)
    {a : LinkAction}
    (ha : l.state.act (nf l.uuid pkt).2 = some a) :
    xdpSockProg host prog.object pkt =
      ((nf l.uuid pkt).1, armOf host prog.object (nf l.uuid pkt).2 a) := by
  have hfile : prog.object.file = file := hP.same.file
  have hopen := hP.opened
  cases hs : l.state with
  | tail =>
    rw [hs] at hopen ha
    obtain ⟨ht, hp⟩ := hb.ends l hl f e file hf he hopen
    obtain rfl : LinkAction.tx = a := Option.some.inj ha
    simp [Pulley.xdpSockProg, hfile, ht, hp, armOf, verdictOf]
  | body els =>
    rw [hs] at hopen ha
    obtain ⟨⟨slots, ht⟩, hp⟩ := hb.links l hl f e file hf he hopen
    simp [Pulley.xdpSockProg, hfile, ht, hp, (hP.tables els hs).toTables.chainExit host ha]

/-- States of the placed walk and of the system in which a packet is at the same place. -/
inductive Matches (chain : Chain) (st : ChainState) : Side × Walk → Sys → Prop where
  | kernel {i : Nat} {l : XdpLink} {p : Prog} {pkt : Bytes} (hl : chain.links[i]? = some l)
      (hp : st.linkedEbpfs.lookup l.uuid = some p) :
      Matches chain st (.kernel, .at l.uuid pkt) (.kernel p.object.fd pkt)
  | user {l : XdpLink} {pkt : Bytes} (hl : l ∈ chain.links) :
      Matches chain st (.user, .at l.uuid pkt) (.user l.uuid pkt)
  | done (side : Side) (action : LinkAction) (pkt : Bytes) :
      Matches chain st (side, .done action pkt) (finish pkt action side)

/-- Final states of the placed walk and of the system. -/
def Finished (a : Side × Walk) (s : Sys) : Prop :=
  ∃ side action pkt, a = (side, .done action pkt) ∧ s = finish pkt action side

theorem sysStep_finish (host : Host) (dylibs : HashMap Uuid NfUserApi) (pkt : Bytes)
    (action : LinkAction) (side : Side) :
    sysStep host st dylibs (finish pkt action side) = none := by
  cases side <;> rfl

/-- An action that ends the walk leaves the packet where it is. -/
theorem matches_end {a : LinkAction} (ha : a.nextNf = none) (side : Side) (pkt : Bytes) :
    Matches chain st (side.after a, afterAction pkt a) (finish pkt a side) := by
  cases a with
  | upcall id => cases ha
  | tailcall id => cases ha
  | tx => exact .done side .tx pkt
  | drop => exact .done side .drop pkt
  | abort => exact .done side .abort pkt
  | pass => exact .done side .pass pkt

/-! ## Running an installed chain -/

/-- A well-formed chain whose builds are installed. -/
structure Running (K : Libbpf) (chain : Chain) (config : Cli) (xsks : List Fd) (nf : Behaviour)
    (host : Host) (st : ChainState) : Prop where
  wf : WellFormed chain
  programs : Programs K chain nf
  ids : DistinctIds chain
  cores : 1 ≤ config.xdpCores.toNat
  sockets : xsks.length = config.xdpCores.toNat
  headroom : host.adjustMeta = true
  inst : Installed K chain config xsks st

variable {host : Host} {dylibs : HashMap Uuid NfUserApi}

/-- The loaded program of a link and the payload it comes from. -/
theorem Installed.progFor (h : Installed K chain config xsks st) {i : Nat} {l : XdpLink}
    (hl : chain.links[i]? = some l) {p : Prog} (hp : st.linkedEbpfs.lookup l.uuid = some p) :
    ∃ f e file maps, chain.nfs.lookup l.uuid = some f ∧ f.ebpf = some e ∧
      ProgFor K config xsks st i l e file p maps := by
  have hmem := List.mem_of_getElem? hl
  obtain ⟨f, hf⟩ := h.nf l hmem
  cases he : f.ebpf with
  | none =>
    rw [(h.skipped l hmem f hf he).1] at hp
    cases hp
  | some e =>
    obtain ⟨file, prog, maps, hP⟩ := h.loaded i l f e hl hf he
    obtain rfl := Option.some.inj (hp.symm.trans hP.linked)
    exact ⟨f, e, file, maps, hf, he, hP⟩

/-! ## Maps in userland -/

theorem myMaps_ok {obj : Object} {uuid : Uuid} {names : List String} {maps : List RawMap}
    (h : myMaps obj uuid names = .ok maps) :
    List.Forall₂ (fun n m => obj.map (toAsciiUppercase n) = some m.fd) names maps := by
  induction names generalizing maps with
  | nil =>
    obtain rfl := Except.ok.inj h
    exact .nil
  | cons n names ih =>
    unfold myMaps at h
    split at h
    · cases h
    · rename_i fd hfd
      obtain ⟨rest, hrest, h⟩ := Except.bind_eq_ok.1 h
      obtain rfl := Except.ok.inj h
      exact .cons hfd (ih hrest)

/-- A loaded function gets, for each of its names, the map of the upper-cased name. -/
theorem Installed.mapsOf_loaded (h : Installed K chain config xsks st) {l : XdpLink}
    (hl : l ∈ chain.links) {f : Function} {e : EbpfFunction} (hf : chain.nfs.lookup l.uuid = some f)
    (he : f.ebpf = some e) :
    ∃ file fd prog, st.linkedEbpfs.lookup l.uuid = some prog ∧
      (∀ n, prog.object.map n = (Object.load file fd).map n) ∧
      List.Forall₂ (fun n m => (Object.load file fd).map (toAsciiUppercase n) = some m.fd)
        l.mapNames (mapsOf st l.uuid) := by
  obtain ⟨i, hi⟩ := List.getElem?_of_mem hl
  obtain ⟨file, prog, maps, hP⟩ := h.loaded i l f e hi hf he
  refine ⟨file, prog.object.fd, prog, hP.linked, fun n => ?_, ?_⟩
  · rw [Object.map, hP.same.maps]
    rfl
  · have hmaps : mapsOf st l.uuid = maps := by rw [mapsOf, hP.raw, Option.getD_some]
    rw [hmaps]
    exact myMaps_ok hP.found

theorem Installed.mapsOf_skipped (h : Installed K chain config xsks st) {l : XdpLink}
    (hl : l ∈ chain.links) {f : Function} (hf : chain.nfs.lookup l.uuid = some f)
    (he : f.ebpf = none) : mapsOf st l.uuid = [] := by
  rw [mapsOf, (h.skipped l hl f hf he).2]
  rfl

/-! ## Steps -/

/-- An upcall ends up at its target in userland. -/
theorem Running.upcall (h : Running K chain config xsks nf host st) {i : Nat}
    {l : XdpLink} (hl : chain.links[i]? = some l) {p : Prog}
    (hp : st.linkedEbpfs.lookup l.uuid = some p) {els : List LinkAction} (hs : l.state = .body els)
    {out : UInt32} {id : Uuid} (hact : els[out.toNat]? = some (.upcall id)) :
    ∃ core xsk metadata, upcallArm host p.object out = .upcall core xsk metadata ∧
      ∀ pkt, afterSocket host st metadata pkt = .user id pkt := by
  obtain ⟨f, e, file, maps, hf, he, hP⟩ := h.inst.progFor hl hp
  have hT := hP.tables els hs
  have harm : p.object.actsGet out = some 3 := hT.toTables.actsGet hact
  have hx := h.inst.exactHandover h.ids h.cores h.sockets hl ⟨⟨els, hs⟩, f, e, hf, he⟩ hs hT harm host
  obtain ⟨xsk, _, hxsk⟩ := hx.socket
  obtain ⟨id', hid', htgt⟩ := hx.target
  obtain rfl : id = id' := by
    rw [hs] at hid'
    exact LinkAction.upcall.inj (Option.some.inj (hact.symm.trans hid'))
  refine ⟨targetCore p.object.myStateMap host.prandom, xsk,
    upcallMeta host.endian p.object.myStateMap out, by simp [upcallArm, h.headroom, hxsk], ?_⟩
  intro pkt
  simp [afterSocket, htgt]

/-- A tail call ends up at the program of its target. -/
theorem Running.tailcall (h : Running K chain config xsks nf host st) {i : Nat}
    {l : XdpLink} (hl : chain.links[i]? = some l) {p : Prog}
    (hp : st.linkedEbpfs.lookup l.uuid = some p) {els : List LinkAction} (hs : l.state = .body els)
    {out : UInt32} {id : Uuid} (hact : els[out.toNat]? = some (.tailcall id)) :
    ∃ (j : Nat) (l' : XdpLink) (p' : Prog), chain.links[j]? = some l' ∧ l'.uuid = id ∧
      st.linkedEbpfs.lookup id = some p' ∧
        tailcallArm p.object out = .tailCall p'.object.fd := by
  obtain ⟨_, _, _, _, _, _, hP⟩ := h.inst.progFor hl hp
  have hmem := List.mem_of_getElem? hl
  have hels := List.mem_of_getElem? hact
  obtain ⟨fd, hfd, hslot⟩ := (hP.tables els hs).progs _ id hact
  obtain ⟨l', hl', rfl⟩ := h.wf.targets l hmem els hs _ hels id rfl
  obtain ⟨j, hj⟩ := List.getElem?_of_mem hl'
  obtain ⟨f, e, hf, he⟩ := h.wf.calls l hmem els hs _ hels
  obtain ⟨file, p', maps, hP'⟩ := h.inst.loaded j l' f e hj hf he
  obtain rfl : fd = p'.object.fd := Option.some.inj (hfd.symm.trans hP'.progFd)
  exact ⟨j, l', p', hj, rfl, hP'.linked, by simp [tailcallArm, hslot]⟩

/-- One function in the kernel. -/
theorem Running.kernel_step (h : Running K chain config xsks nf host st) {i : Nat}
    {l : XdpLink} (hl : chain.links[i]? = some l) {p : Prog}
    (hp : st.linkedEbpfs.lookup l.uuid = some p) (pkt : Bytes) {a : LinkAction}
    (ha : l.state.act (nf l.uuid pkt).2 = some a) :
    ∃ k s, (system host st dylibs).run (k + 1) (.kernel p.object.fd pkt) = ([(l.uuid, pkt)], s) ∧
      Matches chain st (Side.kernel.after a, afterAction (nf l.uuid pkt).1 a) s := by
  have hmem := List.mem_of_getElem? hl
  obtain ⟨f, e, file, maps, hf, he, hP⟩ := h.inst.progFor hl hp
  have hprog := hP.xdpSockProg h.programs hmem hf he host pkt ha
  have hstep : (system host st dylibs).step (.kernel p.object.fd pkt) = some (some (l.uuid, pkt),
      afterExit (nf l.uuid pkt).1 (armOf host p.object (nf l.uuid pkt).2 a)) := by
    simp [system, sysStep, h.inst.progOf hp, hprog]
  have hend : ∀ s, afterExit (nf l.uuid pkt).1 (armOf host p.object (nf l.uuid pkt).2 a) = s →
      (system host st dylibs).run 1 (.kernel p.object.fd pkt) = ([(l.uuid, pkt)], s) := by
    rintro s rfl
    simp [Machine.run_succ _ hstep]
  cases hs : l.state with
  | tail =>
    obtain rfl : LinkAction.tx = a := by rw [hs] at ha; exact Option.some.inj ha
    exact ⟨0, _, hend _ rfl, matches_end rfl .kernel _⟩
  | body els =>
    rw [hs] at ha
    cases a with
    | upcall id =>
      obtain ⟨core, xsk, metadata, harm, hsock⟩ := h.upcall hl hp hs ha
      obtain ⟨l', hl', rfl⟩ := h.wf.targets l hmem els hs _ (List.mem_of_getElem? ha) id rfl
      refine ⟨1, .user l'.uuid (nf l.uuid pkt).1, ?_, .user hl'⟩
      rw [Machine.run_succ _ hstep]
      simp [armOf, harm, afterExit, Machine.run, system, sysStep, hsock]
    | tailcall id =>
      obtain ⟨j, l', p', hj, rfl, hp', harm⟩ := h.tailcall hl hp hs ha
      exact ⟨0, _, hend (.kernel p'.object.fd _) (by simp [armOf, harm, afterExit]), .kernel hj hp'⟩
    | tx => exact ⟨0, _, hend _ rfl, matches_end rfl .kernel _⟩
    | drop => exact ⟨0, _, hend _ rfl, matches_end rfl .kernel _⟩
    | abort => exact ⟨0, _, hend _ rfl, matches_end rfl .kernel _⟩
    | pass => exact ⟨0, _, hend _ rfl, matches_end rfl .kernel _⟩

/-- One function in userland. -/
theorem Running.user_step (h : Running K chain config xsks nf host st) {l : XdpLink}
    (hl : l ∈ chain.links) (hcalls : Calls nf st dylibs l.uuid) (pkt : Bytes) {a : LinkAction}
    (ha : l.state.act (nf l.uuid pkt).2 = some a) :
    ∃ s, (system host st dylibs).step (.user l.uuid pkt) = some (some (l.uuid, pkt), s) ∧
      Matches chain st (Side.user.after a, afterAction (nf l.uuid pkt).1 a) s := by
  obtain ⟨lib, hlib, hcall⟩ := hcalls
  have hact : userAction st l.uuid (nf l.uuid pkt).2.toNat = some a := by
    rw [userAction, h.inst.states l hl, Option.bind_some, UInt32.ofNat_toNat, ha]
  refine ⟨afterUser (nf l.uuid pkt).1 (some a), by simp [system, sysStep, hlib, hcall pkt, hact], ?_⟩
  have hnext : ∀ id, a.nextNf = some id → ∃ l' ∈ chain.links, l'.uuid = id := by
    intro id hid
    cases hs : l.state with
    | tail =>
      rw [hs] at ha
      obtain rfl : LinkAction.tx = a := Option.some.inj ha
      cases hid
    | body els =>
      rw [hs] at ha
      exact h.wf.targets l hl els hs a (List.mem_of_getElem? ha) id hid
  cases a with
  | upcall id =>
    obtain ⟨l', hl', rfl⟩ := hnext id rfl
    exact .user hl'
  | tailcall id =>
    obtain ⟨l', hl', rfl⟩ := hnext id rfl
    exact .user hl'
  | tx => exact matches_end rfl .user _
  | drop => exact matches_end rfl .user _
  | abort => exact matches_end rfl .user _
  | pass => exact matches_end rfl .user _

/-- **The installed chain simulates the placed walk.** -/
theorem Running.sim (h : Running K chain config xsks nf host st)
    (hcalls : ∀ l ∈ chain.links, Calls nf st dylibs l.uuid)
    (hacts : ∀ l ∈ chain.links, ∀ pkt, ∃ a, l.state.act (nf l.uuid pkt).2 = some a) :
    Machine.Sim (placedWalk nf chain.links) (system host st dylibs) (Matches chain st) Finished where
  step := by
    intro a b o a' hR hstep
    have hchosen : ∀ l ∈ chain.links, ∀ side pkt, ∃ act,
        l.state.act (nf l.uuid pkt).2 = some act ∧
        (placedWalk nf chain.links).step (side, .at l.uuid pkt) =
          some (some (l.uuid, pkt), (side.after act, afterAction (nf l.uuid pkt).1 act)) := by
      intro l hl side pkt
      obtain ⟨act, hact⟩ := hacts l hl pkt
      exact ⟨act, hact, by simp [placedWalk, placedStep, chosen_mem nf h.wf.nodup hl, hact]⟩
    cases hR with
    | kernel hl hp =>
      rename_i i l p pkt
      obtain ⟨act, hact, hp'⟩ := hchosen l (List.mem_of_getElem? hl) .kernel pkt
      obtain ⟨rfl, rfl⟩ := Prod.mk.inj (Option.some.inj (hp'.symm.trans hstep))
      obtain ⟨k, s, hrun, hM⟩ := h.kernel_step hl hp pkt hact
      exact ⟨k, s, Machine.step_ne_none_of_run _ hrun, hrun, hM⟩
    | user hl =>
      rename_i l pkt
      obtain ⟨act, hact, hp'⟩ := hchosen l hl .user pkt
      obtain ⟨rfl, rfl⟩ := Prod.mk.inj (Option.some.inj (hp'.symm.trans hstep))
      obtain ⟨s, hs, hM⟩ := h.user_step hl (hcalls l hl) pkt hact
      exact ⟨0, s, by simp [hs], by simp [Machine.run_succ _ hs], hM⟩
    | done side action pkt => cases hstep
  final := by
    intro a b hR hstep
    cases hR with
    | kernel hl hp => cases hstep
    | user hl => cases hstep
    | done side action pkt =>
      exact ⟨0, _, rfl, sysStep_finish host dylibs pkt action side, side, action, pkt, rfl, rfl⟩

/-- The place plays no part in the walk. -/
theorem walk_sim (nf : Behaviour) (links : List XdpLink) :
    Machine.Sim (walk nf links) (placedWalk nf links) (fun w p => p.2 = w) (fun w p => p.2 = w) where
  step := by
    rintro _ ⟨side, w⟩ o w' rfl hstep
    cases w with
    | «at» uuid pkt =>
      simp only [walk, walkStep, Option.some.injEq, Prod.mk.injEq] at hstep
      obtain ⟨rfl, rfl⟩ := hstep
      cases hc : chosen nf links uuid pkt with
      | none =>
        have hp : (placedWalk nf links).step (side, .at uuid pkt) =
            some (some (uuid, pkt), (side, .stuck)) := by simp [placedWalk, placedStep, hc]
        exact ⟨0, _, by simp [hp], by rw [Machine.run_succ _ hp]; rfl, rfl⟩
      | some a =>
        have hp : (placedWalk nf links).step (side, .at uuid pkt) =
            some (some (uuid, pkt), (side.after a, afterAction (nf uuid pkt).1 a)) := by
          simp [placedWalk, placedStep, hc]
        exact ⟨0, _, by simp [hp], by rw [Machine.run_succ _ hp]; rfl, rfl⟩
    | done action pkt => cases hstep
    | stuck => cases hstep
  final := by
    rintro _ ⟨side, w⟩ rfl hstep
    cases w with
    | «at» uuid pkt => cases hstep
    | done action pkt => exact ⟨0, _, rfl, rfl, rfl⟩
    | stuck => exact ⟨0, _, rfl, rfl, rfl⟩

/-- The program of the root is attached. -/
theorem Running.root (h : Running K chain config xsks nf host st) {root : XdpLink}
    (hroot : root ∈ chain.links) (hr : root.root = true) (pkt : Bytes) :
    ∃ fd, attachedFd st = some fd ∧
      Matches chain st (.kernel, .at root.uuid pkt) (.kernel fd pkt) := by
  obtain ⟨l, hl, hlr, p, hp, hfd⟩ := h.inst.root
  obtain rfl : l = root := h.wf.root.unique ⟨hl, hlr⟩ ⟨hroot, hr⟩
  obtain ⟨i, hi⟩ := List.getElem?_of_mem hl
  exact ⟨p.object.fd, hfd, .kernel hi hp⟩

/-- A walk and the system end with a packet in the same way, in either place. -/
def SameEnd (w : Walk) (s : Sys) : Prop :=
  ∃ action pkt side, w = .done action pkt ∧ s = finish pkt action side

/-- The installed chain performs the walk from its root. -/
theorem Running.agree (h : Running K chain config xsks nf host st)
    (hcalls : ∀ l ∈ chain.links, Calls nf st dylibs l.uuid)
    (hacts : ∀ l ∈ chain.links, ∀ pkt, ∃ a, l.state.act (nf l.uuid pkt).2 = some a) {root : XdpLink}
    (hroot : root ∈ chain.links) (hr : root.root = true) (pkt : Bytes) :
    ∃ fd, attachedFd st = some fd ∧ Machine.Agree (walk nf chain.links) (system host st dylibs)
      SameEnd (.at root.uuid pkt) (.kernel fd pkt) := by
  obtain ⟨fd, hfd, hM⟩ := h.root hroot hr pkt
  have hw := (walk_sim nf chain.links).agree (a := .at root.uuid pkt)
    (b := (.kernel, .at root.uuid pkt)) rfl
  refine ⟨fd, hfd, (hw.trans ((h.sim hcalls hacts).agree hM)).mono ?_⟩
  rintro w s ⟨_, rfl, side, action, pkt, rfl, rfl⟩
  exact ⟨action, pkt, side, rfl, rfl⟩

end Galette.Pulley
