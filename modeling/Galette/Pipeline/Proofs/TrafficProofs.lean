import Galette.Nf.Proofs.ProgramProofs
import Galette.Pipeline.Proofs.MapProofs
import Galette.Pipeline.Traffic
import Galette.Pulley.Proofs.BatchProofs
import Galette.Pulley.Proofs.RefinementProofs

/-!
# Proofs: packets in flight

A step of a packet in the installed chain is the step of its journey, with the same effect on the
maps: an access is the same in both places and goes to the same map, and the tables send the packet
where the links do. Only the hand-over takes a step of its own, which changes nothing. So everything
that packets do in the installed chain, in any order of their steps, they do on journeys.

The packets of a thread stand in a line: those of its batch, and those in its socket. Only the first
one can be in a function.
-/

namespace Galette.Pipeline

open Galette.Lib Galette.Protocol Galette.Nf Galette.Chainsmith Galette.Pulley

variable {σ : Type} {K : Libbpf} {chain : Protocol.Chain} {config : Cli} {xsks : List Fd}
  {dlopen : Bytes → Option NfUserApi} {rt : Runtime σ}

/-- An installed chain that was built from sources, with its libraries. -/
structure Hosted (K : Libbpf) (dlopen : Bytes → Option NfUserApi) (chain : Protocol.Chain)
    (config : Cli) (xsks : List Fd) (rt : Runtime σ) : Prop where
  wf : WellFormed chain
  built : BuiltFrom K rt.cases chain rt.src
  ids : DistinctIds chain
  cores : 1 ≤ config.xdpCores.toNat
  sockets : xsks.length = config.xdpCores.toNat
  headroom : rt.host.adjustMeta = true
  inst : Installed K chain config xsks rt.st
  libs : loadDylibNfs dlopen chain.nfs = .ok rt.dylibs

/-! ## Maps -/

/-- The maps that names stand for in the kernel are those of the slice. -/
theorem filterMap_eq_zip {T : CaseTable} {obj : Object} {names : List String} {maps : List RawMap}
    (h : List.Forall₂ (fun n m => obj.map (toAsciiUppercase n) = some m.fd) names maps)
    (hT : ∀ n ∈ names, T.toScreamingSnake n = toAsciiUppercase n) :
    kernelMaps T obj names = names.zip (maps.map RawMap.fd) := by
  induction h with
  | nil => rfl
  | @cons n m names maps hn _ ih =>
    have hhead : (obj.map (T.toScreamingSnake n)).map (fun fd => (n, fd)) = some (n, m.fd) := by
      rw [hT n (List.mem_cons_self ..), hn]
      rfl
    have htail := ih fun n' hn' => hT n' (List.mem_cons_of_mem _ hn')
    unfold kernelMaps at htail ⊢
    simp only [List.filterMap_cons, hhead, htail]
    rfl

/-- A function has the same maps in the kernel and in userland. -/
theorem Hosted.kernelMaps_eq (h : Hosted K dlopen chain config xsks rt) {l : XdpLink}
    (hl : l ∈ chain.links) {p : Prog} (hp : rt.st.linkedEbpfs.lookup l.uuid = some p) :
    kernelMaps rt.cases p.object (rt.src l.uuid).fields =
      userMaps rt.st l.uuid (rt.src l.uuid).fields := by
  obtain ⟨i, hi⟩ := List.getElem?_of_mem hl
  obtain ⟨f, e, file, maps, hf, he, -⟩ := h.inst.progFor hi hp
  obtain ⟨file', fd, prog, hprog, hmap, hbound⟩ := h.inst.mapsOf_loaded hl hf he
  obtain rfl := Option.some.inj (hp.symm.trans hprog)
  have hbound' : List.Forall₂ (fun n m => p.object.map (toAsciiUppercase n) = some m.fd) l.mapNames
      (mapsOf rt.st l.uuid) := hbound.imp fun n m hn => by rw [hmap, hn]
  rw [h.built.fields l hl]
  exact filterMap_eq_zip hbound' (h.built.names l hl)

/-- Userland gives every function its maps, and finds its library. -/
theorem Hosted.atFunction (h : Hosted K dlopen chain config xsks rt) {l : XdpLink}
    (hl : l ∈ chain.links) (core : UInt32) (pkt : Bytes) :
    rt.atFunction core l.uuid pkt = .user core l.uuid (rt.src l.uuid).prog pkt := by
  obtain ⟨f, b, hf, hb⟩ := h.wf.dylibs l hl
  obtain ⟨api, -, hlib⟩ := loadDylibNfs_lookup h.libs hf hb
  have hmaps : (rt.src l.uuid).fields = [] ∨
      (mapsOf rt.st l.uuid).length = (rt.src l.uuid).fields.length := by
    rw [h.built.fields l hl]
    rcases h.built.supplied l hl with hnone | ⟨f, e, hf, he⟩
    · exact Or.inl hnone
    · obtain ⟨_, _, _, _, _, hbound⟩ := h.inst.mapsOf_loaded hl hf he
      exact Or.inr hbound.length_eq.symm
  simp only [Runtime.atFunction, hlib, if_pos hmaps]

/-! ## Ways between functions -/

/-- The program behind the descriptor of a link. -/
theorem Hosted.atProgram (h : Hosted K dlopen chain config xsks rt) {u : Uuid} {p : Prog}
    (hp : rt.st.linkedEbpfs.lookup u = some p) (ctx : XdpContext) :
    rt.atProgram p.object.fd ctx = .kernel u p.object (rt.src u).prog ctx := by
  simp only [Runtime.atProgram, h.inst.progOf hp]

/-- The program of a link takes the arm of the action that the link has for an index. -/
theorem Hosted.exit (h : Hosted K dlopen chain config xsks rt) {i : Nat} {l : XdpLink}
    (hl : chain.links[i]? = some l) {p : Prog} (hp : rt.st.linkedEbpfs.lookup l.uuid = some p)
    {out : UInt32} {a : LinkAction} (ha : l.state.act out = some a) (r : UInt32) :
    rt.exit p.object out r = armOf { rt.host with prandom := r } p.object out a := by
  obtain ⟨f, e, file, maps, hf, he, hP⟩ := h.inst.progFor hl hp
  have hmem := List.mem_of_getElem? hl
  have hfile : p.object.file = file := hP.same.file
  have hopen := hP.opened
  cases hs : l.state with
  | tail =>
    rw [hs] at hopen ha
    obtain rfl : LinkAction.tx = a := Option.some.inj ha
    simp [Runtime.exit, hfile, h.built.ends l hmem f e file hf he hopen, armOf, verdictOf]
  | body els =>
    rw [hs] at hopen ha
    obtain ⟨slots, ht⟩ := h.built.links l hmem f e file hf he hopen
    simp only [Runtime.exit, hfile, ht]
    exact (hP.tables els hs).toTables.chainExit _ ha

/-- An upcall ends up in a socket, behind metadata that lead to its target. -/
theorem Hosted.upcall (h : Hosted K dlopen chain config xsks rt) {i : Nat} {l : XdpLink}
    (hl : chain.links[i]? = some l) {p : Prog} (hp : rt.st.linkedEbpfs.lookup l.uuid = some p)
    {els : List LinkAction} (hs : l.state = .body els) {out : UInt32} {id : Uuid}
    (hact : els[out.toNat]? = some (.upcall id)) (r : UInt32) :
    ∃ core xsk metadata, core.toNat < config.xdpCores.toNat ∧
      upcallArm { rt.host with prandom := r } p.object out = .upcall core xsk metadata ∧
        ∀ pkt, afterSocket rt.host rt.st metadata pkt = .user id pkt := by
  obtain ⟨f, e, file, maps, hf, he, hP⟩ := h.inst.progFor hl hp
  have hT := hP.tables els hs
  have hx := h.inst.exactHandover h.ids h.cores h.sockets hl ⟨⟨els, hs⟩, f, e, hf, he⟩ hs hT
    (hT.toTables.actsGet hact) { rt.host with prandom := r }
  obtain ⟨xsk, -, hxsk⟩ := hx.socket
  obtain ⟨id', hid', htarget⟩ := hx.target
  obtain rfl : id = id' := by
    rw [hs] at hid'
    exact LinkAction.upcall.inj (Option.some.inj (hact.symm.trans hid'))
  refine ⟨targetCore p.object.myStateMap r, xsk, upcallMeta rt.host.endian p.object.myStateMap out,
    h.sockets ▸ hx.core.1, ?_, fun pkt => ?_⟩
  · dsimp only at hxsk
    simp [upcallArm, h.headroom, hxsk]
  · simp [afterSocket, htarget]

/-- A tail call ends up in the program of its target. -/
theorem Hosted.tailcall (h : Hosted K dlopen chain config xsks rt) {i : Nat} {l : XdpLink}
    (hl : chain.links[i]? = some l) {p : Prog} (hp : rt.st.linkedEbpfs.lookup l.uuid = some p)
    {els : List LinkAction} (hs : l.state = .body els) {out : UInt32} {id : Uuid}
    (hact : els[out.toNat]? = some (.tailcall id)) :
    ∃ (j : Nat) (l' : XdpLink) (p' : Prog), chain.links[j]? = some l' ∧ l'.uuid = id ∧
      rt.st.linkedEbpfs.lookup id = some p' ∧ tailcallArm p.object out = .tailCall p'.object.fd := by
  obtain ⟨_, _, _, _, _, _, hP⟩ := h.inst.progFor hl hp
  have hmem := List.mem_of_getElem? hl
  have hels := List.mem_of_getElem? hact
  obtain ⟨fd, hfd, hslot⟩ := (hP.tables els hs).progs _ id hact
  obtain ⟨l', hl', rfl⟩ := h.wf.targets l hmem els hs _ hels id rfl
  obtain ⟨j, hj⟩ := List.getElem?_of_mem hl'
  obtain ⟨f, e, hf, he⟩ := h.wf.calls l hmem els hs _ hels
  obtain ⟨file, p', maps, hP'⟩ := h.inst.loaded j l' f e hj hf he
  obtain rfl : fd = p'.object.fd := Option.some.inj (hfd.symm.trans hP'.progFd)
  exact ⟨j, l', p', hj, rfl, hP'.linked, by simp [tailcallArm, hslot]⟩

/-! ## Steps -/

/-- The indices that have an action in the state of a link. -/
def InTable (l : XdpLink) (out : UInt32) : Prop :=
  ∀ els, l.state = .body els → out.toNat < els.length

theorem InTable.act {l : XdpLink} {out : UInt32} (h : InTable l out) :
    ∃ a, l.state.act out = some a := by
  cases hs : l.state with
  | tail => exact ⟨.tx, rfl⟩
  | body els => exact ⟨_, List.getElem?_eq_getElem (h els hs)⟩

/-- What is left of a function of a chain: it asks for no empty slice, and what it returns has an
action. -/
structure Proper (l : XdpLink) (p : NfProg UInt32) : Prop where
  nonEmpty : p.NonEmpty
  returns : p.Returns (InTable l)

theorem Proper.after {l : XdpLink} {p p' : NfProg UInt32} (h : Proper l p) (ha : After p p') :
    Proper l p' := ⟨h.nonEmpty.after ha, h.returns.after ha⟩

theorem returns_mono {P Q : UInt32 → Prop} (hPQ : ∀ a, P a → Q a) {p : NfProg UInt32}
    (h : p.Returns P) : p.Returns Q := by
  induction p with
  | ret a => exact hPQ a h
  | panic => exact trivial
  | len k ih => exact fun n => ih n (h n)
  | sliceFrom offset len absent write present ihAbsent ihPresent =>
    exact ⟨ihAbsent h.1, fun bs => ihPresent bs (h.2 bs)⟩
  | get map key k ih => exact fun v => ih v (h v)
  | put map key value next ih => exact ih h
  | random k ih => exact fun n => ih n (h n)

theorem returns_true (p : NfProg UInt32) : p.Returns fun _ => True := by
  induction p with
  | ret a => exact trivial
  | panic => exact trivial
  | len k ih => exact ih
  | sliceFrom offset len absent write present ihAbsent ihPresent => exact ⟨ihAbsent, ihPresent⟩
  | get map key k ih => exact ih
  | put map key value next ih => exact ih
  | random k ih => exact ih

/-- The functions of a chain are proper. -/
theorem BuiltFrom.proper {T : CaseTable} {src : Uuid → Source} (h : BuiltFrom K T chain src)
    {l : XdpLink} (hl : l ∈ chain.links) : Proper l (src l.uuid).prog where
  nonEmpty := h.nonEmpty l hl
  returns := by
    cases hs : l.state with
    | tail =>
      exact returns_mono (fun out _ els hels => by rw [hs] at hels; cases hels) (returns_true _)
    | body els =>
      refine returns_mono (fun out hout els' hels' => ?_) (h.range l hl els hs)
      rw [hs] at hels'
      cases hels'
      exact hout

/-- States of the installed chain and of a journey in which a packet is at the same place, with what
is needed to go on from there. -/
inductive Tracks (chain : Protocol.Chain) (rt : Runtime σ) (cores : Nat) :
    Flow → Journey → Prop where
  | kernel {i : Nat} {l : XdpLink} {prog : Prog} {p : NfProg UInt32} (ctx : XdpContext)
      (hl : chain.links[i]? = some l) (hp : rt.st.linkedEbpfs.lookup l.uuid = some prog)
      (hproper : Proper l p) :
      Tracks chain rt cores (.kernel l.uuid prog.object p ctx) (.running l.uuid p ctx.contents)
  | socket {l : XdpLink} {core : UInt32} {metadata pkt : Bytes} (hl : l ∈ chain.links)
      (hcore : core.toNat < cores)
      (h : afterSocket rt.host rt.st metadata pkt = .user l.uuid pkt) :
      Tracks chain rt cores (.socket core metadata pkt) (.running l.uuid (rt.src l.uuid).prog pkt)
  | user {l : XdpLink} {core : UInt32} {p : NfProg UInt32} (pkt : Bytes) (hl : l ∈ chain.links)
      (hproper : Proper l p) :
      Tracks chain rt cores (.user core l.uuid p pkt) (.running l.uuid p pkt)
  | done (side : Side) (action : LinkAction) (pkt : Bytes) :
      Tracks chain rt cores (.ended (finish pkt action side)) (.done action pkt)
  | panicked : Tracks chain rt cores (.ended .panicked) .stuck

theorem Tracks.sameSpot {cores : Nat} {flow : Flow} {j : Journey}
    (h : Tracks chain rt cores flow j) :
    SameSpot rt flow j := by
  cases h with
  | kernel ctx hl hp hproper => exact .kernel ..
  | socket hl hcore h => exact .socket _ h
  | user pkt hl hproper => exact .user ..
  | done side action pkt => exact .done side action pkt
  | panicked => exact .panicked

/-- The action that a link has for an index, on a journey. -/
theorem Hosted.leave (h : Hosted K dlopen chain config xsks rt) {l : XdpLink} (hl : l ∈ chain.links)
    {out : UInt32} {a : LinkAction} (ha : l.state.act out = some a) (pkt : Bytes) :
    Journey.leave chain.links rt.src l.uuid (.ret out) pkt = Journey.follow rt.src pkt a := by
  simp only [Journey.leave, returned, Option.bind_some, stateOf_mem h.wf.nodup hl, ha]

/-- From a function in the kernel a packet goes where its journey does. -/
theorem Hosted.leaveKernel (h : Hosted K dlopen chain config xsks rt) {i : Nat} {l : XdpLink}
    (hl : chain.links[i]? = some l) {prog : Prog}
    (hp : rt.st.linkedEbpfs.lookup l.uuid = some prog) {out : UInt32} {a : LinkAction}
    (ha : l.state.act out = some a) (ctx : XdpContext) (r : UInt32) :
    Tracks chain rt config.xdpCores.toNat (rt.leaveKernel prog.object (.ret out) ctx r)
      (Journey.follow rt.src ctx.contents a) := by
  have hmem := List.mem_of_getElem? hl
  simp only [Runtime.leaveKernel, returned, h.exit hl hp ha]
  cases hs : l.state with
  | tail =>
    rw [hs] at ha
    obtain rfl : LinkAction.tx = a := Option.some.inj ha
    exact .done .kernel .tx _
  | body els =>
    rw [hs] at ha
    cases a with
    | upcall id =>
      obtain ⟨core, xsk, metadata, hcore, harm, hsock⟩ := h.upcall hl hp hs ha r
      obtain ⟨l', hl', rfl⟩ := h.wf.targets l hmem els hs _ (List.mem_of_getElem? ha) id rfl
      simp only [armOf, harm, Runtime.afterExit]
      exact .socket hl' hcore (hsock _)
    | tailcall id =>
      obtain ⟨j, l', p', hj, rfl, hp', harm⟩ := h.tailcall hl hp hs ha
      simp only [armOf, harm, Runtime.afterExit, h.atProgram hp']
      exact .kernel ctx hj hp' (h.built.proper (List.mem_of_getElem? hj))
    | tx => exact .done .kernel .tx _
    | drop => exact .done .kernel .drop _
    | abort => exact .done .kernel .abort _
    | pass => exact .done .kernel .pass _

/-- From a function in userland a packet goes where its journey does. -/
theorem Hosted.leaveUser (h : Hosted K dlopen chain config xsks rt) {l : XdpLink}
    (hl : l ∈ chain.links) {out : UInt32} {a : LinkAction} (ha : l.state.act out = some a)
    (core : UInt32) (pkt : Bytes) :
    Tracks chain rt config.xdpCores.toNat (rt.leaveUser core l.uuid (.ret out) pkt)
      (Journey.follow rt.src pkt a) := by
  have hact : userAction rt.st l.uuid out.toNat = some a := by
    rw [userAction, h.inst.states l hl, Option.bind_some, UInt32.ofNat_toNat, ha]
  have hnext : ∀ id, a.nextNf = some id → ∃ l' ∈ chain.links, l'.uuid = id := by
    intro id hid
    cases hs : l.state with
    | tail =>
      rw [hs] at ha
      obtain rfl : LinkAction.tx = a := Option.some.inj ha
      cases hid
    | body els =>
      rw [hs] at ha
      exact h.wf.targets l hl els hs a (List.mem_of_getElem? ha) id hid
  have hcall : ∀ id, a.nextNf = some id →
      Tracks chain rt config.xdpCores.toNat (rt.ofSys core (.user id pkt))
        (.running id (rt.src id).prog pkt) := by
    intro id hid
    obtain ⟨l', hl', rfl⟩ := hnext id hid
    simp only [Runtime.ofSys, h.atFunction hl']
    exact .user pkt hl' (h.built.proper hl')
  simp only [Runtime.leaveUser, returned, hact]
  cases a with
  | upcall id => exact hcall id rfl
  | tailcall id => exact hcall id rfl
  | tx => exact .done .user .tx pkt
  | drop => exact .done .user .drop pkt
  | abort => exact .done .user .abort pkt
  | pass => exact .done .user .pass pkt

/-- **Step lemma**: whatever a packet does, it does it on its journey. -/
theorem Hosted.refine (h : Hosted K dlopen chain config xsks rt) {flow flow' : Flow} {j : Journey}
    {m m' : σ} {r : UInt32} (hf : Tracks chain rt config.xdpCores.toNat flow j)
    (hstep : rt.step flow m r = some (flow', m')) :
    (m' = m ∧ Tracks chain rt config.xdpCores.toNat flow' j) ∨
      ∃ j', Journey.step chain.links rt.src rt.maps
        (fun u => userMaps rt.st u (rt.src u).fields) j m r = some (j', m') ∧
        Tracks chain rt config.xdpCores.toNat flow' j' := by
  cases hf with
  | @kernel i l prog p ctx hl hp hproper =>
    refine Or.inr ?_
    have hmem := List.mem_of_getElem? hl
    simp only [Runtime.step, h.kernelMaps_eq hmem hp] at hstep
    simp only [Journey.step]
    have hsame := stepUser_contents (R := rt.redbpf)
      (H := rt.maps.host (userMaps rt.st l.uuid (rt.src l.uuid).fields) r) hproper.nonEmpty ctx m
    cases hk : stepKernel rt.redbpf (rt.maps.host (userMaps rt.st l.uuid (rt.src l.uuid).fields) r) p
        ctx m with
    | some s =>
      rw [hk, Option.map_some] at hsame
      rw [hk] at hstep
      obtain ⟨rfl, rfl⟩ := Prod.mk.inj (Option.some.inj hstep)
      rw [hsame]
      exact ⟨_, rfl, .kernel _ hl hp (hproper.after (after_of_stepUser hsame))⟩
    | none =>
      rw [hk, Option.map_none] at hsame
      rw [hk] at hstep
      obtain ⟨rfl, rfl⟩ := Prod.mk.inj (Option.some.inj hstep)
      rw [hsame]
      refine ⟨_, rfl, ?_⟩
      rcases eq_of_stepUser_none hsame with ⟨out, rfl⟩ | rfl
      · obtain ⟨a, ha⟩ := InTable.act hproper.returns
        rw [h.leave hmem ha]
        exact h.leaveKernel hl hp ha ctx r
      · exact .panicked
  | @socket l core metadata pkt hl hcore hsock =>
    simp only [Runtime.step, hsock, Runtime.ofSys, h.atFunction hl] at hstep
    obtain ⟨rfl, rfl⟩ := Prod.mk.inj (Option.some.inj hstep)
    exact Or.inl ⟨rfl, .user pkt hl (h.built.proper hl)⟩
  | @user l core p pkt hl hproper =>
    refine Or.inr ?_
    simp only [Runtime.step] at hstep
    simp only [Journey.step]
    cases hk : stepUser (rt.maps.host (userMaps rt.st l.uuid (rt.src l.uuid).fields) r) p pkt m with
    | some s =>
      rw [hk] at hstep
      obtain ⟨rfl, rfl⟩ := Prod.mk.inj (Option.some.inj hstep)
      exact ⟨_, rfl, .user _ hl (hproper.after (after_of_stepUser hk))⟩
    | none =>
      rw [hk] at hstep
      obtain ⟨rfl, rfl⟩ := Prod.mk.inj (Option.some.inj hstep)
      refine ⟨_, rfl, ?_⟩
      rcases eq_of_stepUser_none hk with ⟨out, rfl⟩ | rfl
      · obtain ⟨a, ha⟩ := InTable.act hproper.returns
        rw [h.leave hl ha]
        exact h.leaveUser hl ha core pkt
      · exact .panicked
  | done side action pkt => cases hstep
  | panicked => cases hstep

/-! ## Threads -/

/-- The thread that a packet has been sent to. -/
def Flow.core : Flow → Option UInt32
  | .socket core _ _ => some core
  | .user core _ _ _ => some core
  | _ => none

/-- The packets of a batch that are not sorted yet. -/
def Duty.todo {ι : Type} : Duty ι → List ι
  | .batch todo => todo
  | _ => []

/-- What can become of a packet on a thread. -/
inductive Flow.Userland (core : UInt32) : Flow → Prop where
  | user (uuid : Uuid) (p : NfProg UInt32) (pkt : Bytes) : Userland core (.user core uuid p pkt)
  | sorted (doTx : Bool) (pkt : Bytes) : Userland core (.ended (.sorted doTx pkt))
  | panicked : Userland core (.ended .panicked)

theorem atFunction_userland (rt : Runtime σ) (core : UInt32) (uuid : Uuid) (pkt : Bytes) :
    (rt.atFunction core uuid pkt).Userland core := by
  unfold Runtime.atFunction
  split
  · exact .panicked
  · split
    · exact .user ..
    · exact .user ..

theorem ofSys_userland (rt : Runtime σ) (core : UInt32) {sys : Sys} (h : sys.InLoop) :
    (rt.ofSys core sys).Userland core := by
  cases sys with
  | user uuid pkt => exact atFunction_userland rt core uuid pkt
  | sorted doTx pkt => exact .sorted doTx pkt
  | panicked => exact .panicked
  | _ => exact h.elim

theorem afterSocket_inLoop (host : Host) (st : ChainState) (metadata pkt : Bytes) :
    (afterSocket host st metadata pkt).InLoop := by
  unfold afterSocket
  split
  · trivial
  · split <;> trivial

/-- A packet on a thread stays there. -/
theorem step_userland {flow flow' : Flow} {core : UInt32} {m m' : σ} {r : UInt32}
    (hcore : flow.core = some core) (h : rt.step flow m r = some (flow', m')) :
    flow'.Userland core := by
  cases flow with
  | kernel uuid obj p ctx => cases hcore
  | ended sys => cases hcore
  | socket c metadata pkt =>
    obtain rfl : c = core := Option.some.inj hcore
    obtain ⟨rfl, -⟩ := Prod.mk.inj (Option.some.inj h)
    exact ofSys_userland rt c (afterSocket_inLoop _ _ _ _)
  | user c uuid p pkt =>
    obtain rfl : c = core := Option.some.inj hcore
    simp only [Runtime.step] at h
    split at h
    · obtain ⟨rfl, -⟩ := Prod.mk.inj (Option.some.inj h)
      exact .user ..
    · obtain ⟨rfl, -⟩ := Prod.mk.inj (Option.some.inj h)
      unfold Runtime.leaveUser
      split
      · exact ofSys_userland rt c (afterUser_inLoop _ _)
      · exact .panicked

/-- A packet in the kernel does not get into a function on a thread without being received. -/
theorem step_kernel_runsOn {uuid : Uuid} {obj : Object} {p : NfProg UInt32} {ctx : XdpContext}
    {flow' : Flow} {m m' : σ} {r : UInt32}
    (h : rt.step (.kernel uuid obj p ctx) m r = some (flow', m'))
    (core : UInt32) : ¬ flow'.RunsOn core := by
  simp only [Runtime.step] at h
  split at h
  · obtain ⟨rfl, -⟩ := Prod.mk.inj (Option.some.inj h)
    exact id
  · obtain ⟨rfl, -⟩ := Prod.mk.inj (Option.some.inj h)
    unfold Runtime.leaveKernel
    split
    · unfold Runtime.afterExit
      split
      · unfold Runtime.atProgram
        split <;> exact id
      · exact id
      · exact id
    · exact id

section Threads

variable {ι : Type} {s s' : Traffic ι σ}

/-- A step of everything: a packet in the kernel moves, a thread receives packets, a thread that has
none stops or waits, or the first packet of a batch moves. -/
theorem advance_cases [DecidableEq ι] {e : Traffic.Event ι} (h : rt.advance s e = some s') :
    (∃ i r room flow m, (s.flow i).core = none ∧ (∀ core, ¬ flow.RunsOn core) ∧
      rt.step (s.flow i) s.maps r = some (flow, m) ∧ s' = (s.move i flow m).deliver i room flow) ∨
    (∃ core n, s.duty core = .polling ∧
      s' = { s.setDuty core (.batch ((s.queue core).take n)) with
        queue := Function.update s.queue core ((s.queue core).drop n) }) ∨
    (∃ core d, (s.duty core).todo = [] ∧ d.todo = [] ∧ d ≠ .panicked ∧ s' = s.setDuty core d) ∨
    ∃ core r i others flow m, s.duty core = .batch (i :: others) ∧
      rt.step (s.flow i) s.maps r = some (flow, m) ∧
      s' = (s.move i flow m).setDuty core (.afterMove i others flow) := by
  cases e with
  | kernel i r room =>
    simp only [Runtime.advance] at h
    split at h
    · rename_i uuid obj p ctx hflow
      obtain ⟨⟨flow, m⟩, hstep, rfl⟩ := Option.map_eq_some_iff.1 h
      exact Or.inl ⟨i, r, room, flow, m, by rw [hflow]; rfl,
        step_kernel_runsOn (hflow ▸ hstep), hstep, rfl⟩
    · cases h
  | poll core n =>
    simp only [Runtime.advance] at h
    split at h
    · rename_i hduty
      split at h
      · exact Or.inr (Or.inl ⟨core, n, hduty, (Option.some.inj h).symm⟩)
      · cases h
    · cases h
  | stop core =>
    simp only [Runtime.advance] at h
    split at h
    · rename_i hduty
      exact Or.inr (Or.inr (Or.inl ⟨core, .stopped, by rw [hduty]; rfl, rfl, by simp,
        (Option.some.inj h).symm⟩))
    · cases h
  | work core r =>
    simp only [Runtime.advance] at h
    split at h
    · rename_i hduty
      exact Or.inr (Or.inr (Or.inl ⟨core, .polling, by rw [hduty]; rfl, rfl, by simp,
        (Option.some.inj h).symm⟩))
    · rename_i i others hduty
      obtain ⟨⟨flow, m⟩, hstep, rfl⟩ := Option.map_eq_some_iff.1 h
      exact Or.inr (Or.inr (Or.inr ⟨core, r, i, others, flow, m, hduty, hstep, rfl⟩))
    · cases h

namespace Traffic

/-- The packets of a thread: those of its batch, and those in its socket. -/
def line (s : Traffic ι σ) (core : UInt32) : List ι := (s.duty core).todo ++ s.queue core

/-- Each packet is in the line of its thread at most, and only the first one can be in a
function. -/
structure Orderly (s : Traffic ι σ) : Prop where
  cores : ∀ core, ∀ i ∈ s.line core, (s.flow i).core = some core
  nodup : ∀ core, (s.line core).Nodup
  first : ∀ i core, (s.flow i).RunsOn core → ∃ others, s.duty core = .batch (i :: others)

/-- One packet at a time. -/
theorem Orderly.unique (h : s.Orderly) {i j : ι} {core : UInt32} (hi : (s.flow i).RunsOn core)
    (hj : (s.flow j).RunsOn core) : i = j := by
  obtain ⟨others, hduty⟩ := h.first i core hi
  obtain ⟨others', hduty'⟩ := h.first j core hj
  exact (List.cons.inj (Duty.batch.inj (hduty.symm.trans hduty'))).1

/-- A thread goes on with packets that are in its line, none of which is in a function. -/
theorem Orderly.setDuty (h : s.Orderly) {core : UInt32}
    (hidle : ∀ i others, s.duty core ≠ .batch (i :: others))
    {d : Duty ι} {queue : List ι} (hline : d.todo ++ queue = s.line core) :
    Orderly { s.setDuty core d with queue := Function.update s.queue core queue } := by
  have hlines : ∀ c, Traffic.line { s.setDuty core d with
      queue := Function.update s.queue core queue } c = s.line c := by
    intro c
    by_cases hc : c = core
    · subst hc
      simp only [line, Traffic.setDuty, Function.update_self]
      exact hline
    · simp only [line, Traffic.setDuty, Function.update_of_ne hc]
  refine ⟨fun c i hi => h.cores c i (hlines c ▸ hi), fun c => by rw [hlines]; exact h.nodup c,
    fun i c hruns => ?_⟩
  obtain ⟨others, hduty⟩ := h.first i c hruns
  have hc : c ≠ core := by
    rintro rfl
    exact hidle i others hduty
  exact ⟨others, by simp only [Traffic.setDuty, Function.update_of_ne hc, hduty]⟩

/-- A packet that is in no line joins that of its thread. -/
theorem Orderly.join (h : s.Orderly) {i : ι} {core : UInt32} (hcore : (s.flow i).core = some core)
    (hnew : i ∉ s.line core) :
    Orderly { s with queue := Function.update s.queue core (s.queue core ++ [i]) } := by
  have hline : ∀ c,
      Traffic.line { s with queue := Function.update s.queue core (s.queue core ++ [i]) } c =
      if c = core then s.line core ++ [i] else s.line c := by
    intro c
    by_cases hc : c = core
    · subst hc
      rw [if_pos rfl]
      simp only [line, Function.update_self, List.append_assoc]
    · rw [if_neg hc]
      simp only [line, Function.update_of_ne hc]
  refine ⟨fun c j hj => ?_, fun c => ?_, h.first⟩
  · rw [hline] at hj
    by_cases hc : c = core
    · subst hc
      rw [if_pos rfl] at hj
      rcases List.mem_append.1 hj with hj | hj
      · exact h.cores c j hj
      · obtain rfl := List.mem_singleton.1 hj
        exact hcore
    · rw [if_neg hc] at hj
      exact h.cores c j hj
  · rw [hline]
    by_cases hc : c = core
    · subst hc
      rw [if_pos rfl]
      exact (h.nodup c).append (List.nodup_singleton i) (List.disjoint_singleton.2 hnew)
    · rw [if_neg hc]
      exact h.nodup c

theorem orderly_arrived (rt : Runtime σ) (cores : Nat) (fd : Fd) (ctx : ι → XdpContext) (m₀ : σ) :
    (rt.arrived cores fd ctx m₀).Orderly := by
  have hline : ∀ c, (rt.arrived cores fd ctx m₀).line c = [] := by
    intro c
    simp only [line, Runtime.arrived]
    split <;> rfl
  refine ⟨fun c i hi => ?_, fun c => by rw [hline]; exact List.nodup_nil, fun i c hruns => ?_⟩
  · rw [hline] at hi
    cases hi
  · simp only [Runtime.arrived, Runtime.atProgram] at hruns
    split at hruns
    · exact hruns.elim
    · exact hruns.elim

variable [DecidableEq ι]

/-- A packet in the kernel moves, and maybe joins a line. -/
theorem Orderly.kernel (h : s.Orderly) {i : ι} {flow : Flow} {m : σ} (room : Bool)
    (hcore : (s.flow i).core = none) (hruns : ∀ core, ¬ flow.RunsOn core) :
    ((s.move i flow m).deliver i room flow).Orderly := by
  have hnew : ∀ c, i ∉ s.line c := by
    intro c hi
    rw [h.cores c i hi] at hcore
    cases hcore
  have hstay : (s.move i flow m).Orderly := by
    refine ⟨fun c j hj => ?_, h.nodup, fun j c hj => ?_⟩
    · have hji : j ≠ i := by
        rintro rfl
        exact hnew c hj
      simp only [move, Function.update_of_ne hji]
      exact h.cores c j hj
    · by_cases hji : j = i
      · subst hji
        simp only [move, Function.update_self] at hj
        exact absurd hj (hruns c)
      · simp only [move, Function.update_of_ne hji] at hj
        exact h.first j c hj
  unfold deliver
  split
  · rename_i core metadata pkt
    split
    · exact hstay.join (by simp only [move, Function.update_self]; rfl) (hnew core)
    · exact hstay
  · exact hstay

/-- The first packet of a batch moves. What is left of the batch is a part of it. -/
theorem Orderly.work (h : s.Orderly) {core : UInt32} {i : ι} {others : List ι} {flow : Flow} {m : σ}
    {d : Duty ι} (hduty : s.duty core = .batch (i :: others)) (hsub : d.todo.Subperm (i :: others))
    (hi : i ∈ d.todo → flow.core = some core)
    (hruns : ∀ c, flow.RunsOn c → c = core ∧ d = .batch (i :: others)) :
    ((s.move i flow m).setDuty core d).Orderly := by
  have hline : s.line core = i :: others ++ s.queue core := by
    rw [line, hduty]
    rfl
  have hfirst : i ∈ s.line core := by
    rw [hline]
    exact List.mem_cons_self ..
  have hcore := h.cores core i hfirst
  obtain ⟨l, hperm, hl⟩ := hsub
  have hnow : Traffic.line ((s.move i flow m).setDuty core d) core = d.todo ++ s.queue core := by
    simp only [line, Traffic.setDuty, move, Function.update_self]
  have hothers : ∀ c, c ≠ core → Traffic.line ((s.move i flow m).setDuty core d) c = s.line c := by
    intro c hc
    simp only [line, Traffic.setDuty, move, Function.update_of_ne hc]
  have hflow : ∀ j, j ≠ i → ((s.move i flow m).setDuty core d).flow j = s.flow j := fun j hji =>
    Function.update_of_ne hji _ _
  have hmoved : ((s.move i flow m).setDuty core d).flow i = flow := Function.update_self ..
  refine ⟨fun c j hj => ?_, fun c => ?_, fun j c hj => ?_⟩
  · by_cases hc : c = core
    · subst hc
      rw [hnow] at hj
      by_cases hji : j = i
      · subst hji
        rw [hmoved]
        rcases List.mem_append.1 hj with hj | hj
        · exact hi hj
        · -- the first packet of the batch is not in the socket as well
          have hnodup := h.nodup c
          rw [hline, List.cons_append] at hnodup
          exact absurd (List.mem_append_right _ hj) (List.nodup_cons.1 hnodup).1
      · rw [hflow j hji]
        refine h.cores c j (hline ▸ ?_)
        rcases List.mem_append.1 hj with hj | hj
        · exact List.mem_append_left _ (hl.subset (hperm.mem_iff.2 hj))
        · exact List.mem_append_right _ hj
    · rw [hothers c hc] at hj
      have hji : j ≠ i := by
        rintro rfl
        exact hc (Option.some.inj ((h.cores c j hj).symm.trans hcore))
      rw [hflow j hji]
      exact h.cores c j hj
  · by_cases hc : c = core
    · subst hc
      have hnodup := h.nodup c
      rw [hline] at hnodup
      rw [hnow]
      exact (hperm.append_right _).nodup_iff.1 (hnodup.sublist (hl.append_right _))
    · rw [hothers c hc]
      exact h.nodup c
  · by_cases hji : j = i
    · subst hji
      rw [hmoved] at hj
      obtain ⟨rfl, rfl⟩ := hruns c hj
      exact ⟨others, Function.update_self ..⟩
    · rw [hflow j hji] at hj
      obtain ⟨others', hduty'⟩ := h.first j c hj
      have hc : c ≠ core := by
        rintro rfl
        exact hji (List.cons.inj (Duty.batch.inj (hduty'.symm.trans hduty))).1
      exact ⟨others', (Function.update_of_ne hc _ _).trans hduty'⟩

/-- **Step lemma**: every step keeps the packets in order. -/
theorem Orderly.advance (h : s.Orderly) {e : Event ι} (hstep : rt.advance s e = some s') :
    s'.Orderly := by
  rcases advance_cases hstep with ⟨i, r, room, flow, m, hcore, hruns, -, rfl⟩ |
    ⟨core, n, hduty, rfl⟩ | ⟨core, d, hnone, hd, -, rfl⟩ |
    ⟨core, r, i, others, flow, m, hduty, hmove, rfl⟩
  · exact h.kernel room hcore hruns
  · refine h.setDuty (by simp [hduty]) ?_
    rw [line, hduty]
    exact List.take_append_drop n (s.queue core)
  · have hidle : ∀ i others, s.duty core ≠ .batch (i :: others) := by
      intro i others hduty
      rw [hduty] at hnone
      cases hnone
    have hline : d.todo ++ s.queue core = s.line core := by
      rw [line, hnone, hd]
    have hkeep := h.setDuty hidle hline
    rwa [Function.update_eq_self] at hkeep
  · have hfirst : i ∈ s.line core := by
      rw [line, hduty]
      exact List.mem_cons_self ..
    cases step_userland (h.cores core i hfirst) hmove with
    | user uuid p pkt =>
      exact h.work hduty (List.Subperm.refl _) (fun _ => rfl) fun c hc => ⟨hc.symm, rfl⟩
    | sorted doTx pkt =>
      have hnodup := h.nodup core
      rw [line, hduty] at hnodup
      have hnotin : i ∉ others := fun hi =>
        (List.nodup_cons.1 hnodup).1 (List.mem_append_left _ hi)
      refine h.work hduty ?_ (fun hi => absurd ((leftover_perm doTx others).subset hi) hnotin)
        fun c hc => hc.elim
      exact (leftover_perm doTx others).subperm.trans (List.sublist_cons_self i others).subperm
    | panicked =>
      exact h.work hduty (List.nil_subperm) (fun hi => absurd hi List.not_mem_nil) fun c hc => hc.elim

end Traffic

end Threads

/-! ## Packets on journeys -/

/-- A packet whose thread has panicked is stuck. -/
theorem Tracks.stuck {cores : Nat} {j : Journey} (h : Tracks chain rt cores (.ended .panicked) j) :
    j = .stuck := by
  generalize hflow : Flow.ended .panicked = flow at h
  cases h with
  | done side action pkt =>
    cases side with
    | kernel => cases hflow
    | user => cases hflow
  | panicked => rfl
  | _ => cases hflow

/-- Everything is where it would be on journeys. -/
structure OnJourneys {ι : Type} (chain : Protocol.Chain) (rt : Runtime σ) (cores : Nat)
    (s : Traffic ι σ) (journeys : ι → Journey) : Prop where
  orderly : s.Orderly
  tracks : ∀ i, Tracks chain rt cores (s.flow i) (journeys i)
  alive : ∀ core, s.duty core = .panicked → ∃ i, journeys i = .stuck

/-- One packet moves, and its journey with it. -/
theorem tracks_update {ι : Type} [DecidableEq ι] {cores : Nat} {flows : ι → Flow}
    {journeys : ι → Journey} {i : ι} {flow : Flow} {j : Journey}
    (h : ∀ i, Tracks chain rt cores (flows i) (journeys i)) (hmoved : Tracks chain rt cores flow j)
    (k : ι) :
    Tracks chain rt cores (Function.update flows i flow k) (Function.update journeys i j k) := by
  by_cases hk : k = i
  · subst hk
    rw [Function.update_self, Function.update_self]
    exact hmoved
  · rw [Function.update_of_ne hk, Function.update_of_ne hk]
    exact h k

/-- A journey that is stuck stays stuck. -/
theorem stuck_update {ι : Type} [DecidableEq ι] {journeys : ι → Journey} {i : ι} {j : Journey}
    (hmove : j = journeys i ∨ journeys i ≠ .stuck) (h : ∃ k, journeys k = .stuck) :
    ∃ k, Function.update journeys i j k = .stuck := by
  obtain ⟨k, hk⟩ := h
  refine ⟨k, ?_⟩
  by_cases hki : k = i
  · subst hki
    rw [Function.update_self]
    rcases hmove with rfl | hno
    · exact hk
    · exact absurd hk hno
  · rwa [Function.update_of_ne hki]

/-- **Step lemma**: a step of everything is a step on one of the journeys, or none. -/
theorem Hosted.advance (h : Hosted K dlopen chain config xsks rt) {ι : Type} [DecidableEq ι]
    {s s' : Traffic ι σ} {e : Traffic.Event ι} {journeys : ι → Journey}
    (hs : OnJourneys chain rt config.xdpCores.toNat s journeys) (hstep : rt.advance s e = some s') :
    (s'.maps = s.maps ∧ OnJourneys chain rt config.xdpCores.toNat s' journeys) ∨
      ∃ i r j, Journey.step chain.links rt.src rt.maps (fun u => userMaps rt.st u (rt.src u).fields)
          (journeys i) s.maps r = some (j, s'.maps) ∧
        OnJourneys chain rt config.xdpCores.toNat s' (Function.update journeys i j) := by
  have horderly : s'.Orderly := hs.orderly.advance hstep
  -- the packet that moves, if one does
  have hmove : ∀ {i flow m r}, rt.step (s.flow i) s.maps r = some (flow, m) → s'.maps = m →
      s'.flow = Function.update s.flow i flow →
      (∀ core, s'.duty core = .panicked → s.duty core = .panicked ∨ flow = .ended .panicked) →
      (s'.maps = s.maps ∧ OnJourneys chain rt config.xdpCores.toNat s' journeys) ∨
        ∃ i r j, Journey.step chain.links rt.src rt.maps (fun u => userMaps rt.st u (rt.src u).fields)
            (journeys i) s.maps r = some (j, s'.maps) ∧
          OnJourneys chain rt config.xdpCores.toNat s' (Function.update journeys i j) := by
    intro i flow m r hpacket hmaps hflow hduty
    have halive : ∀ j, (j = journeys i ∨ journeys i ≠ .stuck) →
        Tracks chain rt config.xdpCores.toNat flow j →
        OnJourneys chain rt config.xdpCores.toNat s' (Function.update journeys i j) := by
      intro j hj htracks
      refine ⟨horderly, hflow ▸ tracks_update hs.tracks htracks, fun core hcore => ?_⟩
      rcases hduty core hcore with hbefore | rfl
      · exact stuck_update hj (hs.alive core hbefore)
      · exact ⟨i, (Function.update_self ..).trans htracks.stuck⟩
    rcases h.refine (hs.tracks i) hpacket with ⟨rfl, htracks⟩ | ⟨j, hj, htracks⟩
    · refine Or.inl ⟨hmaps, ?_⟩
      have := halive (journeys i) (Or.inl rfl) htracks
      rwa [Function.update_eq_self] at this
    · refine Or.inr ⟨i, r, j, hmaps ▸ hj, halive j (Or.inr fun hstuck => ?_) htracks⟩
      rw [hstuck] at hj
      cases hj
  rcases advance_cases hstep with ⟨i, r, room, flow, m, -, -, hpacket, rfl⟩ |
    ⟨core, n, hduty, rfl⟩ | ⟨core, d, -, -, hd, rfl⟩ |
    ⟨core, r, i, others, flow, m, hduty, hpacket, rfl⟩
  · have hsame : ((s.move i flow m).deliver i room flow).maps = m ∧
        ((s.move i flow m).deliver i room flow).flow = Function.update s.flow i flow ∧
        ((s.move i flow m).deliver i room flow).duty = s.duty := by
      unfold Traffic.deliver
      split
      · split <;> exact ⟨rfl, rfl, rfl⟩
      · exact ⟨rfl, rfl, rfl⟩
    exact hmove hpacket hsame.1 hsame.2.1 fun core hcore => Or.inl (hsame.2.2 ▸ hcore)
  · refine Or.inl ⟨rfl, horderly, hs.tracks, fun c hc => hs.alive c ?_⟩
    by_cases hcc : c = core
    · subst hcc
      simp [Traffic.setDuty] at hc
    · simpa only [Traffic.setDuty, Function.update_of_ne hcc] using hc
  · refine Or.inl ⟨rfl, horderly, hs.tracks, fun c hc => hs.alive c ?_⟩
    by_cases hcc : c = core
    · subst hcc
      simp only [Traffic.setDuty, Function.update_self] at hc
      exact absurd hc hd
    · simpa only [Traffic.setDuty, Function.update_of_ne hcc] using hc
  · refine hmove hpacket rfl rfl fun c hc => ?_
    have hfirst : i ∈ s.line core := by
      rw [Traffic.line, hduty]
      exact List.mem_cons_self ..
    by_cases hcc : c = core
    · subst hcc
      simp only [Traffic.setDuty, Function.update_self] at hc
      cases step_userland (hs.orderly.cores c i hfirst) hpacket with
      | user uuid p pkt => cases hc
      | sorted doTx pkt => cases hc
      | panicked => exact Or.inr rfl
    · exact Or.inl (by simpa only [Traffic.setDuty, Traffic.move, Function.update_of_ne hcc] using hc)

/-- **Packets in flight are on journeys.** Let any number of packets arrive at an installed chain,
and let the kernel run its programs on them, and the threads their batches, in any order of single
steps. Then each packet is where it would be if functions had no places, on a journey along the
links of the chain; and all maps are as the journeys would have left them. A thread has panicked
only if one of the journeys is stuck. No two packets are in functions on one thread at a time, and
upcalled packets are sent to threads that there are. -/
theorem traffic_on_journeys (rt : Runtime σ) {ι : Type} [DecidableEq ι] {n : UInt32}
    {socket : Nat → Fd} {root : XdpLink} (hwf : WellFormed chain)
    (hbuilt : BuiltFrom K rt.cases chain rt.src) (hids : DistinctIds chain)
    (hcores : config.xdpCores = clampCores n) (hmeta : rt.host.adjustMeta = true)
    (hinst : installChain K chain config (createUpcallSockets socket config) = .ok rt.st)
    (hlibs : loadDylibNfs dlopen chain.nfs = .ok rt.dylibs) (hmem : root ∈ chain.links)
    (hroot : root.root = true) (ctx : ι → XdpContext) (m₀ : σ) :
    ∃ fd, attachedFd rt.st = some fd ∧
      ∀ s : Traffic ι σ, rt.Reaches config.xdpCores.toNat fd ctx m₀ s →
        (∃ journeys, rt.Journeys chain root.uuid ctx m₀ journeys s.maps ∧
          (∀ i, SameSpot rt (s.flow i) (journeys i)) ∧
          ∀ core, s.duty core = .panicked → ∃ i, journeys i = .stuck) ∧
        (∀ i j core, (s.flow i).RunsOn core → (s.flow j).RunsOn core → i = j) ∧
        ∀ i core metadata pkt, s.flow i = .socket core metadata pkt →
          core.toNat < config.xdpCores.toNat := by
  have h : Hosted K dlopen chain config (createUpcallSockets socket config) rt :=
    { wf := hwf
      built := hbuilt
      ids := hids
      cores := by rw [hcores]; exact (clampCores_toNat n).1
      sockets := createUpcallSockets_length socket config
      headroom := hmeta
      inst := installed hwf.nodup hinst
      libs := hlibs }
  obtain ⟨l, hl, hlr, p, hp, hfd⟩ := h.inst.root
  obtain rfl : l = root := hwf.root.unique ⟨hl, hlr⟩ ⟨hmem, hroot⟩
  obtain ⟨i, hi⟩ := List.getElem?_of_mem hl
  have hstart : OnJourneys chain rt config.xdpCores.toNat
      (rt.arrived config.xdpCores.toNat p.object.fd ctx m₀)
      fun i => .running l.uuid (rt.src l.uuid).prog (ctx i).contents := by
    refine ⟨Traffic.orderly_arrived .., fun k => ?_, fun core hcore => ?_⟩
    · simp only [Runtime.arrived, h.atProgram hp]
      exact .kernel (ctx k) hi hp (hbuilt.proper hl)
    · simp only [Runtime.arrived] at hcore
      split at hcore <;> cases hcore
  refine ⟨p.object.fd, hfd, fun s hs => ?_⟩
  obtain ⟨journeys, hall, hon⟩ := hs.refine (OnJourneys chain rt config.xdpCores.toNat) Traffic.maps
    hstart fun _ _ _ _ hon hstep => h.advance hon hstep
  refine ⟨⟨journeys, hall, fun i => (hon.tracks i).sameSpot, hon.alive⟩,
    fun i j core => hon.orderly.unique, fun i core metadata pkt hflow => ?_⟩
  have htracks := hon.tracks i
  rw [hflow] at htracks
  generalize journeys i = j at htracks
  cases htracks with
  | socket hl hcore hsock => exact hcore

/-! ## An example -/

/-- A function that reads a byte. -/
def peek : Source where
  prog := .readFrom 0 1 (.ret 0) fun _ => .ret 0
  fields := []

theorem wideChain_builtFrom (T : CaseTable) : BuiltFrom wideBpf T (wideChain 3) fun _ => peek where
  ends l hl f e file hf he ho := ((wideChain_builds (by omega)).ends l hl f e file hf he ho).1
  links l hl f e file hf he ho := ((wideChain_builds (by omega)).links l hl f e file hf he ho).1
  fields l hl := by
    obtain ⟨i, -, rfl⟩ := mem_wideChain.1 hl
    rfl
  supplied l hl := by
    obtain ⟨i, -, rfl⟩ := mem_wideChain.1 hl
    exact Or.inl rfl
  names l hl n hn := by
    obtain ⟨i, -, rfl⟩ := mem_wideChain.1 hl
    cases hn
  nonEmpty l _ := ⟨by decide, trivial, fun _ => trivial⟩
  range l hl els hs := by
    have hpos : 0 < els.length := by
      obtain ⟨i, -, rfl⟩ := mem_wideChain.1 hl
      obtain ⟨-, rfl | rfl⟩ := wideLink_body hs <;> decide
    exact ⟨hpos, fun _ => hpos⟩

/-- Maps that are always empty. -/
def noMaps : KernelMaps Unit := ⟨fun _ _ _ => none, fun m _ _ _ => m⟩

theorem wideChain_on_journeys : ∃ (rt : Runtime Unit) (fd : Fd),
    installChain wideBpf (wideChain 3) wideCli (createUpcallSockets id wideCli) = .ok rt.st ∧
    attachedFd rt.st = some fd ∧
    ∀ s : Traffic (Fin 2) Unit, rt.Reaches wideCli.xdpCores.toNat fd (fun _ => zeros) () s →
      (∃ journeys, rt.Journeys (wideChain 3) 0 (fun _ => zeros) () journeys s.maps ∧
        (∀ i, SameSpot rt (s.flow i) (journeys i)) ∧
        ∀ core, s.duty core = .panicked → ∃ i, journeys i = .stuck) ∧
      ∀ core, (s.flow 0).RunsOn core → ¬ (s.flow 1).RunsOn core := by
  obtain ⟨st, hst⟩ := wideChain_installs (n := 3) (by omega) (by omega) wideSockets_le wideCli
  obtain ⟨dylibs, hd⟩ := wideChain_dylibs 3
  have hroot : wideLink 3 0 ∈ (wideChain 3).links := by decide
  obtain ⟨fd, hfd, htraffic⟩ := traffic_on_journeys (ι := Fin 2) (n := 3)
    ⟨wideHost, st, dylibs, asciiCase, redbpf, noMaps, fun _ => peek⟩
    (wideChain_wellFormed (by omega) (by omega)) (wideChain_builtFrom asciiCase)
    (distinctIds_of_length_le (by simp [wideChain])) rfl rfl hst hd hroot (by decide)
    (fun _ => zeros) ()
  refine ⟨_, fd, hst, hfd, fun s hs => ?_⟩
  obtain ⟨hjourneys, hunique, -⟩ := htraffic s hs
  exact ⟨hjourneys, fun core h0 h1 => absurd (hunique 0 1 core h0 h1) (by decide)⟩

/-! ## A packet on its own -/

section Alone

variable {σ : Type} {links : List XdpLink} {src : Uuid → Source} {M : KernelMaps σ}
  {own : Uuid → List (String × Fd)} {nf : Behaviour}

/-- What a function comes to, its packet comes to on a journey that nothing else interferes with. -/
theorem settles_of_function {uuid : Uuid} {s s' : NfProg UInt32 × Bytes × σ} {out : UInt32}
    (h : Settles (fun s r => stepUser (M.host (own uuid) r) s.1 s.2.1 s.2.2) s s')
    (hout : s'.1 = .ret out) {t : Journey × σ}
    (hrest : Settles (Journey.move links src M own)
      (Journey.leave links src uuid (.ret out) s'.2.1, s'.2.2) t) :
    Settles (Journey.move links src M own) (.running uuid s.1 s.2.1, s.2.2) t := by
  induction h with
  | @final s hno =>
    obtain ⟨p, pkt, m⟩ := s
    obtain rfl : p = .ret out := hout
    have hleave : ∀ r, Journey.move links src M own (.running uuid (.ret out) pkt, m) r =
        some (Journey.leave links src uuid (.ret out) pkt, m) := fun r => rfl
    refine .step ⟨0, _, hleave 0⟩ fun r u hu => ?_
    obtain rfl := Option.some.inj ((hleave r).symm.trans hu)
    exact hrest
  | @step s s' hgo _ ih =>
    obtain ⟨p, pkt, m⟩ := s
    have hsome : ∀ r, stepUser (M.host (own uuid) r) p pkt m ≠ none := by
      intro r hnone
      obtain ⟨r', u, hu⟩ := hgo
      rcases eq_of_stepUser_none hnone with ⟨a, rfl⟩ | rfl
      · cases hu
      · cases hu
    have hmove : ∀ r, ∃ p' pkt' m', stepUser (M.host (own uuid) r) p pkt m = some (p', pkt', m') ∧
        Journey.move links src M own (.running uuid p pkt, m) r =
          some (.running uuid p' pkt', m') := by
      intro r
      obtain ⟨⟨p', pkt', m'⟩, hstep⟩ := Option.ne_none_iff_exists'.1 (hsome r)
      exact ⟨p', pkt', m', hstep, by simp only [Journey.move, Journey.step, hstep]⟩
    refine .step ?_ fun r u hu => ?_
    · obtain ⟨p', pkt', m', -, hrun⟩ := hmove 0
      exact ⟨0, _, hrun⟩
    · obtain ⟨p', pkt', m', hstep, hrun⟩ := hmove r
      obtain rfl := Option.some.inj (hrun.symm.trans hu)
      exact ih r (p', pkt', m') hstep hout hrest

/-- Where a function leads on a journey it leads on a walk. -/
theorem leave_eq_ofWalk {uuid : Uuid} {pkt : Bytes} {o : Option (Uuid × Bytes)} {w : Walk}
    (hstep : walkStep nf links (.at uuid pkt) = some (o, w)) :
    Journey.leave links src uuid (.ret (nf uuid pkt).2) (nf uuid pkt).1 = Journey.ofWalk src w := by
  simp only [walkStep, chosen, Option.some.injEq, Prod.mk.injEq] at hstep
  obtain ⟨-, rfl⟩ := hstep
  simp only [Journey.leave, returned, Option.bind_some]
  cases (stateOf links uuid).bind fun s => s.act (nf uuid pkt).2 with
  | none => rfl
  | some action =>
    simp only [Journey.follow, afterAction]
    cases action.nextNf <;> rfl

/-- Along a walk that ends all journeys come to its end. -/
theorem settles_of_walk (hpure : ∀ uuid, Computes M (own uuid) (src uuid).prog (nf uuid)) (m : σ)
    {k : Nat} {v w : Walk} {trace : List (Uuid × Bytes)}
    (hrun : (walk nf links).run k v = (trace, w)) (hfinal : (walk nf links).step w = none) :
    Settles (Journey.move links src M own) (Journey.ofWalk src v, m) (Journey.ofWalk src w, m) := by
  induction k generalizing v trace with
  | zero =>
    obtain rfl : v = w := (Prod.mk.inj hrun).2
    cases v with
    | «at» uuid pkt => cases hfinal
    | done action pkt => exact .final fun r => rfl
    | stuck => exact .final fun r => rfl
  | succ k ih =>
    cases hs : (walk nf links).step v with
    | none =>
      rw [Machine.run_final _ hs] at hrun
      exact ih (by rw [Machine.run_final _ hs]; exact hrun)
    | some p =>
      obtain ⟨o, v'⟩ := p
      rw [Machine.run_succ _ hs] at hrun
      cases v with
      | «at» uuid pkt =>
        refine settles_of_function (hpure uuid pkt m) rfl ?_
        rw [leave_eq_ofWalk hs]
        exact ih (Prod.ext rfl (Prod.mk.inj hrun).2)
      | done action pkt => cases hs
      | stuck => cases hs

/-- **A packet on its own walks.** If the functions of a chain compute `nf`, whatever numbers they
draw and whatever is in the maps, then the journey of a packet that no other packet interferes with
is the walk of the chain: if the walk ends, the journey cannot go on forever, and wherever it cannot
go on it has come to the end of the walk, with the maps as they were. -/
theorem journey_walks (hpure : ∀ uuid, Computes M (own uuid) (src uuid).prog (nf uuid))
    {uuid : Uuid} {pkt : Bytes} {trace : List (Uuid × Bytes)} {w : Walk}
    (h : (walk nf links).Halts (.at uuid pkt) trace w) (m : σ) :
    (∀ run : Nat → Journey × σ, run 0 = (.running uuid (src uuid).prog pkt, m) →
      ∃ n, ∀ r, Journey.move links src M own (run n) r ≠ some (run (n + 1))) ∧
    ∀ n s, Steps (Journey.move links src M own) (fun _ => True) n
        (.running uuid (src uuid).prog pkt, m) s →
      (∀ r, Journey.move links src M own s r = none) → s = (Journey.ofWalk src w, m) := by
  obtain ⟨k, hrun, hfinal⟩ := h
  have hsettles := settles_of_walk (v := .at uuid pkt) hpure m hrun hfinal
  exact ⟨hsettles.not_forever, fun n s hsteps hno => hsettles.eq_of_final hsteps hno⟩

/-- A function that draws two numbers, which make no difference. -/
def draws : NfProg UInt32 := .random fun a => .random fun b => .ret (a + b - b - a)

theorem draws_computes (M : KernelMaps σ) (own : List (String × Fd)) :
    Computes M own draws fun pkt => (pkt, 0) := by
  intro pkt m
  refine .step ⟨0, _, rfl⟩ fun a s hs => ?_
  obtain rfl := Option.some.inj hs
  refine .step ⟨0, _, rfl⟩ fun b s hs => ?_
  obtain rfl := Option.some.inj hs
  have hzero : a + b - b - a = 0 := by
    rw [UInt32.add_sub_cancel, UInt32.sub_self]
  show Settles _ (NfProg.ret (a + b - b - a), pkt, m) _
  rw [hzero]
  exact .final fun r => rfl

/-- The journey of a packet in a wide chain, in which every function draws two numbers. -/
abbrev drawsMove := Journey.move (wideChain 3).links (fun _ => ⟨draws, []⟩) noMaps fun _ => []

theorem wideChain_walks :
    (∀ run : Nat → Journey × Unit, run 0 = (.running 0 draws [1, 2], ()) →
      ∃ n, ∀ r, drawsMove (run n) r ≠ some (run (n + 1))) ∧
    ∀ n s, Steps drawsMove (fun _ => True) n (.running 0 draws [1, 2], ()) s →
      (∀ r, drawsMove s r = none) → s = (.done .tx [1, 2], ()) :=
  have hpure : ∀ uuid, Computes noMaps [] ((fun _ => ⟨draws, []⟩ : Uuid → Source) uuid).prog
      (wideNf uuid) := fun _ => draws_computes noMaps []
  journey_walks hpure (wideWalk_halts (n := 3) (by omega) (by omega) [1, 2]) ()

end Alone

end Galette.Pipeline
