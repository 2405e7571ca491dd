import Galette.Pipeline.Placement
import Galette.Pipeline.Proofs.MapProofs

/-!
# Proofs: placement

An installed chain delivers a packet as the walk of its description says (`Deployment.delivers`),
and two descriptions of the same plan have the same walk but for the places. So the placement can
show only in what `finish` makes of the two places: a packet that is passed on.
-/

namespace Galette.Pipeline

open Galette.Lib Galette.Protocol Galette.Chainsmith Galette.Pulley

variable {chain : Chainsmith.Chain} {nf : NfFamily}

/-! ## Names and uuids -/

/-- The walk by names and the walk by uuids are at the same place. -/
inductive Named (fnMap : HashMap String Uuid) : NameWalk → Walk → Prop where
  | at {name : String} {u : Uuid} (hu : fnMap.lookup name = some u) (pkt : Bytes) :
      Named fnMap (.at name pkt) (.at u pkt)
  | done (action : LinkAction) (pkt : Bytes) : Named fnMap (.done action pkt) (.done action pkt)

/-- A target and its action lead to the same place. -/
theorem named_afterTarget {build : BuildState} (hB : Compiled chain build) {target : String}
    {a : LinkAction} (ha : targetAction chain build.fnMap target = some a) (side : Side)
    (pkt : Bytes) :
    (afterTarget chain side target pkt).1 = side.after a ∧
      Named build.fnMap (afterTarget chain side target pkt).2 (afterAction pkt a) := by
  unfold targetAction at ha
  unfold afterTarget
  cases hu : build.fnMap.lookup (stripUpcall target).2 with
  | some u =>
    rw [hu] at ha
    obtain ⟨f, hf, hf'⟩ := Option.map_eq_some_iff.1 ha
    rw [hf]
    by_cases hup : (stripUpcall target).1 || f.disableXdp
    · simp only [hup, if_true] at hf' ⊢
      subst hf'
      exact ⟨rfl, .at hu pkt⟩
    · simp only [hup] at hf' ⊢
      subst hf'
      exact ⟨rfl, .at hu pkt⟩
  | none =>
    rw [hu] at ha
    have hnone : chain.functions.get? (stripUpcall target).2 = none := by
      cases hf : chain.functions.get? (stripUpcall target).2 with
      | none => rfl
      | some f =>
        obtain ⟨u, hu'⟩ := (hB.names _).2 (BTreeMap.mem_keys.2 ⟨f, hf⟩)
        rw [hu] at hu'
        cases hu'
    simp only at ha
    simp only [hnone, ha]
    unfold specialAction at ha
    split at ha <;> cases ha <;> exact ⟨rfl, .done _ pkt⟩

/-- A function and its concrete link lead to the same place, unless the walk is stuck. -/
theorem named_afterFollowers {build : BuildState} {fns : HashMap String XdpLink}
    (hB : Compiled chain build) (hC : Concrete chain build.fnMap fns) {side : Side} {name : String}
    {pkt : Bytes} {out : UInt32} (hw : (afterFollowers chain side name pkt out).2 ≠ .stuck) :
    ∃ a, (stateAfter fns chain.links name).act out = some a ∧
      (afterFollowers chain side name pkt out).1 = side.after a ∧
      Named build.fnMap (afterFollowers chain side name pkt out).2 (afterAction pkt a) := by
  unfold afterFollowers at hw ⊢
  cases hf : followers chain name with
  | none =>
    rw [Concrete.state_none hf]
    exact ⟨.tx, rfl, rfl, .done .tx pkt⟩
  | some targets =>
    obtain ⟨acts, hs, hacts⟩ := hC.state_some hf
    rw [hs]
    simp only [hf] at hw ⊢
    cases ht : targets[out.toNat]? with
    | none => simp [ht] at hw
    | some target =>
      obtain ⟨a, ha, htarget⟩ := exists_of_map_eq hacts ht
      exact ⟨a, ha, named_afterTarget hB htarget side pkt⟩

/-- A state from which a walk ends. -/
theorem not_stuck_of_halts {p : Side × NameWalk} {trace : List (String × Bytes)} {side : Side}
    {action : LinkAction} {out : Bytes}
    (h : (describedWalk nf chain).Halts p trace (side, .done action out)) : p.2 ≠ .stuck := by
  obtain ⟨side', w⟩ := p
  rintro rfl
  obtain ⟨_, hend⟩ := (Machine.halts_final _ rfl).1 h
  cases hend

/-! ## Deployments -/

/-- The functions of a build by their uuids. -/
def nfAt (nf : NfFamily) (fnMap : HashMap String Uuid) : Behaviour := fun u =>
  match fnMap.entries.find? fun e => e.2 = u with
  | some e => nf e.1
  | none => fun pkt => (pkt, 0)

theorem nfAt_eq {build : BuildState} (hB : Compiled chain build) (nf : NfFamily) {name : String}
    {u : Uuid} (hu : build.fnMap.lookup name = some u) : nfAt nf build.fnMap u = nf name := by
  unfold nfAt
  cases hf : build.fnMap.entries.find? fun e => e.2 = u with
  | none => exact absurd (by simp) (List.find?_eq_none.1 hf _ (AList.mem_lookup_iff.1 hu))
  | some e =>
    obtain ⟨n, v⟩ := e
    have hv : v = u := by simpa using List.find?_some hf
    subst hv
    rw [hB.inj _ _ _ (AList.mem_lookup_iff.2 (List.mem_of_find?_eq_some hf)) hu]

namespace Deployment

variable (d : Deployment chain nf)

/-- A deployment, with what is known about its parts. -/
structure Facts (fns : HashMap String XdpLink) : Prop where
  build : Compiled chain d.build
  concrete : Concrete chain d.build.fnMap fns
  linked : Linked d.message
  inst : Installed d.K d.message d.config (createUpcallSockets d.socket d.config) d.state
  link : ∀ {name u}, d.build.fnMap.lookup name = some u → ∃ info,
    chain.functions.get? name = some info ∧
      linkAfter fns chain.links name (freshLink info u) ∈ d.links
  name : ∀ {l}, l ∈ d.links → ∃ name, d.build.fnMap.lookup name = some l.uuid

theorem facts : ∃ fns, d.Facts fns := by
  have hB := compileBinaries_compiled d.fresh d.compiled
  obtain ⟨fns, hfns, hv⟩ := makeConcrete_ok d.concrete
  have hC := concreteFns_ok hfns
  have hperm := d.perm
  rw [hv] at hperm
  have hL : Linked d.message := linked_message hB hC hperm
  refine ⟨fns, hB, hC, hL, Pulley.installed hL.nodup d.installed, fun hu => ?_, fun hl => ?_⟩
  · obtain ⟨l, hl, hlu, hlk⟩ := hC.exists_link hperm hu
    obtain ⟨_, f, hu', hf, rfl⟩ := hC.link_of_lookup hlk
    obtain rfl := Option.some.inj (hu.symm.trans hu')
    exact ⟨f, hf, hl⟩
  · obtain ⟨name, hn⟩ := HashMap.mem_values.1 (hperm.mem_iff.1 hl)
    obtain ⟨u, f, hu, _, rfl⟩ := hC.link_of_lookup hn
    exact ⟨name, hu⟩

variable {d}

theorem Facts.running {fns : HashMap String XdpLink} (h : d.Facts fns)
    (hids : DistinctIds d.message) :
    Running d.K d.message d.config (createUpcallSockets d.socket d.config) (nfAt nf d.build.fnMap)
      d.host d.state where
  wf := by
    refine ⟨h.linked, fun l hl hr => ?_⟩
    obtain ⟨l', hl', hr', p, hp, _⟩ := h.inst.root
    obtain rfl : l = l' := h.linked.root.unique ⟨hl, hr⟩ ⟨hl', hr'⟩
    obtain ⟨i, hi⟩ := List.getElem?_of_mem hl
    obtain ⟨f, e, _, _, hf, he, _⟩ := h.inst.progFor hi hp
    exact ⟨f, e, hf, he⟩
  programs := by
    constructor
    · intro l hl b e file hb he ho
      obtain ⟨name, hu⟩ := h.name hl
      rw [nfAt_eq h.build nf hu]
      exact d.ends name l.uuid b e file hu hb he ho
    · intro l hl b e file hb he ho
      obtain ⟨name, hu⟩ := h.name hl
      rw [nfAt_eq h.build nf hu]
      exact d.chains name l.uuid b e file hu hb he ho
  ids := hids
  cores := by rw [d.clamped]; exact (clampCores_toNat _).1
  sockets := createUpcallSockets_length d.socket d.config
  headroom := d.headroom
  inst := h.inst

/-- A function that gets its maps computes in userland what it does. -/
theorem Facts.calls {fns : HashMap String XdpLink} (h : d.Facts fns) {name : String} {u : Uuid}
    {info : Chainsmith.Function} (hu : d.build.fnMap.lookup name = some u)
    (hinfo : chain.functions.get? name = some info)
    (hmaps : info.maps.keys = [] ∨ info.disableXdp = false) :
    Calls (nfAt nf d.build.fnMap) d.state d.dylibs u := by
  obtain ⟨b, hb, _, hebpf, helf⟩ := h.build.entry name u info hu hinfo
  obtain ⟨elf, helf⟩ := Option.isSome_iff_exists.1 helf
  obtain ⟨api, hapi, hlib⟩ := loadDylibNfs_lookup d.loaded hb helf
  refine ⟨api, hlib, fun pkt => ?_⟩
  rw [d.libraries name info u b elf api hu hinfo hb helf hapi, nfAt_eq h.build nf hu]
  unfold UserSource.userNfProgram
  by_cases hk : info.maps.keys = []
  · rw [if_pos hk]
  · have hx := hmaps.resolve_left hk
    obtain ⟨e, he⟩ := Option.isSome_iff_exists.1 (hebpf.2 hx)
    obtain ⟨info', hinfo', hl⟩ := h.link hu
    obtain rfl := Option.some.inj (hinfo.symm.trans hinfo')
    obtain ⟨_, _, _, _, _, hmaps⟩ := h.inst.mapsOf_loaded hl hb he
    have hlen : (mapsOf d.state u).length = info.maps.keys.length := hmaps.length_eq.symm
    rw [if_neg hk, if_pos hlen]

/-- A packet is at the same place on the walk of the description and in the installed chain. -/
def Follows (d : Deployment chain nf) (p : Side × NameWalk) (s : Sys) : Prop :=
  ∃ w, Named d.build.fnMap p.2 w ∧ Matches d.message d.state (p.1, w) s

/-- One function. -/
theorem Facts.step {fns : HashMap String XdpLink} (h : d.Facts fns) (hids : DistinctIds d.message)
    {side : Side} {name : String} {pkt : Bytes} {s : Sys} (hs : d.Follows (side, .at name pkt) s)
    (hmaps : Supplied chain name)
    (hw : (afterFollowers chain side name (nf name pkt).1 (nf name pkt).2).2 ≠ .stuck) :
    ∃ k u s', d.build.fnMap.lookup name = some u ∧
      (system d.host d.state d.dylibs).run (k + 1) s = ([(u, pkt)], s') ∧
      d.Follows (afterFollowers chain side name (nf name pkt).1 (nf name pkt).2) s' := by
  obtain ⟨w, hw', hM⟩ := hs
  cases hw' with
  | «at» hu =>
    rename_i u
    obtain ⟨a, ha, hside, hnamed⟩ := named_afterFollowers h.build h.concrete hw
    rw [← nfAt_eq h.build nf hu] at ha hside hnamed ⊢
    obtain ⟨info, hinfo, hl'⟩ := h.link hu
    have hrun := h.running hids
    have hcalls := h.calls hu hinfo (hmaps info hinfo)
    -- the link that the packet is at is the link of the function
    have hact : ∀ l ∈ d.links, l.uuid = u →
        l.state.act (nfAt nf d.build.fnMap l.uuid pkt).2 = some a := by
      intro l hl hlu
      obtain rfl := List.inj_on_of_nodup_map h.linked.nodup hl hl' hlu
      exact ha
    cases hM with
    | kernel hl hp =>
      rename_i i l p
      obtain ⟨k, s', hs', hM'⟩ := hrun.kernel_step hl hp pkt (hact l (List.mem_of_getElem? hl) rfl)
      exact ⟨k, l.uuid, s', hu, hs', _, hnamed, by rw [hside]; exact hM'⟩
    | user hl =>
      rename_i l
      obtain ⟨s', hs', hM'⟩ := hrun.user_step hl hcalls pkt (hact l hl rfl)
      refine ⟨0, l.uuid, s', hu, ?_, _, hnamed, by rw [hside]; exact hM'⟩
      rw [Machine.run_succ _ hs']
      rfl

theorem Facts.start {fns : HashMap String XdpLink} (h : d.Facts fns) (hids : DistinctIds d.message)
    {root : String} (hroot : root ∈ rxDests chain.links) (pkt : Bytes) :
    ∃ fd, attachedFd d.state = some fd ∧ d.Follows (.kernel, .at root pkt) (.kernel fd pkt) := by
  obtain ⟨r, hrx, hsome⟩ := h.concrete.rx
  obtain rfl : root = r := by rw [hrx] at hroot; simpa using hroot
  obtain ⟨_, hlk⟩ := Option.isSome_iff_exists.1 hsome
  obtain ⟨u, _, hu, _⟩ := h.concrete.link_of_lookup hlk
  obtain ⟨info, _, hl⟩ := h.link hu
  obtain ⟨fd, hfd, hM⟩ := (h.running hids).root hl (by simp [linkAfter, hroot]) pkt
  exact ⟨fd, hfd, _, .at hu pkt, hM⟩

/-- **Delivery.** The installed chain does with a packet what the walk of the description says. -/
theorem delivers (d : Deployment chain nf) (hids : DistinctIds d.message) {root : String}
    (hroot : root ∈ rxDests chain.links) {pkt out : Bytes} {trace : List (String × Bytes)}
    {side : Side} {action : LinkAction} (hmaps : ∀ e ∈ trace, Supplied chain e.1)
    (hwalk : (describedWalk nf chain).Halts (.kernel, .at root pkt) trace (side, .done action out)) :
    d.Delivers pkt (finish out action side) := by
  obtain ⟨fns, h⟩ := d.facts
  obtain ⟨fd, hfd, hstart⟩ := h.start hids hroot pkt
  have hfwd := Machine.Halts.forward (P := system d.host d.state d.dylibs) (R := d.Follows)
    (G := fun e => Supplied chain e.1)
    (fun e => ((d.build.fnMap.lookup e.1).getD 0, e.2)) ?_ hstart hwalk hmaps
  · obtain ⟨k, s, hs, w, hw, hM⟩ := hfwd
    cases hw
    cases hM
    exact ⟨fd, _, hfd, k, hs, sysStep_finish _ _ _ _ _⟩
  · rintro ⟨side', w⟩ s o p hF hstep hgood ⟨t, ht⟩
    cases w with
    | «at» name pkt' =>
      obtain ⟨rfl, rfl⟩ := Prod.mk.inj (Option.some.inj hstep)
      have hne := not_stuck_of_halts ht
      obtain ⟨k, u, s', hu, hrun, hF'⟩ := h.step hids hF (hgood (name, pkt') (by simp)) hne
      refine ⟨k + 1, s', ?_, hF'⟩
      rw [hrun]
      simp [hu]
    | done action pkt => cases hstep
    | stuck => cases hstep

end Deployment

/-! ## Two placements of one plan -/

section Plan

variable {chain' : Chainsmith.Chain}

theorem SamePlan.get? (h : SamePlan chain chain') {name : String} {f : Chainsmith.Function}
    (hf : chain.functions.get? name = some f) :
    ∃ f', chain'.functions.get? name = some f' := by
  obtain ⟨i, hi⟩ := List.getElem?_of_mem (BTreeMap.get?_eq_some.1 hf)
  obtain ⟨⟨name', f'⟩, hi', hsame⟩ := forall₂_getElem? h.functions hi
  obtain rfl : name' = name := hsame.name
  exact ⟨f', BTreeMap.get?_eq_some.2 (List.mem_of_getElem? hi')⟩

theorem SamePlan.get?_none (h : SamePlan chain chain') {name : String}
    (hf : chain.functions.get? name = none) : chain'.functions.get? name = none := by
  cases hf' : chain'.functions.get? name with
  | none => rfl
  | some f' =>
    obtain ⟨i, hi⟩ := List.getElem?_of_mem (BTreeMap.get?_eq_some.1 hf')
    obtain ⟨⟨name', f⟩, hi', hsame⟩ := forall₂_getElem? h.functions.flip hi
    obtain rfl : name = name' := hsame.name
    rw [BTreeMap.get?_eq_some.2 (List.mem_of_getElem? hi')] at hf
    cases hf

theorem SamePlan.rxDests (h : SamePlan chain chain') :
    rxDests chain'.links = rxDests chain.links := by
  have hlinks := h.links
  generalize chain.links = ls at hlinks
  generalize chain'.links = ls' at hlinks
  unfold Chainsmith.rxDests
  induction hlinks with
  | nil => rfl
  | @cons l l' _ _ hl _ ih =>
    by_cases hrx : l.«from» = "rx"
    · simp [hl.from, hrx, hl.rx hrx, ih]
    · simp [hl.from, hrx, ih]

/-- The targets of a function differ in their `!` only. -/
theorem SamePlan.lastTargets (h : SamePlan chain chain') (name : String) :
    List.Forall₂ (fun t t' => (stripUpcall t').2 = (stripUpcall t).2) (lastTargets chain name)
      (lastTargets chain' name) := by
  have hlinks : List.Forall₂ SameLink (linksOf chain.links name) (linksOf chain'.links name) := by
    apply List.rel_filter _ h.links
    intro l l' hl
    simp [hl.from]
  unfold Chainsmith.lastTargets
  rw [List.getLast?_eq_getElem?, List.getLast?_eq_getElem?, hlinks.length_eq]
  cases hl : (linksOf chain.links name)[(linksOf chain'.links name).length - 1]? with
  | none =>
    rw [List.getElem?_eq_none_iff, hlinks.length_eq] at hl
    rw [List.getElem?_eq_none hl]
    exact .nil
  | some l =>
    obtain ⟨l', hl', hsame⟩ := forall₂_getElem? hlinks hl
    rw [hl']
    exact hsame.to

theorem stripUpcall_of_special {target : String} {a : LinkAction}
    (h : specialAction target = some a) : (stripUpcall target).2 = target := by
  unfold specialAction at h
  split at h <;> first | rfl | cases h

/-- Targets that differ in their `!` only lead to the same place. -/
theorem SamePlan.afterTarget (h : SamePlan chain chain') {side side' : Side} {t t' : String}
    {pkt : Bytes} (hstrip : (stripUpcall t').2 = (stripUpcall t).2)
    (hw : (afterTarget chain side t pkt).2 ≠ .stuck)
    (hw' : (afterTarget chain' side' t' pkt).2 ≠ .stuck) :
    (afterTarget chain' side' t' pkt).2 = (afterTarget chain side t pkt).2 := by
  unfold Pipeline.afterTarget at hw hw' ⊢
  rw [hstrip] at hw' ⊢
  cases hf : chain.functions.get? (stripUpcall t).2 with
  | some f =>
    obtain ⟨f', hf'⟩ := h.get? hf
    rw [hf']
  | none =>
    simp only [hf, h.get?_none hf] at hw hw' ⊢
    cases ht : specialAction t with
    | none => simp [ht] at hw
    | some a =>
      cases ht' : specialAction t' with
      | none => simp [ht'] at hw'
      | some a' =>
        obtain rfl : t' = t := by
          rw [← stripUpcall_of_special ht, ← hstrip, stripUpcall_of_special ht']
        rw [ht] at ht'
        rw [Option.some.inj ht']

theorem followers_some {name : String} {targets : List String}
    (h : followers chain name = some targets) : targets = Chainsmith.lastTargets chain name := by
  unfold followers at h
  split at h
  · cases h
  · exact (Option.some.inj h).symm

/-- A function leads to the same place in both placements, unless one of them is a `Tail` and the
other is not. -/
theorem SamePlan.afterFollowers (h : SamePlan chain chain') {build : BuildState}
    {fns : HashMap String XdpLink} (hB : Compiled chain' build)
    (hC : Concrete chain' build.fnMap fns)
    {side side' : Side} {name : String} {pkt : Bytes} {out : UInt32}
    (htail : followers chain name = none ↔ followers chain' name = none)
    (hw : (afterFollowers chain side name pkt out).2 ≠ .stuck) :
    (afterFollowers chain' side' name pkt out).2 = (afterFollowers chain side name pkt out).2 := by
  unfold Pipeline.afterFollowers at hw ⊢
  cases hf : followers chain name with
  | none => rw [htail.1 hf]
  | some targets =>
    cases hf' : followers chain' name with
    | none =>
      rw [htail.2 hf'] at hf
      cases hf
    | some targets' =>
      simp only [hf] at hw ⊢
      cases ht : targets[out.toNat]? with
      | none => simp [ht] at hw
      | some t =>
        simp only [ht] at hw ⊢
        have hT := h.lastTargets name
        rw [← followers_some hf, ← followers_some hf'] at hT
        obtain ⟨t', ht', hstrip⟩ := forall₂_getElem? hT ht
        rw [ht']
        -- the other description was accepted, so its target has an action
        obtain ⟨acts, _, hacts⟩ := hC.state_some hf'
        obtain ⟨a, _, htarget⟩ := exists_of_map_eq hacts ht'
        obtain ⟨_, hnamed⟩ := named_afterTarget hB htarget side' pkt
        refine h.afterTarget hstrip hw fun hstuck => ?_
        rw [hstuck] at hnamed
        cases hnamed

/-- **One walk.** Two placements of a plan run the same functions on the same packets and end with
the same action. -/
theorem SamePlan.halts (h : SamePlan chain chain') {build : BuildState}
    {fns : HashMap String XdpLink} (hB : Compiled chain' build)
    (hC : Concrete chain' build.fnMap fns)
    {root : String} {pkt out : Bytes} {trace : List (String × Bytes)} {side : Side}
    {action : LinkAction}
    (htail : ∀ e ∈ trace, (followers chain e.1 = none ↔ followers chain' e.1 = none))
    (hwalk : (describedWalk nf chain).Halts (.kernel, .at root pkt) trace (side, .done action out)) :
    ∃ side', (describedWalk nf chain').Halts (.kernel, .at root pkt) trace
      (side', .done action out) := by
  have hfwd := Machine.Halts.forward (P := describedWalk nf chain') (R := fun p q => q.2 = p.2)
    (G := fun e => followers chain e.1 = none ↔ followers chain' e.1 = none)
    (b := (Side.kernel, NameWalk.at root pkt)) id ?_ rfl hwalk htail
  · obtain ⟨k, ⟨side', w⟩, hrun, rfl⟩ := hfwd
    rw [List.map_id] at hrun
    exact ⟨side', k, hrun, rfl⟩
  · rintro ⟨side, _⟩ ⟨side', w⟩ o p rfl hstep hG ⟨t, ht⟩
    cases w with
    | «at» name pkt' =>
      obtain ⟨rfl, rfl⟩ := Prod.mk.inj (Option.some.inj hstep)
      refine ⟨1, _, rfl, ?_⟩
      exact h.afterFollowers hB hC (hG (name, pkt') (by simp)) (not_stuck_of_halts ht)
    | done action pkt => cases hstep
    | stuck => cases hstep

/-- What becomes of a packet with an action, in either place. -/
def dispositionOf : LinkAction → Side → Disposition
  | .tx, _ => .transmitted
  | .pass, .kernel => .passed
  | _, _ => .discarded

theorem fate_finish (out : Bytes) (action : LinkAction) (side : Side) :
    fate (finish out action side) = some (out, dispositionOf action side) := by
  cases side with
  | kernel => cases action <;> rfl
  | user => cases action <;> rfl

/-- The place shows in the end of a packet that is passed on, and only there. -/
theorem dispositionOf_eq_iff (action : LinkAction) (side side' : Side) :
    dispositionOf action side = dispositionOf action side' ↔ (action = .pass → side = side') := by
  cases action with
  | pass => cases side <;> cases side' <;> simp [dispositionOf]
  | _ => cases side <;> cases side' <;> simp [dispositionOf]

/-- **Placement.** Two deployments of one plan leave a packet with the same bytes, and do the same
with it exactly if it is not passed on, or is passed on from the same place. -/
theorem samePlan_fates (hplan : SamePlan chain chain') (d : Deployment chain nf)
    (d' : Deployment chain' nf) (hids : DistinctIds d.message) (hids' : DistinctIds d'.message)
    {root : String} {pkt out : Bytes} {trace : List (String × Bytes)} {side : Side}
    {action : LinkAction} (hroot : root ∈ rxDests chain.links)
    (hwalk : (describedWalk nf chain).Halts (.kernel, .at root pkt) trace (side, .done action out))
    (htail : ∀ e ∈ trace, (followers chain e.1 = none ↔ followers chain' e.1 = none))
    (hmaps : ∀ e ∈ trace, Supplied chain e.1 ∧ Supplied chain' e.1) :
    ∃ side' s s' x x',
      (describedWalk nf chain').Halts (.kernel, .at root pkt) trace (side', .done action out) ∧
      d.Delivers pkt s ∧ d'.Delivers pkt s' ∧ fate s = some (out, x) ∧ fate s' = some (out, x') ∧
      (x = x' ↔ (action = .pass → side = side')) := by
  obtain ⟨fns, h⟩ := d'.facts
  obtain ⟨side', hwalk'⟩ := hplan.halts h.build h.concrete htail hwalk
  have hroot' : root ∈ rxDests chain'.links := by rw [hplan.rxDests]; exact hroot
  exact ⟨side', _, _, _, _, hwalk', d.delivers hids hroot (fun e he => (hmaps e he).1) hwalk,
    d'.delivers hids' hroot' (fun e he => (hmaps e he).2) hwalk', fate_finish _ _ _,
    fate_finish _ _ _, dispositionOf_eq_iff action side side'⟩

end Plan

/-! ## A chain in two placements -/

/-- `front` sends everything to `back`, which passes the empty packet on and transmits the
others. -/
def relayNf : NfFamily := fun name pkt => (pkt, if name = "back" ∧ pkt ≠ [] then 1 else 0)

def relayFn : Chainsmith.Function where
  path := none
  disableXdp := false
  slice := none
  maps := .empty

/-- The chain of the two functions, with `back` in the kernel or in userland. -/
def relayChain (upcall : Bool) : Chainsmith.Chain where
  functions :=
    ⟨[("back", relayFn), ("front", relayFn)], List.pairwise_pair.2 (show "back" < "front" by decide)⟩
  links := [⟨"rx", ["front"]⟩, ⟨"front", [if upcall then "!back" else "back"]⟩,
    ⟨"back", ["pass", "tx"]⟩]
  maps := .empty

def relayEnv : BuildEnv where
  newV4 n := BitVec.ofNat 128 n
  cargoBpf := .ok ()
  cargoBuild := .ok ()
  read path :=
    some (if path = elfPath "front" then [1] else if path = elfPath "front-chain" then [2]
      else if path = elfPath "back" then [3] else if path = elfPath "back-chain" then [4]
      else if path = dylibPath none "front" then [5] else [6])
  host := "x86_64-unknown-linux-gnu"

def relayBpf : Libbpf where
  openMemory
    | [1] => some ⟨.wrapper, relayNf "front", []⟩
    | [2] => some ⟨.wrapperChain 1, relayNf "front", []⟩
    | [3] => some ⟨.wrapper, relayNf "back", []⟩
    | [4] => some ⟨.wrapperChain 2, relayNf "back", []⟩
    | _ => none
  load _ := true
  seed _ := true
  attachXdp := true
  ifNametoindex _ := some 1

def relayLib (elf : Bytes) : Option NfUserApi :=
  let name := if elf = [5] then "front" else "back"
  some (UserSource.userNfProgram ⟨canonName name, []⟩
    fun pkt _ => ((relayNf name pkt).1, (relayNf name pkt).2.toNat))

/-- What the build makes of this chain. -/
structure RelayBuild (build : BuildState) : Prop where
  back : build.fnMap.lookup "back" = some 0
  front : build.fnMap.lookup "front" = some 1
  backBin : build.binaries.lookup 0 = some ⟨0, some [6], some ⟨[4], [3]⟩⟩
  frontBin : build.binaries.lookup 1 = some ⟨1, some [5], some ⟨[2], [1]⟩⟩

theorem relayChain_installs (upcall : Bool) : ∃ build links st dylibs,
    compileBinaries relayEnv (relayChain upcall) none = .ok build ∧
    makeConcrete (relayChain upcall) build.fnMap = .ok links ∧
    installChain relayBpf ⟨links, build.binaries⟩ wideCli (createUpcallSockets id wideCli) = .ok st ∧
    loadDylibNfs relayLib build.binaries = .ok dylibs ∧ links.length ≤ 2 ∧ RelayBuild build := by
  cases upcall with
  | false => exact ⟨_, _, _, _, rfl, rfl, rfl, rfl, le_refl 2, rfl, rfl, rfl, rfl⟩
  | true => exact ⟨_, _, _, _, rfl, rfl, rfl, rfl, le_refl 2, rfl, rfl, rfl, rfl⟩

theorem relayEnv_fresh (upcall : Bool) :
    FreshUuids relayEnv (relayChain upcall).functions.entries.length := by
  intro i j hi hj h
  simp only [relayChain, List.length_cons, List.length_nil] at hi hj
  have hij := congrArg BitVec.toNat h
  simp only [relayEnv, BitVec.toNat_ofNat] at hij
  omega

/-- The binaries of a function of this chain. -/
theorem RelayBuild.cases {upcall : Bool} {build : BuildState} (h : RelayBuild build)
    (hB : Compiled (relayChain upcall) build) {name : String} {u : Uuid} {b : Protocol.Function}
    (hu : build.fnMap.lookup name = some u) (hb : build.binaries.lookup u = some b) :
    name = "back" ∧ b = ⟨0, some [6], some ⟨[4], [3]⟩⟩ ∨
      name = "front" ∧ b = ⟨1, some [5], some ⟨[2], [1]⟩⟩ := by
  have hmem := (hB.names name).1 ⟨u, hu⟩
  simp only [relayChain, BTreeMap.keys, List.map_cons, List.map_nil, List.mem_cons,
    List.not_mem_nil, or_false] at hmem
  rcases hmem with rfl | rfl
  · obtain rfl := Option.some.inj (h.back.symm.trans hu)
    exact Or.inl ⟨rfl, Option.some.inj (hb.symm.trans h.backBin)⟩
  · obtain rfl := Option.some.inj (h.front.symm.trans hu)
    exact Or.inr ⟨rfl, Option.some.inj (hb.symm.trans h.frontBin)⟩

theorem relayChain_deployed (upcall : Bool) :
    ∃ d : Deployment (relayChain upcall) relayNf, DistinctIds d.message := by
  obtain ⟨build, links, st, dylibs, hbuild, hlinks, hst, hd, hlen, hR⟩ := relayChain_installs upcall
  have hB := compileBinaries_compiled (relayEnv_fresh upcall) hbuild
  refine ⟨{ env := relayEnv, target := none, build := build, resolved := links, links := links
            K := relayBpf, dlopen := relayLib, cores := 3, config := wideCli, socket := id
            host := wideHost, state := st, dylibs := dylibs, fresh := relayEnv_fresh upcall
            compiled := hbuild, concrete := hlinks, perm := .refl _, ends := ?_, chains := ?_
            libraries := ?_, clamped := rfl, headroom := rfl, installed := hst, loaded := hd },
    distinctIds_of_length_le ?_⟩
  · intro name u b e file hu hb he ho
    obtain ⟨rfl, rfl⟩ | ⟨rfl, rfl⟩ := hR.cases hB hu hb
    · obtain rfl := Option.some.inj he
      obtain rfl := Option.some.inj ho
      exact ⟨rfl, rfl⟩
    · obtain rfl := Option.some.inj he
      obtain rfl := Option.some.inj ho
      exact ⟨rfl, rfl⟩
  · intro name u b e file hu hb he ho
    obtain ⟨rfl, rfl⟩ | ⟨rfl, rfl⟩ := hR.cases hB hu hb
    · obtain rfl := Option.some.inj he
      obtain rfl := Option.some.inj ho
      exact ⟨⟨2, rfl⟩, rfl⟩
    · obtain rfl := Option.some.inj he
      obtain rfl := Option.some.inj ho
      exact ⟨⟨1, rfl⟩, rfl⟩
  · intro name info u b elf api hu hinfo hb helf hapi
    have hkeys : info.maps.keys = [] := by
      have hmem := BTreeMap.get?_eq_some.1 hinfo
      simp only [relayChain, List.mem_cons, List.not_mem_nil, or_false, Prod.mk.injEq] at hmem
      rcases hmem with ⟨_, rfl⟩ | ⟨_, rfl⟩ <;> rfl
    rw [hkeys]
    obtain ⟨rfl, rfl⟩ | ⟨rfl, rfl⟩ := hR.cases hB hu hb
    · obtain rfl := Option.some.inj helf
      exact (Option.some.inj hapi).symm
    · obtain rfl := Option.some.inj helf
      exact (Option.some.inj hapi).symm
  · exact le_trans hlen (by decide)

theorem relayChain_samePlan : SamePlan (relayChain false) (relayChain true) where
  functions := .cons ⟨rfl, rfl, rfl, rfl, fun _ => rfl⟩ (.cons ⟨rfl, rfl, rfl, rfl, fun _ => rfl⟩ .nil)
  links := by
    refine .cons ⟨rfl, fun _ => rfl, .cons rfl .nil⟩ (.cons ⟨rfl, fun h => ?_, .cons rfl .nil⟩
      (.cons ⟨rfl, fun _ => rfl, .cons rfl (.cons rfl .nil)⟩ .nil))
    exact absurd h (by decide)
  maps := rfl

/-- The walks of a packet that is passed on and of one that is transmitted. -/
theorem relayWalk_halts (upcall : Bool) :
    (describedWalk relayNf (relayChain upcall)).Halts (.kernel, .at "front" [])
      [("front", []), ("back", [])] (if upcall then .user else .kernel, .done .pass []) ∧
    (describedWalk relayNf (relayChain upcall)).Halts (.kernel, .at "front" [1])
      [("front", [1]), ("back", [1])] (if upcall then .user else .kernel, .done .tx [1]) := by
  cases upcall with
  | false => exact ⟨⟨2, rfl, rfl⟩, ⟨2, rfl, rfl⟩⟩
  | true => exact ⟨⟨2, rfl, rfl⟩, ⟨2, rfl, rfl⟩⟩

theorem relayChain_supplied (upcall : Bool) (name : String) :
    Supplied (relayChain upcall) name := by
  intro info hinfo
  have hmem := BTreeMap.get?_eq_some.1 hinfo
  simp only [relayChain, List.mem_cons, List.not_mem_nil, or_false, Prod.mk.injEq] at hmem
  rcases hmem with ⟨_, rfl⟩ | ⟨_, rfl⟩ <;> exact Or.inl rfl

theorem relayChain_fates : ∃ (d : Deployment (relayChain false) relayNf)
    (d' : Deployment (relayChain true) relayNf) (s s' : Sys),
    d.Delivers [1] s ∧ d'.Delivers [1] s' ∧ fate s = fate s' := by
  obtain ⟨d, hids⟩ := relayChain_deployed false
  obtain ⟨d', hids'⟩ := relayChain_deployed true
  have hroot : "front" ∈ rxDests (relayChain false).links := by decide
  have htail : ∀ e ∈ [("front", ([1] : Bytes)), ("back", [1])],
      (followers (relayChain false) e.1 = none ↔ followers (relayChain true) e.1 = none) := by
    simp only [List.mem_cons, List.not_mem_nil, or_false]
    rintro e (rfl | rfl) <;> decide
  obtain ⟨_, s, s', x, x', _, hs, hs', hf, hf', hiff⟩ :=
    samePlan_fates relayChain_samePlan d d' hids
    hids' hroot (relayWalk_halts false).2 htail
    fun e _ => ⟨relayChain_supplied false e.1, relayChain_supplied true e.1⟩
  obtain rfl := hiff.2 (fun h => by cases h)
  exact ⟨d, d', s, s', hs, hs', hf.trans hf'.symm⟩

/-- A packet that `back` passes on goes to the host from the kernel, and is dropped in userland. -/
theorem not_samePlan_fates_of_pass : ¬ ∀ (chain chain' : Chainsmith.Chain) (nf : NfFamily)
    (d : Deployment chain nf) (d' : Deployment chain' nf) (root : String) (pkt out : Bytes)
    (trace : List (String × Bytes)) (side : Side) (action : LinkAction) (s s' : Sys),
    SamePlan chain chain' → root ∈ rxDests chain.links →
    (describedWalk nf chain).Halts (.kernel, .at root pkt) trace (side, .done action out) →
    d.Delivers pkt s → d'.Delivers pkt s' → fate s = fate s' := by
  intro hall
  obtain ⟨d, hids⟩ := relayChain_deployed false
  obtain ⟨d', hids'⟩ := relayChain_deployed true
  have hroot : "front" ∈ rxDests (relayChain false).links := by decide
  have hs := d.delivers hids hroot (fun e _ => relayChain_supplied false e.1) (relayWalk_halts false).1
  have hs' := d'.delivers hids' hroot (fun e _ => relayChain_supplied true e.1) (relayWalk_halts true).1
  have h := hall _ _ _ d d' _ _ _ _ _ _ _ _ relayChain_samePlan hroot (relayWalk_halts false).1 hs hs'
  cases h

end Galette.Pipeline
