import Galette.Chainsmith.Description
import Galette.Chainsmith.Proofs.MakeConcreteProofs
import Mathlib.Data.List.Perm.Basic

/-!
# Proofs: which chains are accepted

`make_concrete` has many places at which it can give up. All of them together reject exactly the
descriptions that are not `Resolvable`; and the concrete links of the others can be read off the
description.
-/

namespace Galette.Chainsmith

open Galette.Lib Galette.Protocol

/-! ## Targets -/

/-- Which targets can be resolved. -/
theorem exists_resolveTarget {m : HashMap String XdpLink} {link : Link} {name : String} :
    (∃ a, resolveTarget m link name = .ok a) ↔
      (m.lookup (stripUpcall name).2).isSome = true ∨ name ∈ ["tx", "drop", "pass", "abort"] := by
  cases hm : m.lookup (stripUpcall name).2 with
  | none =>
    simp only [resolveTarget_none hm, Option.isSome_none, Bool.false_eq_true, false_or]
    unfold specialAction
    split <;> simp_all
  | some dest => simp [resolveTarget, hm]

theorem exists_resolveTargets {m : HashMap String XdpLink} {link : Link} {names : List String} :
    (∃ acts, resolveTargets m link names = .ok acts) ↔
      ∀ t ∈ names, (m.lookup (stripUpcall t).2).isSome = true ∨
        t ∈ ["tx", "drop", "pass", "abort"] := by
  induction names with
  | nil => simp [resolveTargets]
  | cons name names ih =>
    rw [List.forall_mem_cons, ← ih, ← exists_resolveTarget]
    constructor
    · rintro ⟨acts, h⟩
      obtain ⟨a, ha, h⟩ := Except.bind_eq_ok.1 h
      obtain ⟨as, has, _⟩ := Except.bind_eq_ok.1 h
      exact ⟨⟨a, ha⟩, as, has⟩
    · rintro ⟨⟨a, ha⟩, as, has⟩
      exact ⟨a :: as, by simp [resolveTargets, ha, has, Except.bind]⟩

/-! ## The loop -/

/-- The destinations of a link from `rx` that are functions. -/
theorem rxDest_loop_total {link : Link} {acc : HashMap String XdpLink × Nat} {dests : List String}
    (h : ∀ d ∈ dests, (acc.1.lookup d).isSome = true) :
    ∃ acc', foldE (rxDest link) acc dests = .ok acc' := by
  have key := foldE_total (f := rxDest link) (l := dests) (b := acc)
    (fun _ b => SameFns b.1 acc.1) (SameFns.refl _) ?_
  · obtain ⟨acc', hacc', _⟩ := key
    exact ⟨acc', hacc'⟩
  · intro done d rest b hl hsame
    have hd : (b.1.lookup d).isSome = true := by
      rw [hsame.isSome]
      exact h d (by simp [hl])
    obtain ⟨l, hlookup⟩ := Option.isSome_iff_exists.1 hd
    refine ⟨(HashMap.modify b.1 d fun l => { l with root := true }, b.2 + 1),
      by simp only [rxDest, hlookup], SameFns.trans (fun name => ?_) hsame⟩
    rw [HashMap.lookup_modify]
    split
    · rename_i hname
      subst hname
      rw [hlookup]
      rfl
    · rfl

/-- A link from a function whose targets can be resolved. -/
theorem bodyLink_total {link : Link} {fns : HashMap String XdpLink}
    (hfrom : (fns.lookup link.«from»).isSome = true)
    (hto : link.«to» ≠ ["tx"] → ∃ acts, resolveTargets fns link link.«to» = .ok acts) :
    ∃ fns', bodyLink link fns = .ok fns' := by
  obtain ⟨l, hl⟩ := Option.isSome_iff_exists.1 hfrom
  unfold bodyLink
  rw [hl]
  by_cases htx : link.«to» = ["tx"]
  · rw [if_pos htx]
    exact ⟨_, rfl⟩
  · obtain ⟨acts, hacts⟩ := hto htx
    rw [if_neg htx, hacts]
    exact ⟨_, rfl⟩

theorem rxDests_split (links links' : List Link) :
    rxDests (links ++ links') = rxDests links ++ rxDests links' := by
  unfold rxDests
  rw [List.filter_append, List.flatMap_append]

variable {chain : Chain} {fnMap : HashMap String Uuid}

/-- **Step lemma**: the next link of a resolvable description is processed. -/
theorem Resolvable.processLink_total {init : HashMap String XdpLink} (h : Resolvable chain)
    (hinit : ∀ name, (init.lookup name).isSome = true ↔ name ∈ chain.functions.keys)
    {done rest : List Link} {link : Link} (hlinks : chain.links = done ++ link :: rest)
    {acc : HashMap String XdpLink × Nat} (hI : LinkInv init done acc) :
    ∃ acc', processLink acc link = .ok acc' := by
  have hsome : ∀ name, (acc.1.lookup name).isSome = true ↔ name ∈ chain.functions.keys := by
    intro name
    rw [hI.sameFns.isSome, hinit]
  have hmem : link ∈ chain.links := by simp [hlinks]
  unfold processLink
  by_cases hrx : link.«from» = "rx"
  · obtain ⟨root, hroot, hkey⟩ := h.rx
    have hsplit : rxDests done ++ link.«to» ++ rxDests rest = [root] := by
      rw [← hroot, hlinks, List.append_cons, rxDests_split, rxDests_append, if_pos hrx]
    have hdests : ∀ d ∈ link.«to», (acc.1.lookup d).isSome = true := by
      intro d hd
      have hd' : d ∈ [root] := by
        rw [← hsplit]
        simp [hd]
      rw [hsome, List.mem_singleton.1 hd']
      exact hkey
    obtain ⟨acc', hacc'⟩ := rxDest_loop_total hdests
    have hcount : acc'.2 ≤ 1 := by
      have hlen := congrArg List.length hsplit
      rw [List.length_append, List.length_append, List.length_singleton] at hlen
      have hadd := (rxDest_loop hacc').2.1
      have hdone := hI.count
      omega
    refine ⟨acc', ?_⟩
    rw [if_pos hrx, hacc']
    exact if_neg (by omega)
  · have hto : link.«to» ≠ ["tx"] → ∃ acts, resolveTargets acc.1 link link.«to» = .ok acts := by
      intro htx
      refine exists_resolveTargets.2 fun t ht => ?_
      rw [hsome]
      exact h.targets link hmem hrx htx t ht
    obtain ⟨fns', hfns'⟩ := bodyLink_total ((hsome _).2 (h.sources link hmem hrx)) hto
    refine ⟨(fns', acc.2), ?_⟩
    rw [if_neg hrx, hfns']
    exact if_neg (by have := hI.le_one; omega)

/-! ## Acceptance -/

/-- The functions before the loop are those of the chain. -/
theorem initialFns_keys (hkeys : ∀ name, (∃ u, fnMap.lookup name = some u) ↔
    name ∈ chain.functions.keys) {init : HashMap String XdpLink}
    (h : initialFns chain fnMap = .ok init) (name : String) :
    (init.lookup name).isSome = true ↔ name ∈ chain.functions.keys := by
  rw [initialFns_ok h, Option.isSome_iff_exists]
  constructor
  · rintro ⟨l, hl⟩
    obtain ⟨u, hu, _⟩ := Option.bind_eq_some_iff.1 hl
    exact (hkeys name).1 ⟨u, hu⟩
  · intro hname
    obtain ⟨u, hu⟩ := (hkeys name).2 hname
    obtain ⟨f, hf⟩ := BTreeMap.mem_keys.1 hname
    exact ⟨freshLink f u, by simp [hu, hf]⟩

/-- A resolvable description is accepted. -/
theorem Resolvable.concreteFns_total (h : Resolvable chain)
    (hkeys : ∀ name, (∃ u, fnMap.lookup name = some u) ↔ name ∈ chain.functions.keys) :
    ∃ fns, concreteFns chain fnMap = .ok fns := by
  obtain ⟨init, hinit⟩ : ∃ init, initialFns chain fnMap = .ok init :=
    initialFns_total fun name u hu => BTreeMap.mem_keys.1 ((hkeys name).1 ⟨u, hu⟩)
  obtain ⟨acc, hacc, hI⟩ := foldE_total (LinkInv init) (linkInv_nil hinit)
    fun done link rest acc hlinks hI => by
      obtain ⟨acc', hacc'⟩ := h.processLink_total (initialFns_keys hkeys hinit) hlinks hI
      exact ⟨acc', hacc', processLink_inv hI hacc'⟩
  have hcount : ¬ acc.2 = 0 := by
    obtain ⟨root, hroot, _⟩ := h.rx
    rw [hI.count, hroot]
    exact Nat.one_ne_zero
  refine ⟨acc.1, ?_⟩
  rw [concreteFns, hinit]
  simp only [Except.bind, processLinks, hacc, if_neg hcount, Except.mapError]

/-- A description that is accepted is resolvable. -/
theorem Concrete.resolvable {fns : HashMap String XdpLink} (h : Concrete chain fnMap fns) :
    Resolvable chain := by
  have hkey : ∀ name, (fns.lookup name).isSome = true → name ∈ chain.functions.keys := by
    intro name hname
    obtain ⟨l, hl⟩ := Option.isSome_iff_exists.1 hname
    obtain ⟨u, f, _, hf, _⟩ := h.link_of_lookup hl
    exact BTreeMap.mem_keys.2 ⟨f, hf⟩
  refine ⟨?_, fun l hl hne => hkey _ (h.sources l hl hne), fun l hl hne htx t ht => ?_⟩
  · obtain ⟨root, hroot, hsome⟩ := h.rx
    exact ⟨root, hroot, hkey root hsome⟩
  · exact (exists_resolveTargets.1 (h.resolved l hl hne htx) t ht).imp_left (hkey _)

/-! ## The concrete links -/

/-- The concrete link of a function, as the description has it. -/
structure LinkOf (chain : Chain) (fnMap : HashMap String Uuid) (name : String) (l : XdpLink) :
    Prop where
  uuid : fnMap.lookup name = some l.uuid
  info : ∃ f, chain.functions.get? name = some f ∧ l.disableXdp = f.disableXdp ∧
    l.mapNames = f.maps.keys
  sorted : l.mapNames.Pairwise (· < ·)
  root : l.root = true ↔ rxDests chain.links = [name]
  tail : l.state = .tail ↔ ∃ m ∈ linksOf chain.links name, m.«to» = ["tx"]
  body : ∀ els, l.state = .body els →
    linksOf chain.links name = [] ∧ els = [] ∨
      ∃ m ∈ linksOf chain.links name, m.«to».map (targetAction chain fnMap) = els.map some

/-- The concrete links of a chain: one for each function, with one root. -/
structure LinksOf (chain : Chain) (fnMap : HashMap String Uuid) (links : List XdpLink) : Prop where
  functions : ∃ names : List String, names.Perm chain.functions.keys ∧
    List.Forall₂ (LinkOf chain fnMap) names links
  root : ∃ name l, rxDests chain.links = [name] ∧ (links.filter fun l => l.root) = [l] ∧
    LinkOf chain fnMap name l

/-- Which functions are a `Tail`. -/
theorem stateAfter_eq_tail {fns : HashMap String XdpLink} {name : String} :
    stateAfter fns chain.links name = .tail ↔
      ∃ m ∈ linksOf chain.links name, m.«to» = ["tx"] := by
  constructor
  · intro h
    by_contra hnone
    have htx : ∀ l ∈ linksOf chain.links name, l.«to» ≠ ["tx"] :=
      fun l hl hto => hnone ⟨l, hl, hto⟩
    obtain ⟨acts, hacts⟩ := stateAfter_body fns htx
    rw [h] at hacts
    cases hacts
  · rintro ⟨m, hm, hto⟩
    exact stateAfter_of_tx hm hto

/-- The concrete link of a function is the one that the description has. -/
theorem Concrete.linkOf {fns : HashMap String XdpLink} (h : Concrete chain fnMap fns)
    {name : String}
    {l : XdpLink} (hl : fns.lookup name = some l) : LinkOf chain fnMap name l := by
  obtain ⟨root, hroot, _⟩ := h.rx
  have hiff := h.root_iff hroot hl
  obtain ⟨u, f, hu, hf, rfl⟩ := h.link_of_lookup hl
  refine ⟨hu, ⟨f, hf, rfl, rfl⟩, List.pairwise_map.2 f.maps.sorted, ?_, stateAfter_eq_tail, ?_⟩
  · rw [hiff, hroot]
    simp [eq_comm]
  · intro els hels
    have htx : ∀ m ∈ linksOf chain.links name, m.«to» ≠ ["tx"] := by
      intro m hm hto
      have hbody : stateAfter fns chain.links name = .body els := hels
      rw [stateAfter_of_tx hm hto] at hbody
      cases hbody
    obtain ⟨acts, hacts, hmap⟩ := h.body_state htx
    obtain rfl := XdpLinkState.body.inj (hels.symm.trans hacts)
    unfold lastTargets at hmap
    rcases List.eq_nil_or_concat (linksOf chain.links name) with hnil | ⟨ls, last, hls⟩
    · rw [hnil] at hmap
      exact Or.inl ⟨hnil, by simpa using hmap.symm⟩
    · rw [List.concat_eq_append] at hls
      rw [hls, List.getLast?_concat] at hmap
      exact Or.inr ⟨last, by rw [hls]; simp, hmap⟩

/-- Of links for different functions, one is the root. -/
theorem filter_root {names : List String} {links : List XdpLink} {root : String}
    (h : List.Forall₂ (LinkOf chain fnMap) names links) (hnd : names.Nodup)
    (hroot : rxDests chain.links = [root]) :
    (root ∈ names → ∃ l, (links.filter fun l => l.root) = [l] ∧ LinkOf chain fnMap root l) ∧
      (root ∉ names → (links.filter fun l => l.root) = []) := by
  induction h with
  | nil => simp
  | @cons name l names links hl _ ih =>
    obtain ⟨hname, hnd⟩ := List.nodup_cons.1 hnd
    have hiff : l.root = true ↔ name = root := by
      rw [hl.root, hroot]
      simp [eq_comm]
    by_cases heq : name = root
    · subst heq
      refine ⟨fun _ => ⟨l, ?_, hl⟩, fun hne => absurd (List.mem_cons_self ..) hne⟩
      rw [List.filter_cons_of_pos (hiff.2 rfl), (ih hnd).2 hname]
    · have hfalse : ¬ l.root = true := fun hc => heq (hiff.1 hc)
      rw [List.filter_cons_of_neg hfalse]
      refine ⟨fun hmem => (ih hnd).1 ?_, fun hne => (ih hnd).2 ?_⟩
      · rcases List.mem_cons.1 hmem with hc | hmem
        · exact absurd hc.symm heq
        · exact hmem
      · exact fun hc => hne (List.mem_cons_of_mem _ hc)

/-- The functions of an accepted description are those of the chain. -/
theorem Concrete.lookup_isSome {fns : HashMap String XdpLink} (h : Concrete chain fnMap fns)
    (hkeys : ∀ name, (∃ u, fnMap.lookup name = some u) ↔ name ∈ chain.functions.keys)
    (name : String) : (fns.lookup name).isSome = true ↔ name ∈ chain.functions.keys := by
  rw [h.entry]
  constructor
  · intro hsome
    obtain ⟨l, hl⟩ := Option.isSome_iff_exists.1 hsome
    obtain ⟨u, hu, _⟩ := Option.bind_eq_some_iff.1 hl
    exact (hkeys name).1 ⟨u, hu⟩
  · intro hname
    obtain ⟨u, hu⟩ := (hkeys name).2 hname
    obtain ⟨f, hf⟩ := BTreeMap.mem_keys.1 hname
    simp [hu, hf]

/-- The concrete links of an accepted description, in whatever order they come. -/
theorem Concrete.linksOf {fns : HashMap String XdpLink} (h : Concrete chain fnMap fns)
    (hkeys : ∀ name, (∃ u, fnMap.lookup name = some u) ↔ name ∈ chain.functions.keys)
    {links : List XdpLink} (hperm : links.Perm (HashMap.values fns)) :
    LinksOf chain fnMap links := by
  have hnames : fns.keys.Perm chain.functions.keys := by
    refine (List.perm_ext_iff_of_nodup fns.keys_nodup (BTreeMap.keys_nodup _)).2 fun name => ?_
    rw [← AList.mem_keys, ← AList.lookup_isSome]
    exact h.lookup_isSome hkeys name
  have hall : List.Forall₂ (flip (LinkOf chain fnMap)) (HashMap.values fns) fns.keys := by
    unfold HashMap.values AList.keys List.keys
    rw [List.forall₂_map_left_iff, List.forall₂_map_right_iff, List.forall₂_same]
    rintro ⟨name, l⟩ hmem
    exact h.linkOf (AList.mem_lookup_iff.2 hmem)
  obtain ⟨names, hlinks, hkeysPerm⟩ := List.perm_comp_forall₂ hperm hall
  have hforall := hlinks.flip
  have hnames' := hkeysPerm.trans hnames
  refine ⟨⟨names, hnames', hforall⟩, ?_⟩
  obtain ⟨root, hroot, hkey⟩ := h.resolvable.rx
  obtain ⟨l, hl, hlink⟩ := (filter_root hforall (hnames'.nodup_iff.2 (BTreeMap.keys_nodup _)) hroot).1
    (hnames'.mem_iff.2 hkey)
  exact ⟨root, l, hroot, hl, hlink⟩

/-- **Acceptance.** With a uuid for every function of a chain, `make_concrete` succeeds exactly on
the resolvable descriptions, and then it returns the concrete links that the description has. -/
theorem makeConcrete_ok_iff (hkeys : ∀ name, (∃ u, fnMap.lookup name = some u) ↔
    name ∈ chain.functions.keys) :
    ((∃ links, makeConcrete chain fnMap = .ok links) ↔ Resolvable chain) ∧
      ∀ resolved links, makeConcrete chain fnMap = .ok resolved → links.Perm resolved →
        LinksOf chain fnMap links := by
  refine ⟨⟨?_, fun h => ?_⟩, fun resolved links hresolved hperm => ?_⟩
  · rintro ⟨links, hlinks⟩
    obtain ⟨fns, hfns, _⟩ := makeConcrete_ok hlinks
    exact (concreteFns_ok hfns).resolvable
  · obtain ⟨fns, hfns⟩ := h.concreteFns_total hkeys
    exact ⟨HashMap.values fns, by rw [makeConcrete, hfns]; rfl⟩
  · obtain ⟨fns, hfns, rfl⟩ := makeConcrete_ok hresolved
    exact (concreteFns_ok hfns).linksOf hkeys hperm

/-- Two functions, of which the second runs in userland; the first one is linked to the second, to
itself and to a special name. -/
def mixedChain : Chain where
  functions := ⟨[("a", ⟨none, false, none, BTreeMap.empty⟩), ("b", ⟨none, true, none, BTreeMap.empty⟩)],
    by decide⟩
  links := [⟨"rx", ["a"]⟩, ⟨"a", ["b", "!a", "drop"]⟩, ⟨"b", ["tx"]⟩]
  maps := BTreeMap.empty

theorem mixedChain_keys (name : String) :
    (∃ u, (AList.insert "a" 1 (AList.singleton "b" 2) : HashMap String Uuid).lookup name = some u) ↔
      name ∈ mixedChain.functions.keys := by
  rw [← Option.isSome_iff_exists, AList.lookup_isSome, AList.mem_insert, AList.mem_keys,
    AList.keys_singleton]
  exact List.mem_cons.symm

theorem mixedChain_accepted : Resolvable mixedChain ∧
    LinksOf mixedChain (AList.insert "a" 1 (AList.singleton "b" 2))
      [⟨1, .body [.upcall 2, .upcall 1, .drop], true, false, []⟩, ⟨2, .tail, false, true, []⟩] := by
  obtain ⟨hiff, hlinks⟩ := makeConcrete_ok_iff mixedChain_keys
  exact ⟨hiff.1 ⟨_, rfl⟩, hlinks _ _ rfl (by decide)⟩

end Galette.Chainsmith
