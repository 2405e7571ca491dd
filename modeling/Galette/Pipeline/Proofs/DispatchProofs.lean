import Galette.Chainsmith.Proofs.AnalyseProofs
import Galette.Chainsmith.Proofs.ArityProofs
import Galette.Chainsmith.Proofs.GenerateProofs
import Galette.Pulley.Proofs.SimulationProofs

/-!
# Proofs: from the variants of an enum to the targets of a link

The compiler counts the variants of an enum, the wrappers cast them to integers, and the tables are
filled by position. A variant leads to the target at its own position exactly if its enum is
`Positional` and the table still has the targets of the link whose number was checked.
-/

namespace Galette.Pipeline

open Galette.Lib Galette.Protocol Galette.Chainsmith Galette.Pulley

/-- A value `n` that the wrapper of a build returns for the variant at position `i` is this
position, also as the index of a table, and leads to the `i`th target of `link`: it selects the
action of this target, in the programs of the kernel or in userland. -/
structure Dispatched (chain : Chainsmith.Chain) (fnMap : HashMap String Uuid) (link : Link)
    (l : XdpLink) (b : Build) (i n : Nat) : Prop where
  position : n = i
  index : (UInt32.ofNat n).toNat = i
  target : ∃ t a, link.«to»[i]? = some t ∧ targetAction chain fnMap t = some a ∧
    l.state.act (UInt32.ofNat n) = some a ∧
    (b = .xdp → ∀ host obj pkt, ProgramOf l.uuid l.state obj →
      (obj.file.packet pkt).2 = UInt32.ofNat n →
      (xdpSockProg host obj pkt).2 = armOf host obj (UInt32.ofNat i) a) ∧
    (b = .user → ∀ st : ChainState, st.linkStates.lookup l.uuid = some l.state →
      userAction st l.uuid n = some a)

/-- The action that the links of a function give to an index. -/
def actionAt (chain : Chainsmith.Chain) (fnMap : HashMap String Uuid) (name : String) (i : Nat) :
    Option LinkAction :=
  match followers chain name with
  | none => some .tx
  | some targets => targets[i]?.bind (targetAction chain fnMap)

/-- The links of a function give to the position of a variant what `link` has there. -/
def LinkKept (chain : Chainsmith.Chain) (fnMap : HashMap String Uuid) (name : String) (link : Link)
    (variants : List Variant) : Prop :=
  ∀ (i : Nat) v b, variants[i]? = some v → v.cfg b = true → ∃ t a, link.«to»[i]? = some t ∧
    targetAction chain fnMap t = some a ∧ actionAt chain fnMap name i = some a

variable {chain : Chainsmith.Chain} {fnMap : HashMap String Uuid} {fns : HashMap String XdpLink}

/-- What a function does with an index, by its description. -/
theorem act_eq_actionAt (hC : Concrete chain fnMap fns) {name : String}
    {l : XdpLink} (hl : fns.lookup name = some l) {i : Nat} (hi : i < 2 ^ 32) :
    l.state.act (UInt32.ofNat i) = actionAt chain fnMap name i := by
  obtain ⟨u, f, _, _, rfl⟩ := hC.link_of_lookup hl
  have hstate : (linkAfter fns chain.links name (freshLink f u)).state =
    stateAfter fns chain.links name := rfl
  rw [hstate, actionAt]
  cases hf : followers chain name with
  | none =>
    rw [Concrete.state_none hf]
    rfl
  | some targets =>
    obtain ⟨acts, hacts, hmap⟩ := hC.state_some hf
    rw [hacts, XdpLinkState.act, UInt32.toNat_ofNat_of_lt' hi]
    show acts[i]? = targets[i]?.bind (targetAction chain fnMap)
    cases ht : targets[i]? with
    | none =>
      have hlen : acts.length = targets.length := by simpa using (congrArg List.length hmap).symm
      rw [List.getElem?_eq_none_iff] at ht
      exact List.getElem?_eq_none (by omega)
    | some t =>
      obtain ⟨a, ha, hta⟩ := exists_of_map_eq hmap ht
      rw [ha, Option.bind_some, hta]

/-- With its position for value, a variant leads to the target of this position exactly if the links
give that target to the index. -/
theorem dispatched_iff (hC : Concrete chain fnMap fns) {name : String} {l : XdpLink}
    (hl : fns.lookup name = some l) {link : Link} {b : Build} {i : Nat} (hi : i < 2 ^ 32) :
    Dispatched chain fnMap link l b i i ↔ ∃ t a, link.«to»[i]? = some t ∧
      targetAction chain fnMap t = some a ∧ actionAt chain fnMap name i = some a := by
  have hact := act_eq_actionAt hC hl hi
  constructor
  · rintro ⟨_, _, t, a, ht, hta, hentry, _⟩
    exact ⟨t, a, ht, hta, by rw [← hact]; exact hentry⟩
  · rintro ⟨t, a, ht, hta, hentry⟩
    rw [← hact] at hentry
    refine ⟨rfl, UInt32.toNat_ofNat_of_lt' hi, t, a, ht, hta, hentry,
      fun _ host obj pkt hobj hpkt => ?_, fun _ st hst => ?_⟩
    · rw [← hpkt] at hentry ⊢
      exact hobj.exit host pkt hentry
    · rw [userAction, hst]
      exact hentry

/-- **Variants lead to the targets at their positions.** For a function whose source is accepted,
with an enum for return type, and whose link passes the arity check: in both builds every variant
that `packet` returns leads to the target at its position, exactly if both builds of the enum are
positional and the links of the function keep the targets of the link that was checked. -/
theorem variants_dispatched_iff {crates : Crates} {analyses : List FnAnalysis} {name : String}
    {info : Chainsmith.Function} {analysis : FnAnalysis} {ident : String} {variants : List String}
    {link : Link} {l : XdpLink} (haccept : getNfReturnTypes crates chain = .ok analyses)
    (hfn : ((name, info), analysis) ∈ analysed chain analyses)
    (hret : analysis.retTy = .enum ident variants) (hcheck : myLinks chain name analysis = .ok link)
    (hconc : concreteFns chain fnMap = .ok fns) (hl : fns.lookup name = some l) :
    ∃ file e, loadSource crates name info = .ok file ∧ enumItem file ident = some e ∧
      variants = e.variants.map Variant.ident ∧ link.«to».length = variants.length ∧
      ((∀ b i n, e.returned b i = some n → Dispatched chain fnMap link l b i n) ↔
        (∀ b, Positional b e.variants) ∧ LinkKept chain fnMap name link e.variants) := by
  have hC := concreteFns_ok hconc
  obtain ⟨file, hfile, hanalyse⟩ := getNfReturnTypes_ok haccept _ hfn
  obtain ⟨e, he, hvariants⟩ := analyse_enum hanalyse hret
  have hlen : link.«to».length = variants.length := by
    rcases (myLinks_ok hcheck).2 with hempty | hlen
    · rw [hret] at hempty
      cases hempty
    · rw [hlen, hret]
      rfl
  refine ⟨file, e, hfile, he, hvariants, hlen, ?_⟩
  simp only [← returned_iff_positional]
  constructor
  · intro h
    have hpos : ∀ b i n, e.returned b i = some n → n = i ∧ i < 2 ^ 32 := by
      intro b i n hn
      have hd := h b i n hn
      exact ⟨hd.position, by rw [← hd.index]; exact UInt32.toNat_lt _⟩
    refine ⟨hpos, fun i v b hv hb => ?_⟩
    obtain ⟨n, hn⟩ := exists_returned.2 ⟨v, hv, hb⟩
    obtain ⟨rfl, hi⟩ := hpos b i n hn
    exact (dispatched_iff hC hl hi).1 (h b n n hn)
  · rintro ⟨hpos, hkept⟩ b i n hn
    obtain ⟨rfl, hi⟩ := hpos b i n hn
    obtain ⟨v, hv, hb⟩ := exists_returned.1 ⟨n, hn⟩
    exact (dispatched_iff hC hl hi).2 (hkept n v b hv hb)

/-- With a single link the targets are kept, but for the shortcut to `tx` in a chain that has a
function of this name. -/
theorem linkKept_of_single (hC : Concrete chain fnMap fns) {name : String} {link : Link}
    (hlink : linksOf chain.links name = [link])
    (htx : link.«to» = ["tx"] → fnMap.lookup "tx" = none) {vs : List Variant}
    (hlen : vs.length ≤ link.«to».length) : LinkKept chain fnMap name link vs := by
  intro i v b hv _
  have hi : i < link.«to».length := by
    have := (List.getElem?_eq_some_iff.1 hv).1
    omega
  have hmem : link ∈ linksOf chain.links name := by rw [hlink]; exact List.mem_singleton.2 rfl
  obtain ⟨hlinks, hfrom⟩ := List.mem_filter.1 hmem
  by_cases hto : link.«to» = ["tx"]
  · obtain rfl : i = 0 := by
      rw [hto] at hi
      simpa using hi
    refine ⟨"tx", .tx, by rw [hto]; rfl, ?_, ?_⟩
    · have hstrip : (stripUpcall "tx").2 = "tx" := rfl
      rw [targetAction, hstrip, htx hto]
      rfl
    · have hnone : followers chain name = none := by simp [followers, hlink, hto]
      rw [actionAt, hnone]
  · have hne : link.«from» ≠ "rx" := by
      intro hrx
      simp [hrx] at hfrom
    obtain ⟨acts, hacts⟩ := hC.resolved link hlinks hne hto
    have hmap := hC.resolveTargets_iff.1 hacts
    have hsome : followers chain name = some link.«to» := by
      simp [followers, lastTargets, hlink, hto]
    have ht : link.«to»[i]? = some link.«to»[i] := List.getElem?_eq_getElem hi
    obtain ⟨a, _, hta⟩ := exists_of_map_eq hmap ht
    refine ⟨_, a, ht, hta, ?_⟩
    rw [actionAt, hsome]
    show link.«to»[i]?.bind (targetAction chain fnMap) = some a
    rw [ht, Option.bind_some, hta]

/-- A crate whose `packet` returns an enum with two variants. -/
def verdictFile (first second : Option Int) : SynFile where
  items := [
    .enum { ident := "Verdict", variants := [⟨"Block", first, fun _ => true⟩,
      ⟨"Allow", second, fun _ => true⟩] },
    .fn { ident := "packet", inputs := [.typed .other],
          output := .type (.path ⟨false, [⟨"Verdict", false⟩]⟩) }]

def verdictCrates (first second : Option Int) : Crates where
  readToString := fun path => if path = "nf" then some "" else none
  parseFile := fun _ => some (verdictFile first second)

def verdictAnalysis : FnAnalysis := ⟨.enum "Verdict" ["Block", "Allow"], none⟩

theorem verdictCrates_accepted (first second : Option Int) :
    getNfReturnTypes (verdictCrates first second) forkChain = .ok [verdictAnalysis] := rfl

theorem verdictAnalysis_checked :
    myLinks forkChain "nf" verdictAnalysis = .ok ⟨"nf", ["drop", "pass"]⟩ := by decide

theorem verdictFile_positional (b : Build) : Positional b
    [⟨"Block", none, fun _ => true⟩, ⟨"Allow", some 1, fun _ => true⟩] := by
  rw [positional_iff]
  cases b <;> simp [PositionalFrom, Build.cast, Build.bits]

/-- An explicit discriminant does no harm if it is the position. -/
theorem verdict_dispatched : ∃ e, enumItem (verdictFile none (some 1)) "Verdict" = some e ∧
    ∀ b i n, e.returned b i = some n →
      Dispatched forkChain forkFnMap ⟨"nf", ["drop", "pass"]⟩ forkLink b i n := by
  obtain ⟨fns, hconc, hl⟩ := forkChain_concrete
  obtain ⟨file, e, hfile, he, _, _, hiff⟩ :=
    variants_dispatched_iff (verdictCrates_accepted none (some 1)) (List.mem_singleton.2 rfl) rfl
      verdictAnalysis_checked hconc hl
  obtain rfl : verdictFile none (some 1) = file := Except.ok.inj hfile
  obtain rfl := Option.some.inj he
  refine ⟨_, rfl, hiff.2 ⟨verdictFile_positional, ?_⟩⟩
  exact linkKept_of_single (concreteFns_ok hconc) rfl (by decide) (by decide)

/-- If the discriminants exchange the values of the two variants, the first one does not lead to the
first target. -/
theorem not_dispatched_of_discriminants : ¬ ∀ (crates : Crates) (chain : Chainsmith.Chain)
    (analyses : List FnAnalysis) (name : String) (info : Chainsmith.Function)
    (analysis : FnAnalysis)
    (ident : String) (variants : List String) (link : Link) (fnMap : HashMap String Uuid)
    (fns : HashMap String XdpLink) (l : XdpLink),
    getNfReturnTypes crates chain = .ok analyses →
    ((name, info), analysis) ∈ analysed chain analyses → analysis.retTy = .enum ident variants →
    myLinks chain name analysis = .ok link → concreteFns chain fnMap = .ok fns →
    fns.lookup name = some l →
    ∃ file e, loadSource crates name info = .ok file ∧ enumItem file ident = some e ∧
      ∀ b i n, e.returned b i = some n → Dispatched chain fnMap link l b i n := by
  intro hall
  obtain ⟨fns, hconc, hl⟩ := forkChain_concrete
  obtain ⟨file, e, hfile, he, hd⟩ := hall _ _ _ _ _ _ _ _ _ _ _ _
    (verdictCrates_accepted (some 1) (some 0)) (List.mem_singleton.2 rfl) rfl
    verdictAnalysis_checked hconc hl
  obtain rfl : verdictFile (some 1) (some 0) = file := Except.ok.inj hfile
  obtain rfl := Option.some.inj he
  have hposition := (hd .xdp 0 1 rfl).position
  cases hposition

end Galette.Pipeline
