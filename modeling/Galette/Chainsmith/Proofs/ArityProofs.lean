import Galette.Chainsmith.Generate
import Galette.Chainsmith.Proofs.MakeConcreteProofs

/-!
# Proofs: arity check and action tables

The arity check of the code generation looks at the first link of a function, and only if the
function returns an enum. `make_concrete` goes through all links of a function. `LinksFit` says
exactly when the two fit together.
-/

namespace Galette.Chainsmith

open Galette.Lib Galette.Protocol

theorem le_nextPowerOfTwo (n : Nat) : n ≤ nextPowerOfTwo n := Nat.le_pow_clog (by omega) n

/-- The table of a function fits its return values: a `Tail` for a single one, or one action for
each of them, from the targets of the function's link. All its indices are slots of the generated
program, and each return value has an entry. -/
structure TableOk (chain : Chain) (fnMap : HashMap String Uuid) (name : String)
    (analysis : FnAnalysis)
    (l : XdpLink) : Prop where
  shape : l.state = .tail ∧ analysis.retTy.len = 1 ∨
    ∃ link acts, chain.links.find? (fun l => l.«from» = name) = some link ∧ l.state = .body acts ∧
      acts.length = analysis.retTy.len ∧ link.«to».map (targetAction chain fnMap) = acts.map some
  slots : ∀ acts, l.state = .body acts → ∀ i < acts.length,
    (UInt32.ofNat i).toNat < neededSlots analysis
  entries : ∀ acts, l.state = .body acts → ∀ v < analysis.retTy.len, ∃ a, acts[v]? = some a

/-- The links of a function fit its return type. One link to `tx` alone makes the function a `Tail`,
which is for a single return value only. Otherwise its last link, which fills the table, has to mean
the same as its first link, which is checked; and a function that returns nothing, whose link is not
checked, has to have one target. -/
def LinksFit (chain : Chain) (fnMap : HashMap String Uuid) (name : String) (retTy : NfReturnType) :
    Prop :=
  (∃ l ∈ linksOf chain.links name, l.«to» = ["tx"]) ∧ retTy.len = 1 ∨
  (∀ l ∈ linksOf chain.links name, l.«to» ≠ ["tx"]) ∧
    ∀ first, chain.links.find? (fun l => l.«from» = name) = some first →
      first.«to».map (targetAction chain fnMap) =
        (lastTargets chain name).map (targetAction chain fnMap) ∧
      (retTy = .empty → first.«to».length = 1)

variable {chain : Chain} {fnMap : HashMap String Uuid} {fns : HashMap String XdpLink}

/-- A table whose length is the number of return values has the slots and the entries. -/
theorem tableOk_of_shape {name : String} {analysis : FnAnalysis} {l : XdpLink}
    (h : l.state = .tail ∧ analysis.retTy.len = 1 ∨
      ∃ link acts, chain.links.find? (fun l => l.«from» = name) = some link ∧
        l.state = .body acts ∧ acts.length = analysis.retTy.len ∧
        link.«to».map (targetAction chain fnMap) = acts.map some) :
    TableOk chain fnMap name analysis l := by
  have hlen : ∀ acts, l.state = .body acts → acts.length = analysis.retTy.len := by
    intro acts hs
    rcases h with ⟨ht, _⟩ | ⟨link, acts', _, hs', hl, _⟩
    · rw [ht] at hs
      cases hs
    · rw [hs] at hs'
      obtain rfl := XdpLinkState.body.inj hs'
      exact hl
  refine ⟨h, fun acts hs i hi => ?_, fun acts hs v hv => ?_⟩
  · calc (UInt32.ofNat i).toNat ≤ i := by rw [UInt32.toNat_ofNat']; exact Nat.mod_le _ _
      _ < analysis.retTy.len := by rw [← hlen acts hs]; exact hi
      _ ≤ neededSlots analysis := le_nextPowerOfTwo _
  · exact ⟨_, List.getElem?_eq_getElem (by rw [hlen acts hs]; exact hv)⟩

theorem tableOk_tail_iff {name : String} {analysis : FnAnalysis} {l : XdpLink}
    (htail : l.state = .tail) :
    TableOk chain fnMap name analysis l ↔ analysis.retTy.len = 1 := by
  constructor
  · intro h
    rcases h.shape with ⟨_, hlen⟩ | ⟨_, acts, _, hs, _⟩
    · exact hlen
    · rw [htail] at hs
      cases hs
  · intro hlen
    exact tableOk_of_shape (Or.inl ⟨htail, hlen⟩)

theorem tableOk_body_iff {name : String} {analysis : FnAnalysis} {l : XdpLink}
    {acts : List LinkAction} {first : Link} (hbody : l.state = .body acts)
    (hfirst : chain.links.find? (fun l => l.«from» = name) = some first) :
    TableOk chain fnMap name analysis l ↔
      acts.length = analysis.retTy.len ∧
        first.«to».map (targetAction chain fnMap) = acts.map some := by
  constructor
  · intro h
    rcases h.shape with ⟨ht, _⟩ | ⟨link, acts', hlink, hs, hlen, hmap⟩
    · rw [hbody] at ht
      cases ht
    · rw [hbody] at hs
      obtain rfl := XdpLinkState.body.inj hs
      obtain rfl := Option.some.inj (hfirst.symm.trans hlink)
      exact ⟨hlen, hmap⟩
  · rintro ⟨hlen, hmap⟩
    exact tableOk_of_shape (Or.inr ⟨first, acts, hfirst, hbody, hlen, hmap⟩)

/-- What the arity check has seen. -/
theorem myLinks_ok {name : String} {analysis : FnAnalysis} {link : Link}
    (h : myLinks chain name analysis = .ok link) :
    chain.links.find? (fun l => l.«from» = name) = some link ∧
      (analysis.retTy = .empty ∨ link.«to».length = analysis.retTy.len) := by
  unfold myLinks at h
  cases hf : chain.links.find? (fun l => l.«from» = name) with
  | none => simp [hf] at h
  | some ml =>
    simp only [hf] at h
    cases hr : analysis.retTy with
    | empty =>
      simp only [hr] at h
      obtain rfl := Except.ok.inj h
      exact ⟨rfl, Or.inl rfl⟩
    | enum n variants =>
      simp only [hr] at h
      split at h
      · cases h
      · rename_i hlen
        obtain rfl := Except.ok.inj h
        exact ⟨rfl, Or.inr (by simpa [NfReturnType.len, eq_comm] using hlen)⟩

/-- **The table of a function fits exactly if its links do.** -/
theorem tableOk_iff_linksFit {analyses : List FnAnalysis} {e : (String × Function) × FnAnalysis}
    {l : XdpLink}
    (hcheck : ∀ e ∈ analysed chain analyses, ∃ link, myLinks chain e.1.1 e.2 = .ok link)
    (hconc : concreteFns chain fnMap = .ok fns) (he : e ∈ analysed chain analyses)
    (hl : fns.lookup e.1.1 = some l) :
    TableOk chain fnMap e.1.1 e.2 l ↔ LinksFit chain fnMap e.1.1 e.2.retTy := by
  have hC := concreteFns_ok hconc
  obtain ⟨first, hfirst⟩ := hcheck e he
  obtain ⟨hfind, harity⟩ := myLinks_ok hfirst
  have hstate : l.state = stateAfter fns chain.links e.1.1 := by
    rw [hC.entry] at hl
    obtain ⟨u, hu, hl⟩ := Option.bind_eq_some_iff.1 hl
    obtain ⟨f, hf, rfl⟩ := Option.map_eq_some_iff.1 hl
    rfl
  by_cases htx : ∃ m ∈ linksOf chain.links e.1.1, m.«to» = ["tx"]
  · obtain ⟨m, hm, hto⟩ := htx
    rw [tableOk_tail_iff (hstate.trans (stateAfter_of_tx hm hto))]
    constructor
    · intro hlen
      exact Or.inl ⟨⟨m, hm, hto⟩, hlen⟩
    · rintro (⟨_, hlen⟩ | ⟨hno, _⟩)
      · exact hlen
      · exact absurd hto (hno m hm)
  · have hno : ∀ m ∈ linksOf chain.links e.1.1, m.«to» ≠ ["tx"] := fun m hm hto => htx ⟨m, hm, hto⟩
    obtain ⟨acts, hacts, hlast⟩ := hC.body_state hno
    rw [tableOk_body_iff (hstate.trans hacts) hfind]
    have hlen : first.«to».map (targetAction chain fnMap) = acts.map some →
        acts.length = first.«to».length := by
      intro hmap
      simpa using (congrArg List.length hmap).symm
    constructor
    · rintro ⟨hret, hmap⟩
      refine Or.inr ⟨hno, fun first' hf' => ?_⟩
      obtain rfl := Option.some.inj (hf'.symm.trans hfind)
      refine ⟨by rw [hmap, hlast], fun hempty => ?_⟩
      rw [← hlen hmap, hret, hempty]
      rfl
    · rintro (⟨hex, _⟩ | ⟨_, hfit⟩)
      · exact absurd hex htx
      · obtain ⟨hmap, hone⟩ := hfit first hfind
        rw [hlast] at hmap
        refine ⟨?_, hmap⟩
        rw [hlen hmap]
        rcases harity with hempty | harity
        · rw [hone hempty, hempty]
          rfl
        · exact harity

/-- A chain of one function with two targets. -/
def forkChain : Chain where
  functions := .singleton "nf" { path := none, disableXdp := false, slice := none, maps := .empty }
  links := [⟨"rx", ["nf"]⟩, ⟨"nf", ["drop", "pass"]⟩]
  maps := .empty

def forkFnMap : HashMap String Uuid := AList.insert "nf" 1 ∅

def forkLink : XdpLink where
  uuid := 1
  state := .body [.drop, .pass]
  root := true
  disableXdp := false
  mapNames := []

theorem forkChain_concrete : ∃ fns, concreteFns forkChain forkFnMap = .ok fns ∧
    fns.lookup "nf" = some forkLink :=
  ⟨_, rfl, by decide⟩

/-- With an enum of two variants the table fits. -/
theorem forkChain_tableOk : ∃ fns, concreteFns forkChain forkFnMap = .ok fns ∧
    TableOk forkChain forkFnMap "nf" ⟨.enum "Verdict" ["A", "B"], none⟩ forkLink := by
  obtain ⟨fns, hconc, hl⟩ := forkChain_concrete
  have hcheck : ∀ e ∈ analysed forkChain [⟨.enum "Verdict" ["A", "B"], none⟩],
      ∃ link, myLinks forkChain e.1.1 e.2 = .ok link := by
    intro e he
    obtain rfl := List.mem_singleton.1 he
    exact ⟨⟨"nf", ["drop", "pass"]⟩, by decide⟩
  refine ⟨fns, hconc, (tableOk_iff_linksFit hcheck hconc (List.mem_singleton.2 rfl) hl).2 ?_⟩
  refine Or.inr ⟨by decide, fun first hfirst => ⟨?_, by simp⟩⟩
  obtain rfl : first = ⟨"nf", ["drop", "pass"]⟩ := (Option.some.inj hfirst).symm
  decide

/-- The same function with two links. -/
def twiceChain : Chain :=
  { forkChain with links := [⟨"rx", ["nf"]⟩, ⟨"nf", ["drop"]⟩, ⟨"nf", ["drop", "pass"]⟩] }

theorem twiceChain_concrete : ∃ fns, concreteFns twiceChain forkFnMap = .ok fns ∧
    fns.lookup "nf" = some forkLink :=
  ⟨_, rfl, by decide⟩

/-- Only the first link of a function is checked, and the last one decides its table: with an enum
of one variant the chain is accepted, and the table has more entries than the generated program
has slots. -/
theorem not_tableOk_of_unchecked : ¬ ∀ (chain : Chain) (fnMap : HashMap String Uuid)
    (fns : HashMap String XdpLink) (analyses : List FnAnalysis)
    (e : (String × Function) × FnAnalysis) (l : XdpLink),
    analyses.length = chain.functions.entries.length →
    (∀ e ∈ analysed chain analyses, ∃ link, myLinks chain e.1.1 e.2 = .ok link) →
    concreteFns chain fnMap = .ok fns → e ∈ analysed chain analyses →
    fns.lookup e.1.1 = some l → TableOk chain fnMap e.1.1 e.2 l := by
  intro hall
  obtain ⟨fns, hconc, hl⟩ := twiceChain_concrete
  have hcheck : ∀ e ∈ analysed twiceChain [⟨.enum "Verdict" ["A"], none⟩],
      ∃ link, myLinks twiceChain e.1.1 e.2 = .ok link := by
    intro e he
    obtain rfl := List.mem_singleton.1 he
    exact ⟨⟨"nf", ["drop"]⟩, by decide⟩
  have hok := hall twiceChain forkFnMap fns [⟨.enum "Verdict" ["A"], none⟩] _ forkLink rfl hcheck
    hconc (List.mem_singleton.2 rfl) hl
  rcases hok.shape with ⟨ht, _⟩ | ⟨link, acts, _, hs, hlen, _⟩
  · cases ht
  · obtain rfl := XdpLinkState.body.inj hs
    cases hlen

end Galette.Chainsmith
