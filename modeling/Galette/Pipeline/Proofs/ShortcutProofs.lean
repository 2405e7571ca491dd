import Galette.Chainsmith.Proofs.AcceptanceProofs
import Galette.Chainsmith.Proofs.ArityProofs
import Galette.Pipeline.Proofs.MapProofs

/-!
# Proofs: a link to `tx` alone

A function that is linked to `tx` and nothing else becomes a `Tail`, without a look at the functions
of the chain. Among other targets `tx` is looked up like any name: a function called `tx` comes
first. The two agree exactly if there is no such function, and the index that is not looked at is 0.
-/

namespace Galette.Pipeline

open Galette.Lib Galette.Protocol Galette.Chainsmith Galette.Pulley

/-- What `tx` is resolved to among other targets. -/
theorem resolveTarget_tx (fns : HashMap String XdpLink) (link : Link) :
    ∃ a, resolveTarget fns link "tx" = .ok a ∧ (a = .tx ↔ fns.lookup "tx" = none) := by
  cases hl : fns.lookup (stripUpcall "tx").2 with
  | none => exact ⟨.tx, (resolveTarget_none hl).2 rfl, iff_of_true rfl hl⟩
  | some dest =>
    have hname : fns.lookup "tx" = some dest := hl
    refine ⟨if dest.disableXdp then .upcall dest.uuid else .tailcall dest.uuid, ?_, ?_⟩
    · simp only [resolveTarget, hl]
      rfl
    · rw [hname]
      split <;> simp

/-- In userland a table of one action does what a `Tail` does exactly for the index 0, if the action
is to transmit. -/
theorem tail_act_eq_iff (a : LinkAction) (out : UInt32) :
    XdpLinkState.tail.act out = (XdpLinkState.body [a]).act out ↔ a = .tx ∧ out = 0 := by
  have hzero : out = 0 ↔ out.toNat = 0 := by rw [← UInt32.toNat_inj, UInt32.toNat_zero]
  rw [hzero]
  by_cases hout : out.toNat = 0
  · simp [XdpLinkState.act, hout, eq_comm]
  · simp [XdpLinkState.act, hout]

/-- In the kernel, if the table has one slot. -/
theorem chainExit_eq_tx_iff {progFds : HashMap Uuid Fd} {a : LinkAction} {obj : Object}
    (host : Host)
    (hT : Tables progFds [a] obj) (hslots : obj.file.slots = 1) (out : UInt32) :
    chainExit host obj out = .ret .tx ↔ a = .tx ∧ out = 0 := by
  have hzero : out = 0 ↔ out.toNat = 0 := by rw [← UInt32.toNat_inj, UInt32.toNat_zero]
  rw [hzero]
  by_cases hout : out.toNat = 0
  · rw [hT.chainExit host (a := a) (by rw [hout]; rfl)]
    cases a with
    | upcall id =>
      simp only [armOf, upcallArm]
      split
      · split <;> simp
      · simp
    | tailcall id =>
      simp only [armOf, tailcallArm]
      split <;> simp
    | _ => simp [armOf, verdictOf, hout]
  · have hget : obj.actsGet out = none := by
      rw [Object.actsGet, hslots, if_neg (by omega)]
    simp [chainExit, hget, hout]

/-- A single return value needs a single slot. -/
theorem neededSlots_of_len {analysis : FnAnalysis} (h : analysis.retTy.len = 1) :
    neededSlots analysis = 1 := by
  rw [neededSlots, h, nextPowerOfTwo, Nat.clog_one_right, Nat.pow_zero]

/-- A program with a table of one action does what a `Tail` does, if the action is to transmit and
it is found. -/
theorem sameEffect_iff {progFds : HashMap Uuid Fd} {cores : UInt32} {xsks : List Fd} {uuid : Uuid}
    {a : LinkAction} {id fd fd' : Nat} {endFile linkFile : ObjectFile} {linkObj : Object}
    {slots : UInt32} (hend : endFile.template = .wrapper)
    (hlinkFile : linkFile.template = .wrapperChain slots) (hone : linkFile.slots = 1)
    (hpacket : linkFile.packet = endFile.packet)
    (hpatch : patchObject progFds cores xsks uuid [a] id (Object.load linkFile fd) = .ok linkObj)
    (host : Host) (pkt : Bytes) :
    SameEffect host (Object.load endFile fd') linkObj [a] pkt ↔
      a = .tx ∧ (endFile.packet pkt).2 = 0 := by
  obtain ⟨hP, hsame⟩ := patchObject_ok (fun _ => rfl) hpatch
  have hfile : linkObj.file = linkFile := hsame.file
  rw [← hfile] at hone
  have hexit := chainExit_eq_tx_iff host hP.toTables hone (endFile.packet pkt).2
  have hkernel : xdpSockProg host (Object.load endFile fd') pkt = xdpSockProg host linkObj pkt ↔
      chainExit host linkObj (endFile.packet pkt).2 = .ret .tx := by
    simp [xdpSockProg, Object.load, hend, hfile, hlinkFile, hpacket, eq_comm]
  rw [← hexit, ← hkernel]
  refine ⟨fun h => h.kernel, fun h => ⟨h, ?_⟩⟩
  rw [hfile, hpacket]
  exact (tail_act_eq_iff a _).2 (hexit.1 (hkernel.1 h))

variable {T : CaseTable} {chain : Chainsmith.Chain} {analyses : List FnAnalysis}
  {srcs : List (String × XdpSource)} {fnMap : HashMap String Uuid} {fns : HashMap String XdpLink}

/-- **The shortcut.** A function whose link leads to `tx` alone becomes a `Tail`. What this does to
a packet is the same as with the table that the targets of the link are resolved to, exactly if no
function of the chain is called `tx` and the function returns 0. -/
theorem shortcut_agrees_iff (hkeys : ∀ name, (∃ u, fnMap.lookup name = some u) ↔
      name ∈ chain.functions.keys)
    (hwrite : writeXdpPrograms T chain analyses = .ok srcs)
    (hconcrete : concreteFns chain fnMap = .ok fns) {name : String} {info : Chainsmith.Function}
    {analysis : FnAnalysis} (hfn : ((name, info), analysis) ∈ analysed chain analyses)
    (hrx : name ≠ "rx") {link : Link}
    (hlink : chain.links.find? (fun l => l.«from» = name) = some link) (hto : link.«to» = ["tx"]) :
    ∃ src l a, writeXdpProgram T chain name info analysis = .ok src ∧ fns.lookup name = some l ∧
      l.state = .tail ∧ resolveTargets fns link link.«to» = .ok [a] ∧
      ∀ host progFds cores xsks id fd fd' endFile linkFile linkObj,
        endFile.template = .wrapper → linkFile.template = .wrapperChain (UInt32.ofNat src.slots) →
        linkFile.packet = endFile.packet →
        patchObject progFds cores xsks l.uuid [a] id (Object.load linkFile fd) = .ok linkObj →
        ∀ pkt, SameEffect host (Object.load endFile fd') linkObj [a] pkt ↔
          "tx" ∉ chain.functions.keys ∧ (endFile.packet pkt).2 = 0 := by
  have hC := concreteFns_ok hconcrete
  obtain ⟨src, hsrc⟩ := writeXdpPrograms_ok hwrite _ hfn
  obtain ⟨_, hslots, link', hlink'⟩ := writeXdpProgram_ok hsrc
  obtain ⟨hfind, harity⟩ := myLinks_ok hlink'
  obtain rfl := Option.some.inj (hlink.symm.trans hfind)
  have hlen : analysis.retTy.len = 1 := by
    rcases harity with hempty | hlen
    · rw [hempty]
      rfl
    · rw [← hlen, hto]
      rfl
  obtain ⟨a, ha, hatx⟩ := resolveTarget_tx fns link
  have hkey : name ∈ chain.functions.keys := List.mem_map_of_mem (List.of_mem_zip hfn).1
  obtain ⟨l, hl⟩ := Option.isSome_iff_exists.1 ((hC.lookup_isSome hkeys name).2 hkey)
  have htail : l.state = .tail := by
    obtain ⟨u, f, _, _, rfl⟩ := hC.link_of_lookup hl
    have hname : link.«from» = name := by simpa using List.find?_some hlink
    exact stateAfter_of_tx
      (List.mem_filter.2 ⟨List.mem_of_find?_eq_some hlink, by simp [hname, hrx]⟩) hto
  refine ⟨src, l, a, hsrc, hl, htail, ?_, ?_⟩
  · rw [hto, resolveTargets_eq_ok]
    exact .cons ha .nil
  · intro host progFds cores xsks id fd fd' endFile linkFile linkObj hend hlinkFile hpacket hpatch pkt
    have hone : linkFile.slots = 1 := by
      rw [ObjectFile.slots, hlinkFile, hslots, neededSlots_of_len hlen]
      rfl
    have htx : "tx" ∉ chain.functions.keys ↔ a = .tx := by
      rw [hatx, ← hC.lookup_isSome hkeys, Option.not_isSome_iff_eq_none]
    rw [htx]
    exact sameEffect_iff hend hlinkFile hone hpacket hpatch host pkt

def otherName (clash : Bool) : String := if clash then "tx" else "ux"

/-- A function that is linked to `tx`, in a chain with another function. -/
def txChain (clash : Bool) : Chainsmith.Chain where
  functions := ⟨[("nf", ⟨none, false, none, BTreeMap.empty⟩),
    (otherName clash, ⟨none, false, none, BTreeMap.empty⟩)], by cases clash <;> decide⟩
  links := [⟨"rx", ["nf"]⟩, ⟨"nf", ["tx"]⟩, ⟨otherName clash, ["drop"]⟩]
  maps := BTreeMap.empty

def txFnMap (clash : Bool) : HashMap String Uuid :=
  AList.insert "nf" 1 (AList.singleton (otherName clash) 2)

/-- Both functions return an enum with one variant. -/
def txAnalyses : List FnAnalysis := [⟨.enum "Sent" ["Sent"], none⟩, ⟨.enum "Sent" ["Sent"], none⟩]

theorem txChain_keys (clash : Bool) (name : String) :
    (∃ u, (txFnMap clash).lookup name = some u) ↔ name ∈ (txChain clash).functions.keys := by
  rw [← Option.isSome_iff_exists, AList.lookup_isSome, txFnMap, AList.mem_insert, AList.mem_keys,
    AList.keys_singleton]
  exact List.mem_cons.symm

/-- The `end` program of the function, which returns 0. -/
def txEndFile : ObjectFile where
  template := .wrapper
  packet pkt := (pkt, 0)
  nfMaps := []

/-- The `link` program of the function. -/
def txLinkFile : ObjectFile where
  template := .wrapperChain 1
  packet pkt := (pkt, 0)
  nfMaps := []

/-- The chain passes the checks, and this is what becomes of the function and of `tx`. -/
theorem txChain_concrete (T : CaseTable) (clash : Bool) :
    ∃ srcs fns, writeXdpPrograms T (txChain clash) txAnalyses = .ok srcs ∧
      concreteFns (txChain clash) (txFnMap clash) = .ok fns ∧
      fns.lookup "nf" = some ⟨1, .tail, true, false, []⟩ ∧
      resolveTargets fns ⟨"nf", ["tx"]⟩ ["tx"] = .ok [if clash then .tailcall 2 else .tx] := by
  cases clash with
  | false => exact ⟨_, _, rfl, rfl, rfl, rfl⟩
  | true => exact ⟨_, _, rfl, rfl, rfl, rfl⟩

/-- Without a function called `tx` the two programs do the same. -/
theorem txChain_shortcut_agrees : ∃ obj,
    patchObject ∅ 1 [] 1 [.tx] 0 (Object.load txLinkFile 3) = .ok obj ∧
      ∀ host pkt, SameEffect host (Object.load txEndFile 9) obj [.tx] pkt := by
  obtain ⟨srcs, fns, hwrite, hconcrete, hnf, htargets⟩ := txChain_concrete asciiCase false
  obtain ⟨src, l, a, hsrc, hl, _, ha, hiff⟩ := shortcut_agrees_iff (txChain_keys false) hwrite
    hconcrete (List.mem_cons_self ..) (by decide) rfl rfl
  obtain rfl := Option.some.inj (hnf.symm.trans hl)
  obtain rfl : LinkAction.tx = a := by
    rw [htargets] at ha
    exact (List.cons.inj (Except.ok.inj ha)).1
  have hslots : src.slots = 1 := by
    rw [(writeXdpProgram_ok hsrc).2.1, neededSlots_of_len rfl]
  refine ⟨_, rfl, fun host pkt => (hiff host ∅ 1 [] 0 3 9 txEndFile txLinkFile _ rfl ?_ rfl rfl pkt).2
    ⟨by decide, rfl⟩⟩
  rw [hslots]
  rfl

/-- With a function called `tx` the table leads to this function. -/
theorem not_shortcut_agrees : ¬ ∀ (T : CaseTable) (chain : Chainsmith.Chain)
    (fnMap : HashMap String Uuid) (analyses : List FnAnalysis) (srcs : List (String × XdpSource))
    (fns : HashMap String XdpLink) (name : String) (info : Chainsmith.Function)
    (analysis : FnAnalysis) (link : Link) (src : XdpSource) (l : XdpLink) (a : LinkAction),
    (∀ name, (∃ u, fnMap.lookup name = some u) ↔ name ∈ chain.functions.keys) →
    writeXdpPrograms T chain analyses = .ok srcs → concreteFns chain fnMap = .ok fns →
    ((name, info), analysis) ∈ analysed chain analyses → name ≠ "rx" →
    chain.links.find? (fun l => l.«from» = name) = some link → link.«to» = ["tx"] →
    writeXdpProgram T chain name info analysis = .ok src → fns.lookup name = some l →
    resolveTargets fns link link.«to» = .ok [a] →
    ∀ host progFds cores xsks id fd fd' endFile linkFile linkObj,
      endFile.template = .wrapper → linkFile.template = .wrapperChain (UInt32.ofNat src.slots) →
      linkFile.packet = endFile.packet →
      patchObject progFds cores xsks l.uuid [a] id (Object.load linkFile fd) = .ok linkObj →
      ∀ pkt, SameEffect host (Object.load endFile fd') linkObj [a] pkt := by
  intro h
  obtain ⟨srcs, fns, hwrite, hconcrete, hnf, htargets⟩ := txChain_concrete asciiCase true
  obtain ⟨src, hsrc⟩ := writeXdpPrograms_ok hwrite _ (List.mem_cons_self ..)
  have hslots : src.slots = 1 := by
    rw [(writeXdpProgram_ok hsrc).2.1, neededSlots_of_len rfl]
  have hsame := h asciiCase (txChain true) (txFnMap true) txAnalyses srcs fns "nf" _ _
    ⟨"nf", ["tx"]⟩ src _ (.tailcall 2) (txChain_keys true) hwrite hconcrete (List.mem_cons_self ..)
    (by decide) rfl rfl hsrc hnf htargets wideHost (AList.singleton 2 5) 1 [] 0 3 9 txEndFile
    txLinkFile _ rfl (by rw [hslots]; rfl) rfl rfl []
  cases hsame.user

end Galette.Pipeline
