import Galette.Pulley.Semantics
import Galette.Pulley.Proofs.TableProofs

/-!
# Proofs: the hand-over of an upcalled packet

A kernel program that upcalls writes its program id and the index in front of the packet. Userland
reads them back, finds the function by the id and the action by the index. The id is found under the
uuid of the function that wrote it as long as no two programs share an id.
-/

namespace Galette.Pulley

open Galette.Lib Galette.Protocol

variable {K : Libbpf} {chain : Chain} {config : Cli} {xsks : List Fd} {st : ChainState}

/-! ## Metadata and cores -/

/-- Userland reads what the kernel program wrote. -/
@[simp] theorem decodeMeta_upcallMeta (endian : Endian) (state : DataplaneState) (out : UInt32) :
    decodeMeta endian (upcallMeta endian state out) = some (state.progId, out) := by
  have htake : (upcallMeta endian state out).take 4 = toNeBytes endian state.progId :=
    List.take_left' (toNeBytes_length _ _)
  have hdrop : (upcallMeta endian state out).drop 4 = toNeBytes endian out :=
    List.drop_left' (toNeBytes_length _ _)
  have hlen : (upcallMeta endian state out).length = 8 := by simp [upcallMeta]
  rw [decodeMeta, if_pos hlen, htake, hdrop, fromNeBytes_toNeBytes, fromNeBytes_toNeBytes]

theorem clampCores_toNat (n : UInt32) : 1 ≤ (clampCores n).toNat ∧ (clampCores n).toNat ≤ 8 := by
  have hmin : clampCores n = if max n 1 ≤ 8 then max n 1 else 8 := rfl
  have hmax : max n 1 = if n ≤ 1 then 1 else n := rfl
  rw [hmin, hmax]
  split_ifs <;> simp_all [UInt32.le_iff_toNat_le]
  omega

@[simp] theorem createUpcallSockets_length (socket : Nat → Fd) (config : Cli) :
    (createUpcallSockets socket config).length = config.xdpCores.toNat := by
  simp [createUpcallSockets]

/-- The chosen core is one of the cores, if there is any. -/
theorem targetCore_lt {state : DataplaneState} (h : 1 ≤ state.numCores.toNat) (prandom : UInt32) :
    (targetCore state prandom).toNat < state.numCores.toNat := by
  unfold targetCore
  split_ifs
  · rw [UInt32.toNat_mod]
    exact Nat.mod_lt _ h
  · exact h

/-! ## Tables -/

/-- The table finds the action of an index. -/
theorem Tables.actsGet {progFds : HashMap Uuid Fd} {els : List LinkAction} {o : Object}
    (h : Tables progFds els o) {out : UInt32} {a : LinkAction} (ha : els[out.toNat]? = some a) :
    o.actsGet out = some a.toKind := by
  have hlt := (List.getElem?_eq_some_iff.1 ha).1
  have hfits := h.fits
  unfold Object.actsGet
  rw [if_pos (by omega), h.acts _ _ ha]

/-- An upcall is never found in the zero padding of the table. -/
theorem Tables.upcall_of_actsGet {progFds : HashMap Uuid Fd} {els : List LinkAction} {o : Object}
    (h : Tables progFds els o) {out : UInt32} (hout : o.actsGet out = some 3) :
    ∃ id, els[out.toNat]? = some (.upcall id) := by
  unfold Object.actsGet at hout
  split at hout
  · have hkind : o.actsMap out.toNat = 3 := Option.some.inj hout
    cases ha : els[out.toNat]? with
    | none =>
      rw [h.zero _ (List.getElem?_eq_none_iff.1 ha)] at hkind
      cases hkind
    | some a =>
      rw [h.acts _ _ ha] at hkind
      obtain ⟨id, rfl⟩ := LinkAction.toKind_eq_three hkind
      exact ⟨id, rfl⟩
  · cases hout

/-! ## Program ids -/

/-- Exactly the links with a program id have a program with tables. -/
theorem Installed.hasTable_iff (h : Installed K chain config xsks st) {i : Nat} {l : XdpLink}
    (hl : chain.links[i]? = some l) : hasTable st.linkedEbpfs (l, i) = true ↔
    HasProgId chain l := by
  have hmem := List.mem_of_getElem? hl
  obtain ⟨f, hf⟩ := h.nf l hmem
  constructor
  · intro ht
    cases hs : l.state with
    | tail => simp [hasTable, hs] at ht
    | body els =>
      refine ⟨⟨els, hs⟩, f, ?_⟩
      cases he : f.ebpf with
      | none => simp [hasTable, hs, (h.skipped l hmem f hf he).1] at ht
      | some e => exact ⟨e, hf, rfl⟩
  · rintro ⟨⟨els, hs⟩, f', e, hf', he⟩
    obtain ⟨file, prog, maps, hP⟩ := h.loaded i l f' e hl hf' he
    simp [hasTable, hs, hP.linked]

/-- A chain that fits into 32-bit positions has distinct program ids. -/
theorem distinctIds_of_length_le (h : chain.links.length ≤ 2 ^ 32) : DistinctIds chain := by
  intro i j l m hi hj _ _ hij
  have hi' := (List.getElem?_eq_some_iff.1 hi).1
  have hj' := (List.getElem?_eq_some_iff.1 hj).1
  rwa [Nat.mod_eq_of_lt (by omega), Nat.mod_eq_of_lt (by omega)] at hij

/-- The id of a program is found under the uuid of its function. -/
theorem Installed.instanceId (h : Installed K chain config xsks st) (hids : DistinctIds chain)
    {i : Nat} {l : XdpLink} (hl : chain.links[i]? = some l) (hp : HasProgId chain l) :
    st.instanceIds.lookup (UInt32.ofNat i) = some l.uuid := by
  rw [h.ids]
  have hmem : (l, i) ∈ chain.links.zipIdx.filter (hasTable st.linkedEbpfs) :=
    List.mem_filter.2 ⟨List.mem_zipIdx_iff_getElem?.2 hl, (h.hasTable_iff hl).2 hp⟩
  have hnd : ((chain.links.zipIdx.filter (hasTable st.linkedEbpfs)).map
      fun e => UInt32.ofNat e.2).Nodup := by
    apply List.Nodup.map_on _ ((List.nodup_zipIdx_map_snd _).of_map.filter _)
    rintro ⟨a, m⟩ ha ⟨b, n⟩ hb hkey
    obtain ⟨ha, hta⟩ := List.mem_filter.1 ha
    obtain ⟨hb, htb⟩ := List.mem_filter.1 hb
    rw [List.mem_zipIdx_iff_getElem?] at ha hb
    have hmod : m % 2 ^ 32 = n % 2 ^ 32 := by
      have := congrArg UInt32.toNat hkey
      simpa [UInt32.toNat_ofNat'] using this
    obtain rfl := hids m n a b ha hb ((h.hasTable_iff ha).1 hta) ((h.hasTable_iff hb).1 htb) hmod
    exact Prod.ext (Option.some.inj (ha.symm.trans hb)) rfl
  exact HashMap.lookup_insertAll_of_mem (fun e => e.1.uuid) ∅ hnd hmem

/-- Under the position of the last link its own uuid is found, whatever came before. -/
theorem Installed.instanceId_of_last (h : Installed K chain config xsks st) {links : List XdpLink}
    {l : XdpLink} (hl : chain.links = links ++ [l]) (hp : HasProgId chain l) :
    st.instanceIds.lookup (UInt32.ofNat links.length) = some l.uuid := by
  have hpos : chain.links[links.length]? = some l := by rw [hl]; simp
  have ht := (h.hasTable_iff hpos).2 hp
  have hfilter : chain.links.zipIdx.filter (hasTable st.linkedEbpfs) =
      links.zipIdx.filter (hasTable st.linkedEbpfs) ++ [(l, links.length)] := by
    rw [hl, List.zipIdx_append, List.filter_append]
    simp [ht]
  rw [h.ids, hfilter]
  exact HashMap.lookup_insertAll_last (fun e => UInt32.ofNat e.2) (fun e => e.1.uuid) _
    (x := (l, links.length)) ∅ (List.forall_mem_nil _)

/-! ## The hand-over -/

/-- Userland continues an upcall with the target of the table. -/
theorem Installed.upcallTarget (h : Installed K chain config xsks st) (hids : DistinctIds chain)
    {i : Nat} {l : XdpLink} (hl : chain.links[i]? = some l) (hp : HasProgId chain l)
    {out : UInt32} {id : Uuid} (hact : l.state.act out = some (.upcall id)) :
    upcallTarget st (UInt32.ofNat i) out = some id := by
  unfold Pulley.upcallTarget
  rw [h.instanceId hids hl hp, Option.bind_some, h.states l (List.mem_of_getElem? hl),
    Option.bind_some, hact]
  rfl

/-- A program that takes the upcall arm is the program of a `Body`: the tables of a `Tail` are
empty. -/
theorem Installed.body_of_upcall (h : Installed K chain config xsks st) {i : Nat} {l : XdpLink}
    (hl : chain.links[i]? = some l) {prog : Prog} (hprog : st.linkedEbpfs.lookup l.uuid = some prog)
    {out : UInt32} (harm : prog.object.actsGet out = some 3) :
    ∃ els, l.state = .body els ∧ HasProgId chain l ∧
      Patched st.progFds config.xdpCores xsks els i prog.object := by
  have hmem := List.mem_of_getElem? hl
  obtain ⟨f, hf⟩ := h.nf l hmem
  cases he : f.ebpf with
  | none =>
    rw [(h.skipped l hmem f hf he).1] at hprog
    cases hprog
  | some e =>
    obtain ⟨file, prog', maps, hP⟩ := h.loaded i l f e hl hf he
    obtain rfl := Option.some.inj (hprog.symm.trans hP.linked)
    cases hs : l.state with
    | tail =>
      rw [hP.bare hs] at harm
      unfold Object.actsGet at harm
      split at harm <;> cases harm
    | body els => exact ⟨els, rfl, ⟨⟨els, hs⟩, f, e, hf, he⟩, hP.tables els hs⟩

/-- The core that a program chooses has a socket. -/
theorem Patched.socket {progFds : HashMap Uuid Fd} {els : List LinkAction} {i : Nat} {obj : Object}
    (hP : Patched progFds config.xdpCores xsks els i obj) (hcores : 1 ≤ config.xdpCores.toNat)
    (hxsks : xsks.length = config.xdpCores.toNat) (prandom : UInt32) :
    (targetCore obj.myStateMap prandom).toNat < xsks.length ∧
      ∃ xsk, xsks[(targetCore obj.myStateMap prandom).toNat]? = some xsk ∧
        obj.xskMap (targetCore obj.myStateMap prandom).toNat = some xsk := by
  have hnum : obj.myStateMap.numCores = config.xdpCores := by rw [hP.state]
  have hcore : (targetCore obj.myStateMap prandom).toNat < xsks.length := by
    rw [hxsks, ← hnum]
    apply targetCore_lt
    rw [hnum]
    exact hcores
  exact ⟨hcore, _, List.getElem?_eq_getElem hcore, hP.xsk _ hcore⟩

/-- **The hand-over is exact** for every program that takes the upcall arm. -/
theorem Installed.exactHandover (h : Installed K chain config xsks st) (hids : DistinctIds chain)
    (hcores : 1 ≤ config.xdpCores.toNat) (hxsks : xsks.length = config.xdpCores.toNat)
    {i : Nat} {l : XdpLink} (hl : chain.links[i]? = some l) (hp : HasProgId chain l)
    {els : List LinkAction} (hs : l.state = .body els) {obj : Object}
    (hP : Patched st.progFds config.xdpCores xsks els i obj) {out : UInt32}
    (harm : obj.actsGet out = some 3) (host : Host) : ExactHandover host st xsks l obj out := by
  have hid : obj.myStateMap.progId = UInt32.ofNat i := by rw [hP.state]
  obtain ⟨id, hent⟩ := hP.toTables.upcall_of_actsGet harm
  have hact : l.state.act out = some (.upcall id) := by rw [hs]; exact hent
  obtain ⟨hcore, hxsk⟩ := hP.socket hcores hxsks host.prandom
  refine ⟨decodeMeta_upcallMeta _ _ _, ?_, h.states l (List.mem_of_getElem? hl), ⟨id, hact, ?_⟩, ?_,
    ⟨hcore, lt_of_lt_of_le hcore hP.sockets⟩, hxsk⟩
  · rw [hid]
    exact h.instanceId hids hl hp
  · rw [hid]
    exact h.upcallTarget hids hl hp hact
  · intro hzero
    rw [hP.state] at hzero
    rw [show config.xdpCores = 0 from hzero] at hcores
    simp at hcores

end Galette.Pulley
