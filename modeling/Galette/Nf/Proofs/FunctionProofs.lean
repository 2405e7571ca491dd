import Galette.Nf.Proofs.ProgramProofs
import Mathlib.Data.Set.Card

/-!
# Proofs: the functions of the examples

What the example functions do, for every packet and in either place. A function without empty
requests does everywhere what it does in userland, so only this build has to be looked at.
-/

namespace Galette.Nf

open Galette.Lib Galette.Protocol

variable {α σ : Type} {R : Redbpf} {H : MapHost σ}

/-! ## Reading -/

theorem setSlice_requested {pkt bs : Bytes} {offset len : UInt64}
    (h : requested pkt offset len = some bs) : setSlice pkt offset.toNat bs = pkt := by
  have hlen := requested_some h
  unfold requested at h
  rw [if_pos (by omega)] at h
  have hbs := Option.some.inj h
  unfold setSlice
  rw [hlen.2, ← hbs, List.append_assoc, ← List.drop_drop, List.take_append_drop,
    List.take_append_drop]

theorem runUser_readFrom_some {pkt bs : Bytes} (hpkt : pkt.length < 2 ^ 64) {offset len : UInt64}
    (h : requested pkt offset len = some bs) (absent : NfProg α) (present : Bytes → NfProg α)
    (m : σ) :
    runUser H (.readFrom offset len absent present) pkt m = runUser H (present bs) pkt m := by
  simp only [NfProg.readFrom, runUser, sliceFrom_eq pkt hpkt, h, setSlice_requested h]

theorem runUser_readFrom_none {pkt : Bytes} (hpkt : pkt.length < 2 ^ 64) {offset len : UInt64}
    (h : requested pkt offset len = none) (absent : NfProg α) (present : Bytes → NfProg α) (m : σ) :
    runUser H (.readFrom offset len absent present) pkt m = runUser H absent pkt m := by
  simp only [NfProg.readFrom, runUser, sliceFrom_eq pkt hpkt, h]

theorem le_length_of_etherType {pkt ty : Bytes} (h : etherType pkt = ty) (hty : ty.length = 2) :
    14 ≤ pkt.length := by
  have hlen := congrArg List.length h
  simp only [etherType, List.length_take, List.length_drop, hty] at hlen
  omega

theorem requested_etherType {pkt : Bytes} (h : 14 ≤ pkt.length) :
    requested pkt 12 2 = some (etherType pkt) := by
  unfold requested etherType
  rw [if_pos (by simpa using h)]
  rfl

theorem requested_etherType_none {pkt : Bytes} (h : ¬ 14 ≤ pkt.length) :
    requested pkt 12 2 = none := by
  unfold requested
  rw [if_neg (by simpa using h)]

/-! ## `macswap` and `decrement-ip-ttl` -/

theorem setSlice_zero {pkt new : Bytes} : setSlice pkt 0 new = new ++ pkt.drop new.length := by
  simp [setSlice]

theorem requested_zero (pkt : Bytes) (len : UInt64) :
    requested pkt 0 len = if len.toNat ≤ pkt.length then some (pkt.take len.toNat) else none := by
  simp [requested]

theorem runUser_macswap {pkt : Bytes} (hpkt : pkt.length < 2 ^ 64) (m : σ) :
    (runUser H Macswap.packet pkt m).pkt = swapAddrs pkt := by
  have h12 : (12 : UInt64).toNat = 12 := rfl
  simp only [Macswap.packet, runUser, sliceFrom_eq pkt hpkt, requested_zero, h12, swapAddrs]
  by_cases hlen : 12 ≤ pkt.length
  · have hnew : (Macswap.swapMacs (pkt.take 12)).1.length = 12 := by
      rw [(Macswap.swapMacs _).2, List.length_take]
      omega
    rw [if_pos hlen, if_pos hlen]
    dsimp only
    rw [UInt64.toNat_zero, setSlice_zero, hnew]
    simp only [Macswap.swapMacs, List.take_take]
    rfl
  · rw [if_neg hlen, if_neg hlen]

theorem ttlIdx_take (pkt : Bytes) :
    DecrementIpTtl.ttlIdx (pkt.take 23) = DecrementIpTtl.ttlIdx pkt := by
  have htype : ((pkt.take 23).drop 12).take 2 = (pkt.drop 12).take 2 := by
    rw [List.drop_take, List.take_take]
    rfl
  simp only [DecrementIpTtl.ttlIdx, htype]

theorem ttlIdx_bounds {pkt : Bytes} {i : Nat} (h : DecrementIpTtl.ttlIdx pkt = some i) :
    21 ≤ i ∧ i < 23 := by
  unfold DecrementIpTtl.ttlIdx at h
  split at h
  · cases h
    decide
  · split at h
    · cases h
      decide
    · cases h

theorem modify_take_append {pkt : Bytes} {i n : Nat} (hi : i < n) (f : UInt8 → UInt8) :
    (pkt.take n).modify i f ++ pkt.drop n = pkt.modify i f := by
  refine List.ext_getElem? fun j => ?_
  by_cases hj : j < (pkt.take n).length
  · rw [List.getElem?_append_left (by simpa using hj), List.getElem?_modify, List.getElem?_modify,
      List.getElem?_take_of_lt (by simp at hj; omega)]
  · rw [List.length_take] at hj
    rw [List.getElem?_append_right (by rw [List.length_modify, List.length_take]; omega),
      List.length_modify, List.length_take, List.getElem?_drop]
    by_cases hlen : n ≤ pkt.length
    · rw [List.getElem?_modify_ne _ _ (by omega)]
      congr 1
      omega
    · rw [List.getElem?_eq_none (by omega), List.getElem?_eq_none (by rw [List.length_modify]; omega)]

theorem runUser_decrementIpTtl {pkt : Bytes} (hpkt : pkt.length < 2 ^ 64) (m : σ) :
    (runUser H DecrementIpTtl.packet pkt m).pkt = takeHops 1 pkt := by
  have h23 : (23 : UInt64).toNat = 23 := rfl
  simp only [DecrementIpTtl.packet, runUser, sliceFrom_eq pkt hpkt, requested_zero, h23, takeHops]
  by_cases hlen : 23 ≤ pkt.length
  · have hnew : (DecrementIpTtl.decrement (pkt.take 23)).1.length = 23 := by
      rw [(DecrementIpTtl.decrement _).2, List.length_take]
      omega
    rw [if_pos hlen, if_pos hlen]
    dsimp only
    rw [UInt64.toNat_zero, setSlice_zero, hnew]
    simp only [DecrementIpTtl.decrement, ttlIdx_take]
    cases hi : DecrementIpTtl.ttlIdx pkt with
    | none => exact List.take_append_drop 23 pkt
    | some i => exact modify_take_append (ttlIdx_bounds hi).2 _
  · rw [if_neg hlen, if_neg hlen]

theorem getElem?_swapAddrs {pkt : Bytes} (h : 12 ≤ pkt.length) (i : Nat) :
    (swapAddrs pkt)[i]? = pkt[if i < 6 then i + 6 else if i < 12 then i - 6 else i]? := by
  have hfst : ((pkt.take 12).drop 6).length = 6 := by
    simp only [List.length_drop, List.length_take]
    omega
  have hsnd : (pkt.take 6).length = 6 := by
    rw [List.length_take]
    omega
  rw [swapAddrs, if_pos h, List.append_assoc]
  by_cases h6 : i < 6
  · rw [if_pos h6, List.getElem?_append_left (by omega), List.getElem?_drop,
      List.getElem?_take_of_lt (by omega), Nat.add_comm]
  · rw [if_neg h6, List.getElem?_append_right (by omega), hfst]
    by_cases h12 : i < 12
    · rw [if_pos h12, List.getElem?_append_left (by omega), List.getElem?_take_of_lt (by omega)]
    · rw [if_neg h12, List.getElem?_append_right (by omega), hsnd, List.getElem?_drop]
      congr 1
      omega

@[simp] theorem swapAddrs_length (pkt : Bytes) : (swapAddrs pkt).length = pkt.length := by
  unfold swapAddrs
  split
  · simp only [List.length_append, List.length_drop, List.length_take]
    omega
  · rfl

/-- Swapping twice changes nothing. -/
theorem swapAddrs_swapAddrs (pkt : Bytes) : swapAddrs (swapAddrs pkt) = pkt := by
  by_cases h : 12 ≤ pkt.length
  · refine List.ext_getElem? fun i => ?_
    rw [getElem?_swapAddrs (by rwa [swapAddrs_length]), getElem?_swapAddrs h]
    congr 1
    split_ifs <;> omega
  · simp [swapAddrs, h]

theorem etherType_swapAddrs (pkt : Bytes) : etherType (swapAddrs pkt) = etherType pkt := by
  by_cases h : 12 ≤ pkt.length
  · unfold etherType
    congr 1
    refine List.ext_getElem? fun i => ?_
    rw [List.getElem?_drop, List.getElem?_drop, getElem?_swapAddrs h, if_neg (by omega),
      if_neg (by omega)]
  · rw [swapAddrs, if_neg h]

theorem etherType_modify (pkt : Bytes) {i : Nat} (hi : 14 ≤ i) (f : UInt8 → UInt8) :
    etherType (pkt.modify i f) = etherType pkt := by
  unfold etherType
  refine List.ext_getElem? fun j => ?_
  by_cases hj : j < 2
  · rw [List.getElem?_take_of_lt hj, List.getElem?_take_of_lt hj, List.getElem?_drop,
      List.getElem?_drop, List.getElem?_modify_ne _ _ (by omega)]
  · rw [List.getElem?_eq_none (by simp; omega), List.getElem?_eq_none (by simp; omega)]

theorem ttlIdx_congr {pkt pkt' : Bytes} (h : etherType pkt = etherType pkt') :
    DecrementIpTtl.ttlIdx pkt = DecrementIpTtl.ttlIdx pkt' := by
  unfold etherType at h
  simp only [DecrementIpTtl.ttlIdx, h]

@[simp] theorem takeHops_length (k : Nat) (pkt : Bytes) : (takeHops k pkt).length = pkt.length := by
  unfold takeHops
  split
  · cases DecrementIpTtl.ttlIdx pkt <;> simp
  · rfl

theorem swapAddrs_modify {pkt : Bytes} {i : Nat} (hi : 12 ≤ i) (f : UInt8 → UInt8) :
    swapAddrs (pkt.modify i f) = (swapAddrs pkt).modify i f := by
  by_cases h : 12 ≤ pkt.length
  · refine List.ext_getElem? fun j => ?_
    rw [getElem?_swapAddrs (by rwa [List.length_modify])]
    by_cases hj : i = j
    · subst hj
      rw [if_neg (by omega), if_neg (by omega), List.getElem?_modify_eq, List.getElem?_modify_eq,
        getElem?_swapAddrs h, if_neg (by omega), if_neg (by omega)]
    · rw [List.getElem?_modify_ne _ _ hj, getElem?_swapAddrs h]
      refine List.getElem?_modify_ne _ _ ?_
      split_ifs <;> omega
  · simp [swapAddrs, h]

/-- The addresses and the hops do not touch each other. -/
theorem swapAddrs_takeHops (k : Nat) (pkt : Bytes) :
    swapAddrs (takeHops k pkt) = takeHops k (swapAddrs pkt) := by
  unfold takeHops
  rw [swapAddrs_length, ttlIdx_congr (etherType_swapAddrs pkt)]
  split
  · cases hi : DecrementIpTtl.ttlIdx pkt with
    | none => rfl
    | some i => exact swapAddrs_modify (by have := ttlIdx_bounds hi; omega) _
  · rfl

theorem takeHops_zero (pkt : Bytes) : takeHops 0 pkt = pkt := by
  unfold takeHops
  split
  · cases DecrementIpTtl.ttlIdx pkt with
    | none => rfl
    | some i =>
      simp only [Option.elim, Nat.sub_zero, UInt8.ofNat_toNat]
      exact List.modify_id i pkt
  · rfl

theorem takeHops_takeHops (j k : Nat) (pkt : Bytes) :
    takeHops j (takeHops k pkt) = takeHops (k + j) pkt := by
  by_cases hlen : 23 ≤ pkt.length
  · cases hi : DecrementIpTtl.ttlIdx pkt with
    | none => simp [takeHops, hlen, hi]
    | some i =>
      have hk : takeHops k pkt = pkt.modify i fun b => UInt8.ofNat (b.toNat - k) := by
        simp [takeHops, hlen, hi]
      have hidx : DecrementIpTtl.ttlIdx (takeHops k pkt) = some i := by
        have hge := (ttlIdx_bounds hi).1
        rw [hk, ttlIdx_congr (etherType_modify pkt (by omega) _), hi]
      rw [takeHops, takeHops_length, if_pos hlen, hidx, hk]
      simp only [takeHops, if_pos hlen, hi, Option.elim, List.modify_modify_eq]
      congr 1
      funext b
      have hb := b.toNat_lt
      simp only [Function.comp_apply, UInt8.toNat_ofNat']
      congr 1
      omega
  · simp [takeHops, hlen]

theorem rewrites_eq {fs : List Rewriter} {pkt pkt' : Bytes} (h : Rewrites R H fs pkt pkt') :
    pkt' = takeHops (fs.count .decrementIpTtl) (swapAddrs^[fs.count .macswap] pkt) := by
  induction h with
  | nil pkt => exact (takeHops_zero pkt).symm
  | @cons f fs place ctx m pkt' _ ih =>
    rw [ih]
    cases f with
    | macswap =>
      rw [Rewriter.leaves, runAt_eq R H macswap_nonEmpty, runUser_macswap (contents_lt ctx),
        List.count_cons_self, List.count_cons_of_ne (by decide), Function.iterate_succ_apply]
    | decrementIpTtl =>
      have hcomm : Function.Commute swapAddrs (takeHops 1) := swapAddrs_takeHops 1
      rw [Rewriter.leaves, runAt_eq R H decrementIpTtl_nonEmpty,
        runUser_decrementIpTtl (contents_lt ctx), List.count_cons_self,
        List.count_cons_of_ne (by decide), (hcomm.iterate_left _).eq, takeHops_takeHops, Nat.add_comm]

/-- **The order makes no difference.** A packet that goes through swaps and decrements, in whatever
order and in whatever places, has its addresses swapped if the number of swaps is odd, and has lost
as many hops as there were decrements, down to zero. Nothing else of it has changed. -/
theorem rewrites_any_order (R : Redbpf) (H : MapHost σ) {fs : List Rewriter} {pkt pkt' : Bytes}
    (h : Rewrites R H fs pkt pkt') :
    pkt' = takeHops (fs.count .decrementIpTtl)
      (if Even (fs.count .macswap) then pkt else swapAddrs pkt) := by
  have hinvolutive : Function.Involutive swapAddrs := swapAddrs_swapAddrs
  rw [rewrites_eq h]
  split
  · rename_i heven
    rw [hinvolutive.iterate_even heven, id]
  · rename_i hodd
    rw [hinvolutive.iterate_odd (Nat.not_even_iff_odd.1 hodd)]

/-- An IPv4 packet with the given addresses of its frame, time to live and source. -/
def ipv4Packet (addrs : Bytes) (ttl : UInt8) (src : Bytes) : Bytes :=
  addrs ++ ipv4 ++ [69, 0, 0, 20, 0, 0, 0, 0, ttl, 17, 0, 0] ++ src ++ [10, 0, 0, 2]

/-- A packet in memory, at address 0. -/
def inMemory (pkt : Bytes) : XdpContext :=
  ⟨fun a => (pkt[a.toNat]?).getD 0, 0, UInt64.ofNat pkt.length, UInt64.zero_le⟩

/-- A packet from one host to another; `pong` is on its way back. -/
def ping (ttl : UInt8) : Bytes := ipv4Packet [1, 1, 1, 1, 1, 1, 2, 2, 2, 2, 2, 2] ttl [10, 0, 0, 1]

def pong (ttl : UInt8) : Bytes := ipv4Packet [2, 2, 2, 2, 2, 2, 1, 1, 1, 1, 1, 1] ttl [10, 0, 0, 1]

theorem rewrites_any_order_ping : pong 63 = takeHops 1 (swapAddrs (ping 64)) := by
  have hswap : Rewriter.macswap.leaves redbpf listHost .kernel (inMemory (ping 64)) [] =
      (inMemory (pong 64)).contents := by decide
  have hdecrement : Rewriter.decrementIpTtl.leaves redbpf listHost .user (inMemory (pong 64)) [] =
      pong 63 := by decide
  have hrewrites : Rewrites redbpf listHost [.macswap, .decrementIpTtl]
      (inMemory (ping 64)).contents (pong 63) := by
    refine .cons .kernel (inMemory (ping 64)) [] ?_
    rw [hswap]
    refine .cons .user (inMemory (pong 64)) [] ?_
    rw [hdecrement]
    exact .nil _
  have horder := rewrites_any_order redbpf listHost hrewrites
  have hping : (inMemory (ping 64)).contents = ping 64 := by decide
  rwa [if_neg (by decide), hping] at horder

/-! ## `filter-ip` -/

namespace FilterIp

theorem toNeBytes_fromBeBytes {addr : Bytes} (h : addr.length = 4) (e : Endian) :
    toNeBytes e (fromBeBytes addr) = seededIp.1 ↔ addr = blockedAddr e := by
  have hrev : leBytes (fromBeBytes addr) = addr.reverse :=
    leBytes_ofLeBytes (by rw [List.length_reverse, h])
  cases e with
  | little =>
    simp only [toNeBytes, hrev, seededIp, blockedAddr]
    rw [List.reverse_eq_iff]
    rfl
  | big => simp only [toNeBytes, hrev, List.reverse_reverse, seededIp, blockedAddr]

/-- What the filter returns, by the entries of its map. -/
def outcome (e : Endian) (blocked : Bytes → Option Bytes) (pkt : Bytes) : Option Action :=
  if etherType pkt ≠ ipv4 then some .block
  else if pkt.length < 30 then none
  else some (verdict (blocked (toNeBytes e (fromBeBytes (srcAddr pkt)))))

theorem runUser_packet (e : Endian) {pkt : Bytes} (hpkt : pkt.length < 2 ^ 64) (m : σ) :
    runUser H (packet e) pkt m = ⟨outcome e (H.get m "blocked_ips") pkt, pkt, m⟩ := by
  unfold packet outcome
  by_cases hlen : 14 ≤ pkt.length
  · rw [runUser_readFrom_some hpkt (requested_etherType hlen)]
    by_cases hty : etherType pkt = ipv4
    · rw [if_pos hty, if_neg (not_not.2 hty)]
      by_cases hshort : pkt.length < 30
      · have hnone : requested pkt (14 + 12) 4 = none := by
          unfold requested
          rw [if_neg (by simpa using hshort)]
        rw [runUser_readFrom_none hpkt hnone, if_pos hshort]
        rfl
      · have hsome : requested pkt (14 + 12) 4 = some (srcAddr pkt) := by
          unfold requested srcAddr
          rw [if_pos (by simpa using hshort)]
          rfl
        rw [runUser_readFrom_some hpkt hsome, if_neg hshort]
        rfl
    · rw [if_neg hty, if_pos hty]
      rfl
  · have hty : etherType pkt ≠ ipv4 := fun h => hlen (le_length_of_etherType h rfl)
    rw [runUser_readFrom_none hpkt (requested_etherType_none hlen), if_pos hty]
    rfl

/-- **What the filter blocks.** With the entry of the runtime alone in its map, the filter blocks,
in either place, all packets but those of IPv4, and of these the ones from a single address: the
bytes of the key are those of the address in the byte order of the machine, so on a little-endian
machine it is the address that reads backwards. It panics on the IPv4 packets that end before their
source address does, and on no others; the packet and the maps it leaves alone. -/
theorem filterIp_blocks (R : Redbpf) (H : MapHost σ) (e : Endian) {m : σ}
    (hm : ∀ key, H.get m "blocked_ips" key = if key = seededIp.1 then some seededIp.2 else none)
    (place : Place) (ctx : XdpContext) :
    runAt R H ⟨place, packet e, ctx⟩ m =
      { result :=
          if etherType ctx.contents ≠ ipv4 then some .block
          else if ctx.contents.length < 30 then none
          else if srcAddr ctx.contents = blockedAddr e then some .block
          else some .allow
        pkt := ctx.contents
        maps := m } := by
  rw [runAt_eq R H (filterIp_nonEmpty e), runUser_packet e (contents_lt ctx)]
  unfold outcome
  by_cases hshort : ctx.contents.length < 30
  · simp only [if_pos hshort]
  · have haddr : (srcAddr ctx.contents).length = 4 := by
      simp only [srcAddr, List.length_take, List.length_drop]
      omega
    simp only [if_neg hshort, hm]
    by_cases hblocked : srcAddr ctx.contents = blockedAddr e
    · rw [if_pos ((toNeBytes_fromBeBytes haddr e).2 hblocked), if_pos hblocked]
      rfl
    · rw [if_neg fun h => hblocked ((toNeBytes_fromBeBytes haddr e).1 h), if_neg hblocked]
      rfl

/-- The map as the runtime has seeded it. -/
def seededMaps : List ((String × Bytes) × Bytes) := [(("blocked_ips", seededIp.1), seededIp.2)]

theorem seededMaps_get (key : Bytes) :
    listHost.get seededMaps "blocked_ips" key =
      if key = seededIp.1 then some seededIp.2 else none := by
  by_cases hkey : key = seededIp.1
  · subst hkey
    rfl
  · rw [if_neg hkey]
    have hne : (("blocked_ips", key) == ("blocked_ips", seededIp.1)) = false := by
      simpa using hkey
    simp only [listHost, seededMaps, List.lookup_cons, List.lookup_nil, hne]

/-- The blocked address, and the one of another host. -/
theorem filterIp_blocks_ipv4 :
    (runAt redbpf listHost ⟨.kernel, packet .little,
      inMemory (ipv4Packet [1, 1, 1, 1, 1, 1, 2, 2, 2, 2, 2, 2] 64 [69, 0, 168, 192])⟩
      seededMaps).result = some .block ∧
    (runAt redbpf listHost ⟨.user, packet .little, inMemory (ping 64)⟩ seededMaps).result =
      some .allow := by
  rw [filterIp_blocks redbpf listHost .little seededMaps_get,
    filterIp_blocks redbpf listHost .little seededMaps_get]
  decide

end FilterIp

/-! ## `load-balance` -/

namespace LoadBalance

theorem toNeBytes_zero (e : Endian) : toNeBytes e 0 = [0, 0, 0, 0] := by cases e <;> decide

theorem runUser_packet (e : Endian) {m : σ} {likelihood : UInt32}
    (hm : H.get m "upcall_likelihood" (seededLikelihood e likelihood).1 =
      some (seededLikelihood e likelihood).2) (pkt : Bytes) (r : UInt32) :
    runUser (drawing H r) (packet e) pkt m =
      ⟨some (if likelihood = max ∨ r < likelihood then .upcall else .keepXdp), pkt, m⟩ := by
  simp only [packet, runUser, drawing, toNeBytes_zero]
  simp only [seededLikelihood] at hm
  rw [hm]
  simp only [fromNeBytes_toNeBytes]
  by_cases hmax : likelihood = max
  · rw [if_pos hmax, if_pos (Or.inl hmax)]
    rfl
  · rw [if_neg hmax]
    simp only [runUser, hmax, false_or]
    split <;> rfl

theorem ncard_toNat_lt {n : Nat} (hn : n ≤ 2 ^ 32) : Set.ncard {r : UInt32 | r.toNat < n} = n := by
  have himage : {r : UInt32 | r.toNat < n} = UInt32.ofNat '' (Finset.range n : Set Nat) := by
    ext r
    simp only [Set.mem_ofPred_eq, Set.mem_image, Finset.coe_range, Set.mem_Iio]
    constructor
    · intro hr
      exact ⟨r.toNat, hr, UInt32.ofNat_toNat⟩
    · rintro ⟨k, hk, rfl⟩
      rw [UInt32.toNat_ofNat']
      omega
  have hinj : Set.InjOn UInt32.ofNat (Finset.range n : Set Nat) := by
    intro a ha b hb hab
    simp only [Finset.coe_range, Set.mem_Iio] at ha hb
    have htoNat := congrArg UInt32.toNat hab
    rw [UInt32.toNat_ofNat', UInt32.toNat_ofNat'] at htoNat
    omega
  rw [himage, hinj.ncard_image, Set.ncard_coe_finset, Finset.card_range]

/-- **How many packets the balancer hands up.** Of the 2 ^ 32 random numbers that can be drawn for a
packet, in either place, as many lead to an upcall as the likelihood in the map says; and all of
them if it is the largest one, which says one number less. -/
theorem loadBalance_share (R : Redbpf) (H : MapHost σ) (e : Endian) {m : σ} {v : UInt32}
    (hm : H.get m "upcall_likelihood" (seededLikelihood e v).1 =
      some (seededLikelihood e v).2) (place : Place) (ctx : XdpContext) :
    Set.ncard {r : UInt32 | (runAt R (drawing H r) ⟨place, packet e, ctx⟩ m).result = some .upcall} =
      if v = max then 2 ^ 32 else v.toNat := by
  have hresult : ∀ r, (runAt R (drawing H r) ⟨place, packet e, ctx⟩ m).result = some .upcall ↔
      v = max ∨ r < v := by
    intro r
    rw [runAt_eq R _ (loadBalance_nonEmpty e), runUser_packet e hm]
    by_cases h : v = max ∨ r < v
    · simp [h]
    · simp [h]
  have hset : {r : UInt32 | (runAt R (drawing H r) ⟨place, packet e, ctx⟩ m).result = some .upcall} =
      {r : UInt32 | r.toNat < if v = max then 2 ^ 32 else v.toNat} := by
    ext r
    have hr := r.toNat_lt
    rw [Set.mem_ofPred_eq, Set.mem_ofPred_eq, hresult r, UInt32.lt_iff_toNat_lt]
    split
    · rename_i hmax
      exact ⟨fun _ => hr, fun _ => Or.inl hmax⟩
    · rename_i hmax
      exact ⟨fun h => h.resolve_left hmax, Or.inr⟩
  rw [hset, ncard_toNat_lt]
  have hv := v.toNat_lt
  split <;> omega

theorem loadBalance_share_half :
    Set.ncard {r : UInt32 | (runAt redbpf (drawing listHost r) ⟨.kernel, packet .little, noBytes⟩
      [(("upcall_likelihood", [0, 0, 0, 0]), [0, 0, 0, 128])]).result = some .upcall} = 2 ^ 31 :=
  loadBalance_share redbpf listHost .little (v := 0x80000000) rfl .kernel noBytes

end LoadBalance

/-! ## `dest-ip-branch` -/

namespace DestIpBranch

theorem mod_two (b : UInt8) : b % 2 = 0 ∨ b % 2 = 1 := by
  rw [← UInt8.toNat_inj, ← UInt8.toNat_inj, UInt8.toNat_mod]
  exact Nat.mod_two_eq_zero_or_one b.toNat

/-- The branch for a byte. -/
theorem branch_cons (b : UInt8) (bs : Bytes) :
    branch (b :: bs) = .ret (if b % 2 = 0 then .left else .right) := by
  rcases mod_two b with hb | hb
  · simp [branch, hb]
  · simp [branch, hb]

/-- What the function returns. -/
def outcome (pkt : Bytes) : Option Action :=
  (addrLsbIdx (etherType pkt)).elim (some .left) fun i =>
    pkt[i.toNat]?.map fun b => if b % 2 = 0 then .left else .right

theorem requested_one (pkt : Bytes) (i : UInt64) :
    requested pkt i 1 = pkt[i.toNat]?.map fun b => [b] := by
  unfold requested
  have hone : (1 : UInt64).toNat = 1 := rfl
  rw [hone]
  split
  · rename_i hlt
    rw [List.getElem?_eq_getElem (by omega), List.drop_eq_getElem_cons (by omega)]
    rfl
  · rw [List.getElem?_eq_none (by omega)]
    rfl

theorem addrLsbIdx_eq_some {ty : Bytes} {i : UInt64} :
    addrLsbIdx ty = some i ↔ (ty = ipv4 ∧ i = 33) ∨ (ty = ipv6 ∧ i = 53) := by
  unfold addrLsbIdx
  by_cases h4 : ty = ipv4
  · subst h4
    simp only [if_true, Option.some.injEq, true_and]
    constructor
    · rintro rfl
      exact Or.inl rfl
    · rintro (rfl | ⟨h6, -⟩)
      · rfl
      · exact absurd h6 (by decide)
  · simp only [h4, if_false, false_and, false_or]
    split
    · rename_i h6
      simp only [h6, true_and, Option.some.injEq]
      exact eq_comm
    · rename_i h6
      simp [h6]

theorem addrLsbIdx_length {ty : Bytes} {i : UInt64} (h : addrLsbIdx ty = some i) :
    ty.length = 2 := by
  rcases addrLsbIdx_eq_some.1 h with ⟨rfl, -⟩ | ⟨rfl, -⟩ <;> rfl

theorem runUser_packet {pkt : Bytes} (hpkt : pkt.length < 2 ^ 64) (m : σ) :
    runUser H packet pkt m = ⟨outcome pkt, pkt, m⟩ := by
  unfold packet outcome
  cases hi : addrLsbIdx (etherType pkt) with
  | none =>
    by_cases hlen : 14 ≤ pkt.length
    · rw [runUser_readFrom_some hpkt (requested_etherType hlen), hi]
      rfl
    · rw [runUser_readFrom_none hpkt (requested_etherType_none hlen)]
      rfl
  | some i =>
    have hlen : 14 ≤ pkt.length := le_length_of_etherType rfl (addrLsbIdx_length hi)
    rw [runUser_readFrom_some hpkt (requested_etherType hlen), hi]
    dsimp only [Option.elim]
    cases hb : pkt[i.toNat]? with
    | none =>
      rw [runUser_readFrom_none hpkt (by rw [requested_one, hb]; rfl)]
      rfl
    | some b =>
      have hsome : requested pkt i 1 = some [b] := by
        rw [requested_one, hb]
        rfl
      rw [runUser_readFrom_some hpkt hsome, branch_cons]
      rfl

/-- The function panics if the address is not there. -/
theorem outcome_eq_none_iff (pkt : Bytes) :
    outcome pkt = none ↔
      (etherType pkt = ipv4 ∧ pkt.length < 34) ∨ (etherType pkt = ipv6 ∧ pkt.length < 54) := by
  have hnone : outcome pkt = none ↔
      ∃ i, addrLsbIdx (etherType pkt) = some i ∧ pkt.length ≤ i.toNat := by
    unfold outcome
    cases addrLsbIdx (etherType pkt) with
    | none => simp
    | some i => simp
  rw [hnone]
  simp only [addrLsbIdx_eq_some]
  constructor
  · rintro ⟨i, ⟨hty, rfl⟩ | ⟨hty, rfl⟩, hlen⟩
    · exact Or.inl ⟨hty, Nat.lt_succ_of_le hlen⟩
    · exact Or.inr ⟨hty, Nat.lt_succ_of_le hlen⟩
  · rintro (⟨hty, hlen⟩ | ⟨hty, hlen⟩)
    · exact ⟨33, Or.inl ⟨hty, rfl⟩, Nat.le_of_lt_succ hlen⟩
    · exact ⟨53, Or.inr ⟨hty, rfl⟩, Nat.le_of_lt_succ hlen⟩

theorem outcome_cases (pkt : Bytes) :
    outcome pkt = none ∨ outcome pkt = some .left ∨ outcome pkt = some .right := by
  unfold outcome
  cases addrLsbIdx (etherType pkt) with
  | none => exact Or.inr (Or.inl rfl)
  | some i =>
    dsimp only [Option.elim]
    cases pkt[i.toNat]? with
    | none => exact Or.inl rfl
    | some b => rcases mod_two b with hb | hb <;> simp [hb]

theorem outcome_eq_right_iff (pkt : Bytes) :
    outcome pkt = some .right ↔ ∃ i b, addrLsbIdx (etherType pkt) = some i ∧
      pkt[i.toNat]? = some b ∧ b % 2 = 1 := by
  unfold outcome
  cases addrLsbIdx (etherType pkt) with
  | none => simp
  | some i =>
    dsimp only [Option.elim]
    cases hpkt : pkt[i.toNat]? with
    | none => simp [hpkt]
    | some b => rcases mod_two b with hb | hb <;> simp [hpkt, hb]

/-- **There are two ways.** The function sends a packet to the left or to the right in either place,
by the lowest bit of the address that the packet is for: of its four ways it never takes the other
two. It panics on the IP packets that end before this address does, and on no others; the packet and
the maps it leaves alone. -/
theorem destIpBranch_ways (R : Redbpf) (H : MapHost σ) (place : Place) (ctx : XdpContext) (m : σ) :
    ∃ result, runAt R H ⟨place, packet, ctx⟩ m = ⟨result, ctx.contents, m⟩ ∧
      result ≠ some .up ∧ result ≠ some .down ∧
      (result = none ↔ (etherType ctx.contents = ipv4 ∧ ctx.contents.length < 34) ∨
        (etherType ctx.contents = ipv6 ∧ ctx.contents.length < 54)) ∧
      (result = some .right ↔ ∃ i b, addrLsbIdx (etherType ctx.contents) = some i ∧
        ctx.contents[i.toNat]? = some b ∧ b % 2 = 1) := by
  refine ⟨outcome ctx.contents, ?_, ?_, ?_, outcome_eq_none_iff _,
    outcome_eq_right_iff _⟩
  · rw [runAt_eq R H destIpBranch_nonEmpty, runUser_packet (contents_lt ctx)]
  · rcases outcome_cases ctx.contents with h | h | h <;> simp [h]
  · rcases outcome_cases ctx.contents with h | h | h <;> simp [h]

end DestIpBranch

end Galette.Nf
