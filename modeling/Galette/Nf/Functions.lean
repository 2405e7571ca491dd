import Galette.Lib.Bytes
import Galette.Nf.Program

/-!
# The functions of the examples

The sources of the functions that the example chains are made of. Their packets are Ethernet frames:
the type of the payload stands in the bytes 12 and 13, and the payload starts at byte 14. A request
`slice(n)` is one for the first `n` bytes.

Keys and values of the maps are stored in the byte order of the machine.
-/

namespace Galette.Nf

open Galette.Lib Galette.Protocol

/-- The type of an IPv4 payload. -/
def ipv4 : Bytes := [0x08, 0x00]

/-- The type of an IPv6 payload. -/
def ipv6 : Bytes := [0x86, 0xDD]

/-! ## `macswap` -/

namespace Macswap

inductive Action where
  | yes
  deriving DecidableEq, Repr

/-- Swap the first six bytes with the others. -/
def swapMacs (bs : Bytes) : { new : Bytes // new.length = bs.length } :=
  ⟨bs.drop 6 ++ bs.take 6, by
    simp only [List.length_append, List.length_drop, List.length_take]
    omega⟩

def packet : NfProg Action := .sliceFrom 0 12 (.ret .yes) swapMacs fun _ => .ret .yes

end Macswap

/-! ## `decrement-ip-ttl` -/

namespace DecrementIpTtl

inductive Action where
  | yes
  deriving DecidableEq, Repr

/-- The place of the time to live, or of the hop limit. -/
def ttlIdx (bs : Bytes) : Option Nat :=
  if (bs.drop 12).take 2 = ipv4 then some (14 + 8)
  else if (bs.drop 12).take 2 = ipv6 then some (14 + 7)
  else none

/-- `u8::saturating_sub`. -/
def saturatingSub (a b : UInt8) : UInt8 := UInt8.ofNat (a.toNat - b.toNat)

def decrement (bs : Bytes) : { new : Bytes // new.length = bs.length } :=
  ⟨(ttlIdx bs).elim bs fun i => bs.modify i (saturatingSub · 1), by
    cases ttlIdx bs with
    | none => rfl
    | some i => exact List.length_modify ..⟩

def packet : NfProg Action := .sliceFrom 0 23 (.ret .yes) decrement fun _ => .ret .yes

end DecrementIpTtl

/-! ## `dest-ip-branch` -/

namespace DestIpBranch

inductive Action where
  | left
  | right
  | up
  | down
  deriving DecidableEq, Repr

/-- The branch for the last byte of the address. -/
def branch (v : Bytes) : NfProg Action :=
  match v.head? with
  | none => .panic
  | some b =>
    if b % 2 = 0 then .ret .left
    else if b % 2 = 1 then .ret .right
    else if b % 2 = 2 then .ret .up
    else if b % 2 = 3 then .ret .down
    else .panic

/-- The place of the last byte of the destination address, in a packet with a type. -/
def addrLsbIdx (ty : Bytes) : Option UInt64 :=
  if ty = ipv4 then some (14 + 19) else if ty = ipv6 then some (14 + 39) else none

def packet : NfProg Action :=
  .readFrom 12 2 (.ret .left) fun ty =>
    match addrLsbIdx ty with
    | none => .ret .left
    | some i => .readFrom i 1 .panic branch

end DestIpBranch

/-! ## `filter-ip` -/

namespace FilterIp

inductive Action where
  | allow
  | block
  deriving DecidableEq, Repr

/-- `u32::from_be_bytes`. -/
def fromBeBytes (bs : Bytes) : UInt32 := ofLeBytes bs.reverse

/-- The verdict on an entry of `blocked_ips`; `[1]` is `true`. -/
def verdict : Option Bytes → Action
  | some [1] => .block
  | _ => .allow

def packet (e : Endian) : NfProg Action :=
  .readFrom 12 2 (.ret .block) fun ty =>
    if ty = ipv4 then
      .readFrom (14 + 12) 4 .panic fun addr =>
        .get "blocked_ips" (toNeBytes e (fromBeBytes addr)) fun v => .ret (verdict v)
    else .ret .block

end FilterIp

/-! ## `load-balance` -/

namespace LoadBalance

inductive Action where
  | keepXdp
  | upcall
  deriving DecidableEq, Repr

/-- `u32::MAX`. -/
def max : UInt32 := 0xFFFFFFFF

def packet (e : Endian) : NfProg Action :=
  .get "upcall_likelihood" (toNeBytes e 0) fun v =>
    match v with
    | none => .ret .keepXdp
    | some v =>
      -- no number is drawn for the largest likelihood
      if fromNeBytes e v = max then .ret .upcall
      else .random fun r => if r < fromNeBytes e v then .ret .upcall else .ret .keepXdp

end LoadBalance

/-! ## The entries of the runtime -/

/-- What the runtime puts into the map `BLOCKED_IPS` of a program: key and value. -/
def seededIp : Bytes × Bytes := ([192, 168, 0, 69], [1])

/-- What the runtime puts into the map `UPCALL_LIKELIHOOD` of a program, for a likelihood. -/
def seededLikelihood (e : Endian) (likelihood : UInt32) : Bytes × Bytes :=
  ([0, 0, 0, 0], toNeBytes e likelihood)

/-! ## What the functions are for -/

variable {σ : Type}

/-- The type of the payload of a frame. -/
def etherType (pkt : Bytes) : Bytes := (pkt.drop 12).take 2

/-- The source address of an IPv4 packet. -/
def srcAddr (pkt : Bytes) : Bytes := (pkt.drop 26).take 4

/-- The source address that the entry of the runtime is for. -/
def blockedAddr : Endian → Bytes
  | .little => [69, 0, 168, 192]
  | .big => [192, 168, 0, 69]

/-- The maps, with a random number that was drawn. -/
def drawing (H : MapHost σ) (r : UInt32) : MapHost σ := { H with random := fun m => (r, m) }

/-- The functions of the second example chain. -/
inductive Rewriter where
  | macswap
  | decrementIpTtl
  deriving DecidableEq, Repr

/-- The packet that a function leaves behind in a place. -/
def Rewriter.leaves (R : Redbpf) (H : MapHost σ) (place : Place) (ctx : XdpContext) (m : σ) :
    Rewriter → Bytes
  | .macswap => (runAt R H ⟨place, Macswap.packet, ctx⟩ m).pkt
  | .decrementIpTtl => (runAt R H ⟨place, DecrementIpTtl.packet, ctx⟩ m).pkt

/-- A packet on its way through functions: each of them runs in a place of its own, on a copy of
what the one before has left behind. -/
inductive Rewrites (R : Redbpf) (H : MapHost σ) : List Rewriter → Bytes → Bytes → Prop where
  | nil (pkt : Bytes) : Rewrites R H [] pkt pkt
  | cons {f : Rewriter} {fs : List Rewriter} (place : Place) (ctx : XdpContext) (m : σ)
    {pkt : Bytes}
      (h : Rewrites R H fs (f.leaves R H place ctx m) pkt) : Rewrites R H (f :: fs) ctx.contents pkt

/-- Swap the addresses of a frame. -/
def swapAddrs (pkt : Bytes) : Bytes :=
  if 12 ≤ pkt.length then (pkt.take 12).drop 6 ++ pkt.take 6 ++ pkt.drop 12 else pkt

/-- Take a number of hops from the time to live, or from the hop limit. -/
def takeHops (k : Nat) (pkt : Bytes) : Bytes :=
  if 23 ≤ pkt.length then
    (DecrementIpTtl.ttlIdx pkt).elim pkt fun i => pkt.modify i fun b => UInt8.ofNat (b.toNat - k)
  else pkt

end Galette.Nf
