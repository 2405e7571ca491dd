import Galette.Protocol.Chain

/-!
# Access to packets

A function sees its packet through the trait `Packet` of the `nf` crate, which has two
implementations: in the kernel a packet is a range of addresses, and every access is checked against
its ends; in userland it is a slice. In both of them the sums are those of a release build: they
wrap around at 64 bits.

The check of the addresses is that of `redbpf`, see `Redbpf`.
-/

namespace Galette.Nf

open Galette.Protocol

/-- A packet in the kernel: the memory, and the addresses of the packet in it. -/
structure XdpContext where
  mem : UInt64 → UInt8
  dataStart : UInt64
  dataEnd : UInt64
  /-- The packet does not end before it starts. -/
  le : dataStart ≤ dataEnd

/-- The bytes from an address on (`slice::from_raw_parts_mut`). -/
def fromRawParts (mem : UInt64 → UInt8) (ptr len : UInt64) : Bytes :=
  (List.range len.toNat).map fun i => mem (ptr + UInt64.ofNat i)

/-- `get_mut` of a slice with a range of indices. -/
def getMut (pkt : Bytes) (start stop : UInt64) : Option Bytes :=
  if start ≤ stop ∧ stop.toNat ≤ pkt.length then some ((pkt.take stop.toNat).drop start.toNat)
  else none

/-- The check of `redbpf` that a range of addresses lies in a packet. -/
structure Redbpf where
  checkBounds : XdpContext → UInt64 → UInt64 → Bool
  checkBounds_iff : ∀ ctx start stop, checkBounds ctx start stop = true ↔
    start < stop ∧ ctx.dataStart ≤ start ∧ stop ≤ ctx.dataEnd

namespace XdpContext

variable (R : Redbpf) (ctx : XdpContext)

def contents : Bytes := fromRawParts ctx.mem ctx.dataStart (ctx.dataEnd - ctx.dataStart)

/-- `Packet::slice_from` in the kernel. -/
def sliceFrom (offset len : UInt64) : Option Bytes :=
  let base := ctx.dataStart + offset
  if R.checkBounds ctx base (base + len) then some (fromRawParts ctx.mem base len) else none

/-- `Packet::slice` in the kernel. -/
def slice (len : UInt64) : Option Bytes := ctx.sliceFrom R 0 len

end XdpContext

/-- `Packet::slice_from` in userland. -/
def sliceFrom (pkt : Bytes) (offset len : UInt64) : Option Bytes := getMut pkt offset (offset + len)

/-- `Packet::slice` in userland. -/
def slice (pkt : Bytes) (len : UInt64) : Option Bytes := getMut pkt 0 len

/-- The part of a packet that an access asks for, if the packet has it. -/
def requested (pkt : Bytes) (offset len : UInt64) : Option Bytes :=
  if offset.toNat + len.toNat ≤ pkt.length then some ((pkt.drop offset.toNat).take len.toNat)
  else none

/-- The two implementations give a function the same part of a packet, and it lies in the packet. -/
structure SameAccess (R : Redbpf) (ctx : XdpContext) (offset len : UInt64) : Prop where
  kernel : ctx.sliceFrom R offset len = requested ctx.contents offset len
  user : sliceFrom ctx.contents offset len = requested ctx.contents offset len
  kernelSlice : ctx.slice R len = ctx.sliceFrom R 0 len
  userSlice : slice ctx.contents len = sliceFrom ctx.contents 0 len

end Galette.Nf
