import Galette.Nf.Packet

/-!
# Network functions

The source of a function is written once, against the trait `Packet` and handles to its maps, and is
compiled for the kernel and for userland. `NfProg` is such a source: what it does next may depend on
everything it has seen of the packet and of its maps so far. `runKernel` and `runUser` are the two
builds of it.

The maps live in the kernel, and both builds work on the same ones. The random numbers come from the
kernel or from a library, and one source stands for both. It is a part of `MapHost`, with the maps.
-/

namespace Galette.Nf

open Galette.Protocol

/-- What a function gets from outside of its packet; `σ` is the state of it. -/
structure MapHost (σ : Type) where
  /-- `Map::get`, by the name of the field and the bytes of the key. -/
  get : σ → String → Bytes → Option Bytes
  /-- `Map::put`. Errors are ignored. -/
  put : σ → String → Bytes → Bytes → σ
  /-- `random_u32`. The helper of the kernel and the library in userland are taken to draw the same
  numbers. -/
  random : σ → UInt32 × σ

/-- A function that returns an `α`. -/
inductive NfProg (α : Type) where
  | ret (a : α)
  /-- `unwrap` of a missing value, `unreachable!()`. -/
  | panic
  /-- `Packet::len`. -/
  | len (k : UInt64 → NfProg α)
  /-- `Packet::slice_from`: what happens without the slice; what is written to it, and what happens
  then. -/
  | sliceFrom (offset len : UInt64) (absent : NfProg α)
      (write : (bs : Bytes) → { new : Bytes // new.length = bs.length })
      (present : Bytes → NfProg α)
  | get (map : String) (key : Bytes) (k : Option Bytes → NfProg α)
  | put (map : String) (key value : Bytes) (next : NfProg α)
  | random (k : UInt32 → NfProg α)

namespace NfProg

variable {α : Type}

/-- A slice that is only read. -/
def readFrom (offset len : UInt64) (absent : NfProg α) (present : Bytes → NfProg α) : NfProg α :=
  .sliceFrom offset len absent (fun bs => ⟨bs, rfl⟩) present

/-- No slice that the function asks for is empty. -/
def NonEmpty : NfProg α → Prop
  | .ret _ | .panic => True
  | .len k => ∀ n, (k n).NonEmpty
  | .sliceFrom _ n absent _ present => n ≠ 0 ∧ absent.NonEmpty ∧ ∀ bs, (present bs).NonEmpty
  | .get _ _ k => ∀ v, (k v).NonEmpty
  | .put _ _ _ next => next.NonEmpty
  | .random k => ∀ n, (k n).NonEmpty

/-- Whatever the function returns satisfies `P`. -/
def Returns (P : α → Prop) : NfProg α → Prop
  | .ret a => P a
  | .panic => True
  | .len k => ∀ n, (k n).Returns P
  | .sliceFrom _ _ absent _ present => absent.Returns P ∧ ∀ bs, (present bs).Returns P
  | .get _ _ k => ∀ v, (k v).Returns P
  | .put _ _ _ next => next.Returns P
  | .random k => ∀ n, (k n).Returns P

end NfProg

/-! ## The two builds -/

/-- How a run ends: what is returned, or nothing after a panic; the packet, and the maps. -/
structure Run (α π σ : Type) where
  result : Option α
  pkt : π
  maps : σ

/-- Overwrite a part of a packet. -/
def setSlice (pkt : Bytes) (start : Nat) (new : Bytes) : Bytes :=
  pkt.take start ++ new ++ pkt.drop (start + new.length)

/-- Write to memory, from an address on. -/
def XdpContext.write (ctx : XdpContext) (ptr : UInt64) (new : Bytes) : XdpContext :=
  { ctx with mem := fun a => (new[(a - ptr).toNat]?).getD (ctx.mem a) }

/-- `NetworkBuffer::len`. -/
def XdpContext.len (ctx : XdpContext) : UInt64 := ctx.dataEnd - ctx.dataStart

variable {α σ : Type} (R : Redbpf) (H : MapHost σ)

/-- The build for userland. -/
def runUser : NfProg α → Bytes → σ → Run α Bytes σ
  | .ret a, pkt, m => ⟨some a, pkt, m⟩
  | .panic, pkt, m => ⟨none, pkt, m⟩
  | .len k, pkt, m => runUser (k (UInt64.ofNat pkt.length)) pkt m
  | .sliceFrom offset len absent write present, pkt, m =>
    match sliceFrom pkt offset len with
    | some bs => runUser (present bs) (setSlice pkt offset.toNat (write bs)) m
    | none => runUser absent pkt m
  | .get map key k, pkt, m => runUser (k (H.get m map key)) pkt m
  | .put map key value next, pkt, m => runUser next pkt (H.put m map key value)
  | .random k, pkt, m => runUser (k (H.random m).1) pkt (H.random m).2

/-- The build for the kernel. -/
def runKernel : NfProg α → XdpContext → σ → Run α XdpContext σ
  | .ret a, ctx, m => ⟨some a, ctx, m⟩
  | .panic, ctx, m => ⟨none, ctx, m⟩
  | .len k, ctx, m => runKernel (k ctx.len) ctx m
  | .sliceFrom offset len absent write present, ctx, m =>
    match ctx.sliceFrom R offset len with
    | some bs => runKernel (present bs) (ctx.write (ctx.dataStart + offset) (write bs)) m
    | none => runKernel absent ctx m
  | .get map key k, ctx, m => runKernel (k (H.get m map key)) ctx m
  | .put map key value next, ctx, m => runKernel next ctx (H.put m map key value)
  | .random k, ctx, m => runKernel (k (H.random m).1) ctx (H.random m).2

/-! ## Single accesses

While a function runs, others may change the maps between two of its accesses. -/

/-- The first access of a function in userland, and what is left of the function then. -/
def stepUser : NfProg α → Bytes → σ → Option (NfProg α × Bytes × σ)
  | .ret _, _, _ => none
  | .panic, _, _ => none
  | .len k, pkt, m => some (k (UInt64.ofNat pkt.length), pkt, m)
  | .sliceFrom offset len absent write present, pkt, m =>
    match sliceFrom pkt offset len with
    | some bs => some (present bs, setSlice pkt offset.toNat (write bs), m)
    | none => some (absent, pkt, m)
  | .get map key k, pkt, m => some (k (H.get m map key), pkt, m)
  | .put map key value next, pkt, m => some (next, pkt, H.put m map key value)
  | .random k, pkt, m => some (k (H.random m).1, pkt, (H.random m).2)

/-- The first access of a function in the kernel. -/
def stepKernel : NfProg α → XdpContext → σ → Option (NfProg α × XdpContext × σ)
  | .ret _, _, _ => none
  | .panic, _, _ => none
  | .len k, ctx, m => some (k ctx.len, ctx, m)
  | .sliceFrom offset len absent write present, ctx, m =>
    match ctx.sliceFrom R offset len with
    | some bs => some (present bs, ctx.write (ctx.dataStart + offset) (write bs), m)
    | none => some (absent, ctx, m)
  | .get map key k, ctx, m => some (k (H.get m map key), ctx, m)
  | .put map key value next, ctx, m => some (next, ctx, H.put m map key value)
  | .random k, ctx, m => some (k (H.random m).1, ctx, (H.random m).2)

/-- Whether an address belongs to the packet. -/
def XdpContext.Inside (ctx : XdpContext) (a : UInt64) : Prop := ctx.dataStart ≤ a ∧ a < ctx.dataEnd

/-- The packet of a run in the kernel lies where it was, and no other memory has changed. -/
structure WritesInside (ctx ctx' : XdpContext) : Prop where
  dataStart : ctx'.dataStart = ctx.dataStart
  dataEnd : ctx'.dataEnd = ctx.dataEnd
  frame : ∀ a, ¬ ctx.Inside a → ctx'.mem a = ctx.mem a

/-- A run in the kernel and one in userland that show no difference. -/
structure SameRun (k : Run α XdpContext σ) (u : Run α Bytes σ) : Prop where
  result : k.result = u.result
  pkt : k.pkt.contents = u.pkt
  maps : k.maps = u.maps

/-! ## Many packets -/

/-- Where a packet is handled. -/
inductive Place where
  | kernel
  | user
  deriving DecidableEq, Repr

/-- A function that is run on a packet in a place. In userland the packet is what the kernel has in
its memory. -/
structure Call (α : Type) where
  place : Place
  prog : NfProg α
  ctx : XdpContext

/-- Run a function in its place. -/
def runAt (c : Call α) (m : σ) : Run α Bytes σ :=
  match c.place with
  | .kernel =>
    { result := (runKernel R H c.prog c.ctx m).result
      pkt := (runKernel R H c.prog c.ctx m).pkt.contents
      maps := (runKernel R H c.prog c.ctx m).maps }
  | .user => runUser H c.prog c.ctx.contents m

/-- Run functions one after the other on their packets, until one of them panics: what they return
and leave behind, and the maps at the end. -/
def runAll : List (Call α) → σ → List (Option α × Bytes) × σ
  | [], m => ([], m)
  | c :: calls, m =>
    match (runAt R H c m).result with
    | none => ([(none, (runAt R H c m).pkt)], (runAt R H c m).maps)
    | some a =>
      ((some a, (runAt R H c m).pkt) :: (runAll calls (runAt R H c m).maps).1,
        (runAll calls (runAt R H c m).maps).2)

/-- Two calls of one function on one packet, in different places perhaps. -/
structure SameCall (c c' : Call α) : Prop where
  prog : c'.prog = c.prog
  pkt : c'.ctx.contents = c.ctx.contents

end Galette.Nf
