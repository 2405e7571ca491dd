import Galette.Nf.Packet

/-!
# Proofs: access to packets

The slice of userland is the requested part of the packet for every offset and every length, also if
their sum wraps around. In the kernel it is so for every length but zero: the check of the addresses
refuses an empty range.
-/

namespace Galette.Nf

variable {R : Redbpf} {ctx : XdpContext} {offset len : UInt64}

theorem fromRawParts_length (mem : UInt64 → UInt8) (ptr len : UInt64) :
    (fromRawParts mem ptr len).length = len.toNat := by simp [fromRawParts]

theorem contents_length (ctx : XdpContext) :
    ctx.contents.length = ctx.dataEnd.toNat - ctx.dataStart.toNat := by
  rw [XdpContext.contents, fromRawParts_length, UInt64.toNat_sub_of_le _ _ ctx.le]

/-- A part of the packet, read from memory. -/
theorem fromRawParts_inside (h : offset.toNat + len.toNat ≤ ctx.contents.length) :
    fromRawParts ctx.mem (ctx.dataStart + offset) len =
      (ctx.contents.drop offset.toNat).take len.toNat := by
  refine List.ext_getElem ?_ fun i h1 h2 => ?_
  · rw [fromRawParts_length, List.length_take, List.length_drop]
    omega
  · have haddr : ctx.dataStart + offset + UInt64.ofNat i =
        ctx.dataStart + UInt64.ofNat (offset.toNat + i) := by
      rw [UInt64.ofNat_add, UInt64.ofNat_toNat, UInt64.add_assoc]
    simp [fromRawParts, XdpContext.contents, haddr]

/-- Userland gives the requested part. -/
theorem sliceFrom_eq (pkt : Galette.Protocol.Bytes) (hpkt : pkt.length < 2 ^ 64)
    (offset len : UInt64) : sliceFrom pkt offset len = requested pkt offset len := by
  have ho := offset.toNat_lt
  have hl := len.toNat_lt
  unfold sliceFrom getMut requested
  by_cases h : offset.toNat + len.toNat ≤ pkt.length
  · have hsum : (offset + len).toNat = offset.toNat + len.toNat := by
      rw [UInt64.toNat_add, Nat.mod_eq_of_lt (by omega)]
    rw [if_pos h, if_pos ⟨by rw [UInt64.le_iff_toNat_le]; omega, by omega⟩, hsum, List.drop_take,
      Nat.add_sub_cancel_left]
  · -- a sum that wraps around is smaller than the offset
    rw [if_neg h, if_neg]
    rintro ⟨hle, hend⟩
    rw [UInt64.le_iff_toNat_le, UInt64.toNat_add] at hle
    rw [UInt64.toNat_add] at hend
    omega

/-- The kernel accepts the ranges that are not empty and lie in the packet. -/
theorem checkBounds_base_iff (R : Redbpf) (ctx : XdpContext) (offset len : UInt64) :
    R.checkBounds ctx (ctx.dataStart + offset) (ctx.dataStart + offset + len) = true ↔
      0 < len.toNat ∧ offset.toNat + len.toNat ≤ ctx.contents.length := by
  have hs := UInt64.le_iff_toNat_le.1 ctx.le
  have he := ctx.dataEnd.toNat_lt
  have ho := offset.toNat_lt
  have hl := len.toNat_lt
  rw [R.checkBounds_iff, contents_length]
  simp only [UInt64.lt_iff_toNat_lt, UInt64.le_iff_toNat_le, UInt64.toNat_add]
  omega

/-- What the kernel gives. -/
theorem xdp_sliceFrom_eq (R : Redbpf) (ctx : XdpContext) (offset len : UInt64) :
    ctx.sliceFrom R offset len =
      if 0 < len.toNat then requested ctx.contents offset len else none := by
  unfold XdpContext.sliceFrom requested
  dsimp only
  by_cases hlen : 0 < len.toNat
  · rw [if_pos hlen]
    by_cases h : offset.toNat + len.toNat ≤ ctx.contents.length
    · rw [if_pos ((checkBounds_base_iff R ctx offset len).2 ⟨hlen, h⟩), if_pos h,
        fromRawParts_inside h]
    · rw [if_neg fun hc => h ((checkBounds_base_iff R ctx offset len).1 hc).2, if_neg h]
  · rw [if_neg fun hc => hlen ((checkBounds_base_iff R ctx offset len).1 hc).1, if_neg hlen]

/-- **When the two implementations agree**: always, unless the access is to no bytes at all within
the packet. -/
theorem sameAccess_iff (R : Redbpf) (ctx : XdpContext) (offset len : UInt64) :
    SameAccess R ctx offset len ↔ len ≠ 0 ∨ ctx.contents.length < offset.toNat := by
  have hlt : ctx.contents.length < 2 ^ 64 := by
    have := ctx.dataEnd.toNat_lt
    rw [contents_length]
    omega
  have huser := fun offset len => sliceFrom_eq ctx.contents hlt offset len
  have hslice : slice ctx.contents len = sliceFrom ctx.contents 0 len := by
    unfold slice sliceFrom
    rw [UInt64.zero_add]
  have hzero : len ≠ 0 ↔ 0 < len.toNat := by
    rw [ne_eq, ← UInt64.toNat_inj, UInt64.toNat_zero]
    omega
  have hkernel := xdp_sliceFrom_eq R ctx offset len
  rw [hzero]
  constructor
  · intro h
    by_contra hno
    push Not at hno
    have hsame := h.kernel
    rw [hkernel, if_neg (by omega), requested, if_pos (by omega)] at hsame
    cases hsame
  · intro h
    refine ⟨?_, huser offset len, rfl, hslice⟩
    rw [hkernel]
    rcases h with h | h
    · rw [if_pos h]
    · split
      · rfl
      · rw [requested, if_neg (by omega)]

/-- The check of `redbpf`. -/
def redbpf : Redbpf where
  checkBounds ctx start stop := start < stop ∧ ctx.dataStart ≤ start ∧ stop ≤ ctx.dataEnd
  checkBounds_iff _ _ _ := by simp

/-- An empty slice of an empty packet is there in userland, but not in the kernel. -/
theorem not_sameAccess_of_empty : ¬ ∀ (R : Redbpf) (ctx : XdpContext) (offset len : UInt64),
    SameAccess R ctx offset len := by
  intro h
  have hsame := (h redbpf ⟨fun _ => 0, 0, 0, le_refl 0⟩ 0 0).kernel
  have hrequested : requested (XdpContext.contents ⟨fun _ => 0, 0, 0, le_refl 0⟩) 0 0 = some [] :=
    rfl
  rw [xdp_sliceFrom_eq, if_neg (by decide), hrequested] at hsame
  cases hsame

end Galette.Nf
