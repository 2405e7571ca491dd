import Galette.Nf.Functions
import Galette.Nf.Proofs.PacketProofs

/-!
# Proofs: one source, two builds

A write through a slice of the kernel changes the packet as a write through a slice of userland
does, and nothing else. So the two builds of a function run in step, access by access.
-/

namespace Galette.Nf

open Galette.Protocol

variable {R : Redbpf} {ctx : XdpContext}

theorem contents_lt (ctx : XdpContext) : ctx.contents.length < 2 ^ 64 := by
  have := ctx.dataEnd.toNat_lt
  rw [contents_length]
  omega

theorem ofNat_contents_length (ctx : XdpContext) : UInt64.ofNat ctx.contents.length = ctx.len := by
  rw [XdpContext.contents, fromRawParts_length, UInt64.ofNat_toNat]
  rfl

@[simp] theorem setSlice_length {pkt new : Bytes} {start : Nat}
    (h : start + new.length ≤ pkt.length) :
    (setSlice pkt start new).length = pkt.length := by
  simp only [setSlice, List.length_append, List.length_take, List.length_drop]
  omega

theorem getElem?_setSlice {pkt new : Bytes} {start : Nat} (h : start + new.length ≤ pkt.length)
    (i : Nat) : (setSlice pkt start new)[i]? =
      if start ≤ i ∧ i < start + new.length then new[i - start]? else pkt[i]? := by
  have hstart : (pkt.take start).length = start := by
    rw [List.length_take]
    omega
  unfold setSlice
  by_cases hlo : i < start
  · rw [if_neg (by omega), List.append_assoc, List.getElem?_append_left (by omega),
      List.getElem?_take_of_lt hlo]
  · by_cases hhi : i < start + new.length
    · rw [if_pos ⟨by omega, hhi⟩, List.getElem?_append_left (by simp; omega),
        List.getElem?_append_right (by omega), hstart]
    · have hboth : (pkt.take start ++ new).length = start + new.length := by
        rw [List.length_append, hstart]
      rw [if_neg (by omega), List.getElem?_append_right (by omega), hboth, List.getElem?_drop]
      congr 1
      omega

theorem requested_some {pkt bs : Bytes} {offset len : UInt64}
    (h : requested pkt offset len = some bs) :
    offset.toNat + bs.length ≤ pkt.length ∧ bs.length = len.toNat := by
  unfold requested at h
  split at h
  · rename_i hle
    obtain rfl := Option.some.inj h
    simp only [List.length_take, List.length_drop]
    omega
  · cases h

theorem getElem?_contents (ctx : XdpContext) {i : Nat} (hi : i < ctx.contents.length) :
    ctx.contents[i]? = some (ctx.mem (ctx.dataStart + UInt64.ofNat i)) := by
  rw [List.getElem?_eq_getElem hi]
  simp [XdpContext.contents, fromRawParts]

/-- The position of an address of the packet, counted from the start of a write. -/
theorem toNat_sub_base {start offset : UInt64} {i : Nat} (hi : i < 2 ^ 64) :
    (start + UInt64.ofNat i - (start + offset)).toNat =
      if offset.toNat ≤ i then i - offset.toNat else 2 ^ 64 + i - offset.toNat := by
  have ho := offset.toNat_lt
  have hs := start.toNat_lt
  rw [UInt64.toNat_sub, UInt64.toNat_add, UInt64.toNat_add, UInt64.toNat_ofNat']
  split <;> omega

/-- A write through a slice of the kernel. -/
theorem write_contents {offset : UInt64} {new : Bytes}
    (h : offset.toNat + new.length ≤ ctx.contents.length) :
    (ctx.write (ctx.dataStart + offset) new).contents = setSlice ctx.contents offset.toNat new := by
  have hlt := contents_lt ctx
  have hlen : (ctx.write (ctx.dataStart + offset) new).contents.length = ctx.contents.length := by
    rw [contents_length, contents_length]
    rfl
  refine List.ext_getElem? fun i => ?_
  rw [getElem?_setSlice h]
  by_cases hi : i < ctx.contents.length
  · rw [getElem?_contents _ (by omega)]
    simp only [XdpContext.write]
    rw [toNat_sub_base (by omega)]
    by_cases hin : offset.toNat ≤ i ∧ i < offset.toNat + new.length
    · rw [if_pos hin, if_pos hin.1, List.getElem?_eq_getElem (by omega), Option.getD_some]
    · -- the address lies before or behind what is written
      rw [if_neg hin, List.getElem?_eq_none (by split <;> omega), getElem?_contents ctx hi]
      rfl
  · rw [if_neg (by omega), List.getElem?_eq_none (by omega), List.getElem?_eq_none (by omega)]

/-- A write within the packet leaves all other memory alone. -/
theorem write_frame {offset : UInt64} {new : Bytes}
    (h : offset.toNat + new.length ≤ ctx.contents.length) {a : UInt64} (ha : ¬ ctx.Inside a) :
    (ctx.write (ctx.dataStart + offset) new).mem a = ctx.mem a := by
  have hs := UInt64.le_iff_toNat_le.1 ctx.le
  have he := ctx.dataEnd.toNat_lt
  have hal := a.toNat_lt
  have ho := offset.toNat_lt
  rw [contents_length] at h
  unfold XdpContext.Inside at ha
  rw [UInt64.le_iff_toNat_le, UInt64.lt_iff_toNat_lt] at ha
  simp only [XdpContext.write]
  rw [List.getElem?_eq_none]
  · rfl
  · rw [UInt64.toNat_sub, UInt64.toNat_add]
    omega

theorem writesInside_refl (ctx : XdpContext) : WritesInside ctx ctx := ⟨rfl, rfl, fun _ _ => rfl⟩

theorem WritesInside.trans {ctx₁ ctx₂ ctx₃ : XdpContext} (h : WritesInside ctx₁ ctx₂)
    (h' : WritesInside ctx₂ ctx₃) : WritesInside ctx₁ ctx₃ where
  dataStart := h'.dataStart.trans h.dataStart
  dataEnd := h'.dataEnd.trans h.dataEnd
  frame a ha := by
    have ha' : ¬ ctx₂.Inside a := by
      unfold XdpContext.Inside at ha ⊢
      rwa [h.dataStart, h.dataEnd]
    rw [h'.frame a ha', h.frame a ha]

section Runs

variable {α σ : Type}

/-- A slice of the kernel lies in the packet. -/
theorem xdp_sliceFrom_le {offset len : UInt64} {bs : Bytes}
    (h : ctx.sliceFrom R offset len = some bs) :
    offset.toNat + bs.length ≤ ctx.contents.length := by
  rw [xdp_sliceFrom_eq] at h
  split at h
  · exact (requested_some h).1
  · cases h

/-- A slice of userland lies in the packet. -/
theorem sliceFrom_le {pkt bs : Bytes} {offset len : UInt64}
    (h : sliceFrom pkt offset len = some bs) :
    offset.toNat + bs.length ≤ pkt.length := by
  unfold sliceFrom getMut at h
  split at h
  · rename_i hle
    obtain rfl := Option.some.inj h
    rw [UInt64.le_iff_toNat_le] at hle
    simp only [List.length_drop, List.length_take]
    omega
  · cases h

theorem runKernel_writesInside (H : MapHost σ) (p : NfProg α) (ctx : XdpContext) (m : σ) :
    WritesInside ctx (runKernel R H p ctx m).pkt := by
  induction p generalizing ctx m with
  | ret a => exact writesInside_refl ctx
  | panic => exact writesInside_refl ctx
  | len k ih => exact ih _ ctx m
  | sliceFrom offset len absent write present ihAbsent ihPresent =>
    simp only [runKernel]
    split
    · rename_i bs hbs
      have hnew : offset.toNat + (write bs).1.length ≤ ctx.contents.length := by
        rw [(write bs).2]
        exact xdp_sliceFrom_le hbs
      have hwrite : WritesInside ctx (ctx.write (ctx.dataStart + offset) (write bs)) :=
        ⟨rfl, rfl, fun a ha => write_frame hnew ha⟩
      exact hwrite.trans (ihPresent bs _ m)
    · exact ihAbsent ctx m
  | get map key k ih => exact ih _ ctx m
  | put map key value next ih => exact ih ctx _
  | random k ih => exact ih _ ctx _

theorem runUser_length (H : MapHost σ) (p : NfProg α) (pkt : Bytes) (m : σ) :
    (runUser H p pkt m).pkt.length = pkt.length := by
  induction p generalizing pkt m with
  | ret a => rfl
  | panic => rfl
  | len k ih => exact ih _ pkt m
  | sliceFrom offset len absent write present ihAbsent ihPresent =>
    simp only [runUser]
    split
    · rename_i bs hbs
      have hnew : offset.toNat + (write bs).1.length ≤ pkt.length := by
        rw [(write bs).2]
        exact sliceFrom_le hbs
      rw [ihPresent bs, setSlice_length hnew]
    · exact ihAbsent pkt m
  | get map key k ih => exact ih _ pkt m
  | put map key value next ih => exact ih pkt _
  | random k ih => exact ih _ pkt _

/-- **Functions keep to their packet.** Whatever a function does: in the kernel it writes to no
memory but that of its packet, and the packet stays where it is; in userland the packet keeps
its length. -/
theorem function_keeps_to_packet (R : Redbpf) (H : MapHost σ) (p : NfProg α) (m : σ) :
    (∀ ctx, WritesInside ctx (runKernel R H p ctx m).pkt) ∧
      ∀ pkt, (runUser H p pkt m).pkt.length = pkt.length :=
  ⟨fun ctx => runKernel_writesInside H p ctx m, fun pkt => runUser_length H p pkt m⟩

/-- A function that asks for no empty slice does the same in the kernel and in userland, whatever
the packet and the maps are. -/
theorem sameRun (R : Redbpf) (H : MapHost σ) (p : NfProg α) (hp : p.NonEmpty) (ctx : XdpContext)
    (m : σ) : SameRun (runKernel R H p ctx m) (runUser H p ctx.contents m) := by
  induction p generalizing ctx m with
  | ret a => exact ⟨rfl, rfl, rfl⟩
  | panic => exact ⟨rfl, rfl, rfl⟩
  | len k ih =>
    simp only [runKernel, runUser, ofNat_contents_length]
    exact ih _ (hp _) ctx m
  | sliceFrom offset len absent write present ihAbsent ihPresent =>
    obtain ⟨hlen, habsent, hpresent⟩ := hp
    have hpos : 0 < len.toNat := by
      rw [ne_eq, ← UInt64.toNat_inj, UInt64.toNat_zero] at hlen
      omega
    simp only [runKernel, runUser, sliceFrom_eq _ (contents_lt ctx), xdp_sliceFrom_eq, if_pos hpos]
    cases hr : requested ctx.contents offset len with
    | none => exact ihAbsent habsent ctx m
    | some bs =>
      have hnew : offset.toNat + (write bs).1.length ≤ ctx.contents.length := by
        rw [(write bs).2]
        exact (requested_some hr).1
      have hrun := ihPresent bs (hpresent bs) (ctx.write (ctx.dataStart + offset) (write bs)) m
      rwa [write_contents hnew] at hrun
  | get map key k ih => exact ih _ (hp _) ctx m
  | put map key value next ih => exact ih hp ctx _
  | random k ih => exact ih _ (hp _) ctx _

end Runs

/-! ## Single accesses -/

section Steps

variable {α σ : Type} {R : Redbpf} {H : MapHost σ}

/-- A single access is the same in both places. -/
theorem stepUser_contents {p : NfProg α} (hp : p.NonEmpty) (ctx : XdpContext) (m : σ) :
    stepUser H p ctx.contents m =
      (stepKernel R H p ctx m).map fun s => (s.1, s.2.1.contents, s.2.2) := by
  cases p with
  | ret a => rfl
  | panic => rfl
  | len k => simp only [stepUser, stepKernel, ofNat_contents_length, Option.map_some]
  | sliceFrom offset len absent write present =>
    obtain ⟨hlen, -, -⟩ := hp
    have hpos : 0 < len.toNat := by
      rw [ne_eq, ← UInt64.toNat_inj, UInt64.toNat_zero] at hlen
      omega
    simp only [stepUser, stepKernel, sliceFrom_eq _ (contents_lt ctx), xdp_sliceFrom_eq, if_pos hpos]
    cases hr : requested ctx.contents offset len with
    | none => rfl
    | some bs =>
      have hnew : offset.toNat + (write bs).1.length ≤ ctx.contents.length := by
        rw [(write bs).2]
        exact (requested_some hr).1
      simp only [Option.map_some, write_contents hnew]
  | get map key k => rfl
  | put map key value next => rfl
  | random k => rfl

/-- What is left of a function after an access. -/
inductive After : NfProg α → NfProg α → Prop where
  | len (k : UInt64 → NfProg α) (n : UInt64) : After (.len k) (k n)
  | absent (offset len : UInt64) (absent : NfProg α)
      (write : (bs : Bytes) → { new : Bytes // new.length = bs.length })
      (present : Bytes → NfProg α) : After (.sliceFrom offset len absent write present) absent
  | present (offset len : UInt64) (absent : NfProg α)
      (write : (bs : Bytes) → { new : Bytes // new.length = bs.length })
      (present : Bytes → NfProg α) (bs : Bytes) :
      After (.sliceFrom offset len absent write present) (present bs)
  | get (map : String) (key : Bytes) (k : Option Bytes → NfProg α) (v : Option Bytes) :
      After (.get map key k) (k v)
  | put (map : String) (key value : Bytes) (next : NfProg α) : After (.put map key value next) next
  | random (k : UInt32 → NfProg α) (n : UInt32) : After (.random k) (k n)

theorem after_of_stepUser {p p' : NfProg α} {pkt pkt' : Bytes} {m m' : σ}
    (h : stepUser H p pkt m = some (p', pkt', m')) : After p p' := by
  cases p with
  | ret a => cases h
  | panic => cases h
  | len k =>
    cases h
    exact .len k _
  | sliceFrom offset len absent write present =>
    simp only [stepUser] at h
    split at h
    · cases h
      exact .present ..
    · cases h
      exact .absent ..
  | get map key k =>
    cases h
    exact .get map key k _
  | put map key value next =>
    cases h
    exact .put ..
  | random k =>
    cases h
    exact .random k _

theorem NfProg.NonEmpty.after {p p' : NfProg α} (hp : p.NonEmpty) (h : After p p') :
    p'.NonEmpty := by
  cases h with
  | len k n => exact hp n
  | absent offset len absent write present => exact hp.2.1
  | present offset len absent write present bs => exact hp.2.2 bs
  | get map key k v => exact hp v
  | put map key value next => exact hp
  | random k n => exact hp n

theorem NfProg.Returns.after {P : α → Prop} {p p' : NfProg α} (hp : p.Returns P) (h : After p p') :
    p'.Returns P := by
  cases h with
  | len k n => exact hp n
  | absent offset len absent write present => exact hp.1
  | present offset len absent write present bs => exact hp.2 bs
  | get map key k v => exact hp v
  | put map key value next => exact hp
  | random k n => exact hp n

/-- A function without a next access has returned or panicked. -/
theorem eq_of_stepUser_none {p : NfProg α} {pkt : Bytes} {m : σ} (h : stepUser H p pkt m = none) :
    (∃ a, p = .ret a) ∨ p = .panic := by
  cases p with
  | ret a => exact Or.inl ⟨a, rfl⟩
  | panic => exact Or.inr rfl
  | sliceFrom offset len absent write present =>
    simp only [stepUser] at h
    split at h <;> cases h
  | _ => cases h

end Steps

/-! ## The functions of the examples -/

section Examples

open Galette.Lib

theorem macswap_nonEmpty : Macswap.packet.NonEmpty := ⟨by decide, trivial, fun _ => trivial⟩

theorem decrementIpTtl_nonEmpty : DecrementIpTtl.packet.NonEmpty :=
  ⟨by decide, trivial, fun _ => trivial⟩

theorem branch_nonEmpty (v : Bytes) : (DestIpBranch.branch v).NonEmpty := by
  unfold DestIpBranch.branch
  repeat' split
  all_goals exact trivial

theorem destIpBranch_nonEmpty : DestIpBranch.packet.NonEmpty := by
  refine ⟨by decide, trivial, fun ty => ?_⟩
  dsimp only
  split
  · exact trivial
  · exact ⟨by decide, trivial, branch_nonEmpty⟩

theorem filterIp_nonEmpty (e : Endian) : (FilterIp.packet e).NonEmpty := by
  refine ⟨by decide, trivial, fun ty => ?_⟩
  dsimp only
  split
  · exact ⟨by decide, trivial, fun _ _ => trivial⟩
  · exact trivial

theorem loadBalance_nonEmpty (e : Endian) : (LoadBalance.packet e).NonEmpty := by
  intro v
  cases v with
  | none => exact trivial
  | some v =>
    dsimp only
    split
    · exact trivial
    · intro r
      dsimp only
      split <;> exact trivial

end Examples

/-! ## Many packets -/

section Calls

variable {α σ : Type} {H : MapHost σ} {c c' : Call α}

/-- A function that asks for no empty slice does everywhere what it does in userland. -/
theorem runAt_eq (R : Redbpf) (H : MapHost σ) (hc : c.prog.NonEmpty) (m : σ) :
    runAt R H c m = runUser H c.prog c.ctx.contents m := by
  have hrun := sameRun R H c.prog hc c.ctx m
  unfold runAt
  cases c.place with
  | user => rfl
  | kernel => simp only [hrun.result, hrun.pkt, hrun.maps]

theorem runAt_same (h : SameCall c c') (hc : c.prog.NonEmpty) (m : σ) :
    runAt R H c' m = runAt R H c m := by
  have hc' : c'.prog.NonEmpty := by rw [h.prog]; exact hc
  rw [runAt_eq R H hc' m, runAt_eq R H hc m, h.prog, h.pkt]

/-- **The place makes no difference.** However the packets are distributed over the kernel and
userland: functions that share maps and ask for no empty slice return the same for every packet, and
leave the same packets and the same maps behind. -/
theorem runAll_place (R : Redbpf) (H : MapHost σ) {calls calls' : List (Call α)}
    (h : List.Forall₂ SameCall calls calls') (hc : ∀ c ∈ calls, c.prog.NonEmpty) (m : σ) :
    runAll R H calls' m = runAll R H calls m := by
  induction h generalizing m with
  | nil => rfl
  | @cons c c' calls calls' hcall _ ih =>
    have hhead := runAt_same (R := R) (H := H) hcall (hc c (List.mem_cons_self ..)) m
    have htail := ih fun d hd => hc d (List.mem_cons_of_mem _ hd)
    simp only [runAll, hhead, htail]

end Calls

/-- Maps as one list of entries, and a fixed random number. -/
def listHost : MapHost (List ((String × Bytes) × Bytes)) where
  get m map key := m.lookup (map, key)
  put m map key value := ((map, key), value) :: m
  random m := (0, m)

/-- An empty packet. -/
def noBytes : XdpContext := ⟨fun _ => 0, 0, 0, le_refl 0⟩

/-- An IPv4 packet of zeros, with an empty payload. -/
def zeros : XdpContext := ⟨fun a => if a = 12 then 8 else 0, 0, 34, by decide⟩

theorem runAll_place_filterIp :
    runAll redbpf listHost [⟨.kernel, FilterIp.packet .little, zeros⟩,
        ⟨.user, FilterIp.packet .little, noBytes⟩] [(("blocked_ips", [0, 0, 0, 0]), [1])] =
      runAll redbpf listHost [⟨.user, FilterIp.packet .little, zeros⟩,
        ⟨.kernel, FilterIp.packet .little, noBytes⟩] [(("blocked_ips", [0, 0, 0, 0]), [1])] :=
  runAll_place redbpf listHost (.cons ⟨rfl, rfl⟩ (.cons ⟨rfl, rfl⟩ .nil))
    (by
      intro c hc
      simp only [List.mem_cons, List.not_mem_nil, or_false] at hc
      rcases hc with rfl | rfl <;> exact filterIp_nonEmpty .little) _

end Galette.Nf
