import Galette.Protocol.Message

/-!
# Proofs: the format of the messages

Every codec of the format is lawful; the laws of a type follow from those of its fields. A chain is
read back with the same links and the same binaries, its hash map possibly in another order.
-/

namespace Galette.Protocol

open Galette.Lib

/-- The error at the end of the input. -/
abbrev short : PostcardError := .deserializeUnexpectedEnd

namespace Postcard

variable {P : Postcard}

/-! ## Plain data -/

theorem bool_exact : bool.Exact short := by
  refine Codec.convert_exact (Codec.byte_exact short) ?_
  intro b
  cases b <;> rfl

theorem bytes_lawful : P.bytes.Lawful short BytesFit Eq where
  decode_encode b rest hb :=
    (Codec.seq_exact P.u64_exact (Codec.byte_exact short)).decode_encode b rest ⟨hb, by simp⟩
  decode_truncated b p q hb :=
    (Codec.seq_exact P.u64_exact (Codec.byte_exact short)).decode_truncated b p q ⟨hb, by simp⟩

theorem fromUTF8?_utf8 (s : String) : String.fromUTF8? ⟨s.toUTF8.data.toList.toArray⟩ = some s := by
  have hs : (⟨s.toUTF8.data.toList.toArray⟩ : ByteArray) = s.toUTF8 := by simp
  rw [hs, String.toUTF8_eq_toByteArray, String.fromUTF8?, dif_pos s.isValidUTF8]
  rfl

theorem string_lawful : P.string.Lawful short StringFits Eq := by
  refine Codec.convert_lawful bytes_lawful ?_ ?_
  · intro s hs
    unfold BytesFit
    rw [Array.length_toList]
    exact hs
  · rintro s _ _ rfl
    exact ⟨s, rfl, by simp only [fromUTF8?_utf8]⟩

theorem uuidFromSlice_asBytes (u : Uuid) : uuidFromSlice (uuidAsBytes u) = .ok u := by
  have hu : u.toNat < (2 ^ 8) ^ 16 := u.isLt
  unfold uuidFromSlice uuidAsBytes
  rw [if_pos (by simp), List.reverse_reverse, foldr_lowBytes, Nat.mod_eq_of_lt hu]
  simp

theorem uuid_exact : P.uuid.Exact short := by
  refine Codec.convert_lawful bytes_lawful ?_ ?_
  · intro u _
    simp [BytesFit, uuidAsBytes]
  · rintro u _ _ rfl
    exact ⟨u, rfl, uuidFromSlice_asBytes u⟩

theorem option_lawful {α : Type} {c : Codec PostcardError α} {fits : α → Prop}
    (hc : c.Lawful short fits Eq) : (option c).Lawful short (fun o => ∀ a ∈ o, fits a) Eq :=
  Codec.option_lawful hc

/-! ## Chains -/

theorem linkAction_exact : P.linkAction.Exact short := by
  refine Codec.enum_lawful P.u32_exact ?_
  intro a _
  cases a with
  | tx => exact ⟨0, _, (), Codec.armOf_exact 0 rfl (by decide) (by simp) rfl
      (Codec.unit_exact _) trivial rfl⟩
  | drop => exact ⟨1, _, (), Codec.armOf_exact 1 rfl (by decide) (by simp [unitArm]) rfl
      (Codec.unit_exact _) trivial rfl⟩
  | abort => exact ⟨2, _, (), Codec.armOf_exact 2 rfl (by decide) (by simp [unitArm]) rfl
      (Codec.unit_exact _) trivial rfl⟩
  | upcall id => exact ⟨3, _, id, Codec.armOf_exact 3 rfl (by decide) (by simp [unitArm]) rfl
      uuid_exact trivial rfl⟩
  | tailcall id => exact ⟨4, _, id, Codec.armOf_exact 4 rfl (by decide) (by simp [unitArm]) rfl
      uuid_exact trivial rfl⟩
  | pass => exact ⟨5, _, (), Codec.armOf_exact 5 rfl (by decide) (by simp [unitArm]) rfl
      (Codec.unit_exact _) trivial rfl⟩

theorem xdpLinkState_lawful : P.xdpLinkState.Lawful short XdpLinkState.Fits Eq := by
  refine Codec.enum_lawful P.u32_exact ?_
  intro s hs
  cases s with
  | tail => exact ⟨0, _, (), Codec.armOf_exact 0 rfl (by decide) (by simp) rfl
      (Codec.unit_exact _) trivial rfl⟩
  | body acts =>
    have hacts : acts.length < 2 ^ 64 := hs
    exact ⟨1, _, acts, Codec.armOf_exact 1 rfl (by decide) (by simp [unitArm]) rfl
      (Codec.seq_exact P.u64_exact linkAction_exact) ⟨hacts, by simp⟩ rfl⟩

theorem xdpLink_lawful : P.xdpLink.Lawful short XdpLink.Fits Eq := by
  have hfields := Codec.pair_exact (@uuid_exact P) (Codec.pair_exact (@xdpLinkState_lawful P)
    (Codec.pair_exact bool_exact (Codec.pair_exact bool_exact
      (Codec.seq_exact P.u64_exact (@string_lawful P)))))
  refine Codec.convert_lawful hfields ?_ ?_
  · intro l hl
    exact ⟨trivial, hl.state, trivial, trivial, hl.names, hl.name⟩
  · rintro l _ _ rfl
    exact ⟨l, rfl, rfl⟩

theorem ebpfFunction_lawful : P.ebpfFunction.Lawful short EbpfFunction.Fits Eq := by
  refine Codec.convert_lawful (Codec.pair_exact bytes_lawful bytes_lawful) ?_ ?_
  · intro e he
    exact ⟨he.link, he.end⟩
  · rintro e _ _ rfl
    exact ⟨e, rfl, rfl⟩

theorem function_lawful : P.function.Lawful short Function.Fits Eq := by
  have hfields := Codec.pair_exact (@uuid_exact P) (Codec.pair_exact
    (option_lawful (@bytes_lawful P)) (option_lawful (@ebpfFunction_lawful P)))
  refine Codec.convert_lawful hfields ?_ ?_
  · intro f hf
    exact ⟨trivial, hf.elf, hf.ebpf⟩
  · rintro f _ _ rfl
    exact ⟨f, rfl, rfl⟩

theorem chain_lawful : P.chain.Lawful short Chain.Fits SameChain := by
  refine Codec.convert_lawful (Codec.pair_lawful (Codec.seq_exact P.u64_exact xdpLink_lawful)
    (Codec.hashMap_lawful P.u64_exact uuid_exact function_lawful)) ?_ ?_
  · intro c hc
    exact ⟨⟨hc.links, hc.link⟩, hc.nfs, fun e he => ⟨trivial, hc.nf e he⟩⟩
  · rintro c ⟨links, nfs⟩ _ ⟨hlinks, hnfs⟩
    exact ⟨⟨links, nfs⟩, ⟨hlinks.symm, hnfs⟩, rfl⟩

/-! ## What the two sides say -/

theorem clientToServer_lawful : P.clientToServer.Lawful short ClientToServer.Fits Eq := by
  refine Codec.enum_lawful P.u32_exact ?_
  intro m hm
  cases m with
  | requestChain target =>
    have htarget : StringFits target := hm
    exact ⟨0, _, target, Codec.armOf_exact 0 rfl (by decide) (by simp) rfl string_lawful htarget rfl⟩

theorem serverToClient_lawful : P.serverToClient.Lawful short ServerToClient.Fits SameMessage := by
  refine Codec.enum_lawful P.u32_exact ?_
  intro m hm
  cases m with
  | chain c =>
    have hc : c.Fits := hm
    refine ⟨0, _, c, rfl, by decide, by simp, rfl, Chain.Fits, SameChain, chain_lawful, hc, ?_⟩
    intro c' hc
    exact .chain hc
  | requestChainError msg =>
    have hmsg : StringFits msg := hm
    refine ⟨1, _, msg, rfl, by decide, by simp, rfl, StringFits, Eq, string_lawful, hmsg, ?_⟩
    rintro _ rfl
    exact .requestChainError msg

end Postcard

/-! ## Reading messages -/

section Reading

variable {α : Type} {c : Codec PostcardError α} {fits : α → Prop} {same : α → α → Prop} {a : α}

/-- What was written is read back, whatever follows it. -/
theorem deser_append (h : c.Lawful short fits same) (ha : fits a) (junk : Bytes) :
    ∃ a', same a a' ∧ deser c (.binary (c.encode a ++ junk)) = .ok (some a') := by
  obtain ⟨a', hs, hd⟩ := h.decode_encode a junk ha
  exact ⟨a', hs, by simp only [deser, hd]⟩

theorem deser_ser (h : c.Lawful short fits same) (ha : fits a) :
    ∃ a', same a a' ∧ deser c (ser c a) = .ok (some a') := by
  have hd := deser_append h ha []
  rwa [List.append_nil] at hd

theorem deser_take (h : c.Lawful short fits same) (ha : fits a) {n : Nat}
    (hn : n < (c.encode a).length) :
    deser c (.binary ((c.encode a).take n)) = .error (.fail short) := by
  have hrest : (c.encode a).drop n ≠ [] := by
    intro hnil
    have hlen := congrArg List.length hnil
    simp at hlen
    omega
  have hd := h.decode_truncated a _ _ ha (List.take_append_drop n _).symm hrest
  simp only [deser, hd]

end Reading

/-- **Messages are read back.** Whatever is sent in either direction is understood on the other side
as it was meant, in whatever order the hash map was written, and also if more bytes follow. -/
theorem messages_read_back (P : Postcard) (junk : Bytes) :
    (∀ m : ClientToServer, m.Fits →
      deser P.clientToServer (.binary (P.clientToServer.encode m ++ junk)) = .ok (some m)) ∧
    ∀ m : ServerToClient, m.Fits → ∃ m', SameMessage m m' ∧
      deser P.serverToClient (.binary (P.serverToClient.encode m ++ junk)) = .ok (some m') := by
  refine ⟨fun m hm => ?_, fun m hm => deser_append Postcard.serverToClient_lawful hm junk⟩
  obtain ⟨_, rfl, hd⟩ := deser_append Postcard.clientToServer_lawful hm junk
  exact hd

/-- A chain of one function that is upcalled to itself. -/
def loopChain : Chain where
  links := [{ uuid := 7, state := .body [.tx, .upcall 7], root := true, disableXdp := false,
              mapNames := ["ips"] }]
  nfs := AList.insert 7 { uuid := 7, elf := some [1, 2], ebpf := none } ∅

theorem loopChain_fits : loopChain.Fits := by
  refine ⟨by decide, ?_, by decide, ?_⟩
  · intro l hl
    obtain rfl := List.mem_singleton.1 hl
    refine ⟨by simp [XdpLinkState.Fits], by simp, ?_⟩
    intro n hn
    obtain rfl := List.mem_singleton.1 hn
    simp [StringFits]
    decide
  · intro e he
    obtain rfl := List.mem_singleton.1 he
    refine ⟨?_, by simp⟩
    intro b hb
    obtain rfl := Option.some.inj hb
    simp [BytesFit]

theorem loopChain_read_back : ∃ m', SameMessage (.chain loopChain) m' ∧
    deser leb128.serverToClient (.binary (leb128.serverToClient.encode (.chain loopChain) ++ [0])) =
      .ok (some m') :=
  (messages_read_back leb128 [0]).2 (.chain loopChain) loopChain_fits

/-- **A part of a message is no message.** If the end of a message is missing, the other side gets
an error that says so, and never another message. -/
theorem truncated_rejected (P : Postcard) :
    (∀ m : ClientToServer, m.Fits → ∀ n < (P.clientToServer.encode m).length,
      deser P.clientToServer (.binary ((P.clientToServer.encode m).take n)) =
        .error (.fail .deserializeUnexpectedEnd)) ∧
    ∀ m : ServerToClient, m.Fits → ∀ n < (P.serverToClient.encode m).length,
      deser P.serverToClient (.binary ((P.serverToClient.encode m).take n)) =
        .error (.fail .deserializeUnexpectedEnd) :=
  ⟨fun _ hm _ hn => deser_take Postcard.clientToServer_lawful hm hn,
    fun _ hm _ hn => deser_take Postcard.serverToClient_lawful hm hn⟩

theorem loopChain_truncated :
    deser leb128.serverToClient (.binary ((leb128.serverToClient.encode (.chain loopChain)).take 9)) =
      .error (.fail .deserializeUnexpectedEnd) :=
  (truncated_rejected leb128).2 (.chain loopChain) loopChain_fits 9 (by decide)

end Galette.Protocol
