import Galette.Chainsmith.Proofs.CompileProofs
import Galette.Pulley.Proofs.RefinementProofs

/-!
# Proofs: the message from the compiler to the runtime

The links and the binaries that the compiler sends refer to each other: `linked_message` is the
bridge between the two crates. The links come out of a hash map, so they may stand in any order.
-/

namespace Galette.Pipeline

open Galette.Lib Galette.Protocol Galette.Chainsmith Galette.Pulley

variable {chain : Chainsmith.Chain} {st : BuildState} {fns : HashMap String XdpLink}
  {links : List XdpLink}

theorem values_uuid_nodup (hB : Compiled chain st) (hC : Concrete chain st.fnMap fns) :
    ((HashMap.values fns).map XdpLink.uuid).Nodup := by
  unfold HashMap.values
  rw [List.map_map]
  apply List.Nodup.map_on _ fns.nodupKeys.nodup
  rintro ⟨a, l⟩ ha ⟨b, m⟩ hb huuid
  have hla : fns.lookup a = some l := AList.mem_lookup_iff.2 ha
  have hmb : fns.lookup b = some m := AList.mem_lookup_iff.2 hb
  obtain ⟨u, f, hu, _, rfl⟩ := hC.link_of_lookup hla
  obtain ⟨v, g, hv, _, rfl⟩ := hC.link_of_lookup hmb
  obtain rfl : u = v := huuid
  obtain rfl := hB.inj a b u hu hv
  rw [Option.some.inj (hla.symm.trans hmb)]

/-- **The message of a build is linked.** -/
theorem linked_message (hB : Compiled chain st) (hC : Concrete chain st.fnMap fns)
    (hperm : links.Perm (HashMap.values fns)) : Linked ⟨links, st.binaries⟩ := by
  have hmem : ∀ l ∈ links, ∃ name u f, fns.lookup name = some l ∧ st.fnMap.lookup name = some u ∧
      chain.functions.get? name = some f ∧ l = linkAfter fns chain.links name (freshLink f u) := by
    intro l hl
    obtain ⟨name, hn⟩ := HashMap.mem_values.1 (hperm.mem_iff.1 hl)
    obtain ⟨u, f, hu, hf, he⟩ := hC.link_of_lookup hn
    exact ⟨name, u, f, hn, hu, hf, he⟩
  have htarget : ∀ l ∈ links, ∀ els, l.state = .body els → ∀ a ∈ els, ∀ u, a.nextNf = some u →
      ∃ n f, st.fnMap.lookup n = some u ∧ chain.functions.get? n = some f ∧
        (a = .tailcall u → f.disableXdp = false) := by
    intro l hl els hs a ha u hu
    obtain ⟨name, _, _, _, _, _, rfl⟩ := hmem l hl
    obtain ⟨target, ht⟩ := hC.mem_acts hs ha
    exact targetAction_nextNf ht hu
  refine ⟨(hperm.map _).nodup_iff.2 (values_uuid_nodup hB hC), ?_, ?_, ?_, ?_⟩
  · obtain ⟨root, hrx, hsome⟩ := hC.rx
    obtain ⟨r, hr⟩ := Option.isSome_iff_exists.1 hsome
    refine ⟨r, ⟨hperm.mem_iff.2 (HashMap.mem_values.2 ⟨root, hr⟩),
      (hC.root_iff hrx hr).2 rfl⟩, ?_⟩
    rintro l ⟨hl, hroot⟩
    obtain ⟨name, _, _, hn, _⟩ := hmem l hl
    obtain rfl := (hC.root_iff hrx hn).1 hroot
    exact Option.some.inj (hn.symm.trans hr)
  · intro l hl els hs a ha u hu
    obtain ⟨n, f, hn, _⟩ := htarget l hl els hs a ha u hu
    obtain ⟨l', hl', hlu, _⟩ := hC.exists_link hperm hn
    exact ⟨l', hl', hlu⟩
  · intro l hl els hs u hu
    obtain ⟨n, f, hn, hf, hx⟩ := htarget l hl els hs _ hu u rfl
    obtain ⟨b, hb, _, hebpf, _⟩ := hB.entry n u f hn hf
    obtain ⟨e, he⟩ := Option.isSome_iff_exists.1 (hebpf.2 (hx rfl))
    exact ⟨b, e, hb, he⟩
  · intro l hl
    obtain ⟨name, u, f, _, hu, hf, rfl⟩ := hmem l hl
    obtain ⟨b, hb, _, _, helf⟩ := hB.entry name u f hu hf
    obtain ⟨elf, he⟩ := Option.isSome_iff_exists.1 helf
    exact ⟨b, elf, hb, he⟩

end Galette.Pipeline
