import Galette.Chainsmith.Manifest
import Mathlib.Data.List.Nodup

/-!
# Proofs: names of targets and files

The names of the targets are derived from the names of the functions in two ways that may clash: by
adding `-chain` to them, and by replacing `-` by `_`. If neither does, every file has one target.
-/

namespace Galette.Chainsmith

open Galette.Lib Galette.Protocol

/-! ## Derived names -/

/-- Names and their extensions by `s` differ exactly if no name is the extension of another. -/
theorem nodup_extended {names : List String} (h : names.Nodup) {s : String} (hs : s ≠ "") :
    (names.flatMap fun a => [a, a ++ s]).Nodup ↔ ∀ a ∈ names, ∀ b ∈ names, b ≠ a ++ s := by
  have hself : ∀ a : String, a ≠ a ++ s := by
    intro a ha
    have := congrArg String.length ha
    rw [String.length_append] at this
    exact hs (String.length_eq_zero_iff.1 (by omega))
  rw [List.nodup_flatMap]
  constructor
  · rintro ⟨_, hdisj⟩ a ha b hb hab
    by_cases hne : a = b
    · exact hself a (hne.trans hab)
    · have hsymm : Std.Symm (Function.onFun List.Disjoint fun a => [a, a ++ s]) :=
        ⟨fun _ _ hd x hx hy => hd hy hx⟩
      exact hdisj.forall ha hb hne (show b ∈ [a, a ++ s] by simp [hab]) (by simp)
  · intro hext
    refine ⟨fun a _ => by simpa using hself a, h.imp_of_mem fun {a b} ha hb hne x hxa hxb => ?_⟩
    have hxa : x = a ∨ x = a ++ s := by simpa using hxa
    have hxb : x = b ∨ x = b ++ s := by simpa using hxb
    rcases hxa with rfl | rfl
    · rcases hxb with rfl | rfl
      · exact hne rfl
      · exact hext b hb _ ha rfl
    · rcases hxb with rfl | hxb
      · exact hext a ha _ hb rfl
      · exact hne ((String.append_left_inj s).1 hxb)

theorem canonName_append (a b : String) : canonName (a ++ b) = canonName a ++ canonName b := by
  unfold canonName
  rw [String.toList_append, List.map_append, String.ofList_append]

/-- The library of a package is found under the name that the compiler expects. -/
theorem output_lib (target : Option String) (name : String) :
    CargoTarget.output target ⟨.lib, name ++ "-user", libRs name⟩ = dylibPath target name := by
  have huser : canonName "-user" = "_user" := by decide
  have hso : "_user" ++ ".so" = "_user.so" := by decide
  simp only [CargoTarget.output, dylibPath]
  rw [canonName_append, huser, ← String.append_assoc, ← hso, ← String.append_assoc]

theorem dylibPath_inj {target : Option String} {a b : String} :
    dylibPath target a = dylibPath target b ↔ canonName a = canonName b := by
  simp [dylibPath]

theorem dylibName_inj {a b : String} : dylibName a = dylibName b ↔ canonName a = canonName b := by
  simp [dylibName]

theorem elfPath_inj {a b : String} : elfPath a = elfPath b ↔ a = b := by
  constructor
  · intro h
    simp only [elfPath, List.cons.injEq] at h
    exact h.2.2.1
  · rintro rfl
    rfl

/-- The output of a binary is no library. -/
theorem elfPath_ne_dylibPath {target : Option String} {a b : String} :
    elfPath a ≠ dylibPath target b := by
  intro h
  have hlen := congrArg List.length h
  cases target <;> simp [elfPath, dylibPath] at hlen

/-! ## Targets -/

variable {chain : Chain} {target : Option String}

theorem mem_xdpFunctions {e : String × Function} :
    e ∈ xdpFunctions chain ↔ e ∈ chain.functions.entries ∧ e.2.disableXdp = false := by
  simp [xdpFunctions]

theorem bins_nodup_iff : ((generateXdpCargoToml chain).targets.map CargoTarget.name).Nodup ↔
    ∀ a ∈ xdpFunctions chain, ∀ b ∈ xdpFunctions chain, b.1 ≠ a.1 ++ "-chain" := by
  have hnames : (generateXdpCargoToml chain).targets.map CargoTarget.name =
      ((xdpFunctions chain).map Prod.fst).flatMap fun a => [a, a ++ "-chain"] := by
    simp [generateXdpCargoToml, List.map_flatMap, List.flatMap_map]
  have hnodup : ((xdpFunctions chain).map Prod.fst).Nodup :=
    (List.filter_sublist.map Prod.fst).nodup chain.functions.keys_nodup
  rw [hnames, nodup_extended hnodup (by decide)]
  simp only [List.forall_mem_map]

theorem dylibs_nodup_iff : (chain.functions.keys.map dylibName).Nodup ↔
    ∀ a ∈ chain.functions.keys, ∀ b ∈ chain.functions.keys, canonName a = canonName b → a = b := by
  rw [List.nodup_map_iff_inj_on chain.functions.keys_nodup]
  simp only [dylibName_inj]

theorem mem_xdpTargets {t : CargoTarget} : t ∈ (generateXdpCargoToml chain).targets ↔
    ∃ e ∈ xdpFunctions chain,
      t = ⟨.bin, e.1, mainRs e.1⟩ ∨ t = ⟨.bin, e.1 ++ "-chain", chainRs e.1⟩ := by
  simp [generateXdpCargoToml]

theorem userTargets_eq : (userWorkspace chain).flatMap CargoToml.targets =
    chain.functions.keys.map fun name => ⟨.lib, name ++ "-user", libRs name⟩ := by
  rw [userWorkspace, List.flatMap_map, BTreeMap.keys, List.map_map, List.map_eq_flatMap]
  rfl

/-- No two targets have the same output. -/
theorem NamesApart.outputs_nodup (h : NamesApart chain) :
    ((declaredTargets chain).map (CargoTarget.output target)).Nodup := by
  have hbin : ∀ t ∈ (generateXdpCargoToml chain).targets, t.output target = elfPath t.name := by
    intro t ht
    obtain ⟨e, _, rfl | rfl⟩ := mem_xdpTargets.1 ht <;> rfl
  have hbins : (generateXdpCargoToml chain).targets.map (CargoTarget.output target) =
      ((generateXdpCargoToml chain).targets.map CargoTarget.name).map elfPath := by
    rw [List.map_map]
    exact List.map_congr_left hbin
  have hlibs : ((userWorkspace chain).flatMap CargoToml.targets).map (CargoTarget.output target) =
      chain.functions.keys.map (dylibPath target) := by
    rw [userTargets_eq, List.map_map]
    exact List.map_congr_left fun name _ => output_lib target name
  rw [declaredTargets, List.map_append, hbins, hlibs, List.nodup_append]
  refine ⟨?_, ?_, ?_⟩
  · exact (bins_nodup_iff.2 h.chained).map fun _ _ => elfPath_inj.1
  · rw [List.nodup_map_iff_inj_on chain.functions.keys_nodup]
    intro a ha b hb hab
    exact h.canon a ha b hb (dylibPath_inj.1 hab)
  · intro p hp q hq
    obtain ⟨a, _, rfl⟩ := List.mem_map.1 hp
    obtain ⟨b, _, rfl⟩ := List.mem_map.1 hq
    exact elfPath_ne_dylibPath

/-- Every file that is read has a target. -/
theorem exists_target {e : String × Function} (he : e ∈ chain.functions.entries)
    {r : List String × List String} (hr : r ∈ readsOf target e) :
    ∃ t ∈ declaredTargets chain, t.output target = r.1 ∧ t.src = r.2 := by
  rcases List.mem_append.1 hr with hr | hr
  · split at hr
    · cases hr
    · rename_i hx
      have hx : e ∈ xdpFunctions chain := mem_xdpFunctions.2 ⟨he, by simpa using hx⟩
      have hr : r = (elfPath e.1, mainRs e.1) ∨ r = (elfPath (e.1 ++ "-chain"), chainRs e.1) := by
        simpa using hr
      rcases hr with rfl | rfl
      · exact ⟨_, List.mem_append_left _ (mem_xdpTargets.2 ⟨e, hx, Or.inl rfl⟩), rfl, rfl⟩
      · exact ⟨_, List.mem_append_left _ (mem_xdpTargets.2 ⟨e, hx, Or.inr rfl⟩), rfl, rfl⟩
  · obtain rfl := List.mem_singleton.1 hr
    refine ⟨⟨.lib, e.1 ++ "-user", libRs e.1⟩, List.mem_append_right _ ?_, output_lib target e.1, rfl⟩
    rw [userTargets_eq]
    exact List.mem_map.2 ⟨e.1, List.mem_map.2 ⟨e, he, rfl⟩, rfl⟩

theorem filter_eq_of_nodup_map {α β : Type} [DecidableEq β] {f : α → β} {l : List α} {x : α}
    (h : (l.map f).Nodup) (hx : x ∈ l) : (l.filter fun y => f y = f x) = [x] := by
  have hnd : l.Nodup := h.of_map f
  refine List.perm_singleton.1 ((List.perm_ext_iff_of_nodup (hnd.filter _) (by simp)).2 fun y => ?_)
  rw [List.mem_filter, List.mem_singleton]
  constructor
  · rintro ⟨hy, hfy⟩
    exact List.inj_on_of_nodup_map h hy hx (by simpa using hfy)
  · rintro rfl
    exact ⟨hx, by simp⟩

/-- The file that is read is the output of one target, and that is the one of the wrapper. -/
theorem NamesApart.reads (h : NamesApart chain) {e : String × Function}
    (he : e ∈ chain.functions.entries) {r : List String × List String} (hr : r ∈ readsOf target e) :
    ∃ t, ((declaredTargets chain).filter fun t => t.output target = r.1) = [t] ∧ t.src = r.2 := by
  obtain ⟨t, ht, hout, hsrc⟩ := exists_target he hr
  refine ⟨t, ?_, hsrc⟩
  rw [← hout]
  exact filter_eq_of_nodup_map h.outputs_nodup ht

/-- What is read for a function was built from its wrapper. -/
theorem NamesApart.read_built (h : NamesApart chain) {env : BuildEnv} {built : List String → Bytes}
    (hbuilt : CargoBuilt env chain target built) {e : String × Function}
    (he : e ∈ chain.functions.entries) {r : List String × List String} (hr : r ∈ readsOf target e)
    {bytes : Bytes} (hread : readElf env e.1 r.1 = .ok bytes) : bytes = built r.2 := by
  have hbytes : env.read r.1 = some bytes := by
    unfold readElf at hread
    split at hread
    · rename_i b hb
      rw [hb, Except.ok.inj hread]
    · cases hread
  obtain ⟨t, ht, hout, rfl⟩ := hbuilt _ _ hbytes
  obtain ⟨t', hfilter, hsrc⟩ := h.reads he hr
  have hmem : t ∈ (declaredTargets chain).filter fun t => t.output target = r.1 :=
    List.mem_filter.2 ⟨ht, by simpa using hout⟩
  rw [hfilter] at hmem
  obtain rfl := List.mem_singleton.1 hmem
  rw [hsrc]

/-- **Build artefacts.** The outputs for different functions are kept apart exactly if their derived
names are. -/
theorem artefactsApart_iff : ArtefactsApart chain target ↔ NamesApart chain := by
  constructor
  · intro h
    exact ⟨bins_nodup_iff.1 h.bins, dylibs_nodup_iff.1 h.dylibs⟩
  · intro h
    refine ⟨bins_nodup_iff.2 h.chained, dylibs_nodup_iff.2 h.canon, fun e he r hr => h.reads he hr,
      fun env built hbuilt e he ebpf hebpf => ?_, fun env built hbuilt e he bytes hbytes => ?_⟩
    · unfold readEbpf at hebpf
      split at hebpf
      · cases hebpf
      · rename_i hx
        obtain ⟨endElf, hend, hebpf⟩ := Except.bind_eq_ok.1 hebpf
        obtain ⟨link, hlink, hebpf⟩ := Except.bind_eq_ok.1 hebpf
        obtain rfl := Option.some.inj (Except.ok.inj hebpf)
        have hmain : (elfPath e.1, mainRs e.1) ∈ readsOf target e := by simp [readsOf, hx]
        have hchain : (elfPath (e.1 ++ "-chain"), chainRs e.1) ∈ readsOf target e := by
          simp [readsOf, hx]
        exact ⟨h.read_built hbuilt he hmain hend, h.read_built hbuilt he hchain hlink⟩
    · have hlib : (dylibPath target e.1, libRs e.1) ∈ readsOf target e := by simp [readsOf]
      exact h.read_built hbuilt he hlib hbytes

def plainFn : Function where
  path := none
  disableXdp := false
  slice := none
  maps := .empty

/-- Two functions, one of which is called like the second binary of the other. -/
def suffixChain : Chain where
  functions := ⟨[("a", plainFn), ("a-chain", plainFn)], by decide⟩
  links := [⟨"rx", ["a"]⟩, ⟨"a", ["a-chain"]⟩, ⟨"a-chain", ["tx"]⟩]
  maps := .empty

/-- The two binaries called `a-chain` clash. -/
theorem not_artefactsApart_of_suffix : ¬ ∀ (chain : Chain) (target : Option String),
    ArtefactsApart chain target := by
  intro hall
  have hbins := bins_nodup_iff.1 (hall suffixChain none).bins
  exact hbins ("a", plainFn) (List.mem_cons_self ..) ("a-chain", plainFn)
    (List.mem_cons_of_mem _ (List.mem_cons_self ..)) (by decide)

end Galette.Chainsmith
