import Galette.Pulley.Proofs.TotalProofs

/-!
# Proofs: errors of the installation

Every error of `install_chain` names what it is about (`installChain_fault`): a function that the
message does not contain, a map that an object does not have, a tail call of a function without
program. For a linked chain the errors that speak of a missing function are never returned.
-/

namespace Galette.Pulley

open Galette.Lib Galette.Protocol

/-- The maps that every program of a `Body` has. -/
def tableNames : List String := ["my_state_map", "xsk_map", "acts_map", "progs_map"]

/-- What an error of the installation says about the chain. -/
inductive InstallFault (K : Libbpf) (chain : Chain) (config : Cli) : ChainInstallError → Prop where
  | iface (h : K.ifNametoindex config.interface = none) :
      InstallFault K chain config (.ifaceLookup config.interface)
  | missingNf {l : XdpLink} (hl : l ∈ chain.links) (h : chain.nfs.lookup l.uuid = none) :
      InstallFault K chain config (.missingNf l.uuid)
  | noEntry {l : XdpLink} {f : Function} {e : EbpfFunction} (hl : l ∈ chain.links)
      (hf : chain.nfs.lookup l.uuid = some f) (he : f.ebpf = some e)
      (h : K.openMemory (myProg l.state e) = none) :
      InstallFault K chain config (.missingEbpfEntry l.uuid)
  | missingMap {l : XdpLink} {f : Function} {e : EbpfFunction} {file : ObjectFile} {name : String}
      (hl : l ∈ chain.links) (hf : chain.nfs.lookup l.uuid = some f) (he : f.ebpf = some e)
      (ho : K.openMemory (myProg l.state e) = some file) (hn : name ∈ l.mapNames)
      (h : toAsciiUppercase name ∉ file.mapNames) :
      InstallFault K chain config (.missingMap l.uuid (toAsciiUppercase name))
  | missingTable {u : Uuid} {name : String} (hn : name ∈ tableNames) :
      InstallFault K chain config (.missingMap u name)
  | update (u : Uuid) (name : String) : InstallFault K chain config (.mapUpdateFail u name)
  | badLink {l : XdpLink} {els : List LinkAction} {id : Uuid} (hl : l ∈ chain.links)
      (hs : l.state = .body els) (hid : .tailcall id ∈ els)
      (h : ∀ l' ∈ chain.links, l'.uuid = id → ¬ HasEbpf chain id) :
      InstallFault K chain config (.badNfLink l.uuid id)
  | noRoot (h : ∀ l ∈ chain.links, l.root = false) : InstallFault K chain config .missingRootNf

variable {K : Libbpf} {chain : Chain} {config : Cli} {xsks : List Fd} {err : ChainInstallError}

/-! ## The load loop -/

theorem myMaps_error {obj : Object} {uuid : Uuid} {names : List String}
    (h : myMaps obj uuid names = .error (.error err)) :
    ∃ name ∈ names, obj.map (toAsciiUppercase name) = none ∧
      err = .missingMap uuid (toAsciiUppercase name) := by
  induction names with
  | nil => cases h
  | cons name names ih =>
    unfold myMaps at h
    split at h
    · rename_i hnone
      obtain rfl := Fail.error.inj (Except.error.inj h)
      exact ⟨name, by simp, hnone, rfl⟩
    · rcases Except.bind_eq_error.1 h with h | ⟨_, _, h⟩
      · obtain ⟨n, hn, hm, he⟩ := ih h
        exact ⟨n, List.mem_cons_of_mem _ hn, hm, he⟩
      · cases h

theorem loadLink_fault {st : LoadState} {l : XdpLink} (hl : l ∈ chain.links)
    (h : loadLink K chain.nfs st l = .error (.error err)) : InstallFault K chain config err := by
  unfold loadLink at h
  cases hf : chain.nfs.lookup l.uuid with
  | none =>
    simp only [hf] at h
    obtain rfl := Fail.error.inj (Except.error.inj h)
    exact .missingNf hl hf
  | some f =>
    simp only [hf] at h
    cases he : f.ebpf with
    | none => simp [he] at h
    | some e =>
      simp only [he] at h
      cases ho : K.openMemory (myProg l.state e) with
      | none =>
        simp only [ho] at h
        obtain rfl := Fail.error.inj (Except.error.inj h)
        exact .noEntry hl hf he ho
      | some file =>
        simp only [ho] at h
        split at h
        · rcases Except.bind_eq_error.1 h with h | ⟨_, _, h⟩
          · obtain ⟨name, hn, hm, rfl⟩ := myMaps_error h
            refine .missingMap hl hf he ho hn fun hmem => ?_
            obtain ⟨m, hm'⟩ := load_map hmem st.nextFd
            rw [hm] at hm'
            cases hm'
          · cases h
        · cases h

/-! ## The table loop -/

/-- The errors of filling the tables of one program. -/
inductive TableFault (progFds : HashMap Uuid Fd) (uuid : Uuid) (els : List LinkAction) :
    ChainInstallError → Prop where
  | missingTable {name : String} (hn : name ∈ tableNames) :
      TableFault progFds uuid els (.missingMap uuid name)
  | update (name : String) : TableFault progFds uuid els (.mapUpdateFail uuid name)
  | badLink {id : Uuid} (hid : .tailcall id ∈ els) (h : progFds.lookup id = none) :
      TableFault progFds uuid els (.badNfLink uuid id)

variable {progFds : HashMap Uuid Fd} {uuid : Uuid} {els : List LinkAction}

theorem putXsk_fault {o : Object} {xsk : Fd × Nat} (h : putXsk uuid o xsk = .error (.error err)) :
    TableFault progFds uuid els err := by
  unfold putXsk at h
  split at h
  · cases h
  · obtain rfl := Fail.error.inj (Except.error.inj h)
    exact .update _

theorem putAct_fault {o : Object} {a : LinkAction} {i : Nat}
    (h : putAct uuid o a i = .error (.error err)) : TableFault progFds uuid els err := by
  unfold putAct at h
  split at h
  · obtain rfl := Fail.error.inj (Except.error.inj h)
    exact .missingTable (by simp [tableNames])
  · split at h
    · cases h
    · obtain rfl := Fail.error.inj (Except.error.inj h)
      exact .update _

theorem putProg_fault {o : Object} {a : LinkAction} {i : Nat} (ha : a ∈ els)
    (h : putProg progFds uuid o a i = .error (.error err)) : TableFault progFds uuid els err := by
  unfold putProg at h
  split at h
  · split at h
    · rename_i hnone
      obtain rfl := Fail.error.inj (Except.error.inj h)
      exact .badLink ha hnone
    · split at h
      · obtain rfl := Fail.error.inj (Except.error.inj h)
        exact .missingTable (by simp [tableNames])
      · split at h
        · cases h
        · obtain rfl := Fail.error.inj (Except.error.inj h)
          exact .update _
  · cases h

theorem patchObject_fault {numCores : UInt32} {id : Nat} {o : Object}
    (h : patchObject progFds numCores xsks uuid els id o = .error (.error err)) :
    TableFault progFds uuid els err := by
  unfold patchObject at h
  split at h
  · obtain rfl := Fail.error.inj (Except.error.inj h)
    exact .missingTable (by simp [tableNames])
  · split at h
    · obtain rfl := Fail.error.inj (Except.error.inj h)
      exact .missingTable (by simp [tableNames])
    · rcases Except.bind_eq_error.1 h with h | ⟨o', _, h⟩
      · obtain ⟨_, x, _, b, _, _, hx⟩ :=
          foldE_error (fun _ _ => True) h trivial fun _ _ _ _ _ _ _ _ => trivial
        exact putXsk_fault hx
      · obtain ⟨done, x, rest, b, hl, _, hx⟩ :=
          foldE_error (fun _ _ => True) h trivial fun _ _ _ _ _ _ _ _ => trivial
        rcases Except.bind_eq_error.1 hx with hx | ⟨_, _, hx⟩
        · exact putAct_fault hx
        · exact putProg_fault (List.mem_of_getElem? (zipIdx_pos hl).2) hx

theorem patchLink_fault {ld : LoadState} {numCores : UInt32} {tb : TableState} {x : XdpLink × Nat}
    (hL : LoadInv K chain.nfs chain.links ld) (hx : x.1 ∈ chain.links)
    (h : patchLink ld.progFds numCores xsks tb x = .error (.error err)) :
    InstallFault K chain config err := by
  unfold patchLink at h
  split at h
  · cases h
  · rename_i els hs
    split at h
    · cases h
    · rcases Except.bind_eq_error.1 h with h | ⟨_, _, h⟩
      · cases patchObject_fault h with
        | missingTable hn => exact .missingTable hn
        | update name => exact .update _ name
        | badLink hid hnone =>
          refine .badLink hx hs hid fun l' hl' hu hebpf => ?_
          obtain ⟨fd, hfd⟩ := hL.progFd hl' (hu ▸ hebpf)
          rw [hu, hnone] at hfd
          cases hfd
      · cases h

/-! ## The whole installation -/

theorem attachRoot_fault {iface : Nat} {ld : LoadState} {progs : HashMap Uuid Prog}
    (hL : LoadInv K chain.nfs chain.links ld)
    (h : attachRoot K iface ld.rootIdx progs = .error (.error err)) :
    InstallFault K chain config err := by
  unfold attachRoot at h
  split at h
  · rename_i hroot
    obtain rfl := Fail.error.inj (Except.error.inj h)
    rw [hL.root, Option.map_eq_none_iff, List.getLast?_eq_none_iff] at hroot
    refine .noRoot fun l hl => ?_
    by_contra hr
    exact List.filter_eq_nil_iff.1 hroot l hl (by simpa using hr)
  · split at h
    · split at h <;> cases h
    · cases h

/-- **Every error names what it is about.** -/
theorem installChain_fault (hnd : (chain.links.map XdpLink.uuid).Nodup)
    (h : installChain K chain config xsks = .error (.error err)) :
    InstallFault K chain config err := by
  unfold installChain at h
  split at h
  · rename_i hi
    obtain rfl := Fail.error.inj (Except.error.inj h)
    exact .iface hi
  · rcases Except.bind_eq_error.1 h with h | ⟨ld, hld, h⟩
    · obtain ⟨done, l, rest, st, hl, _, hx⟩ :=
        foldE_error (fun _ _ => True) h trivial fun _ _ _ _ _ _ _ _ => trivial
      exact loadLink_fault (by rw [hl]; simp) hx
    · have hL := loadChain_inv hnd hld
      rcases Except.bind_eq_error.1 h with h | ⟨_, _, h⟩
      · unfold seedMaps at h
        split at h <;> cases h
      · rcases Except.bind_eq_error.1 h with h | ⟨tb, _, h⟩
        · obtain ⟨done, x, rest, tb, hl, _, hx⟩ :=
            foldE_error (fun _ _ => True) h trivial fun _ _ _ _ _ _ _ _ => trivial
          exact patchLink_fault hL (List.mem_of_getElem? (zipIdx_pos hl).2) hx
        · rcases Except.bind_eq_error.1 h with h | ⟨_, _, h⟩
          · exact attachRoot_fault hL h
          · cases h

/-! ## Linked chains -/

/-- Whether an error says that the message refers to a function it does not contain. -/
def ChainInstallError.dangling : ChainInstallError → Bool
  | missingNf _ | badNfLink _ _ | missingRootNf => true
  | _ => false

/-- For a linked chain `install_chain` never returns `MissingNf`, `BadNfLink` or `MissingRootNf`. -/
theorem installChain_not_dangling (hC : Linked chain)
    (h : installChain K chain config xsks = .error (.error err)) : err.dangling = false := by
  cases installChain_fault hC.nodup h with
  | missingNf hl hnone =>
    obtain ⟨f, _, hf, _⟩ := hC.dylibs _ hl
    rw [hnone] at hf
    cases hf
  | badLink hl hs hid hno =>
    obtain ⟨l', hl', hu⟩ := hC.targets _ hl _ hs _ hid _ rfl
    exact absurd (hC.calls _ hl _ hs _ hid) (hno l' hl' hu)
  | noRoot hno =>
    obtain ⟨root, ⟨hroot, hr⟩, _⟩ := hC.root
    rw [hno root hroot] at hr
    cases hr
  | _ => rfl

/-- Userland reaches links of the chain only. -/
theorem Linked.link_of_userReach (h : Linked chain) {u : Uuid}
    (hu : UserReach chain.links u) : ∃ l ∈ chain.links, l.uuid = u := by
  cases hu with
  | upcall hl hs hu => exact h.targets _ hl _ hs _ hu u rfl
  | next _ hl hs ha hu => exact h.targets _ hl _ hs _ ha u hu

end Galette.Pulley
