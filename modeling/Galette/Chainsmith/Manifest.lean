import Galette.Chainsmith.Compile

/-!
# Cargo manifests

The compiler lets `cargo` build the wrappers. The eBPF wrappers are the binaries of a single
package, two for each function: one is called like the function, the other has `-chain` added to it.
A userland wrapper is the library of a package of its own. Where `cargo` leaves its output depends
on these names alone; see `Compile` for where the output is looked for.

A target is known by its source file, which belongs to one function.
-/

namespace Galette.Chainsmith

open Galette.Lib Galette.Protocol

/-! ## Targets -/

/-- A binary, or the library of a package. -/
inductive TargetKind where
  | bin
  | lib
  deriving DecidableEq, Repr

/-- Something for `cargo` to build. -/
structure CargoTarget where
  kind : TargetKind
  /-- The name of the binary, or of the package. -/
  name : String
  /-- The source file, below `tmp`. -/
  src : List String
  deriving DecidableEq, Repr

/-- The files that `write_xdp_programs` and `write_userland_programs` write for a function. -/
def mainRs (name : String) : List String := ["xdp", "src", name, "main.rs"]

@[inherit_doc mainRs]
def chainRs (name : String) : List String := ["xdp", "src", name, "chain.rs"]

@[inherit_doc mainRs]
def libRs (name : String) : List String := ["user", name, "src", "lib.rs"]

/-- Where `cargo` leaves the output, below `target`. -/
def CargoTarget.output (target : Option String) (t : CargoTarget) : List String :=
  match t.kind with
  | .bin => elfPath t.name
  | .lib => target.toList ++ ["release", "lib" ++ canonName t.name ++ ".so"]

/-! ## Manifests -/

/-- A dependency on the crate of a function. -/
structure Dependency where
  name : String
  path : String
  features : List String
  deriving DecidableEq, Repr

/-- A manifest, as far as it depends on the chain. -/
structure CargoToml where
  deps : List Dependency
  targets : List CargoTarget
  deriving DecidableEq, Repr

/-- The functions that have eBPF wrappers. -/
def xdpFunctions (chain : Chain) : List (String × Function) :=
  chain.functions.entries.filter fun e => !e.2.disableXdp

/-- `Chain::generate_xdp_cargo_toml`. -/
def generateXdpCargoToml (chain : Chain) : CargoToml where
  deps := (xdpFunctions chain).map fun e =>
    { name := e.1, path := "../../" ++ e.2.path.getD e.1, features := ["xdp"] }
  targets := (xdpFunctions chain).flatMap fun e =>
    [{ kind := .bin, name := e.1, src := mainRs e.1 },
     { kind := .bin, name := e.1 ++ "-chain", src := chainRs e.1 }]

/-- The manifest of a userland wrapper, as `Chain::write_userland_programs` writes it. -/
def userCargoToml (e : String × Function) : CargoToml where
  deps := [{ name := e.1, path := "../../../" ++ e.2.path.getD e.1, features := ["user"] }]
  targets := [{ kind := .lib, name := e.1 ++ "-user", src := libRs e.1 }]

/-- The members of the userland workspace (`Chain::generate_userland_cargo_toml`), with their
manifests. -/
def userWorkspace (chain : Chain) : List CargoToml := chain.functions.entries.map userCargoToml

/-- All targets of a chain. -/
def declaredTargets (chain : Chain) : List CargoTarget :=
  (generateXdpCargoToml chain).targets ++ (userWorkspace chain).flatMap CargoToml.targets

/-! ## Reading the output -/

/-- The name of the file that `compile_userland_binaries` reads for a function. -/
def dylibName (name : String) : String := "lib" ++ canonName name ++ "_user.so"

/-- The files that are read for a function, each with the source that it should be built from. -/
def readsOf (target : Option String) (e : String × Function) : List (List String × List String) :=
  (if e.2.disableXdp then []
    else [(elfPath e.1, mainRs e.1), (elfPath (e.1 ++ "-chain"), chainRs e.1)]) ++
  [(dylibPath target e.1, libRs e.1)]

/-- What is found below `target` was built from one of the sources: `built` is the output for a
source. -/
def CargoBuilt (env : BuildEnv) (chain : Chain) (target : Option String)
    (built : List String → Bytes) : Prop :=
  ∀ path bytes, env.read path = some bytes →
    ∃ t ∈ declaredTargets chain, t.output target = path ∧ built t.src = bytes

/-- The outputs for different functions are kept apart: no two binaries share a name, no two
libraries share a file, and every file that is read for a function is the output of one
target, built from the wrapper of this function. So what is read are the builds of the
function's own wrappers. -/
structure ArtefactsApart (chain : Chain) (target : Option String) : Prop where
  bins : ((generateXdpCargoToml chain).targets.map CargoTarget.name).Nodup
  dylibs : (chain.functions.keys.map dylibName).Nodup
  reads : ∀ e ∈ chain.functions.entries, ∀ r ∈ readsOf target e, ∃ t,
    ((declaredTargets chain).filter fun t => t.output target = r.1) = [t] ∧ t.src = r.2
  ebpf : ∀ env built, CargoBuilt env chain target built → ∀ e ∈ chain.functions.entries, ∀ ebpf,
    readEbpf env e.1 e.2 = .ok (some ebpf) →
    ebpf.end = built (mainRs e.1) ∧ ebpf.link = built (chainRs e.1)
  elf : ∀ env built, CargoBuilt env chain target built → ∀ e ∈ chain.functions.entries, ∀ bytes,
    readElf env e.1 (dylibPath target e.1) = .ok bytes → bytes = built (libRs e.1)

/-- The names of the functions stay apart in the names that are derived from them: no function with
eBPF wrappers is called like another one with `-chain` added to it, and no two names differ in `-`
and `_` only. -/
structure NamesApart (chain : Chain) : Prop where
  chained : ∀ a ∈ xdpFunctions chain, ∀ b ∈ xdpFunctions chain, b.1 ≠ a.1 ++ "-chain"
  canon : ∀ a ∈ chain.functions.keys, ∀ b ∈ chain.functions.keys, canonName a = canonName b → a = b

end Galette.Chainsmith
