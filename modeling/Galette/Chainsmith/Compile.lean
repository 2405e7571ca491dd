import Galette.Chainsmith.Generate
import Galette.Chainsmith.MakeConcrete

/-!
# The build

`Chain::compile_xdp_binaries` and `Chain::compile_userland_binaries` run `cargo` and collect the
files it wrote. Each function gets a fresh uuid; `fn_map` maps names to uuids and `binaries` maps
uuids to the binaries. This is the path of every build that is not for Windows.

The build tools, the file system and the random numbers are outside of the program; they are
collected in `BuildEnv`.
-/

namespace Galette.Chainsmith

open Galette.Lib Galette.Protocol

/-- What the build takes from outside. -/
structure BuildEnv where
  /-- `Uuid::new_v4()`, by the number of the call. -/
  newV4 : Nat → Uuid
  /-- `cargo bpf build`. -/
  cargoBpf : Except CompileError Unit
  /-- `cargo build`. -/
  cargoBuild : Except CompileError Unit
  /-- The contents of a file below `target`. -/
  read : List String → Option Bytes
  /-- The target triple that the compiler itself was built for. -/
  host : String

/-- The first `n` uuids that are drawn differ from each other. -/
def FreshUuids (env : BuildEnv) (n : Nat) : Prop :=
  ∀ i j, i < n → j < n → env.newV4 i = env.newV4 j → i = j

/-- `target/bpf/programs/NAME/NAME.elf`. -/
def elfPath (name : String) : List String := ["bpf", "programs", name, name ++ ".elf"]

/-- The path of the dynamic library of a function. -/
def dylibPath (target : Option String) (name : String) : List String :=
  target.toList ++ ["release", "lib" ++ canonName name ++ "_user.so"]

/-- The contents of a binary, or the error that names the function. -/
def readElf (env : BuildEnv) (name : String) (path : List String) : Outcome CompileError Bytes :=
  match env.read path with
  | some b => .ok b
  | none => .error (.error (.readElf name))

/-- The maps that the build fills, and the number of uuids drawn so far. -/
structure BuildState where
  binaries : HashMap Uuid Protocol.Function := ∅
  fnMap : HashMap String Uuid := ∅
  drawn : Nat := 0

/-- The eBPF payload of a function. -/
def readEbpf (env : BuildEnv) (name : String) (props : Function) :
    Outcome CompileError (Option EbpfFunction) :=
  if props.disableXdp then .ok none
  else
    (readElf env name (elfPath name)).bind fun «end» =>
    (readElf env name (elfPath (name ++ "-chain"))).bind fun link =>
    .ok (some { link := link, «end» := «end» })

/-- One function in `compile_xdp_binaries`. -/
def compileXdpBinary (env : BuildEnv) (st : BuildState) (e : String × Function) :
    Outcome CompileError BuildState :=
  (readEbpf env e.1 e.2).bind fun ebpf => .ok
    { binaries := AList.insert (env.newV4 st.drawn)
        { uuid := env.newV4 st.drawn, elf := none, ebpf := ebpf } st.binaries
      fnMap := AList.insert e.1 (env.newV4 st.drawn) st.fnMap
      drawn := st.drawn + 1 }

/-- `Chain::compile_xdp_binaries`. -/
def compileXdpBinaries (env : BuildEnv) (chain : Chain) : Outcome CompileError BuildState :=
  (env.cargoBpf.mapError .error).bind fun _ =>
  foldE (compileXdpBinary env) {} chain.functions.entries

/-- The uuid of a name, drawn if there is none yet (`entry(..).or_insert_with(..)`). -/
def uuidEntry (env : BuildEnv) (st : BuildState) (name : String) : Uuid × BuildState :=
  match st.fnMap.lookup name with
  | some uuid => (uuid, st)
  | none => (env.newV4 st.drawn,
      { st with fnMap := AList.insert name (env.newV4 st.drawn) st.fnMap, drawn := st.drawn + 1 })

/-- Store the dynamic library of a function next to its eBPF payload. -/
def setDylib (uuid : Uuid) (dylib : Bytes) (binaries : HashMap Uuid Protocol.Function) :
    HashMap Uuid Protocol.Function :=
  AList.insert uuid
    { (binaries.lookup uuid).getD { uuid := uuid, elf := none, ebpf := none } with elf := some dylib }
    binaries

/-- One function in `compile_userland_binaries`. -/
def compileUserlandBinary (env : BuildEnv) (target : Option String) (st : BuildState)
    (name : String) : Outcome CompileError BuildState :=
  (readElf env name (dylibPath target name)).bind fun dylib => .ok
    { (uuidEntry env st name).2 with
      binaries := setDylib (uuidEntry env st name).1 dylib (uuidEntry env st name).2.binaries }

/-- Whether the compiler knows a linker for the target; it panics otherwise. -/
def knownTarget (env : BuildEnv) : Option String → Bool
  | none => true
  | some t => t = env.host || t = "aarch64-unknown-linux-gnu"

/-- `Chain::compile_userland_binaries`. -/
def compileUserlandBinaries (env : BuildEnv) (chain : Chain) (target : Option String)
    (st : BuildState) : Outcome CompileError BuildState :=
  if knownTarget env target then
    (env.cargoBuild.mapError .error).bind fun _ =>
    foldE (compileUserlandBinary env target) st chain.functions.keys
  else .error (.panic "Cannot currently cross compile to this target.")

/-- Both builds, one after the other. -/
def compileBinaries (env : BuildEnv) (chain : Chain) (target : Option String) :
    Outcome CompileError BuildState :=
  (compileXdpBinaries env chain).bind (compileUserlandBinaries env chain target)

/-! ## The whole compiler -/

inductive CompileChainError where
  | write (e : WriteXdpError)
  | compile (e : CompileError)
  | build (e : ChainBuildError)
  deriving DecidableEq, Repr

/-- What the compiler makes of a chain description. -/
structure ChainData where
  binaries : HashMap Uuid Protocol.Function
  nameToUuid : HashMap String Uuid
  links : List XdpLink

/-- `compile_chain`, from the parsed description and the analyses of its functions. -/
def compileChain (T : CaseTable) (env : BuildEnv) (target : Option String) (chain : Chain)
    (nfReturnTypes : List FnAnalysis) : Outcome CompileChainError ChainData :=
  ((writeXdpPrograms T chain nfReturnTypes).mapError (Fail.map .write)).bind fun _ =>
  ((compileXdpBinaries env chain).mapError (Fail.map .compile)).bind fun st =>
  ((writeUserlandPrograms chain nfReturnTypes).mapError (Fail.map .write)).bind fun _ =>
  ((compileUserlandBinaries env chain target st).mapError (Fail.map .compile)).bind fun st =>
  ((makeConcrete chain st.fnMap).mapError (Fail.map .build)).bind fun links => .ok
    { binaries := st.binaries
      nameToUuid := st.fnMap
      links := links }

/-- `ChainData::into_single_message`. -/
def ChainData.intoSingleMessage (data : ChainData) : Protocol.Chain where
  links := data.links
  nfs := data.binaries

end Galette.Chainsmith
