import Galette.Chainsmith.Compile
import Galette.Pulley.Semantics

/-!
# From generated sources to loaded objects

Between the code generation and the runtime stand `cargo`, `rustc` and libbpf. What is relied on of
them is stated here: the object files of a function define the statics of its wrapper and no others,
with the tables of the size that was written into it; the dynamic library exports the generated
`user_nf_program`.

The rest of the module says what it means that the two crates agree about the maps.
-/

namespace Galette.Pipeline

open Galette.Lib Galette.Protocol Galette.Chainsmith Galette.Pulley

/-- The object files of the functions are built from the wrappers that were generated for them. -/
structure ObjectsOf (K : Libbpf) (T : CaseTable) (chain : Chainsmith.Chain)
    (analyses : List FnAnalysis) (data : ChainData) : Prop where
  link : ∀ name info analysis src u b e file, ((name, info), analysis) ∈ analysed chain analyses →
    writeXdpProgram T chain name info analysis = .ok src → data.nameToUuid.lookup name = some u →
    data.binaries.lookup u = some b → b.ebpf = some e → K.openMemory e.link = some file →
    file.template = .wrapperChain (UInt32.ofNat src.slots) ∧
      file.nfMaps = src.maps.map fun m => m.2.name
  «end» : ∀ name info analysis src u b e file, ((name, info), analysis) ∈ analysed chain analyses →
    writeXdpProgram T chain name info analysis = .ok src → data.nameToUuid.lookup name = some u →
    data.binaries.lookup u = some b → b.ebpf = some e → K.openMemory e.end = some file →
    file.template = .wrapper ∧ file.nfMaps = src.maps.map fun m => m.2.name

/-! ## Names of maps -/

/-- The compiler and the runtime name the maps of a chain alike. -/
structure MapsAlike (K : Libbpf) (T : CaseTable) (chain : Chainsmith.Chain) (msg : Protocol.Chain) :
    Prop where
  same : ∀ e ∈ chain.functions.entries, ∀ n ∈ e.2.maps.keys,
    T.toScreamingSnake n = toAsciiUppercase n
  distinct : ∀ e ∈ chain.functions.entries, ∀ a ∈ e.2.maps.keys, ∀ b ∈ e.2.maps.keys, a ≠ b →
    T.toScreamingSnake a ≠ T.toScreamingSnake b
  found : ∀ config xsks, ∀ l ∈ msg.links, ∀ n ∈ l.mapNames,
    installChain K msg config xsks ≠ .error (.error (.missingMap l.uuid (toAsciiUppercase n)))

/-- Names that are plain and differ from each other in more than the case of their letters. -/
def PlainNames (T : CaseTable) (names : List String) : Prop :=
  (∀ n ∈ names, T.Plain n.toList) ∧
    ∀ a ∈ names, ∀ b ∈ names, a ≠ b → toAsciiUppercase a ≠ toAsciiUppercase b

/-- Whether a field can have the name; ASCII only. -/
def isFieldName (s : String) : Bool :=
  match s.toList with
  | [] => false
  | c :: cs => c.isAlpha && cs.all fun d => d.isAlphanum || d = '_'

/-! ## Maps in userland -/

/-- The slice of maps that a function gets in userland: one map for each of its names, the one of
the static with that name and of no other, in the order in which the wrapper takes them; so the
wrapper calls `packet`. -/
structure MapsBound (T : CaseTable) (st : ChainState) (u : Uuid) (info : Chainsmith.Function)
    (src : UserSource) : Prop where
  fields : src.fields = info.maps.keys
  length : (mapsOf st u).length = info.maps.keys.length
  bound : ∀ (i : Nat) n, info.maps.keys[i]? = some n → ∃ prog fd, st.linkedEbpfs.lookup u = some prog ∧
    prog.object.map (T.toScreamingSnake n) = some fd ∧ (mapsOf st u)[i]? = some ⟨fd⟩
  distinct : (mapsOf st u).Nodup
  runs : ∀ packet pkt, src.userNfProgram packet pkt (mapsOf st u) =
    packet pkt (src.fields.zip (mapsOf st u))

/-- Every function that userland can run gets its own maps. -/
def UserMapsBound (T : CaseTable) (chain : Chainsmith.Chain) (analyses : List FnAnalysis)
    (data : ChainData) (links : List XdpLink) (st : ChainState) : Prop :=
  ∀ name info analysis src u, ((name, info), analysis) ∈ analysed chain analyses →
    writeUserlandProgram chain name info analysis = .ok src →
    data.nameToUuid.lookup name = some u → UserReach links u → MapsBound T st u info src

end Galette.Pipeline
