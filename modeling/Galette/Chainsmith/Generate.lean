import Galette.Chainsmith.Chain
import Galette.Lib.Casing
import Galette.Protocol.Chain
import Mathlib.Data.Nat.Log

/-!
# Code generation

`Chain::write_xdp_programs` and `Chain::write_userland_programs` write one wrapper per function
around its `packet`. The wrappers are text; here they are kept as the data that is interpolated into
the templates:

* the eBPF wrapper defines one static per map of the function and hands them to `packet` by field
  name; its table of actions has as many slots as the next power of two of the number of return
  values;
* the userland wrapper takes the maps from a slice by position, `m0` for the first name and so on,
  and gives up with `usize::MAX` if the slice has another length.

The arity check of a function's link is made while its eBPF wrapper is written.
-/

namespace Galette.Chainsmith

open Galette.Lib Galette.Protocol

/-- The name of a crate as an identifier. -/
def canonName (name : String) : String :=
  String.ofList (name.toList.map fun c => if c = '-' then '_' else c)

/-- A map static of an eBPF wrapper, declared over the aliases `NfKeyTy` and `NfValTy` with number
`index`. -/
structure MapDef where
  name : String
  type : MapType
  index : Nat
  size : Nat
  canonName : String
  deriving DecidableEq, Repr

/-- `MapType::define_xdp`. -/
def MapType.defineXdp (type : MapType) (defName : String) (mapI mapSz : Nat) (canonName : String) :
    MapDef :=
  { name := defName, type := type, index := mapI, size := mapSz, canonName := canonName }

/-- The declaration of a map of a function. A shared map is the chain's map of the same name, and
panics if there is none. -/
def mapData (chain : Chain) (mapName : String) : LocalMap → Outcome WriteXdpError Map
  | .owned m => .ok m
  | .shared _ =>
    match chain.maps.get? mapName with
    | some m => .ok m
    | none => .error (.panic "called `Option::unwrap()` on a `None` value")

/-- Either the function has maps and `packet` takes them, or neither. -/
def mapsAgree (info : Function) (analysis : FnAnalysis) : Bool :=
  !(xor info.maps.entries.isEmpty analysis.mapTyName.isNone)

/-- The panic of a function for which `mapsAgree` fails. -/
def mapsPanic : Fail WriteXdpError :=
  .panic "need both or none of: map type in output, maps assigned to fn"

/-- The map statics of the eBPF wrapper, with the field each of them is handed to. -/
def xdpMaps (T : CaseTable) (chain : Chain) (name : String) (info : Function)
    (analysis : FnAnalysis) : Outcome WriteXdpError (List (String × MapDef)) :=
  if mapsAgree info analysis then
    foldE (fun defs e => (mapData chain e.1.1 e.1.2).bind fun data =>
        .ok (defs ++ [(e.1.1, data.type.defineXdp (T.toScreamingSnake e.1.1) e.2 data.size
          (canonName name))]))
      [] info.maps.entries.zipIdx
  else .error mapsPanic

/-- The link of a function, with as many targets as the function has return values. The check is
made for enums only. -/
def myLinks (chain : Chain) (name : String) (analysis : FnAnalysis) :
    Except WriteXdpError Link :=
  match chain.links.find? (fun l => l.«from» = name) with
  | none => .error (.branchMismatch name 0 analysis.retTy.len)
  | some ml =>
    match analysis.retTy with
    | .enum _ variants =>
      if variants.length ≠ ml.«to».length then
        .error (.branchMismatch name ml.«to».length variants.length)
      else .ok ml
    | .empty => .ok ml

/-- `usize::next_power_of_two`. -/
def nextPowerOfTwo (n : Nat) : Nat := 2 ^ Nat.clog 2 n

/-- The number of slots in the tables of the wrapper. -/
def neededSlots (analysis : FnAnalysis) : Nat := nextPowerOfTwo analysis.retTy.len

/-- The eBPF wrappers of a function: `main.rs` and `chain.rs` differ in the template only, and only
the latter has the tables of `slots` entries. -/
structure XdpSource where
  canonName : String
  slice : Option Nat
  maps : List (String × MapDef)
  slots : Nat
  deriving DecidableEq, Repr

/-- The eBPF wrappers of one function. -/
def writeXdpProgram (T : CaseTable) (chain : Chain) (name : String) (info : Function)
    (analysis : FnAnalysis) : Outcome WriteXdpError XdpSource :=
  (xdpMaps T chain name info analysis).bind fun maps =>
  ((myLinks chain name analysis).mapError .error).bind fun _ => .ok
    { canonName := canonName name
      slice := info.slice
      maps := maps
      slots := neededSlots analysis }

/-- The functions of a chain, each with the analysis of its source. -/
def analysed (chain : Chain) (analyses : List FnAnalysis) :
    List ((String × Function) × FnAnalysis) :=
  chain.functions.entries.zip analyses

/-- `Chain::write_xdp_programs`. -/
def writeXdpPrograms (T : CaseTable) (chain : Chain) (analyses : List FnAnalysis) :
    Outcome WriteXdpError (List (String × XdpSource)) :=
  foldE (fun srcs e => (writeXdpProgram T chain e.1.1 e.1.2 e.2).bind fun src =>
      .ok (srcs ++ [(e.1.1, src)]))
    [] (analysed chain analyses)

/-- The userland wrapper of a function: the field names in the order in which they are taken from
the slice of maps. -/
structure UserSource where
  canonName : String
  fields : List String
  deriving DecidableEq, Repr

/-- The userland wrapper of one function. -/
def writeUserlandProgram (chain : Chain) (name : String) (info : Function)
    (analysis : FnAnalysis) : Outcome WriteXdpError UserSource :=
  if mapsAgree info analysis then
    (foldE (fun fields e => (mapData chain e.1 e.2).bind fun _ => .ok (fields ++ [e.1]))
      [] info.maps.entries).bind fun fields =>
    .ok { canonName := canonName name, fields := fields }
  else .error mapsPanic

/-- `Chain::write_userland_programs`. -/
def writeUserlandPrograms (chain : Chain) (analyses : List FnAnalysis) :
    Outcome WriteXdpError (List (String × UserSource)) :=
  foldE (fun srcs e => (writeUserlandProgram chain e.1.1 e.1.2 e.2).bind fun src =>
      .ok (srcs ++ [(e.1.1, src)]))
    [] (analysed chain analyses)

/-- `usize::MAX`. -/
def usizeMax : Nat := 2 ^ 64 - 1

/-- The generated `user_nf_program`: without maps it calls `packet` right away, otherwise it binds
the maps of the slice to the fields by position. Returns the packet and the returned index. -/
def UserSource.userNfProgram {H : Type} (src : UserSource)
    (packet : Bytes → List (String × H) → Bytes × Nat) (pkt : Bytes) (maps : List H) :
    Bytes × Nat :=
  if src.fields = [] then packet pkt []
  else if maps.length = src.fields.length then packet pkt (src.fields.zip maps)
  else (pkt, usizeMax)

end Galette.Chainsmith
