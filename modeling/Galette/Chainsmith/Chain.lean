import Galette.Lib.Maps
import Galette.Lib.Outcome
import Mathlib.Data.String.Basic

/-!
# Chain descriptions

The contents of a `chain.toml`: the functions of the chain, the links between them by name, and the
maps that several functions may share. A link from the special name `rx` picks the function that
receives the packets.
-/

namespace Galette.Chainsmith

open Galette.Lib

inductive MapType where
  | array
  | hashMap
  deriving DecidableEq, Repr

/-- A map that a function owns, or that the chain shares. -/
structure Map where
  type : MapType
  size : Nat
  deriving DecidableEq, Repr

/-- A map of a function: its own, or the chain's map of the same name. -/
inductive LocalMap where
  | shared (name : String)
  | owned (map : Map)
  deriving DecidableEq, Repr

/-- A function of the chain. -/
structure Function where
  /-- Path to the crate; `none` stands for the function's name. -/
  path : Option String
  disableXdp : Bool
  slice : Option Nat
  maps : BTreeMap String LocalMap

/-- What follows a function: one target for each value it can return. -/
structure Link where
  «from» : String
  «to» : List String
  deriving DecidableEq, Repr

/-- A chain description. -/
structure Chain where
  functions : BTreeMap String Function
  links : List Link
  maps : BTreeMap String Map

/-- What `packet` returns: a value of an enum with the given variants, or nothing. -/
inductive NfReturnType where
  | enum (name : String) (variants : List String)
  | empty
  deriving DecidableEq, Repr

/-- The number of values that `packet` can return. -/
def NfReturnType.len : NfReturnType → Nat
  | enum _ v => v.length
  | empty => 1

/-- What the compiler learns from the source of a function. -/
structure FnAnalysis where
  retTy : NfReturnType
  /-- The type of the second parameter of `packet`, if it has one. -/
  mapTyName : Option String
  deriving DecidableEq, Repr

inductive WriteXdpError where
  | branchMismatch (nf : String) (givenBranches neededBranches : Nat)
  deriving DecidableEq, Repr

inductive CompileError where
  | callCompile
  | doCompile
  | readElf (name : String)
  deriving DecidableEq, Repr

inductive ChainBuildError where
  | noRxHandler
  | tooManyRxHandlers
  | undefinedSource (link : Link) (name : String)
  | undefinedTarget (link : Link) (name : String)
  deriving DecidableEq, Repr

end Galette.Chainsmith
