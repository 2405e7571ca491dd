import Galette.Chainsmith.Chain

/-!
# Source analysis

`Chain::get_nf_return_types` reads the source of every function. It finds `packet` among the items
of the crate root and learns two things from its signature: the variants of the enum that it
returns, and the name of the type of its maps. This is syntax only, as much of it as is looked at.

What the generated wrappers work with is not the syntax but the value of a variant, cast to an
integer. The second half says what that value is. The crate of a function is compiled twice, with
another feature each time, so that the two wrappers may see different values.
-/

namespace Galette.Chainsmith

open Galette.Lib

/-! ## Syntax -/

structure PathSegment where
  ident : String
  /-- Whether the segment has arguments, like the one of `Vec<u8>`. -/
  hasArguments : Bool
  deriving DecidableEq, Repr

structure Path where
  leadingColon : Bool
  segments : List PathSegment
  deriving DecidableEq, Repr

/-- `Path::get_ident`: a path that is just a name. -/
def Path.getIdent (p : Path) : Option String :=
  match p.leadingColon, p.segments with
  | false, [seg] => if seg.hasArguments then none else some seg.ident
  | _, _ => none

/-- A type. Only paths are told apart. -/
inductive SynType where
  | path (path : Path)
  | other
  deriving DecidableEq, Repr

def SynType.path? : SynType → Option Path
  | path p => some p
  | other => none

inductive FnArg where
  | receiver
  | typed (ty : SynType)
  deriving DecidableEq, Repr

def FnArg.typed? : FnArg → Option SynType
  | typed ty => some ty
  | receiver => none

inductive ReturnType where
  | default
  | type (ty : SynType)
  deriving DecidableEq, Repr

structure ItemFn where
  ident : String
  inputs : List FnArg
  output : ReturnType
  deriving DecidableEq, Repr

/-- The crate of a function is compiled with the feature `xdp` and with the feature `user`. -/
inductive Build where
  | xdp
  | user
  deriving DecidableEq, Repr

structure Variant where
  ident : String
  discriminant : Option Int
  /-- Whether the attributes keep the variant in a build. -/
  cfg : Build → Bool

structure ItemEnum where
  ident : String
  variants : List Variant

/-- An item of the crate root. -/
inductive Item where
  | fn (item : ItemFn)
  | enum (item : ItemEnum)
  | other

def Item.fn? : Item → Option ItemFn
  | fn f => some f
  | _ => none

def Item.enum? : Item → Option ItemEnum
  | enum e => some e
  | _ => none

structure SynFile where
  items : List Item

/-! ## The analysis -/

inductive SourceParseError where
  | crateLibRsRead (name : String)
  | crateLibRsParse (name : String)
  | missingPacketFn (name : String)
  | enumNotDefinedInRoot (nfName enumName : String)
  | cantResolveReturnType (name : String)
  deriving DecidableEq, Repr

/-- The first function `packet` of a file. -/
def packetFn (file : SynFile) : Option ItemFn :=
  (file.items.filterMap Item.fn?).find? fun f => f.ident = "packet"

/-- The first enum of a name. -/
def enumItem (file : SynFile) (ident : String) : Option ItemEnum :=
  (file.items.filterMap Item.enum?).find? fun e => e.ident = ident

/-- The last name in the path of the second parameter. -/
def mapTyName (packetFn : ItemFn) : Option String :=
  ((packetFn.inputs[1]?.bind FnArg.typed?).bind SynType.path?).bind fun p =>
    p.segments.getLast?.map PathSegment.ident

/-- The return type of `packet`: nothing, or an enum that is defined in the same file. -/
def retTy (name : String) (file : SynFile) (packetFn : ItemFn) :
    Except SourceParseError NfReturnType :=
  match packetFn.output with
  | .default => .ok .empty
  | .type ty =>
    match ty.path?.bind Path.getIdent with
    | none => .error (.cantResolveReturnType name)
    | some ident =>
      match enumItem file ident with
      | none => .error (.enumNotDefinedInRoot name ident)
      | some e => .ok (.enum ident (e.variants.map Variant.ident))

def analyse (name : String) (file : SynFile) : Except SourceParseError FnAnalysis :=
  match packetFn file with
  | none => .error (.missingPacketFn name)
  | some f => (retTy name file f).bind fun ret => .ok { retTy := ret, mapTyName := mapTyName f }

/-- The crates next to a description. -/
structure Crates where
  /-- The contents of `src/lib.rs` in the crate at a path. -/
  readToString : String → Option String
  /-- `syn::parse_file`. -/
  parseFile : String → Option SynFile

/-- The parsed source of a function. -/
def loadSource (crates : Crates) (name : String) (info : Function) :
    Except SourceParseError SynFile :=
  match crates.readToString (info.path.getD name) with
  | none => .error (.crateLibRsRead name)
  | some src =>
    match crates.parseFile src with
    | none => .error (.crateLibRsParse name)
    | some file => .ok file

/-- `Chain::get_nf_return_types`. -/
def getNfReturnTypes (crates : Crates) (chain : Chain) :
    Except SourceParseError (List FnAnalysis) :=
  foldE (fun fnRetvals e => (loadSource crates e.1 e.2).bind fun file =>
      (analyse e.1 file).bind fun a => .ok (fnRetvals ++ [a]))
    [] chain.functions.entries

/-! ## Values of variants -/

/-- The values of the variants in a build, `none` for a variant that is left out of it. A variant
without a discriminant is one more than the variant before it, among those that are left. -/
def discriminants (b : Build) : Int → List Variant → List (Option Int)
  | _, [] => []
  | next, v :: vs =>
    if v.cfg b then
      some (v.discriminant.getD next) :: discriminants b (v.discriminant.getD next + 1) vs
    else none :: discriminants b next vs

/-- The type that the wrapper of a build casts to has this many bits: `as u32` or `as usize`. -/
def Build.bits : Build → Nat
  | xdp => 32
  | user => 64

/-- The cast in the wrapper of a build. -/
def Build.cast (b : Build) (d : Int) : Nat := (d % 2 ^ b.bits).toNat

/-- What the wrapper of a build makes of the variant at a position, if the build has it. -/
def ItemEnum.returned (e : ItemEnum) (b : Build) (i : Nat) : Option Nat :=
  ((discriminants b 0 e.variants)[i]?.bind id).map b.cast

/-- The variants of a build have their positions for values: a discriminant has to be the position,
up to the cast, and a variant without one has to follow a variant of the build, if not the first. A
position also has to be an index of 32 bits. -/
def Positional (b : Build) (variants : List Variant) : Prop :=
  ∀ (i : Nat) v, variants[i]? = some v → v.cfg b = true → i < 2 ^ 32 ∧
    match v.discriminant with
    | some d => b.cast d = i
    | none => ∀ j, i = j + 1 → ∃ w, variants[j]? = some w ∧ w.cfg b = true

end Galette.Chainsmith
