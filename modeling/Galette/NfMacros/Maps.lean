import Galette.Chainsmith.Generate

/-!
# The `maps` attribute

The struct of a function's maps has one field for each map, with the pair of its key and value type.
The attribute turns the type of every field into a parameter of the struct, and gives a name to
every key and value type, so that the generated wrappers can declare the maps. The names are
numbered in the order of the fields; see `Generate` for the numbers that the compiler uses.

Types are syntax here, of an arbitrary type `Ty`.
-/

namespace Galette.NfMacros

open Galette.Lib Galette.Chainsmith

/-- The type of a field, as it is written. -/
inductive FieldType (Ty : Type) where
  | tuple (elems : List Ty)
  | other (ty : Ty)

inductive Fields (Ty : Type) where
  | named (named : List (String × FieldType Ty))
  | unnamed (unnamed : List (FieldType Ty))
  | unit

/-- What the attribute makes of a struct. -/
structure Expansion (Ty : Type) where
  /-- The fields with their new types. -/
  fields : List (String × String)
  /-- The new parameters, with the trait bound `Map` over the types of the field. -/
  params : List (String × List Ty)
  aliases : List (String × Ty)

variable {Ty : Type}

def innerTypes (field : String × FieldType Ty) : Except String (List Ty) :=
  match field.2 with
  | .tuple elems => .ok elems
  | .other _ => .error ("Field " ++ field.1 ++ " is not a tuple type.")

/-- The parameter for the `i`th field. -/
def fieldParam (i : Nat) : String := "NfMapField" ++ toString i

/-- The aliases for the types of the `i`th field. -/
def redecls (i : Nat) (kvTypes : List Ty) : List (String × Ty) :=
  ((kvTypes.take 2).zip ["NfKeyTy", "NfValTy"]).map fun e => (e.2 ++ toString i, e.1)

/-- The attribute `maps`. -/
def maps : Fields Ty → Except String (Expansion Ty)
  | .named fields =>
    (foldE (fun xs e => (innerTypes e.1).bind fun types =>
      .ok (xs ++ [(e.1.1, fieldParam e.2, types)])) [] fields.zipIdx).bind fun xs => .ok
      { fields := xs.map fun x => (x.1, x.2.1)
        params := xs.map fun x => x.2
        aliases := xs.zipIdx.flatMap fun e => redecls e.2 e.1.2.2 }
  | .unnamed _ => .error "Fields on map struct must be named."
  | .unit => .error "Unit Map structs are not accepted."

/-- The type behind an alias. -/
def Expansion.aliasTy (exp : Expansion Ty) (name : String) : Option Ty := exp.aliases.lookup name

/-! ## The types of the generated statics -/

/-- The types of a map static, by the aliases that it is declared over (`MapType::define_xdp`). -/
def typeArgs (d : MapDef) : List String :=
  match d.type with
  | .array => ["NfValTy" ++ toString d.index]
  | .hashMap => ["NfKeyTy" ++ toString d.index, "NfValTy" ++ toString d.index]

/-- A map static is declared over the key and value type of a field. An array has no key type. -/
def DeclaredOver (exp : Expansion Ty) (d : MapDef) (key val : Ty) : Prop :=
  (typeArgs d).map exp.aliasTy =
    match d.type with
    | .array => [some val]
    | .hashMap => [some key, some val]

/-- The field that is declared where a name stands in the order of the names has the same value type
as the field of this name; and the same key type, if the map under the name has keys. -/
def InPlace (chain : Chain) (info : Function) (fields : List (String × Ty × Ty)) : Prop :=
  ∀ (i : Nat) name map data key val, info.maps.entries[i]? = some (name, map) →
    mapData chain name map = .ok data → (name, key, val) ∈ fields →
    ∃ other key', fields[i]? = some (other, key', val) ∧ (data.type = .hashMap → key' = key)

end Galette.NfMacros
