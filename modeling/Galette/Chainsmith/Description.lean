import Galette.Chainsmith.MakeConcrete

/-!
# Reading a chain description

What a description says about a function, without resolving its names: where the packets enter, and
what follows a function. Of several links from one function the last one counts, unless one of them
leads to `tx` alone.
-/

namespace Galette.Chainsmith

open Galette.Lib Galette.Protocol

/-- The destinations of the links from `rx`. -/
def rxDests (links : List Link) : List String :=
  (links.filter fun l => l.«from» = "rx").flatMap Link.to

def linksOf (links : List Link) (name : String) : List Link :=
  links.filter fun l => l.«from» = name && l.«from» ≠ "rx"

/-- The targets of the last link of a function. -/
def lastTargets (chain : Chain) (name : String) : List String :=
  ((linksOf chain.links name).getLast?.map Link.to).getD []

/-- The targets of a function, one for each value it can return; `none` if it transmits every
packet. -/
def followers (chain : Chain) (name : String) : Option (List String) :=
  if (linksOf chain.links name).any fun l => l.«to» = ["tx"] then none
  else some (lastTargets chain name)

/-- The action of a special name. -/
def specialAction : String → Option LinkAction
  | "tx" => some .tx
  | "drop" => some .drop
  | "pass" => some .pass
  | "abort" => some .abort
  | _ => none

/-- The descriptions that can be resolved: the links from `rx` have one destination, all other
links start at a function, and lead to functions or special names. A link to `tx` alone is not
resolved. -/
structure Resolvable (chain : Chain) : Prop where
  rx : ∃ root, rxDests chain.links = [root] ∧ root ∈ chain.functions.keys
  sources : ∀ l ∈ chain.links, l.«from» ≠ "rx" → l.«from» ∈ chain.functions.keys
  targets : ∀ l ∈ chain.links, l.«from» ≠ "rx" → l.«to» ≠ ["tx"] → ∀ t ∈ l.«to»,
    (stripUpcall t).2 ∈ chain.functions.keys ∨ t ∈ ["tx", "drop", "pass", "abort"]

end Galette.Chainsmith
