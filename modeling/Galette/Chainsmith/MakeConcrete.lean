import Galette.Chainsmith.Chain
import Galette.Protocol.Chain

/-!
# Name resolution

`Chain::make_concrete` replaces the names of a chain description by uuids. It keeps one concrete
link per function and goes through the links of the description once:

* a link from `rx` makes each of its destinations the root of the chain and counts it;
* a link to exactly `["tx"]` makes its source a `Tail`;
* any other link resolves its targets to actions and stores them in the table of its source,
  unless that is a `Tail` already.

The hash map of concrete links is returned as a list, in an order that means nothing.
-/

namespace Galette.Chainsmith

open Galette.Lib Galette.Protocol

/-- A leading `!` of a target asks for an upcall; the rest is the name of the function. -/
def stripUpcall (name : String) : Bool × String :=
  match name.toList with
  | '!' :: rest => (true, String.ofList rest)
  | _ => (false, name)

/-- The action of a target. A function of that name comes first; the special names are looked at
only if there is none, and with their `!` if they have one. -/
def resolveTarget (newFns : HashMap String XdpLink) (link : Link) (name : String) :
    Except ChainBuildError LinkAction :=
  match newFns.lookup (stripUpcall name).2 with
  | some dest =>
    .ok (if (stripUpcall name).1 || dest.disableXdp then .upcall dest.uuid
      else .tailcall dest.uuid)
  | none =>
    match name with
    | "tx" => .ok .tx
    | "drop" => .ok .drop
    | "pass" => .ok .pass
    | "abort" => .ok .abort
    | _ => .error (.undefinedTarget link name)

/-- The actions of a list of targets, up to the first one that is unknown. -/
def resolveTargets (newFns : HashMap String XdpLink) (link : Link) :
    List String → Except ChainBuildError (List LinkAction)
  | [] => .ok []
  | name :: rest =>
    (resolveTarget newFns link name).bind fun a =>
      (resolveTargets newFns link rest).bind fun as => .ok (a :: as)

/-- The concrete link of a function before any link of the description is seen. A name that is not
a function of the chain panics (`unwrap`). -/
def initialLink (chain : Chain) (name : String) (uuid : Uuid) :
    Outcome ChainBuildError XdpLink :=
  match chain.functions.get? name with
  | none => .error (.panic "called `Option::unwrap()` on a `None` value")
  | some f => .ok
    { uuid := uuid
      state := .body []
      root := false
      disableXdp := f.disableXdp
      mapNames := f.maps.keys }

/-- The concrete links of all functions before any link of the description is seen. -/
def initialFns (chain : Chain) (fnMap : HashMap String Uuid) :
    Outcome ChainBuildError (HashMap String XdpLink) :=
  foldE (fun m e => (initialLink chain e.1 e.2).bind fun l => .ok (AList.insert e.1 l m))
    ∅ fnMap.entries

/-- One destination of a link from `rx`. -/
def rxDest (link : Link) (acc : HashMap String XdpLink × Nat) (dest : String) :
    Except ChainBuildError (HashMap String XdpLink × Nat) :=
  match acc.1.lookup dest with
  | none => .error (.undefinedTarget link dest)
  | some _ => .ok (HashMap.modify acc.1 dest fun l => { l with root := true }, acc.2 + 1)

/-- The new state of the source of a link: the table is replaced, but a `Tail` stays one. -/
def setDests (dests : List LinkAction) : XdpLinkState → XdpLinkState
  | .tail => .tail
  | .body _ => .body dests

/-- A link whose source is a function. -/
def bodyLink (link : Link) (newFns : HashMap String XdpLink) :
    Except ChainBuildError (HashMap String XdpLink) :=
  (if link.«to» = ["tx"] then .ok (true, []) else
    (resolveTargets newFns link link.«to»).bind fun dests => .ok (false, dests)).bind fun r =>
  match newFns.lookup link.«from» with
  | none => .error (.undefinedSource link link.«from»)
  | some _ => .ok (HashMap.modify newFns link.«from» fun l =>
      { l with state := if r.1 then .tail else setDests r.2 l.state })

/-- One link of the description. The number of destinations of `rx` is checked after each link. -/
def processLink (acc : HashMap String XdpLink × Nat) (link : Link) :
    Except ChainBuildError (HashMap String XdpLink × Nat) :=
  (if link.«from» = "rx" then foldE (rxDest link) acc link.«to» else
    (bodyLink link acc.1).bind fun newFns => .ok (newFns, acc.2)).bind fun acc' =>
  if acc'.2 > 1 then .error .tooManyRxHandlers else .ok acc'

/-- The loop over the links of the description. -/
def processLinks (chain : Chain) (newFns : HashMap String XdpLink) :
    Except ChainBuildError (HashMap String XdpLink) :=
  (foldE processLink (newFns, 0) chain.links).bind fun acc =>
  if acc.2 = 0 then .error .noRxHandler else .ok acc.1

/-- The concrete links by the name of their function. -/
def concreteFns (chain : Chain) (fnMap : HashMap String Uuid) :
    Outcome ChainBuildError (HashMap String XdpLink) :=
  (initialFns chain fnMap).bind fun newFns => (processLinks chain newFns).mapError .error

/-- The concrete links of a chain, in some order. -/
def makeConcrete (chain : Chain) (fnMap : HashMap String Uuid) :
    Outcome ChainBuildError (List XdpLink) :=
  (concreteFns chain fnMap).map HashMap.values

end Galette.Chainsmith
