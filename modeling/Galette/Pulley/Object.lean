import Galette.Protocol.Chain

/-!
# eBPF objects

A compiled wrapper as libbpf sees it: which template it was made from, what its `packet` computes,
and the maps it defines. Loading an object creates its program and its maps in the kernel, each
behind a file descriptor of its own; the tables start out empty (zero, for an array).

`acts_map`, `progs_map`, `my_state_map` and `xsk_map` are the tables of `xdp_wrapper_chain`. Their
contents are part of an `Object`; the contents of a function's own maps are not modelled, only which
map is meant.
-/

namespace Galette.Pulley

open Galette.Protocol

abbrev Fd := Nat

/-- A handle to a kernel map. -/
structure RawMap where
  fd : Fd
  deriving DecidableEq, Repr

/-- The template of a wrapper: `xdp_wrapper` always transmits, `xdp_wrapper_chain` looks the action
up in tables with the given number of slots. -/
inductive Template where
  | wrapper
  | wrapperChain (slots : UInt32)
  deriving DecidableEq, Repr

/-- A compiled wrapper. -/
structure ObjectFile where
  template : Template
  /-- The function's `packet`: the packet it leaves behind and the index it returns. -/
  packet : Bytes → Bytes × UInt32
  /-- The statics defined for the function's own maps. -/
  nfMaps : List String

/-- The names of all maps of an object. -/
def ObjectFile.mapNames (file : ObjectFile) : List String :=
  match file.template with
  | .wrapper => "my_id_map" :: file.nfMaps
  | .wrapperChain _ => "acts_map" :: "progs_map" :: "my_state_map" :: "xsk_map" :: file.nfMaps

/-- The number of slots of `acts_map` and `progs_map`. -/
def ObjectFile.slots (file : ObjectFile) : Nat :=
  match file.template with
  | .wrapper => 0
  | .wrapperChain slots => slots.toNat

/-- The number of slots of `xsk_map`. -/
def xskSlots : Nat := 8

/-- A program id, as it is written in front of an upcalled packet. -/
abbrev ProgId := UInt32

/-- The single entry of `my_state_map`. -/
structure DataplaneState where
  progId : ProgId
  numCores : UInt32
  deriving DecidableEq, Repr

structure Object where
  file : ObjectFile
  /-- The program `outer_xdp_sock_prog`. -/
  fd : Fd
  maps : List (String × Fd)
  actsMap : Nat → UInt8
  progsMap : Nat → Option Fd
  myStateMap : DataplaneState
  xskMap : Nat → Option Fd

namespace Object

/-- Create the program and the maps in the kernel. The descriptors are taken from `nextFd` on. -/
def load (file : ObjectFile) (nextFd : Fd) : Object where
  file := file
  fd := nextFd
  maps := file.mapNames.zipIdx (nextFd + 1)
  actsMap := fun _ => 0
  progsMap := fun _ => none
  myStateMap := { progId := 0, numCores := 0 }
  xskMap := fun _ => none

/-- The number of descriptors that `load` uses. -/
def fdCount (file : ObjectFile) : Nat := 1 + file.mapNames.length

def map (o : Object) (name : String) : Option Fd :=
  (o.maps.find? fun m => m.1 = name).map Prod.snd

/-- Whether the object has a map of that name. -/
def hasMap (o : Object) (name : String) : Bool := (o.map name).isSome

/-- `acts_map.get(i)`: nothing outside of the table. -/
def actsGet (o : Object) (i : UInt32) : Option UInt8 :=
  if i.toNat < o.file.slots then some (o.actsMap i.toNat) else none

end Object

/-- A program, before and after it is attached to the interface. -/
inductive Prog where
  | linked (o : Object) (iface : Nat)
  | unlinked (o : Object)

/-- `Prog::object`. -/
def Prog.object : Prog → Object
  | linked o _ => o
  | unlinked o => o

/-- Replace the object (`Prog::object_mut`). -/
def Prog.setObject : Prog → Object → Prog
  | linked _ i, o => linked o i
  | unlinked _, o => unlinked o

end Galette.Pulley
