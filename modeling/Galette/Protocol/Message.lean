import Galette.Lib.Bytes
import Galette.Lib.Codec
import Galette.Protocol.Chain

/-!
# Messages

`chainsmith` and `pulley` talk over a WebSocket. What they say is one of two enumerations, written
in the format of `postcard`: fields and list elements one after the other, a list behind its length,
an enumeration behind the position of the variant.

How `postcard` writes the words that lengths and positions are is not part of the program; it is a
parameter, see `Postcard`.
-/

namespace Galette.Protocol

open Galette.Lib

/-- `postcard::Error`, as far as reading returns it. -/
inductive PostcardError where
  | deserializeUnexpectedEnd
  | deserializeBadVarint
  | deserializeBadBool
  | deserializeBadUtf8
  | deserializeBadOption
  /-- Refused by the type that is read: an unknown variant, or a uuid of another length. -/
  | serdeDeCustom
  deriving DecidableEq, Repr

/-- The words of `postcard`. A `usize` has 64 bits. -/
structure Postcard where
  u32 : Codec PostcardError UInt32
  u64 : Codec PostcardError UInt64
  u32_exact : u32.Exact .deserializeUnexpectedEnd
  u64_exact : u64.Exact .deserializeUnexpectedEnd

/-- The words as they are documented, in groups of seven bits. -/
def leb128 : Postcard where
  u32 := Codec.varint32 .deserializeUnexpectedEnd .deserializeBadVarint
  u64 := Codec.varint64 .deserializeUnexpectedEnd .deserializeBadVarint
  u32_exact := Codec.varint32_exact
  u64_exact := Codec.varint64_exact

namespace Postcard

variable (P : Postcard)

/-! ## Plain data -/

def u8 : Codec PostcardError UInt8 := Codec.byte .deserializeUnexpectedEnd

def bool : Codec PostcardError Bool :=
  Codec.convert (fun b => if b then 1 else 0)
    (fun b => if b = 0 then .ok false else if b = 1 then .ok true else .error .deserializeBadBool) u8

def bytes : Codec PostcardError Bytes := Codec.seq P.u64 u8

def string : Codec PostcardError String :=
  Codec.convert (fun s => s.toUTF8.data.toList)
    (fun bs => match String.fromUTF8? ⟨bs.toArray⟩ with
      | some s => .ok s
      | none => .error .deserializeBadUtf8) P.bytes

def option {α : Type} (c : Codec PostcardError α) : Codec PostcardError (Option α) :=
  Codec.option .deserializeUnexpectedEnd .deserializeBadOption c

/-- A variant without fields. -/
def unitArm {α : Type} [DecidableEq α] (a : α) : Codec.Arm PostcardError α where
  codec := Codec.unit
  inj _ := a
  proj x := if x = a then some () else none

/-- An enumeration, with its variants in order. -/
def enum {α : Type} (arms : List (Codec.Arm PostcardError α)) : Codec PostcardError α :=
  Codec.enum P.u32 .serdeDeCustom arms

/-! ## Chains -/

/-- `Uuid::as_bytes`. -/
def uuidAsBytes (u : Uuid) : Bytes := (lowBytes 16 u.toNat).reverse

/-- `Uuid::from_slice`. -/
def uuidFromSlice (bs : Bytes) : Except PostcardError Uuid :=
  if bs.length = 16 then
    .ok (BitVec.ofNat 128 (bs.reverse.foldr (fun b n => b.toNat + 2 ^ 8 * n) 0))
  else .error .serdeDeCustom

def uuid : Codec PostcardError Uuid := Codec.convert uuidAsBytes uuidFromSlice P.bytes

def linkAction : Codec PostcardError LinkAction :=
  P.enum
    [unitArm .tx,
      unitArm .drop,
      unitArm .abort,
      { codec := P.uuid
        inj := .upcall
        proj := fun a => match a with
          | .upcall id => some id
          | _ => none },
      { codec := P.uuid
        inj := .tailcall
        proj := fun a => match a with
          | .tailcall id => some id
          | _ => none },
      unitArm .pass]

def xdpLinkState : Codec PostcardError XdpLinkState :=
  P.enum
    [unitArm .tail,
      { codec := Codec.seq P.u64 P.linkAction
        inj := .body
        proj := fun s => match s with
          | .body acts => some acts
          | .tail => none }]

def xdpLink : Codec PostcardError XdpLink :=
  Codec.convert (fun l => (l.uuid, l.state, l.root, l.disableXdp, l.mapNames))
    (fun x => .ok
      { uuid := x.1
        state := x.2.1
        root := x.2.2.1
        disableXdp := x.2.2.2.1
        mapNames := x.2.2.2.2 })
    (Codec.pair P.uuid (Codec.pair P.xdpLinkState (Codec.pair bool (Codec.pair bool
      (Codec.seq P.u64 P.string)))))

def ebpfFunction : Codec PostcardError EbpfFunction :=
  Codec.convert (fun e => (e.link, e.end)) (fun x => .ok { link := x.1, «end» := x.2 })
    (Codec.pair P.bytes P.bytes)

def function : Codec PostcardError Function :=
  Codec.convert (fun f => (f.uuid, f.elf, f.ebpf))
    (fun x => .ok { uuid := x.1, elf := x.2.1, ebpf := x.2.2 })
    (Codec.pair P.uuid (Codec.pair (option P.bytes) (option P.ebpfFunction)))

def chain : Codec PostcardError Chain :=
  Codec.convert (fun c => (c.links, c.nfs)) (fun x => .ok { links := x.1, nfs := x.2 })
    (Codec.pair (Codec.seq P.u64 P.xdpLink) (Codec.hashMap P.u64 P.uuid P.function))

end Postcard

/-! ## What the two sides say -/

inductive ClientToServer where
  | requestChain (target : String)
  deriving DecidableEq, Repr

inductive ServerToClient where
  | chain (c : Chain)
  | requestChainError (msg : String)

def Postcard.clientToServer (P : Postcard) : Codec PostcardError ClientToServer :=
  P.enum
    [{ codec := P.string
       inj := .requestChain
       proj := fun | .requestChain target => some target }]

def Postcard.serverToClient (P : Postcard) : Codec PostcardError ServerToClient :=
  P.enum
    [{ codec := P.chain
       inj := .chain
       proj := fun m => match m with
         | .chain c => some c
         | _ => none },
      { codec := P.string
        inj := .requestChainError
        proj := fun m => match m with
          | .requestChainError msg => some msg
          | _ => none }]

/-- `tungstenite::protocol::Message`. -/
inductive Message where
  | text (s : String)
  | binary (b : Bytes)
  | ping (b : Bytes)
  | pong (b : Bytes)
  | close (frame : Option (UInt16 × String))
  | frame (b : Bytes)
  deriving DecidableEq, Repr

inductive DeserError where
  | nonBinaryWs
  | fail (e : PostcardError)
  deriving DecidableEq, Repr

/-- `ser`. Writing does not fail: every length is known. -/
def ser {α : Type} (c : Codec PostcardError α) (dat : α) : Message := .binary (c.encode dat)

/-- `deser`. Bytes behind the value are ignored, as `postcard::from_bytes` does. -/
def deser {α : Type} (c : Codec PostcardError α) : Message → Except DeserError (Option α)
  | .binary b =>
    match c.decode b with
    | .ok r => .ok (some r.1)
    | .error e => .error (.fail e)
  | .ping _ | .pong _ => .ok none
  | _ => .error .nonBinaryWs

/-! ## Values of a machine with 64-bit addresses -/

/-- A string of the machine: its length is a word. -/
def StringFits (s : String) : Prop := s.utf8ByteSize < 2 ^ 64

def BytesFit (b : Bytes) : Prop := b.length < 2 ^ 64

def XdpLinkState.Fits : XdpLinkState → Prop
  | tail => True
  | body acts => acts.length < 2 ^ 64

structure XdpLink.Fits (l : XdpLink) : Prop where
  state : l.state.Fits
  names : l.mapNames.length < 2 ^ 64
  name : ∀ n ∈ l.mapNames, StringFits n

structure EbpfFunction.Fits (e : EbpfFunction) : Prop where
  link : BytesFit e.link
  «end» : BytesFit e.end

structure Function.Fits (f : Function) : Prop where
  elf : ∀ b ∈ f.elf, BytesFit b
  ebpf : ∀ e ∈ f.ebpf, e.Fits

/-- A chain of the machine. -/
structure Chain.Fits (c : Chain) : Prop where
  links : c.links.length < 2 ^ 64
  link : ∀ l ∈ c.links, l.Fits
  nfs : c.nfs.entries.length < 2 ^ 64
  nf : ∀ e ∈ c.nfs.entries, e.2.Fits

def ClientToServer.Fits : ClientToServer → Prop
  | requestChain target => StringFits target

def ServerToClient.Fits : ServerToClient → Prop
  | chain c => c.Fits
  | requestChainError msg => StringFits msg

/-- Two chains with the same links and the same binaries, in whatever order a hash map has them. -/
structure SameChain (c c' : Chain) : Prop where
  links : c'.links = c.links
  nfs : Codec.SameMap c.nfs c'.nfs

/-- Two messages that say the same. -/
inductive SameMessage : ServerToClient → ServerToClient → Prop where
  | chain {c c' : Chain} (h : SameChain c c') : SameMessage (.chain c) (.chain c')
  | requestChainError (msg : String) : SameMessage (.requestChainError msg) (.requestChainError msg)

end Galette.Protocol
