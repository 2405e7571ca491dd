import Galette.Protocol.Keys
import Galette.Protocol.Message

/-!
# Keys from a store

In the mode `puf-tls` the server draws a store of challenges and answers, writes it to a file for
its clients, and makes itself a certificate from it: the certificate names a challenge in an
extension, and its signature is over the answer as well. A client that has the file can check it.

`rcgen` makes the certificate, see `Rcgen`; `fixedbitset` writes its bit sets itself, see
`BitSetFormat`.
-/

namespace Galette.Protocol

open Galette.Lib Galette.Crp

/-- `RESP_LEN`. -/
def respLen : Nat := 256 / 8

/-- An answer of the store (`[u8; RESP_LEN]`). -/
abbrev Resp := { bs : Bytes // bs.length = respLen }

/-- `KeySource` over a store in memory. -/
structure KeySource (B : Type) where
  crps : InMemory B Resp

/-! ## Files -/

/-- Two bit sets that cannot be told apart. -/
structure SameBits {B : Type} (bits : BitSetApi B) (b b' : B) : Prop where
  len : bits.len b' = bits.len b
  contains : ∀ i, bits.contains b' i = bits.contains b i

/-- How bit sets are written. -/
structure BitSetFormat {B : Type} (bits : BitSetApi B) where
  codec : Codec PostcardError B
  lawful : codec.Lawful .deserializeUnexpectedEnd (fun b => bits.len b < 2 ^ 64) (SameBits bits)

/-- An array is written without its length. -/
def resp : Codec PostcardError Resp :=
  Codec.convert Subtype.val
    (fun bs => if h : bs.length = respLen then .ok ⟨bs, h⟩ else .error .serdeDeCustom)
    (Codec.elems Postcard.u8 respLen)

section Store

variable {B : Type} {bits : BitSetApi B} (P : Postcard) (F : BitSetFormat bits)

def inMemory : Codec PostcardError (InMemory B Resp) :=
  Codec.convert (fun s => (s.map, s.used)) (fun x => .ok { map := x.1, used := x.2 })
    (Codec.pair (Codec.hashMap P.u64 P.u64 resp) F.codec)

def keySource : Codec PostcardError (KeySource B) :=
  Codec.convert KeySource.crps (fun s => .ok { crps := s }) (inMemory P F)

/-- The entries of a store can be counted in a `usize`. -/
structure StoreFits (bits : BitSetApi B) (s : InMemory B Resp) : Prop where
  map : s.map.entries.length < 2 ^ 64
  used : bits.len s.used < 2 ^ 64

/-- Two stores that cannot be told apart. -/
structure SameStore (bits : BitSetApi B) (s s' : InMemory B Resp) : Prop where
  map : Codec.SameMap s.map s'.map
  used : SameBits bits s.used s'.used

end Store

/-! ## Certificates -/

inductive DnType where
  | organizationName
  | commonName
  deriving DecidableEq, Repr

/-- What a certificate is made from. Dates are years, months and days. -/
structure CertificateParams where
  auxEncData : Option Bytes
  customExtensions : List Extension
  notBefore : Nat × Nat × Nat
  notAfter : Nat × Nat × Nat
  distinguishedName : List (DnType × String)
  subjectAltNames : List String
  deriving DecidableEq, Repr

/-- `rcgen`: a certificate from its parameters. The libraries find its custom extensions, and no
other challenge. -/
structure Rcgen {τ : Type} (X : Webpki τ) where
  certificate : CertificateParams → Bytes
  parse : ∀ params, ∃ exts, X.parse (certificate params) = some exts ∧
    exts.filter (fun v => v.oid = challengeOid) =
      params.customExtensions.filter fun v => v.oid = challengeOid

namespace KeySource

variable {B : Type} (bits : BitSetApi B)

/-- `u16::MAX`. -/
def nChallenges : UInt64 := 65535

/-- `KeySource::new_random`. -/
def newRandom (random : Nat → Resp) : KeySource B := ⟨InMemory.newRandom bits random nChallenges⟩

/-- The answers of the store, as bytes. -/
def respond (k : KeySource B) (challenge : UInt64) : Response Bytes :=
  match k.crps.respond bits challenge with
  | .unused a => .unused a.1
  | .used a => .used a.1
  | .invalid => .invalid

/-- The challenge that certificates are made for. -/
def ownChallenge : UInt64 := 1045

/-- The parameters of a certificate with an answer of the store. -/
def certificateParams (a : Bytes) : CertificateParams where
  auxEncData := some a
  customExtensions := [⟨challengeOid, u64ToLeBytes ownChallenge⟩]
  notBefore := (1975, 1, 1)
  notAfter := (4096, 1, 1)
  distinguishedName := [(.organizationName, "TruSDEd CRP Cert"), (.commonName, "Master Cert")]
  subjectAltNames := ["localhost"]

/-- `KeySource::gen_cert`, up to the making of the certificate. -/
def genCert (k : KeySource B) : Outcome Empty CertificateParams :=
  match k.respond bits ownChallenge with
  | .unused a => .ok (certificateParams a)
  | .used a => .error (.panic ("not implemented: Handling not impl'd for Used(" ++ reprStr a ++ ")"))
  | .invalid => .error (.panic "not implemented: Handling not impl'd for Invalid")

end KeySource

/-! ## The two ends -/

inductive TlsMode where
  | noTls
  | serverAuth
  | clientServerAuth
  | pufTls
  deriving DecidableEq, Repr

namespace TlsMode

def isTlsUsed : TlsMode → Bool
  | noTls => false
  | _ => true

def shouldInstallClientCert : TlsMode → Bool
  | pufTls | clientServerAuth => true
  | _ => false

def generateCrps : TlsMode → Bool
  | pufTls => true
  | _ => false

end TlsMode

/-- How the server checks its clients. -/
inductive ClientAuth (B : Type) where
  | noClientAuth
  | anyAuthenticated
  | crp (crps : KeySource B)

/-- Whether clients need a certificate. -/
def ClientAuth.demanded {B : Type} : ClientAuth B → Bool
  | .noClientAuth => false
  | _ => true

/-- The certificate of the server. -/
inductive OwnCert where
  | preShared
  | generated (params : CertificateParams)

/-- The TLS configuration of the server, and the file for its clients. -/
structure ServerTls (B : Type) where
  clientAuth : ClientAuth B
  ownCert : OwnCert
  file : Option Bytes

section Ends

variable {B : Type} (bits : BitSetApi B) (P : Postcard) (F : BitSetFormat bits)

/-- What `unwrap` makes of a missing value. -/
def unwrapNone {α : Type} : Option α → Outcome Empty α
  | some a => .ok a
  | none => .error (.panic "called `Option::unwrap()` on a `None` value")

/-- The store and the certificate that are made for a mode (`crp_dat`). -/
def crpDat (mode : TlsMode) (random : Nat → Resp) :
    Outcome Empty (Option (KeySource B × CertificateParams)) :=
  if mode.generateCrps then
    ((KeySource.newRandom bits random).genCert bits).bind fun cert =>
      .ok (some (KeySource.newRandom bits random, cert))
  else .ok none

def clientAuth (mode : TlsMode) (dat : Option (KeySource B × CertificateParams)) :
    Outcome Empty (ClientAuth B) :=
  match mode with
  | .clientServerAuth => .ok .anyAuthenticated
  | .pufTls => (unwrapNone dat).bind fun d => .ok (.crp d.1)
  | _ => .ok .noClientAuth

def ownCert (mode : TlsMode) (dat : Option (KeySource B × CertificateParams)) :
    Outcome Empty OwnCert :=
  if mode.generateCrps then (unwrapNone dat).bind fun d => .ok (.generated d.2) else .ok .preShared

/-- The start of the server in a mode, up to the connections. Without TLS there is no configuration.
The file can be written. -/
def serverTls (mode : TlsMode) (random : Nat → Resp) : Outcome Empty (Option (ServerTls B)) :=
  if mode.isTlsUsed then
    (crpDat bits mode random).bind fun dat =>
    (clientAuth mode dat).bind fun auth =>
    (ownCert mode dat).bind fun cert => .ok (some
      { clientAuth := auth
        ownCert := cert
        file := dat.map fun d => (keySource P F).encode d.1 })
  else .ok none

/-- The store of a client: that of its file, or one of its own. -/
def clientStore (file : Option Bytes) (random : Nat → Resp) : Outcome Empty (KeySource B) :=
  match file with
  | some data =>
    match (keySource P F).decode data with
    | .ok (k, _) => .ok k
    | .error _ => .error (.panic "called `Result::unwrap()` on an `Err` value")
  | none => .ok (KeySource.newRandom bits random)

end Ends

/-- A certificate that the libraries take, at a time. -/
structure InOrder {τ : Type} (X : Webpki τ) (endEntity : Bytes) (now : τ) : Prop where
  time : X.time now = true
  cert : X.endEntityCert endEntity = .ok ()
  anchor : X.trustAnchor endEntity = .ok ()

end Galette.Protocol
