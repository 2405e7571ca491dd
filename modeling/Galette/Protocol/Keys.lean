import Galette.Crp.Store
import Galette.Lib.Bytes
import Galette.Protocol.Chain

/-!
# Certificates with a challenge

The two TLS verifiers of the `protocol` crate. A certificate may carry a challenge in an
extension of its own; such a certificate is its own trust anchor, and its signature is checked
together with the answer that the local store has for the challenge. All other certificates are
left to a base verifier.

`x509_parser`, `webpki` and the base verifier are outside of the program. What they say about a
certificate is collected in `Webpki`; nothing is relied on about it.
-/

namespace Galette.Protocol

open Galette.Lib Galette.Crp

/-- `CHALLENGE_OID`. -/
def challengeOid : List Nat := [1, 3, 6, 1, 5, 5, 7, 13, 0]

structure Extension where
  oid : List Nat
  value : Bytes
  deriving DecidableEq, Repr

/-- `webpki::Error`, with the errors that `pki_error` tells apart. -/
inductive WebpkiError where
  | badDer
  | badDerTime
  | invalidSignatureForPublicKey
  | unsupportedSignatureAlgorithm
  | unsupportedSignatureAlgorithmForPublicKey
  /-- Any other error, by its text. -/
  | other (display : String)
  deriving DecidableEq, Repr

/-- The errors of `rustls` that the verifiers return. -/
inductive RustlsError where
  | invalidCertificateEncoding
  | invalidCertificateSignature
  | invalidCertificateSignatureType
  | invalidCertificateData (msg : String)
  | failedToGetCurrentTime
  | unsupportedNameType
  /-- Errors of the base verifier. -/
  | general (msg : String)
  deriving DecidableEq, Repr

/-- `pki_error`. -/
def pkiError : WebpkiError → RustlsError
  | .badDer | .badDerTime => .invalidCertificateEncoding
  | .invalidSignatureForPublicKey => .invalidCertificateSignature
  | .unsupportedSignatureAlgorithm | .unsupportedSignatureAlgorithmForPublicKey =>
    .invalidCertificateSignatureType
  | .other display => .invalidCertificateData ("invalid peer certificate: " ++ display)

inductive ServerName where
  | dnsName (name : String)
  | ipAddress
  deriving DecidableEq, Repr

/-- What the libraries say about certificates; `τ` is the system time. -/
structure Webpki (τ : Type) where
  /-- `x509_parser::parse_x509_certificate`: the extensions of the certificate, in order. -/
  parse : Bytes → Option (List Extension)
  /-- `Time::try_from`. -/
  time : τ → Bool
  /-- `EndEntityCert::try_from`. -/
  endEntityCert : Bytes → Except WebpkiError Unit
  /-- `TrustAnchor::try_from_cert_der`. -/
  trustAnchor : Bytes → Except WebpkiError Unit
  /-- `verify_is_valid_tls_client_cert_with_aux_data`, with the certificate as its trust anchor. -/
  verifyClient : Bytes → τ → Bytes → Except WebpkiError Unit
  /-- `verify_is_valid_tls_server_cert_with_aux_data`, with the certificate as its trust anchor. -/
  verifyServer : Bytes → τ → Bytes → Except WebpkiError Unit
  /-- `DnsNameRef::try_from_ascii_str`. -/
  dnsNameRef : String → Bool
  /-- `verify_is_valid_for_dns_name`. -/
  verifyDnsName : Bytes → String → Except WebpkiError Unit

/-- A call of a verifier: whether it consults the base verifier, and what it returns. -/
structure Verification where
  consulted : Bool
  result : Outcome RustlsError Unit

/-- A result of `webpki`, with its error as one of `rustls`. -/
def pkiResult (r : Except WebpkiError Unit) : Outcome RustlsError Unit :=
  r.mapError fun e => .error (pkiError e)

/-- The challenge of a certificate: the value of the first extension with the identifier, if that
has eight bytes. -/
def findChallenge (exts : List Extension) : Option UInt64 :=
  ((exts.find? fun v => v.oid = challengeOid).map Extension.value).bind fun v =>
    if v.length = 8 then some (u64FromLeBytes v) else none

variable {τ : Type}

/-- The steps that both verifiers take before they check the signature. -/
def localResponse (X : Webpki τ) (respond : UInt64 → Response Bytes) (endEntity : Bytes) (now : τ)
    (challenge : UInt64) : Outcome RustlsError Bytes :=
  if X.time now then
    (pkiResult (X.endEntityCert endEntity)).bind fun _ =>
    match respond challenge with
    | .unused resp =>
      match X.trustAnchor endEntity with
      | .ok _ => .ok resp
      | .error _ => .error (.panic "called `Result::unwrap()` on an `Err` value")
    | _ => .error (.panic "not yet implemented")
  else .error (.error .failedToGetCurrentTime)

/-- A verifier that checks certificates with a challenge by `check`, and leaves all others to its
base. -/
def verifyCert (X : Webpki τ) (respond : UInt64 → Response Bytes) (base : Except RustlsError Unit)
    (endEntity : Bytes) (now : τ) (check : Bytes → Outcome RustlsError Unit) : Verification :=
  match X.parse endEntity with
  | none => { consulted := false, result := .error (.error .invalidCertificateEncoding) }
  | some exts =>
    match findChallenge exts with
    | none => { consulted := true, result := base.mapError .error }
    | some challenge =>
      { consulted := false, result := (localResponse X respond endEntity now challenge).bind check }

/-- The signature check of `verify_client_cert`. -/
def checkClient (X : Webpki τ) (endEntity : Bytes) (now : τ) (resp : Bytes) :
    Outcome RustlsError Unit :=
  pkiResult (X.verifyClient endEntity now resp)

/-- The signature and name check of `verify_server_cert`. -/
def checkServer (X : Webpki τ) (endEntity : Bytes) (serverName : ServerName) (now : τ)
    (resp : Bytes) : Outcome RustlsError Unit :=
  match serverName with
  | .ipAddress => .error (.error .unsupportedNameType)
  | .dnsName name =>
    (pkiResult (X.verifyServer endEntity now resp)).bind fun _ =>
    if X.dnsNameRef name then pkiResult (X.verifyDnsName endEntity name)
    else .error (.panic "aaaa: InvalidDnsNameError")

/-- `CrpClientTlsVerifier::verify_client_cert`. -/
def verifyClientCert (X : Webpki τ) (respond : UInt64 → Response Bytes)
    (base : Bytes → List Bytes → τ → Except RustlsError Unit) (endEntity : Bytes)
    (intermediates : List Bytes) (now : τ) : Verification :=
  verifyCert X respond (base endEntity intermediates now) endEntity now (checkClient X endEntity now)

/-- `CrpServerTlsVerifier::verify_server_cert`. -/
def verifyServerCert (X : Webpki τ) (respond : UInt64 → Response Bytes)
    (base : Bytes → List Bytes → ServerName → List Bytes → Bytes → τ → Except RustlsError Unit)
    (endEntity : Bytes) (intermediates : List Bytes) (serverName : ServerName) (scts : List Bytes)
    (ocspResponse : Bytes) (now : τ) : Verification :=
  verifyCert X respond (base endEntity intermediates serverName scts ocspResponse now) endEntity now
    (checkServer X endEntity serverName now)

/-! ## Failing closed -/

/-- A challenge of eight bytes that the store answers, and that is not used up. -/
def Answered (respond : UInt64 → Response Bytes) (value : Bytes) : Prop :=
  value.length = 8 ∧ ∃ resp, respond (u64FromLeBytes value) = .unused resp

/-- A verification that ends without panic, rejects every certificate with a challenge that is not
answered, and consults the base verifier only without a challenge. -/
structure FailsClosed (exts : Option (List Extension)) (respond : UInt64 → Response Bytes)
    (v : Verification) : Prop where
  returns : ∀ msg, v.result ≠ .error (.panic msg)
  rejects : ∀ es, exts = some es → ∀ e ∈ es, e.oid = challengeOid → ¬ Answered respond e.value →
    ∃ err, v.result = .error (.error err)
  delegates : v.consulted = true → ∀ es, exts = some es → ∀ e ∈ es, e.oid ≠ challengeOid

/-- All challenges of a certificate are answered. -/
def AllAnswered (respond : UInt64 → Response Bytes) (exts : List Extension) : Prop :=
  ∀ e ∈ exts, e.oid = challengeOid → Answered respond e.value

/-- Certificates whose first challenge is treated well: it has eight bytes; and if the libraries let
the certificate get to the store, the store answers, the certificate is a trust anchor, and `safe`
holds of the rest. -/
def SafeChallenge (X : Webpki τ) (respond : UInt64 → Response Bytes) (endEntity : Bytes) (now : τ)
    (safe : List Extension → Bytes → Prop) : Prop :=
  ∀ exts e, X.parse endEntity = some exts → exts.find? (fun v => v.oid = challengeOid) = some e →
    e.value.length = 8 ∧
      (X.time now = true → X.endEntityCert endEntity = .ok () →
        ∃ resp, respond (u64FromLeBytes e.value) = .unused resp ∧
          X.trustAnchor endEntity = .ok () ∧ safe exts resp)

/-- The rest for a client: if the signature is valid, all challenges are answered. -/
def ClientSafe (X : Webpki τ) (respond : UInt64 → Response Bytes) (endEntity : Bytes) (now : τ) :
    Prop :=
  SafeChallenge X respond endEntity now fun exts resp =>
    X.verifyClient endEntity now resp = .ok () → AllAnswered respond exts

/-- The rest for a server: if it is known by a DNS name and the signature is valid, the name is one
for `webpki`; and if the certificate is valid for it, all challenges are answered. -/
def ServerSafe (X : Webpki τ) (respond : UInt64 → Response Bytes) (endEntity : Bytes)
    (serverName : ServerName) (now : τ) : Prop :=
  SafeChallenge X respond endEntity now fun exts resp =>
    ∀ name, serverName = .dnsName name → X.verifyServer endEntity now resp = .ok () →
      X.dnsNameRef name = true ∧
        (X.verifyDnsName endEntity name = .ok () → AllAnswered respond exts)

end Galette.Protocol
