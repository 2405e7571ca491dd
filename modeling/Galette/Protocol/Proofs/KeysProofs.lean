import Galette.Protocol.Keys

/-!
# Proofs: certificates with a challenge

When the verifiers fail closed. A value of another length than eight is taken for no challenge at
all, an answer other than `Unused` panics, and so does a certificate that is no trust anchor; only
the first of several challenges is looked at.
-/

namespace Galette.Protocol

open Galette.Lib Galette.Crp

variable {τ : Type} {X : Webpki τ} {respond : UInt64 → Response Bytes} {endEntity : Bytes} {now : τ}

theorem findChallenge_none {exts : List Extension}
    (h : exts.find? (fun v => v.oid = challengeOid) = none) : findChallenge exts = none := by
  simp [findChallenge, h]

theorem findChallenge_of_length {exts : List Extension} {e : Extension}
    (h : exts.find? (fun v => v.oid = challengeOid) = some e) (hlen : e.value.length = 8) :
    findChallenge exts = some (u64FromLeBytes e.value) := by
  simp [findChallenge, h, hlen]

theorem findChallenge_of_length_ne {exts : List Extension} {e : Extension}
    (h : exts.find? (fun v => v.oid = challengeOid) = some e) (hlen : e.value.length ≠ 8) :
    findChallenge exts = none := by
  simp [findChallenge, h, hlen]

theorem pkiResult_ne_panic (r : Except WebpkiError Unit) (msg : String) :
    pkiResult r ≠ .error (.panic msg) := by
  cases r with
  | ok _ => simp [pkiResult, Except.mapError]
  | error e => simp [pkiResult, Except.mapError]

theorem pkiResult_ok {r : Except WebpkiError Unit} : pkiResult r = .ok () ↔ r = .ok () :=
  Except.mapError_eq_ok

/-- A result that is no panic and no success is an error. -/
theorem exists_error {r : Outcome RustlsError Unit} (hpanic : ∀ msg, r ≠ .error (.panic msg))
    (hok : r ≠ .ok ()) : ∃ err, r = .error (.error err) := by
  cases r with
  | ok u => exact absurd rfl hok
  | error f =>
    cases f with
    | error err => exact ⟨err, rfl⟩
    | panic msg => exact absurd rfl (hpanic msg)

/-- The result of the local steps, once the libraries have let the certificate through. -/
theorem localResponse_reached (htime : X.time now = true)
    (hcert : X.endEntityCert endEntity = .ok ())
    (c : UInt64) : localResponse X respond endEntity now c =
      match respond c, X.trustAnchor endEntity with
      | .unused resp, .ok _ => .ok resp
      | .unused _, .error _ => .error (.panic "called `Result::unwrap()` on an `Err` value")
      | _, _ => .error (.panic "not yet implemented") := by
  simp only [localResponse, htime, hcert, if_true]
  cases respond c with
  | unused resp => cases X.trustAnchor endEntity <;> rfl
  | used resp => rfl
  | invalid => rfl

/-- The libraries reject the certificate before the store is asked. -/
theorem localResponse_not_reached (h : ¬ (X.time now = true ∧ X.endEntityCert endEntity = .ok ()))
    (c : UInt64) : ∃ err, localResponse X respond endEntity now c = .error (.error err) := by
  unfold localResponse
  by_cases htime : X.time now = true
  · rw [if_pos htime]
    cases hcert : X.endEntityCert endEntity with
    | ok u => exact absurd ⟨htime, hcert⟩ h
    | error e => exact ⟨pkiError e, rfl⟩
  · rw [if_neg htime]
    exact ⟨_, rfl⟩

/-- A verifier that does not consult its base fails closed if it returns, and succeeds only if all
challenges are answered. -/
theorem failsClosed_local_iff {exts : List Extension} {r : Outcome RustlsError Unit} :
    FailsClosed (some exts) respond ⟨false, r⟩ ↔
      (∀ msg, r ≠ .error (.panic msg)) ∧ (r = .ok () → AllAnswered respond exts) := by
  constructor
  · intro h
    refine ⟨h.returns, fun hok e he hoid => ?_⟩
    by_contra hno
    obtain ⟨err, herr⟩ := h.rejects exts rfl e he hoid hno
    rw [show r = .error (.error err) from herr] at hok
    cases hok
  · rintro ⟨hpanic, hok⟩
    refine ⟨hpanic, ?_, fun h => by cases h⟩
    rintro es ⟨⟩ e he hoid hno
    exact exists_error hpanic fun h => hno (hok h e he hoid)

theorem not_failsClosed_of_panic {exts : Option (List Extension)} {consulted : Bool}
    {msg : String} :
    ¬ FailsClosed exts respond ⟨consulted, .error (.panic msg)⟩ := fun h => h.returns msg rfl

/-- A certificate with a challenge of eight bytes. -/
theorem failsClosed_challenge_iff {exts : List Extension} {c : UInt64}
    {check : Bytes → Outcome RustlsError Unit} {safe : List Extension → Bytes → Prop}
    (hsafe : ∀ resp, safe exts resp ↔
      (∀ msg, check resp ≠ .error (.panic msg)) ∧ (check resp = .ok () → AllAnswered respond exts)) :
    FailsClosed (some exts) respond ⟨false, (localResponse X respond endEntity now c).bind check⟩ ↔
      (X.time now = true → X.endEntityCert endEntity = .ok () →
        ∃ resp, respond c = .unused resp ∧ X.trustAnchor endEntity = .ok () ∧ safe exts resp) := by
  by_cases hreach : X.time now = true ∧ X.endEntityCert endEntity = .ok ()
  · obtain ⟨htime, hcert⟩ := hreach
    rw [localResponse_reached htime hcert]
    simp only [htime, hcert, forall_const]
    cases hc : respond c with
    | unused resp =>
      cases hta : X.trustAnchor endEntity with
      | ok u =>
        show FailsClosed (some exts) respond ⟨false, check resp⟩ ↔ _
        rw [failsClosed_local_iff, ← hsafe]
        refine ⟨fun h => ⟨resp, rfl, rfl, h⟩, ?_⟩
        rintro ⟨resp', ⟨⟩, _, h⟩
        exact h
      | error e =>
        refine ⟨fun h => absurd h not_failsClosed_of_panic, ?_⟩
        rintro ⟨_, _, hok, _⟩
        cases hok
    | used resp =>
      refine ⟨fun h => absurd h not_failsClosed_of_panic, ?_⟩
      rintro ⟨_, hresp, _⟩
      cases hresp
    | invalid =>
      refine ⟨fun h => absurd h not_failsClosed_of_panic, ?_⟩
      rintro ⟨_, hresp, _⟩
      cases hresp
  · obtain ⟨err, herr⟩ : ∃ err, localResponse X respond endEntity now c = .error (.error err) :=
      localResponse_not_reached hreach c
    rw [herr]
    refine ⟨fun _ htime hcert => absurd ⟨htime, hcert⟩ hreach, fun _ => ?_⟩
    rw [failsClosed_local_iff]
    exact ⟨fun msg h => (by cases h), fun h => (by cases h)⟩

/-- The condition on a certificate, by its first challenge. -/
theorem safeChallenge_iff {exts : List Extension} {e : Extension}
    {safe : List Extension → Bytes → Prop} (hparse : X.parse endEntity = some exts)
    (hfind : exts.find? (fun v => v.oid = challengeOid) = some e) :
    SafeChallenge X respond endEntity now safe ↔ e.value.length = 8 ∧
      (X.time now = true → X.endEntityCert endEntity = .ok () →
        ∃ resp, respond (u64FromLeBytes e.value) = .unused resp ∧
          X.trustAnchor endEntity = .ok () ∧ safe exts resp) := by
  constructor
  · intro h
    exact h exts e hparse hfind
  · intro h exts' e' hexts he'
    obtain rfl := Option.some.inj (hparse.symm.trans hexts)
    obtain rfl := Option.some.inj (hfind.symm.trans he')
    exact h

/-- When a verifier fails closed, by its check of the signature. -/
theorem verifyCert_failsClosed_iff (base : Except RustlsError Unit)
    {check : Bytes → Outcome RustlsError Unit} {safe : List Extension → Bytes → Prop}
    (hsafe : ∀ exts resp, safe exts resp ↔
      (∀ msg, check resp ≠ .error (.panic msg)) ∧ (check resp = .ok () → AllAnswered respond exts)) :
    FailsClosed (X.parse endEntity) respond (verifyCert X respond base endEntity now check) ↔
      SafeChallenge X respond endEntity now safe := by
  cases hparse : X.parse endEntity with
  | none =>
    have hv : verifyCert X respond base endEntity now check =
        ⟨false, .error (.error .invalidCertificateEncoding)⟩ := by simp [verifyCert, hparse]
    rw [hv]
    refine ⟨fun _ exts e hexts => ?_, fun _ => ⟨by simp, by simp, by simp⟩⟩
    rw [hparse] at hexts
    cases hexts
  | some exts =>
    cases hfind : exts.find? (fun v => v.oid = challengeOid) with
    | none =>
      have hno : ∀ e ∈ exts, e.oid ≠ challengeOid := by
        intro e he
        simpa using List.find?_eq_none.1 hfind e he
      have hv : verifyCert X respond base endEntity now check = ⟨true, base.mapError .error⟩ := by
        simp [verifyCert, hparse, findChallenge_none hfind]
      rw [hv]
      refine ⟨fun _ exts' e hexts he => ?_, fun _ => ⟨fun msg => ?_, ?_, ?_⟩⟩
      · obtain rfl := Option.some.inj (hparse.symm.trans hexts)
        rw [hfind] at he
        cases he
      · cases base <;> simp [Except.mapError]
      · rintro es ⟨⟩ e he hoid
        exact absurd hoid (hno e he)
      · rintro _ es ⟨⟩
        exact hno
    | some e =>
      have hmem : e ∈ exts := List.mem_of_find?_eq_some hfind
      have hoid : e.oid = challengeOid := by simpa using List.find?_some hfind
      rw [safeChallenge_iff hparse hfind]
      by_cases hlen : e.value.length = 8
      · have hv : verifyCert X respond base endEntity now check = ⟨false,
            (localResponse X respond endEntity now (u64FromLeBytes e.value)).bind check⟩ := by
          simp [verifyCert, hparse, findChallenge_of_length hfind hlen]
        rw [hv, failsClosed_challenge_iff (hsafe exts)]
        exact ⟨fun h => ⟨hlen, h⟩, fun h => h.2⟩
      · have hv : verifyCert X respond base endEntity now check = ⟨true, base.mapError .error⟩ := by
          simp [verifyCert, hparse, findChallenge_of_length_ne hfind hlen]
        rw [hv]
        exact ⟨fun h => absurd hoid (h.delegates rfl exts rfl e hmem), fun h => absurd h.1 hlen⟩

theorem checkClient_safe (exts : List Extension) (resp : Bytes) :
    (X.verifyClient endEntity now resp = .ok () → AllAnswered respond exts) ↔
      (∀ msg, checkClient X endEntity now resp ≠ .error (.panic msg)) ∧
        (checkClient X endEntity now resp = .ok () → AllAnswered respond exts) := by
  unfold checkClient
  rw [pkiResult_ok]
  exact ⟨fun h => ⟨pkiResult_ne_panic _, h⟩, fun h => h.2⟩

theorem checkServer_safe (serverName : ServerName) (exts : List Extension) (resp : Bytes) :
    (∀ name, serverName = .dnsName name → X.verifyServer endEntity now resp = .ok () →
      X.dnsNameRef name = true ∧
        (X.verifyDnsName endEntity name = .ok () → AllAnswered respond exts)) ↔
      (∀ msg, checkServer X endEntity serverName now resp ≠ .error (.panic msg)) ∧
        (checkServer X endEntity serverName now resp = .ok () → AllAnswered respond exts) := by
  cases serverName with
  | ipAddress => simp [checkServer]
  | dnsName name =>
    cases hsig : X.verifyServer endEntity now resp with
    | error e => simp [checkServer, hsig, pkiResult, Except.mapError, Except.bind]
    | ok u =>
      have hres : checkServer X endEntity (.dnsName name) now resp =
          if X.dnsNameRef name then pkiResult (X.verifyDnsName endEntity name)
          else .error (.panic "aaaa: InvalidDnsNameError") := by
        simp [checkServer, hsig, pkiResult, Except.mapError, Except.bind]
      rw [hres]
      by_cases href : X.dnsNameRef name = true
      · rw [if_pos href, pkiResult_ok]
        refine ⟨fun h => ⟨pkiResult_ne_panic _, (h name rfl rfl).2⟩, ?_⟩
        rintro ⟨_, h⟩ _ ⟨⟩ _
        exact ⟨href, h⟩
      · rw [if_neg href]
        refine ⟨fun h => absurd (h name rfl rfl).1 href, fun h => ?_⟩
        exact absurd rfl (h.1 _)

/-- **When the verifiers fail closed.** -/
theorem failsClosed_iff (X : Webpki τ) (respond : UInt64 → Response Bytes) (endEntity : Bytes)
    (intermediates : List Bytes) (now : τ) :
    (∀ base, FailsClosed (X.parse endEntity) respond
        (verifyClientCert X respond base endEntity intermediates now) ↔
      ClientSafe X respond endEntity now) ∧
    ∀ base serverName scts ocspResponse, FailsClosed (X.parse endEntity) respond
        (verifyServerCert X respond base endEntity intermediates serverName scts ocspResponse now) ↔
      ServerSafe X respond endEntity serverName now :=
  ⟨fun _ => verifyCert_failsClosed_iff _ checkClient_safe,
    fun _ serverName _ _ => verifyCert_failsClosed_iff _ (checkServer_safe serverName)⟩

/-- A certificate with a challenge of seven bytes. -/
def shortExtension : Extension := ⟨challengeOid, [1, 2, 3, 4, 5, 6, 7]⟩

/-- Libraries that find such a certificate in order. -/
def shortWebpki : Webpki Nat where
  parse _ := some [shortExtension]
  time _ := true
  endEntityCert _ := .ok ()
  trustAnchor _ := .ok ()
  verifyClient _ _ _ := .ok ()
  verifyServer _ _ _ := .ok ()
  dnsNameRef _ := true
  verifyDnsName _ _ := .ok ()

/-- A challenge of seven bytes is left to the base verifier. -/
theorem not_failsClosed_of_short_value : ¬ ∀ (X : Webpki Nat) (respond : UInt64 → Response Bytes)
    (endEntity : Bytes) (intermediates : List Bytes) (now : Nat)
    (base : Bytes → List Bytes → Nat → Except RustlsError Unit),
    FailsClosed (X.parse endEntity) respond
      (verifyClientCert X respond base endEntity intermediates now) := by
  intro h
  have hv := h shortWebpki (fun _ => .invalid) [] [] 0 (fun _ _ _ => .ok ())
  exact hv.delegates rfl [shortExtension] rfl shortExtension (List.mem_singleton.2 rfl) rfl

end Galette.Protocol
