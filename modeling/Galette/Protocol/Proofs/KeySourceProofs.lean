import Galette.Crp.Proofs.StoreProofs
import Galette.Protocol.KeySource
import Galette.Protocol.Proofs.KeysProofs
import Galette.Protocol.Proofs.WireProofs
import Mathlib.Data.List.TakeWhile
import Mathlib.Data.Nat.Digits.Defs

/-!
# Proofs: keys from a store

The file of a store is read back as a store that cannot be told apart from it, so what is known
about the challenges that are used up is known about the copy, too. A server that was started with a
store has a certificate that a client with the file can check: it finds the challenge, and the
answer that the certificate was made with.
-/

namespace Galette.Protocol

open Galette.Lib Galette.Crp

/-! ## Files -/

section Files

variable {P : Postcard} {B : Type} {bits : BitSetApi B} {F : BitSetFormat bits}

theorem resp_exact : resp.Exact short := by
  refine Codec.convert_lawful (Codec.elems_exact (Codec.byte_exact short) respLen)
    (fun a _ => a.2) ?_
  rintro a _ _ rfl
  exact ⟨a, rfl, dif_pos a.2⟩

theorem inMemory_lawful : (inMemory P F).Lawful short (StoreFits bits) (SameStore bits) := by
  refine Codec.convert_lawful (Codec.pair_lawful (Codec.hashMap_lawful P.u64_exact P.u64_exact
    resp_exact) F.lawful) ?_ ?_
  · intro s hs
    exact ⟨⟨hs.map, fun e _ => ⟨trivial, trivial⟩⟩, hs.used⟩
  · rintro s ⟨map, used⟩ _ ⟨hmap, hused⟩
    exact ⟨⟨map, used⟩, ⟨hmap, hused⟩, rfl⟩

theorem keySource_lawful : (keySource P F).Lawful short (fun k => StoreFits bits k.crps)
    (fun k k' => SameStore bits k.crps k'.crps) := by
  refine Codec.convert_lawful inMemory_lawful (fun k hk => hk) ?_
  intro k s _ hs
  exact ⟨⟨s⟩, hs, rfl⟩

/-- A store that cannot be told apart from one has used up the same challenges. -/
theorem SameStore.inv {random : Nat → Resp} {n : UInt64} {done : List UInt64}
    {s s' : InMemory B Resp} (h : SameStore bits s s') (hs : InMemory.Inv bits random n done s) :
    InMemory.Inv bits random n done s' where
  answers c := by rw [h.map c, hs.answers]
  len := by rw [h.used.len, hs.len]
  marked c := by rw [h.used.contains, hs.marked]

/-- The stores of a run can be written. -/
theorem storeFits_of_inv {random : Nat → Resp} {n : UInt64} {done : List UInt64}
    {s : InMemory B Resp} (hs : InMemory.Inv bits random n done s) : StoreFits bits s where
  map := by
    -- the keys are distinct, and all of them are below `n`
    have hkeys : s.map.keys.Nodup := s.map.nodupKeys
    have hsub : s.map.keys ⊆ (List.range n.toNat).map UInt64.ofNat := by
      intro c hc
      obtain ⟨a, ha⟩ := Option.isSome_iff_exists.1 (AList.lookup_isSome.2 (AList.mem_keys.2 hc))
      rw [hs.answers] at ha
      split at ha
      · rename_i hlt
        exact List.mem_map.2 ⟨c.toNat, List.mem_range.2 (UInt64.lt_iff_toNat_lt.1 hlt),
          UInt64.ofNat_toNat⟩
      · cases ha
    have hle := (List.subperm_of_subset hkeys hsub).length_le
    have hlen : s.map.keys.length = s.map.entries.length := List.length_map ..
    have hn := n.toNat_lt
    rw [hlen, List.length_map, List.length_range] at hle
    omega
  used := by
    rw [hs.len]
    exact n.toNat_lt

/-- **A store survives its file.** Whatever challenges are used up before the store of a key source
is written to a file, and whatever challenges are used up after it was read back: the file can be
read, no call panics, and the copy answers as a store in which all of them were used up. -/
theorem store_survives_file (P : Postcard) (F : BitSetFormat bits) (random : Nat → Resp)
    (n : UInt64) (before after : List UInt64) (rest : Bytes) :
    ∃ s s' s'', foldE (InMemory.markUsed bits) (InMemory.newRandom bits random n) before = .ok s ∧
      (keySource P F).decode ((keySource P F).encode ⟨s⟩ ++ rest) = .ok (⟨s'⟩, rest) ∧
      foldE (InMemory.markUsed bits) s' after = .ok s'' ∧
      ∀ c, s''.respond bits c =
        if c < n then
          if c ∈ before ++ after then .used (random c.toNat) else .unused (random c.toNat)
        else .invalid := by
  obtain ⟨s, hs, hI⟩ := foldE_total (InMemory.Inv bits random n) InMemory.inv_newRandom
    (fun done c _ s _ hI => hI.markUsed c)
  obtain ⟨⟨s'⟩, hsame, hdecode⟩ := keySource_lawful.decode_encode (⟨s⟩ : KeySource B) rest
    (storeFits_of_inv hI)
  obtain ⟨s'', hs'', hI''⟩ := foldE_total (fun done s => InMemory.Inv bits random n (before ++ done) s)
    (by rw [List.append_nil]; exact SameStore.inv hsame hI)
    (fun done c _ s _ hI => by rw [← List.append_assoc]; exact hI.markUsed c)
  exact ⟨s, s', s'', hs, hdecode, hs'', hI''.respond⟩

end Files

/-! ## Certificates -/

section Certificates

variable {P : Postcard} {B : Type} {bits : BitSetApi B} {F : BitSetFormat bits} {τ : Type}
  {X : Webpki τ}

/-- What an unused store answers to the challenge of the certificates. -/
theorem respond_own {random : Nat → Resp} {s : InMemory B Resp}
    (hs : InMemory.Inv bits random KeySource.nChallenges [] s) :
    (KeySource.mk s).respond bits KeySource.ownChallenge = .unused (random 1045).1 := by
  have hrange : KeySource.ownChallenge < KeySource.nChallenges := by decide
  have hanswer := hs.respond KeySource.ownChallenge
  rw [if_pos hrange, if_neg (List.not_mem_nil)] at hanswer
  have hchallenge : KeySource.ownChallenge.toNat = 1045 := by decide
  simp only [KeySource.respond, hanswer, hchallenge]

theorem genCert_of_unused {k : KeySource B} {a : Bytes}
    (h : k.respond bits KeySource.ownChallenge = .unused a) :
    k.genCert bits = .ok (KeySource.certificateParams a) := by
  unfold KeySource.genCert
  rw [h]

/-- Making a certificate from a new store does not panic. -/
theorem genCert_newRandom (bits : BitSetApi B) (random : Nat → Resp) :
    (KeySource.newRandom bits random).genCert bits =
      .ok (KeySource.certificateParams (random 1045).1) :=
  genCert_of_unused (respond_own InMemory.inv_newRandom)

theorem crpDat_pufTls (bits : BitSetApi B) (random : Nat → Resp) :
    crpDat bits .pufTls random = .ok (some
      (KeySource.newRandom bits random, KeySource.certificateParams (random 1045).1)) := by
  have hcrps : TlsMode.pufTls.generateCrps = true := rfl
  unfold crpDat
  rw [if_pos hcrps, genCert_newRandom]
  rfl

/-- The server starts with a store and a certificate. -/
theorem serverTls_pufTls (P : Postcard) (F : BitSetFormat bits) (random : Nat → Resp) :
    serverTls bits P F .pufTls random = .ok (some
      { clientAuth := .crp (KeySource.newRandom bits random)
        ownCert := .generated (KeySource.certificateParams (random 1045).1)
        file := some ((keySource P F).encode (KeySource.newRandom bits random)) }) := by
  have hused : TlsMode.pufTls.isTlsUsed = true := rfl
  unfold serverTls
  rw [if_pos hused, crpDat_pufTls]
  rfl

/-- The server starts in every mode: with TLS unless the mode is `no-tls`, and as the mode asks for
with clients that need a certificate and with a file for them. -/
theorem serverTls_starts (P : Postcard) (F : BitSetFormat bits) (mode : TlsMode)
    (random : Nat → Resp) : ∃ tls, serverTls bits P F mode random = .ok tls ∧
      tls.isSome = mode.isTlsUsed ∧ ∀ t ∈ tls,
        t.clientAuth.demanded = mode.shouldInstallClientCert ∧
          t.file.isSome = mode.generateCrps := by
  cases mode with
  | noTls => exact ⟨none, rfl, rfl, fun t ht => by cases ht⟩
  | serverAuth =>
    refine ⟨_, rfl, rfl, fun t ht => ?_⟩
    obtain rfl := Option.some.inj ht
    exact ⟨rfl, rfl⟩
  | clientServerAuth =>
    refine ⟨_, rfl, rfl, fun t ht => ?_⟩
    obtain rfl := Option.some.inj ht
    exact ⟨rfl, rfl⟩
  | pufTls =>
    refine ⟨_, serverTls_pufTls P F random, rfl, fun t ht => ?_⟩
    obtain rfl := Option.some.inj ht
    exact ⟨rfl, rfl⟩

/-- The challenge of a certificate that was made from a store. -/
theorem findChallenge_certificate (R : Rcgen X) (a : Bytes) :
    ∃ exts, X.parse (R.certificate (KeySource.certificateParams a)) = some exts ∧
      findChallenge exts = some KeySource.ownChallenge := by
  obtain ⟨exts, hparse, hexts⟩ := R.parse (KeySource.certificateParams a)
  have hfind : exts.find? (fun v => v.oid = challengeOid) =
      some ⟨challengeOid, u64ToLeBytes KeySource.ownChallenge⟩ := by
    rw [← List.head?_filter, hexts]
    rfl
  refine ⟨exts, hparse, ?_⟩
  rw [findChallenge_of_length hfind (lowBytes_length 8 _), u64FromLeBytes_toLeBytes]

/-- The verifier checks such a certificate with the answer of its own store. -/
theorem verifyServerCert_certificate (R : Rcgen X) {respond : UInt64 → Response Bytes}
    {a resp : Bytes} (hresp : respond KeySource.ownChallenge = .unused resp)
    (base : Bytes → List Bytes → ServerName → List Bytes → Bytes → τ → Except RustlsError Unit)
    (intermediates : List Bytes) (serverName : ServerName) (scts : List Bytes)
    (ocspResponse : Bytes) {now : τ} (horder : InOrder X (R.certificate (KeySource.certificateParams a)) now) :
    verifyServerCert X respond base (R.certificate (KeySource.certificateParams a)) intermediates
        serverName scts ocspResponse now =
      ⟨false, checkServer X (R.certificate (KeySource.certificateParams a)) serverName now resp⟩ := by
  obtain ⟨exts, hparse, hchallenge⟩ := findChallenge_certificate R a
  simp only [verifyServerCert, verifyCert, hparse, hchallenge,
    localResponse_reached horder.time horder.cert, hresp, horder.anchor]
  rfl

/-- **A client with the file can check the server.** A server that is started in the mode `puf-tls`
has a certificate and a file. A client that reads the file hands `webpki` the very answer that the
certificate was made with, and never asks its base verifier; a client without a file does the same
with an answer of its own; and a client whose file lacks its end does not start. -/
theorem provisioned_client_checks (R : Rcgen X) (P : Postcard) (F : BitSetFormat bits)
    (random random' : Nat → Resp) :
    ∃ store params file, serverTls bits P F .pufTls random =
        .ok (some ⟨.crp store, .generated params, some file⟩) ∧
      params.auxEncData = some (random 1045).1 ∧
      (∃ k, clientStore bits P F (some file) random' = .ok k ∧
        ∀ base intermediates serverName scts ocspResponse now,
          InOrder X (R.certificate params) now →
          verifyServerCert X (k.respond bits) base (R.certificate params) intermediates serverName scts
              ocspResponse now =
            ⟨false, checkServer X (R.certificate params) serverName now (random 1045).1⟩) ∧
      (∃ k, clientStore bits P F none random' = .ok k ∧
        ∀ base intermediates serverName scts ocspResponse now,
          InOrder X (R.certificate params) now →
          verifyServerCert X (k.respond bits) base (R.certificate params) intermediates serverName scts
              ocspResponse now =
            ⟨false, checkServer X (R.certificate params) serverName now (random' 1045).1⟩) ∧
      ∀ n < file.length, clientStore bits P F (some (file.take n)) random' =
        .error (.panic "called `Result::unwrap()` on an `Err` value") := by
  have hinv : InMemory.Inv bits random KeySource.nChallenges []
      (KeySource.newRandom bits random).crps := InMemory.inv_newRandom
  have hfits := storeFits_of_inv hinv
  refine ⟨_, _, _, serverTls_pufTls P F random, rfl, ?_, ?_, ?_⟩
  · obtain ⟨⟨s⟩, hsame, hdecode⟩ := (keySource_lawful (P := P) (F := F)).decode_encode
      (KeySource.newRandom bits random) [] hfits
    rw [List.append_nil] at hdecode
    refine ⟨⟨s⟩, by simp only [clientStore, hdecode], ?_⟩
    intro base intermediates serverName scts ocspResponse now horder
    exact verifyServerCert_certificate R (respond_own (SameStore.inv hsame hinv)) base intermediates
      serverName scts ocspResponse horder
  · refine ⟨KeySource.newRandom bits random', by simp only [clientStore], ?_⟩
    intro base intermediates serverName scts ocspResponse now horder
    exact verifyServerCert_certificate R (respond_own InMemory.inv_newRandom) base intermediates
      serverName scts ocspResponse horder
  · intro n hn
    have hrest : ((keySource P F).encode (KeySource.newRandom bits random)).drop n ≠ [] := by
      intro hnil
      have hlen := congrArg List.length hnil
      simp only [List.length_drop, List.length_nil] at hlen
      omega
    have hshort := (keySource_lawful (P := P) (F := F)).decode_truncated _ _ _ hfits
      (List.take_append_drop n _).symm hrest
    simp only [clientStore, hshort]

end Certificates

/-! ## An example -/

/-- A bit set as a list of flags, behind its length. -/
def listFormat : BitSetFormat listBitSet where
  codec := Codec.seq leb128.u64 Postcard.bool
  lawful :=
    { decode_encode := by
        intro b rest hb
        obtain ⟨_, rfl, hd⟩ := (Codec.seq_exact leb128.u64_exact Postcard.bool_exact).decode_encode b
          rest ⟨hb, fun _ _ => trivial⟩
        exact ⟨b, ⟨rfl, fun _ => rfl⟩, hd⟩
      decode_truncated := by
        intro b p q hb
        exact (Codec.seq_exact leb128.u64_exact Postcard.bool_exact).decode_truncated b p q
          ⟨hb, fun _ _ => trivial⟩ }

/-- A number as its digits to the base 255. The byte behind them is none. -/
def natural : Codec PostcardError Nat where
  encode n := (Nat.digits 255 n).map UInt8.ofNat ++ [255]
  decode bs :=
    match bs.dropWhile (· ≠ 255) with
    | [] => .error .deserializeUnexpectedEnd
    | _ :: rest => .ok (Nat.ofDigits 255 ((bs.takeWhile (· ≠ 255)).map UInt8.toNat), rest)

theorem digit_toNat {n d : Nat} (hd : d ∈ Nat.digits 255 n) :
    (UInt8.ofNat d).toNat = d ∧ UInt8.ofNat d ≠ 255 := by
  have hlt : d < 255 := Nat.digits_lt_base (by decide) hd
  have hto : (UInt8.ofNat d).toNat = d := by
    rw [UInt8.toNat_ofNat']
    exact Nat.mod_eq_of_lt (by omega)
  refine ⟨hto, fun h => ?_⟩
  have h255 := congrArg UInt8.toNat h
  rw [hto, show (255 : UInt8).toNat = 255 from rfl] at h255
  omega

theorem digit_ne {n : Nat} {b : UInt8} (hb : b ∈ (Nat.digits 255 n).map UInt8.ofNat) :
    decide (b ≠ 255) = true := by
  obtain ⟨d, hd, rfl⟩ := List.mem_map.1 hb
  exact decide_eq_true (digit_toNat hd).2

theorem natural_exact : natural.Exact .deserializeUnexpectedEnd where
  decode_encode n rest _ := by
    have hread : ((Nat.digits 255 n).map UInt8.ofNat).map UInt8.toNat = Nat.digits 255 n := by
      rw [List.map_map]
      exact (List.map_congr_left fun d hd => (digit_toNat hd).1).trans (List.map_id' _)
    refine ⟨n, rfl, ?_⟩
    simp only [natural, List.append_assoc]
    rw [List.dropWhile_append_of_pos fun _ => digit_ne,
      List.takeWhile_append_of_pos fun _ => digit_ne]
    simp [hread, Nat.ofDigits_digits]
  decode_truncated n p q _ he hq := by
    have hpart : p <+: (Nat.digits 255 n).map UInt8.ofNat := by
      refine (List.prefix_concat_iff.1 ⟨q, he.symm⟩).resolve_left fun hp => hq ?_
      rw [hp] at he
      exact List.self_eq_append_right.1 he
    have hnone : p.dropWhile (· ≠ 255) = [] :=
      List.dropWhile_eq_nil_iff.2 fun b hb => digit_ne (hpart.subset hb)
    simp only [natural, hnone]

/-- A list, behind its length. -/
def counted {α : Type} (c : Codec PostcardError α) : Codec PostcardError (List α) :=
  Codec.header natural List.length (Codec.elems c)

theorem counted_exact {α : Type} {c : Codec PostcardError α}
    (hc : c.Exact .deserializeUnexpectedEnd) : (counted c).Exact .deserializeUnexpectedEnd := by
  have h : (counted c).Lawful .deserializeUnexpectedEnd (fun _ => True) _ :=
    Codec.header_lawful natural_exact fun l _ => Codec.elems_lawful hc l fun _ _ => trivial
  rwa [List.forall₂_eq_eq_eq] at h

/-- The extensions of a certificate, with the components and the bytes of each of them. -/
def extensions : Codec PostcardError (List Extension) :=
  counted (Codec.convert (fun e => (e.oid, e.value)) (fun x => .ok ⟨x.1, x.2⟩)
    (Codec.pair (counted natural) (counted Postcard.u8)))

theorem extensions_exact : extensions.Exact .deserializeUnexpectedEnd := by
  have hpair : (Codec.pair (counted natural) (counted Postcard.u8)).Lawful .deserializeUnexpectedEnd
      (fun _ => True ∧ True) Eq :=
    Codec.pair_exact (counted_exact natural_exact) (counted_exact (Codec.byte_exact _))
  refine counted_exact (Codec.convert_lawful hpair (fun _ _ => ⟨trivial, trivial⟩) ?_)
  rintro e _ _ rfl
  exact ⟨e, rfl, rfl⟩

/-- Libraries that trust every certificate. A certificate is made of its extensions only. -/
def trustingWebpki : Webpki Unit where
  parse bs := (extensions.decode bs).toOption.map Prod.fst
  time _ := true
  endEntityCert _ := .ok ()
  trustAnchor _ := .ok ()
  verifyClient _ _ _ := .ok ()
  verifyServer _ _ _ := .ok ()
  dnsNameRef _ := true
  verifyDnsName _ _ := .ok ()

def trustingRcgen : Rcgen trustingWebpki where
  certificate params := extensions.encode params.customExtensions
  parse params := by
    obtain ⟨_, rfl, hd⟩ := extensions_exact.decode_encode params.customExtensions [] trivial
    rw [List.append_nil] at hd
    exact ⟨params.customExtensions, by simp only [trustingWebpki, hd]; rfl, rfl⟩

theorem trusting_client_checks : ∃ (k : KeySource (List Bool)) (der : Bytes),
    verifyServerCert trustingWebpki (k.respond listBitSet) (fun _ _ _ _ _ _ => .ok ()) der []
      (.dnsName "localhost") [] [] () = ⟨false, .ok ()⟩ := by
  obtain ⟨_, params, _, -, -, ⟨k, -, hk⟩, -⟩ :=
    provisioned_client_checks trustingRcgen leb128 listFormat
    (fun _ => ⟨List.replicate 32 1, rfl⟩) fun _ => ⟨List.replicate 32 2, rfl⟩
  refine ⟨k, trustingRcgen.certificate params, ?_⟩
  rw [hk _ _ _ _ _ () ⟨rfl, rfl, rfl⟩]
  rfl

end Galette.Protocol
