import WolfsslRs.SshPrivate
/-!
# SshSign — the keys that sign (`signature.rs`)

`SigningKey` is the trait: a public key and signatures.  A private key is one, and its signatures are wolfCrypt's in the
clothes of the wire: an ECDSA signature leaves wolfCrypt as DER, is written as two integers and put together again by
the verifier.  If wolfCrypt verifies with the public half what it signed with the private one (`KeypairData.Pairs`),
every signature of the key verifies (`trySign_verifies`).
-/
namespace Wolf
namespace Ssh

open Reader Program

/-- `SigningKey`: the public key and what signing some bytes ends with. -/
structure SigningKey where
  publicKey : KeyData
  trySign : Bytes → Except Exit Signature

/-- **The raw scheme verifies what it signs.** -/
def SigningKey.Verifies (C : Crates) (D : Digests) (W : WolfCrypt) (key : SigningKey) : Prop :=
  ∀ message s, key.trySign message = .ok s → key.publicKey.verify C D W message s = .ok ()

structure RsaComponents where
  n : Bytes
  e : Bytes
  d : Bytes
  p : Bytes
  q : Bytes
  iqmp : Bytes

/-- What wolfCrypt answers when it signs, and `Mpint::from_positive_bytes`.  A key handle is known by the bytes it was
made from; what the random number generator contributes is part of the answer. -/
structure WolfSigner where
  /-- the generator of the thread, made on its first use -/
  rng : Except WolfCryptError Unit
  ed25519SignRaw : (seed pubKey message : Bytes) → Except WolfCryptError {sig : Bytes // sig.length = 64}
  eccFromPrivate : (curve : EcdsaCurve) → (privateKey : Bytes) → Except WolfCryptError Unit
  eccSignHash : (curve : EcdsaCurve) → (privateKey hash : Bytes) → Except WolfCryptError Bytes
  eccSigDerToRs : (derSig : Bytes) → Except WolfCryptError (Bytes × Bytes)
  fromPositiveBytes : Bytes → Except Exit Bytes
  rsaFromRawComponents : RsaComponents → Except WolfCryptError Unit
  rsaSignPkcs1v15Raw : RsaComponents → (digestInfo : Bytes) → Except WolfCryptError Bytes

section
variable (C : Crates) (D : Digests) (S : WolfSigner)

def Ed25519Keypair.trySign (key : Ed25519Keypair) (message : Bytes) : Except Exit Signature := do
  let sig ← fromSource (ofWolfCrypt (S.ed25519SignRaw key.privateKey.bytes key.publicKey.bytes message))
  .ok ⟨.ed25519, sig.1⟩

def mpintOf (x : Bytes) : Except Exit Bytes := do
  C.mpint.encode (← S.fromPositiveBytes x)

def derSigToSsh (der : Bytes) : Except Exit Bytes := do
  let (rBytes, sBytes) ← ofWolfCrypt (S.eccSigDerToRs der)
  cat [mpintOf C S rBytes, mpintOf C S sBytes]

def ecdsaSignMessage (curve : EcdsaCurve) (privateKey message : Bytes) : Except Exit Bytes := do
  let hash := ecdsaHashMessage D curve message
  ofWolfCrypt (S.eccFromPrivate curve privateKey)
  ofWolfCrypt S.rng
  let derSig ← ofWolfCrypt (S.eccSignHash curve privateKey hash)
  derSigToSsh C S derSig

def EcdsaKeypair.trySign (key : EcdsaKeypair) (message : Bytes) : Except Exit Signature := do
  let data ← fromSource (ecdsaSignMessage C D S key.publicKey.curve key.privateKey message)
  .ok ⟨.ecdsa key.publicKey.curve, data⟩

/-- The six numbers of an RSA keypair, if all of them are positive. -/
def RsaKeypair.components (key : RsaKeypair) : Except Exit RsaComponents :=
  match C.asPositiveBytes key.publicKey.n, C.asPositiveBytes key.publicKey.e, C.asPositiveBytes key.privateKey.d,
    C.asPositiveBytes key.privateKey.p, C.asPositiveBytes key.privateKey.q, C.asPositiveBytes key.privateKey.iqmp with
  | some n, some e, some d, some p, some q, some iqmp => .ok ⟨n, e, d, p, q, iqmp⟩
  | _, _, _, _, _, _ => .error (.signature none)

def rsaSignWith (key : RsaComponents) (hash : Option HashAlg) (message : Bytes) : Except Exit Bytes := do
  ofWolfCrypt (S.rsaFromRawComponents key)
  let digestInfo ← buildDigestInfo D hash message
  ofWolfCrypt S.rng
  ofWolfCrypt (S.rsaSignPkcs1v15Raw key digestInfo)

def rsaTrySign (key : RsaKeypair) (hash : Option HashAlg) (message : Bytes) : Except Exit Signature := do
  let components ← key.components C
  let sig ← fromSource (rsaSignWith D S components hash message)
  .ok ⟨.rsa hash, sig⟩

def RsaKeypair.trySign (key : RsaKeypair) (message : Bytes) : Except Exit Signature :=
  rsaTrySign C D S key (some .sha512) message

def KeypairData.trySign (key : KeypairData) (message : Bytes) : Except Exit Signature :=
  match key with
  | .ecdsa keypair => keypair.trySign C D S message
  | .ed25519 keypair => keypair.trySign S message
  | .rsa keypair => keypair.trySign C D S message
  | _ =>
    match key.algorithm with
    | .ok algorithm => .error (.signature (some (.algorithmUnsupported algorithm)))
    | .error e => fromSource (.error e)

def PrivateKey.signingKey {κ : Type} (k : PrivateKey κ) : SigningKey := ⟨k.publicKey.keyData, k.keyData.trySign C D S⟩

end

/-! ## The signatures of a private key verify -/

/-- **The two halves belong together**, as wolfCrypt sees it: with the public half it verifies what it signed with the
private one.  For ECDSA the verifier is given the signature put together from the two integers, which wolfCrypt writes
on at most 66 bytes. -/
def KeypairData.Pairs (C : Crates) (W : WolfCrypt) (S : WolfSigner) : KeypairData → Prop
  | .ed25519 key => ∀ message sig, S.ed25519SignRaw key.privateKey.bytes key.publicKey.bytes message = .ok sig →
      W.ed25519VerifyRaw key.publicKey.bytes message sig.1 = .ok ()
  | .ecdsa key => ∀ hash der r s x y, S.eccSignHash key.publicKey.curve key.privateKey hash = .ok der →
      S.eccSigDerToRs der = .ok (r, s) → S.fromPositiveBytes r = .ok x → S.fromPositiveBytes s = .ok y →
      x.length ≤ 67 ∧ y.length ≤ 67 ∧
      ∃ rBytes sBytes der', C.asPositiveBytes x = some rBytes ∧ C.asPositiveBytes y = some sBytes ∧
        W.eccSigRsToDer rBytes sBytes = .ok der' ∧ W.eccFromPublicX963 key.publicKey.point = .ok () ∧
        W.eccVerifyHash key.publicKey.point der' hash = .ok true
  | .rsa key => ∀ c digestInfo sig, key.components C = .ok c → S.rsaSignPkcs1v15Raw c digestInfo = .ok sig →
      W.rsaFromRawPublic c.n c.e = .ok () ∧ W.rsaVerifyPkcs1v15Raw c.n c.e sig = .ok digestInfo
  | _ => True

section
variable {C : Crates} {D : Digests} {W : WolfCrypt} {S : WolfSigner} {message : Bytes} {s : Signature}

theorem ofWolfCrypt_ok {α : Type} {r : Except WolfCryptError α} {a : α} : ofWolfCrypt r = .ok a ↔ r = .ok a := by
  cases r with
  | error e => exact ⟨nofun, nofun⟩
  | ok b => exact ⟨fun h => by cases h; rfl, fun h => by cases h; rfl⟩

theorem trySign_ed25519 {key : Ed25519Keypair} (hpair : (KeypairData.ed25519 key).Pairs C W S)
    (h : key.trySign S message = .ok s) : key.publicKey.verify W message s = .ok () := by
  obtain ⟨sig, hsig, h⟩ := bind_ok.1 h
  cases h
  have hraw := hpair message sig (ofWolfCrypt_ok.1 (fromSource_ok.1 hsig))
  exact fromSource_ok.2 (ofWolfCrypt_ok.2 hraw)

theorem run_mpintPair (hC : C.RoundTrips) {x y w : Bytes} (hx : x.length ≤ C.sizeMax) (hy : y.length ≤ C.sizeMax)
    (hw : cat [C.mpint.encode x, C.mpint.encode y] = .ok w) : (mpintPair C).run w = .ok (x, y) [] := by
  refine restores_run ?_
  exact restores_cat hw (fun _ => hC.mpint_back _ _ hx) fun _ hw =>
    restores_cat hw (fun _ => hC.mpint_back _ _ hy) fun _ hw => restores_nil hw restores_pure

theorem trySign_ecdsa (hC : C.RoundTrips) {key : EcdsaKeypair} (hpair : (KeypairData.ecdsa key).Pairs C W S)
    (h : key.trySign C D S message = .ok s) : key.publicKey.verify C D W message s = .ok () := by
  obtain ⟨data, hdata, h⟩ := bind_ok.1 h
  cases h
  obtain ⟨-, -, hdata⟩ := bind_ok.1 (fromSource_ok.1 hdata)
  obtain ⟨-, -, hdata⟩ := bind_ok.1 hdata
  obtain ⟨der, hder, hdata⟩ := bind_ok.1 hdata
  obtain ⟨⟨r, t⟩, hrs, hdata⟩ := bind_ok.1 hdata
  -- what was written are two integers, and the verifier gets them back
  obtain ⟨u, hu, v, hv, rfl⟩ := cat_cons.1 hdata
  obtain ⟨x, hx, hu⟩ := bind_ok.1 hu
  obtain ⟨y, hy, hv⟩ := bind_ok.1 (cat_one.1 hv)
  obtain ⟨hxlen, hylen, rBytes, sBytes, der', hr, ht, hder', hpub, hvalid⟩ :=
    hpair _ der r t x y (ofWolfCrypt_ok.1 hder) (ofWolfCrypt_ok.1 hrs) hx hy
  have hroom := hC.le_sizeMax
  have hrun := run_mpintPair hC (by omega) (by omega) (cat_ok hu (cat_one.2 hv))
  have hssh : sshSigToDer C W (u ++ v) = .ok der' := by
    simp only [sshSigToDer, hrun, hr, ht]
    exact ofWolfCrypt_ok.2 hder'
  refine fromSource_ok.2 ?_
  refine bind_ok.2 ⟨der', hssh, bind_ok.2 ⟨(), ofWolfCrypt_ok.2 hpub, bind_ok.2 ⟨true, ofWolfCrypt_ok.2 hvalid, rfl⟩⟩⟩

theorem trySign_rsa {key : RsaKeypair} (hpair : (KeypairData.rsa key).Pairs C W S)
    (h : key.trySign C D S message = .ok s) : key.publicKey.verify C D W message s = .ok () := by
  obtain ⟨c, hc, h⟩ := bind_ok.1 h
  obtain ⟨sig, hsig, h⟩ := bind_ok.1 h
  cases h
  obtain ⟨-, -, hsig⟩ := bind_ok.1 (fromSource_ok.1 hsig)
  obtain ⟨digestInfo, hinfo, hsig⟩ := bind_ok.1 hsig
  obtain ⟨-, -, hsig⟩ := bind_ok.1 hsig
  obtain ⟨hpub, hraw⟩ := hpair c digestInfo sig hc (ofWolfCrypt_ok.1 hsig)
  have hparts : C.asPositiveBytes key.publicKey.n = some c.n ∧ C.asPositiveBytes key.publicKey.e = some c.e := by
    unfold RsaKeypair.components at hc
    split at hc
    · rename_i hn he _ _ _ _
      cases hc
      exact ⟨hn, he⟩
    · cases hc
  show RsaPublicKey.verify C D W key.publicKey message ⟨.rsa (some .sha512), sig⟩ = .ok ()
  simp only [RsaPublicKey.verify, hparts.1, hparts.2]
  refine fromSource_ok.2 (bind_ok.2 ⟨(), ofWolfCrypt_ok.2 hpub, bind_ok.2 ⟨_, ofWolfCrypt_ok.2 hraw,
    bind_ok.2 ⟨_, hinfo, ?_⟩⟩⟩)
  exact if_pos rfl

/-- **What a private key signs verifies under its public key**, if wolfCrypt's halves belong together. -/
theorem trySign_verifies (hC : C.RoundTrips) {κ : Type} {k : PrivateKey κ}
    (hpub : k.keyData.publicData = .ok k.publicKey.keyData) (hpair : k.keyData.Pairs C W S) :
    (k.signingKey C D S).Verifies C D W := by
  obtain ⟨_, _, _, ⟨keyData, _⟩, key, _⟩ := k
  intro message s h
  change key.publicData = .ok keyData at hpub
  change key.Pairs C W S at hpair
  change key.trySign C D S message = .ok s at h
  show keyData.verify C D W message s = .ok ()
  cases key with
  | ecdsa key =>
    cases hpub
    exact trySign_ecdsa hC hpair h
  | ed25519 key =>
    cases hpub
    exact trySign_ed25519 hpair h
  | rsa key =>
    cases hpub
    exact trySign_rsa hpair h
  | dsa key => cases h
  | encrypted ciphertext => cases h
  | skEcdsaSha2NistP256 key => cases h
  | skEd25519 key => cases h
  | other key => cases h

end

/-! ## A scheme to run -/

namespace Toy

/-- The signature of this scheme: the end of the public key and the message, on 64 bytes. -/
def tag (pubKey message : Bytes) : {sig : Bytes // sig.length = 64} :=
  ⟨beBytes 64 (beNat (pubKey ++ message)), length_beBytes 64 _⟩

def wolfCrypt : WolfCrypt :=
  { acceptAll with
    ed25519VerifyRaw := fun pubKey message sig => if sig = (tag pubKey message).1 then .ok () else .error .other }

def signer : WolfSigner where
  rng := .ok ()
  ed25519SignRaw _ pubKey message := .ok (tag pubKey message)
  eccFromPrivate _ _ := .error .other
  eccSignHash _ _ _ := .error .other
  eccSigDerToRs _ := .error .other
  fromPositiveBytes x := .ok x
  rsaFromRawComponents _ := .error .other
  rsaSignPkcs1v15Raw _ _ := .error .other

def digests : Digests where
  sha1 := none
  sha256 m := beBytes 32 (beNat m)
  sha384 m := beBytes 48 (beNat m)
  sha512 m := beBytes 64 (beNat m)

def publicKey : Ed25519PublicKey := Sample.signer

def privateKey : PrivateKey Unit where
  cipher := ()
  kdf := .none
  checkint := none
  publicKey := ⟨.ed25519 publicKey, []⟩
  keyData := .ed25519 ⟨publicKey, ⟨List.replicate 32 9, by decide⟩⟩
  authTag := none

def signingKey : SigningKey := privateKey.signingKey Rfc4251.utf8Crates digests signer

theorem signingKey_verifies : signingKey.Verifies Rfc4251.utf8Crates digests wolfCrypt := by
  refine trySign_verifies Rfc4251.utf8Crates_roundTrips rfl ?_
  intro message sig h
  cases h
  exact if_pos rfl

end Toy

end Ssh
end Wolf
