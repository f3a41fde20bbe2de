import WolfsslRs.SshKey
/-!
# SshVerify — checking a signature with a public key (`signature.rs`)

`KeyData.verify` and the four verifiers it dispatches to, over wolfCrypt's raw verification, which is a parameter.  An
Ed25519 and an RSA key look at the algorithm a signature names; an ECDSA key takes every ECDSA signature and hashes as
the signature's curve asks, and the two security-key types never look.  `verify_own_algorithm_iff` says for which
signatures this lets another algorithm through.
-/
namespace Wolf
namespace Ssh

open Reader

/-- `wolfcrypt::WolfCryptError` -/
inductive WolfCryptError where
  | ffi (func : String) (code : Int)
  | other
  deriving DecidableEq

/-- What wolfCrypt answers; a key handle is known by the bytes it was made from. -/
structure WolfCrypt where
  ed25519VerifyRaw : (pubKey message sig : Bytes) → Except WolfCryptError Unit
  eccSigRsToDer : (r s : Bytes) → Except WolfCryptError Bytes
  eccFromPublicX963 : Bytes → Except WolfCryptError Unit
  eccVerifyHash : (pubKey derSig hash : Bytes) → Except WolfCryptError Bool
  rsaFromRawPublic : (n e : Bytes) → Except WolfCryptError Unit
  rsaVerifyPkcs1v15Raw : (n e sig : Bytes) → Except WolfCryptError Bytes

/-- The hash functions; SHA-1 is behind a feature. -/
structure Digests where
  sha1 : Option (Bytes → Bytes)
  sha256 : Bytes → Bytes
  sha384 : Bytes → Bytes
  sha512 : Bytes → Bytes

def Error.ofWolfCrypt : WolfCryptError → Error
  | .ffi func code => .wolfCrypt func code
  | .other => .crypto

def ofWolfCrypt {α : Type} : Except WolfCryptError α → Except Exit α
  | .ok a => .ok a
  | .error e => .error (.error (.ofWolfCrypt e))

/-- `signature::Error::from_source` on the error of a call. -/
def fromSource {α : Type} : Except Exit α → Except Exit α
  | .error (.error e) => .error (.signature (some e))
  | r => r

section
variable (C : Crates) (D : Digests) (W : WolfCrypt)

def ed25519Verify (pubKey message sig : Bytes) : Except Exit Unit := ofWolfCrypt (W.ed25519VerifyRaw pubKey message sig)

def Ed25519PublicKey.verify (key : Ed25519PublicKey) (message : Bytes) (s : Signature) : Except Exit Unit :=
  match s.algorithm with
  | .ed25519 => fromSource (ed25519Verify W key.bytes message s.data)
  | _ => .error (.signature none)

def splitSkSignature (s : Signature) : Except Exit (Bytes × Bytes) :=
  if s.data.length < skSignatureTrailerSize then .error lengthError
  else .ok (s.data.take (s.data.length - skSignatureTrailerSize), s.data.drop (s.data.length - skSignatureTrailerSize))

def makeSkSignedData (application : Text) (flagsAndCounter message : Bytes) : Bytes :=
  D.sha256 application.utf8 ++ flagsAndCounter ++ D.sha256 message

def SkEd25519.verify (key : SkEd25519) (message : Bytes) (s : Signature) : Except Exit Unit :=
  fromSource do
    let (sigPart, flagsAndCounter) ← splitSkSignature s
    ed25519Verify W key.publicKey.bytes (makeSkSignedData D key.application flagsAndCounter message) sigPart

def ecdsaHashMessage (curve : EcdsaCurve) (message : Bytes) : Bytes :=
  match curve with
  | .nistP256 => D.sha256 message
  | .nistP384 => D.sha384 message
  | .nistP521 => D.sha512 message

/-- The two integers at the front of an ECDSA signature; what follows them is not looked at. -/
def mpintPair : EStateM Exit Bytes (Bytes × Bytes) := do
  let r ← C.mpint.decode
  let s ← C.mpint.decode
  pure (r, s)

def sshSigToDer (data : Bytes) : Except Exit Bytes :=
  match (mpintPair C).run data with
  | .error e _ => .error e
  | .ok (r, s) _ =>
    match C.asPositiveBytes r, C.asPositiveBytes s with
    | some rBytes, some sBytes => ofWolfCrypt (W.eccSigRsToDer rBytes sBytes)
    | _, _ => .error (.error .crypto)

def ecdsaVerifyMessage (curve : EcdsaCurve) (publicKeySec1 message sshSigData : Bytes) : Except Exit Unit := do
  let hash := ecdsaHashMessage D curve message
  let derSig ← sshSigToDer C W sshSigData
  ofWolfCrypt (W.eccFromPublicX963 publicKeySec1)
  let valid ← ofWolfCrypt (W.eccVerifyHash publicKeySec1 derSig hash)
  if valid then .ok () else .error (.error .crypto)

def EcdsaPublicKey.verify (key : EcdsaPublicKey) (message : Bytes) (s : Signature) : Except Exit Unit :=
  match s.algorithm with
  | .ecdsa curve => fromSource (ecdsaVerifyMessage C D W curve key.point message s.data)
  | algorithm => .error (.signature (some (.algorithmUnsupported algorithm)))

def SkEcdsaSha2NistP256.verify (key : SkEcdsaSha2NistP256) (message : Bytes) (s : Signature) : Except Exit Unit :=
  fromSource do
    let (signatureBytes, flagsAndCounter) ← splitSkSignature s
    ecdsaVerifyMessage C D W .nistP256 key.ecPoint (makeSkSignedData D key.application flagsAndCounter message)
      signatureBytes

/-- The ASN.1 header of a `DigestInfo` and the digest. -/
def buildDigestInfo (hash : Option HashAlg) (message : Bytes) : Except Exit Bytes :=
  match hash with
  | some .sha256 => .ok ([0x30, 0x31, 0x30, 0x0d, 0x06, 0x09, 0x60, 0x86, 0x48, 0x01, 0x65, 0x03, 0x04, 0x02, 0x01, 0x05,
      0x00, 0x04, 0x20] ++ D.sha256 message)
  | some .sha512 => .ok ([0x30, 0x51, 0x30, 0x0d, 0x06, 0x09, 0x60, 0x86, 0x48, 0x01, 0x65, 0x03, 0x04, 0x02, 0x03, 0x05,
      0x00, 0x04, 0x40] ++ D.sha512 message)
  | none =>
    match D.sha1 with
    | some sha1 => .ok ([0x30, 0x21, 0x30, 0x09, 0x06, 0x05, 0x2b, 0x0e, 0x03, 0x02, 0x1a, 0x05, 0x00, 0x04, 0x14] ++
        sha1 message)
    | none => .error algorithmUnknown

def RsaPublicKey.verifyWith (n e : Bytes) (hash : Option HashAlg) (message : Bytes) (s : Signature) :
    Except Exit Unit := do
  ofWolfCrypt (W.rsaFromRawPublic n e)
  let recovered ← ofWolfCrypt (W.rsaVerifyPkcs1v15Raw n e s.data)
  let expected ← buildDigestInfo D hash message
  if recovered = expected then .ok () else .error (.signature none)

def RsaPublicKey.verify (key : RsaPublicKey) (message : Bytes) (s : Signature) : Except Exit Unit :=
  match s.algorithm with
  | .rsa hash =>
    match C.asPositiveBytes key.n, C.asPositiveBytes key.e with
    | some n, some e => fromSource (RsaPublicKey.verifyWith D W n e hash message s)
    | _, _ => .error (.signature none)
  | algorithm => .error (.signature (some (.algorithmUnsupported algorithm)))

def KeyData.verify (key : KeyData) (message : Bytes) (s : Signature) : Except Exit Unit :=
  match key with
  | .ecdsa pk => pk.verify C D W message s
  | .ed25519 pk => pk.verify W message s
  | .skEd25519 pk => pk.verify D W message s
  | .skEcdsaSha2NistP256 pk => pk.verify C D W message s
  | .rsa pk => pk.verify C D W message s
  | .dsa _ => .error (.signature (some (.algorithmUnsupported key.algorithm)))
  | .certificate _ => .error (.signature (some (.algorithmUnsupported key.algorithm)))
  | .other _ => .error (.signature (some (.algorithmUnsupported key.algorithm)))

end

/-! ## Whose algorithm -/

/-- The signature names the key's algorithm; for an RSA key, with any hash. -/
def KeyData.Owns (key : KeyData) (s : Signature) : Prop := s.algorithm.ofKey = key.algorithm

/-- The data starts with two positive integers. -/
def PositivePair (C : Crates) (data : Bytes) : Prop :=
  ∃ r s rest, (mpintPair C).run data = .ok (r, s) rest ∧ (C.asPositiveBytes r).isSome ∧ (C.asPositiveBytes s).isSome

/-- The signatures an ECDSA or a security key hands to wolfCrypt without having compared the algorithm with its own: the
data alone decides. -/
def Unchecked (C : Crates) : KeyData → Signature → Prop
  | .ecdsa _, s => (∃ curve, s.algorithm = .ecdsa curve) ∧ PositivePair C s.data
  | .skEd25519 _, s => skSignatureTrailerSize ≤ s.data.length
  | .skEcdsaSha2NistP256 _, s => skSignatureTrailerSize ≤ s.data.length ∧
      PositivePair C (s.data.take (s.data.length - skSignatureTrailerSize))
  | _, _ => False

/-- A wolfCrypt that finds every signature good. -/
def acceptAll : WolfCrypt where
  ed25519VerifyRaw _ _ _ := .ok ()
  eccSigRsToDer _ _ := .ok []
  eccFromPublicX963 _ := .ok ()
  eccVerifyHash _ _ _ := .ok true
  rsaFromRawPublic _ _ := .ok ()
  rsaVerifyPkcs1v15Raw _ _ _ := .ok []

section
variable {C : Crates} {D : Digests} {W : WolfCrypt} {message : Bytes} {s : Signature}

theorem fromSource_ok {α : Type} {r : Except Exit α} {a : α} : fromSource r = .ok a ↔ r = .ok a := by
  rcases r with e | b
  · cases e <;> simp [fromSource]
  · rfl

theorem positivePair_of_sshSigToDer {data der : Bytes} (h : sshSigToDer C W data = .ok der) : PositivePair C data := by
  unfold sshSigToDer at h
  split at h
  · cases h
  · rename_i r s rest hrun
    split at h
    · rename_i rBytes sBytes hr hs
      exact ⟨r, s, rest, hrun, by rw [hr]; rfl, by rw [hs]; rfl⟩
    · cases h

theorem sshSigToDer_acceptAll {data : Bytes} (h : PositivePair C data) : sshSigToDer C acceptAll data = .ok [] := by
  obtain ⟨r, s, rest, hrun, hr, hs⟩ := h
  obtain ⟨rBytes, hr⟩ := Option.isSome_iff_exists.1 hr
  obtain ⟨sBytes, hs⟩ := Option.isSome_iff_exists.1 hs
  simp only [sshSigToDer, hrun, hr, hs]
  rfl

theorem positivePair_of_ecdsaVerifyMessage {curve : EcdsaCurve} {pk data : Bytes}
    (h : ecdsaVerifyMessage C D W curve pk message data = .ok ()) : PositivePair C data := by
  obtain ⟨der, hder, -⟩ := Program.bind_ok.1 h
  exact positivePair_of_sshSigToDer hder

theorem ecdsaVerifyMessage_acceptAll {curve : EcdsaCurve} {pk data : Bytes} (h : PositivePair C data) :
    ecdsaVerifyMessage C D acceptAll curve pk message data = .ok () := by
  unfold ecdsaVerifyMessage
  rw [sshSigToDer_acceptAll h]
  rfl

theorem splitSkSignature_ok {sig trailer : Bytes} (h : splitSkSignature s = .ok (sig, trailer)) :
    skSignatureTrailerSize ≤ s.data.length ∧ sig = s.data.take (s.data.length - skSignatureTrailerSize) := by
  unfold splitSkSignature at h
  split at h
  · cases h
  · rename_i hlen
    cases h
    exact ⟨Nat.le_of_not_lt hlen, rfl⟩

/-- **An accepted signature is of the key's own algorithm, or went unchecked.** -/
theorem owns_or_unchecked {key : KeyData} (h : key.verify C D W message s = .ok ()) :
    key.Owns s ∨ Unchecked C key s := by
  cases key with
  | dsa pk => cases h
  | certificate cert => cases h
  | other pk => cases h
  | ed25519 pk =>
    left
    change Ed25519PublicKey.verify W pk message s = .ok () at h
    unfold Ed25519PublicKey.verify at h
    split at h
    · rename_i halg
      rw [KeyData.Owns, halg]
      rfl
    · cases h
  | rsa pk =>
    left
    change RsaPublicKey.verify C D W pk message s = .ok () at h
    unfold RsaPublicKey.verify at h
    split at h
    · rename_i hash halg
      rw [KeyData.Owns, halg]
      rfl
    · cases h
  | ecdsa pk =>
    right
    change EcdsaPublicKey.verify C D W pk message s = .ok () at h
    unfold EcdsaPublicKey.verify at h
    split at h
    · rename_i curve halg
      exact ⟨⟨curve, halg⟩, positivePair_of_ecdsaVerifyMessage (fromSource_ok.1 h)⟩
    · cases h
  | skEd25519 pk =>
    right
    obtain ⟨⟨sig, trailer⟩, hs, -⟩ := Program.bind_ok.1 (fromSource_ok.1 h)
    exact (splitSkSignature_ok hs).1
  | skEcdsaSha2NistP256 pk =>
    right
    obtain ⟨⟨sig, trailer⟩, hs, h⟩ := Program.bind_ok.1 (fromSource_ok.1 h)
    obtain ⟨hlen, hsig⟩ := splitSkSignature_ok hs
    exact ⟨hlen, hsig ▸ positivePair_of_ecdsaVerifyMessage h⟩

/-- **What goes unchecked is accepted** when wolfCrypt finds the bytes good. -/
theorem verify_acceptAll {key : KeyData} (h : Unchecked C key s) : key.verify C D acceptAll message s = .ok () := by
  cases key with
  | dsa pk => cases h
  | certificate cert => cases h
  | other pk => cases h
  | ed25519 pk => cases h
  | rsa pk => cases h
  | ecdsa pk =>
    obtain ⟨⟨curve, halg⟩, hpair⟩ := h
    show EcdsaPublicKey.verify C D acceptAll pk message s = .ok ()
    rw [EcdsaPublicKey.verify, halg]
    exact fromSource_ok.2 (ecdsaVerifyMessage_acceptAll hpair)
  | skEd25519 pk =>
    refine fromSource_ok.2 ?_
    rw [splitSkSignature, if_neg (Nat.not_lt.2 h)]
    rfl
  | skEcdsaSha2NistP256 pk =>
    obtain ⟨hlen, hpair⟩ := h
    refine fromSource_ok.2 ?_
    rw [splitSkSignature, if_neg (Nat.not_lt.2 hlen)]
    exact ecdsaVerifyMessage_acceptAll hpair

end

/-- **When only the key's own algorithm can be accepted**, whatever wolfCrypt answers: the signature names it already, or
its data does not get past the key's parsing. -/
theorem verify_own_algorithm_iff (C : Crates) (D : Digests) (key : KeyData) (message : Bytes) (s : Signature) :
    (∀ W : WolfCrypt, key.verify C D W message s = .ok () → key.Owns s) ↔ (key.Owns s ∨ ¬ Unchecked C key s) := by
  constructor
  · intro h
    by_cases hu : Unchecked C key s
    · exact .inl (h acceptAll (verify_acceptAll hu))
    · exact .inr hu
  · rintro (hown | hu) W hok
    · exact hown
    · rcases owns_or_unchecked hok with hown | hu'
      · exact hown
      · exact absurd hu' hu

/-- Three keys whose signatures are of another algorithm, each well formed for the algorithm it names: a P-256 key and
an `ecdsa-sha2-nistp384` signature, and the two security-key types and an `ssh-rsa` signature. -/
theorem other_algorithm_accepted : ∃ p256 skEd25519 skP256 : KeyData, ∃ ecdsa rsa : Signature,
    Signature.new Rfc4251.crates (.ecdsa .nistP384) [0, 0, 0, 1, 1, 0, 0, 0, 1, 1] = .ok ecdsa ∧
    Signature.new Rfc4251.crates (.rsa none) ([0, 0, 0, 1, 1, 0, 0, 0, 1, 1] ++ [1, 0, 0, 0, 9]) = .ok rsa ∧
    p256.algorithm = .ecdsa .nistP256 ∧ skEd25519.algorithm = .skEd25519 ∧ skP256.algorithm = .skEcdsaSha2NistP256 ∧
    ∀ (D : Digests) (message : Bytes), ∃ W : WolfCrypt,
      (p256.verify Rfc4251.crates D W message ecdsa = .ok () ∧ ¬ p256.Owns ecdsa) ∧
      (skEd25519.verify Rfc4251.crates D W message rsa = .ok () ∧ ¬ skEd25519.Owns rsa) ∧
      (skP256.verify Rfc4251.crates D W message rsa = .ok () ∧ ¬ skP256.Owns rsa) := by
  refine ⟨.ecdsa ⟨.nistP256, 4 :: List.replicate 64 7⟩, .skEd25519 ⟨⟨List.replicate 32 7, by decide⟩, "ssh:".toList⟩,
    .skEcdsaSha2NistP256 ⟨4 :: List.replicate 64 7, "ssh:".toList⟩, ⟨_, _⟩, ⟨_, _⟩, rfl, rfl, rfl, rfl, rfl,
    fun D message => ⟨acceptAll, ⟨rfl, ?_⟩, ⟨rfl, ?_⟩, ⟨rfl, ?_⟩⟩⟩
  · exact nofun
  · exact nofun
  · exact nofun

end Ssh
end Wolf
