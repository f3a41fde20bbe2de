import WolfsslRs.Bytes
/-!
# RingVerify — the verification keys of wolfcrypt-ring-compat

A public key is used for verification in two ways: `UnparsedPublicKey` keeps the bytes and parses them at every call,
`ParsedPublicKey` parses them once.  Each family of algorithms implements both, `VerificationAlgorithm` for the first and
`ParsedVerificationAlgorithm` for the second.  wolfCrypt is a parameter: `Evp` is how it reads keys and signatures, `Raw`
how it verifies, an arbitrary function of the key, what is signed and the signature.
-/
namespace Wolf
namespace Ring

/-! ## Digests -/

/-- `digest::AlgorithmID`; two algorithms are equal if their ids are. -/
inductive DigestAlgorithm where
  | sha1 | sha224 | sha256 | sha384 | sha512 | sha512_256 | sha3_256 | sha3_384 | sha3_512
  deriving DecidableEq, Repr

def DigestAlgorithm.outputLen : DigestAlgorithm → Nat
  | .sha1 => 20
  | .sha224 => 28
  | .sha256 | .sha512_256 | .sha3_256 => 32
  | .sha384 | .sha3_384 => 48
  | .sha512 | .sha3_512 => 64

structure Digest where
  algorithm : DigestAlgorithm
  message : Bytes
  length_eq : message.length = algorithm.outputLen
  deriving DecidableEq, Repr

/-- `Digest::import_less_safe`. -/
def Digest.importLessSafe (digest : Bytes) (algorithm : DigestAlgorithm) : Option Digest :=
  if h : digest.length = algorithm.outputLen then some ⟨algorithm, digest, h⟩ else none

/-! ## wolfCrypt -/

inductive KeyRejected where
  | inconsistentComponents | invalidEncoding | wrongAlgorithm | unexpectedError | unspecified
  deriving DecidableEq, Repr

/-- A verification that has not succeeded: `error::Unspecified`, or a panic. -/
inductive Failure where
  | unspecified
  | panicked
  deriving DecidableEq, Repr

abbrev Verdict := Except Failure Unit

/-- `EVP_PKEY_id`. -/
inductive PkeyType where
  | rsa | rsaPss | ec | ed25519 | x25519
  deriving DecidableEq, Repr

/-- The curves as wolfSSL numbers them. -/
inductive Nid where
  | prime256v1 | secp384r1 | secp521r1 | secp256k1
  | unlisted (code : Nat)
  deriving DecidableEq, Repr

/-- How wolfCrypt reads keys and signatures; `none` is a null pointer. -/
structure Evp (Pkey : Type) where
  d2iRsaPublicKey : Bytes → Option Pkey
  parsePublicKey : Bytes → Option Pkey
  newRawPublicKey : PkeyType → Bytes → Option Pkey
  id : Pkey → PkeyType
  /-- `EVP_PKEY_bits`, negative for a key it does not support -/
  bits : Pkey → Int
  /-- whether `ec_group_from_nid` finds the group of a curve -/
  hasGroup : Nid → Bool
  /-- `EC_POINT_oct2point` in the group of a curve, the point put in a key of its own -/
  oct2point : Nid → Bytes → Option Pkey
  /-- the curve of an EC key; a null key or group gives `none` -/
  curve : Pkey → Option Nid
  checkKey : Pkey → Bool
  /-- `i2d_ECDSA_SIG` of two numbers -/
  i2dEcdsaSig : Bytes → Bytes → Option Bytes
  /-- whether wolfSSL was built with the digest -/
  hasMd : DigestAlgorithm → Bool

/-- **How wolfCrypt verifies**: with a padding of its own (`true` for PSS) and the digest the context was given. -/
structure Raw (Pkey : Type) where
  ed25519 : Pkey → Bytes → Bytes → Bool
  message : Pkey → Option DigestAlgorithm → Bool → Bytes → Bytes → Bool
  digest : Pkey → Option DigestAlgorithm → Bool → Bytes → Bytes → Bool

section Verification

variable {Pkey : Type} (evp : Evp Pkey) (raw : Raw Pkey)

def verdict (ok : Bool) : Verdict := if ok then .ok () else .error .unspecified

/-- `match_digest_type`: the pointer to the digest, a panic where wolfSSL has none. -/
def matchDigestType (algorithm : DigestAlgorithm) : Verdict :=
  if evp.hasMd algorithm then .ok () else .error .panicked

/-- `LcPtr<EVP_PKEY>::verify`. -/
def verifyMessage (key : Pkey) (msg : Bytes) (digest : Option DigestAlgorithm) (pss : Bool) (signature : Bytes) :
    Verdict := do
  if evp.id key = .ed25519 then verdict (raw.ed25519 key msg signature)
  else
    match digest with
    | some algorithm => matchDigestType evp algorithm
    | none => pure ()
    verdict (raw.message key digest pss msg signature)

/-- `ConstPointer<EVP_PKEY>::key_size_bits`. -/
def keySizeBits (key : Pkey) : Except Failure Nat :=
  match evp.id key with
  | .ed25519 => pure 256
  | .x25519 => pure 253
  | _ => if evp.bits key < 0 then throw .panicked else pure (evp.bits key).toNat

def parseRfc5280PublicKey (bytes : Bytes) (type : PkeyType) : Except KeyRejected Pkey :=
  match evp.parsePublicKey bytes with
  | none => throw .invalidEncoding
  | some key => if evp.id key = type then pure key else throw .wrongAlgorithm

/-- `Result::or`. -/
def orElse (r r' : Except KeyRejected Pkey) : Except KeyRejected Pkey :=
  match r with
  | .ok key => .ok key
  | .error _ => r'

/-- A key a verification needs: every rejection is the one error. -/
def need (r : Except KeyRejected Pkey) : Except Failure Pkey :=
  match r with
  | .ok key => .ok key
  | .error _ => .error .unspecified

/-! ## RSA -/

inductive RsaPadding where
  | pkcs1
  | pkcs1Pss
  deriving DecidableEq, Repr

/-- `RsaParameters`: digest, padding and the range of modulus sizes. -/
structure RsaParameters where
  digestAlgorithm : DigestAlgorithm
  padding : RsaPadding
  minModulusLen : Nat
  maxModulusLen : Nat
  deriving DecidableEq, Repr

def RsaParameters.allows (p : RsaParameters) (bits : Nat) : Bool :=
  decide (p.minModulusLen ≤ bits ∧ bits ≤ p.maxModulusLen)

def rsaPkcs1_2048_8192_sha256 : RsaParameters := ⟨.sha256, .pkcs1, 2048, 8192⟩

def parseRsaPublicKey (input : Bytes) : Except KeyRejected Pkey :=
  match evp.d2iRsaPublicKey input with
  | some key => pure key
  | none => orElse (parseRfc5280PublicKey evp input .rsa) (parseRfc5280PublicKey evp input .rsaPss)

def checkModulus (p : RsaParameters) (key : Pkey) : Verdict := do
  let bits ← keySizeBits evp key
  if p.allows bits then pure () else throw .unspecified

def verifyRsaSignature (p : RsaParameters) (key : Pkey) (msg signature : Bytes) : Verdict := do
  checkModulus evp p key
  verifyMessage evp raw key msg (some p.digestAlgorithm) (decide (p.padding = .pkcs1Pss)) signature

/-- The digest's own algorithm goes into the context, not the one of the parameters. -/
def verifyRsaDigestSignature (p : RsaParameters) (key : Pkey) (digest : Digest) (signature : Bytes) : Verdict := do
  checkModulus evp p key
  matchDigestType evp digest.algorithm
  verdict (raw.digest key (some digest.algorithm) (decide (p.padding = .pkcs1Pss)) digest.message signature)

namespace RsaParameters

def parsedVerifySig (p : RsaParameters) (key : Pkey) (msg signature : Bytes) : Verdict :=
  verifyRsaSignature evp raw p key msg signature

def parsedVerifyDigestSig (p : RsaParameters) (key : Pkey) (digest : Digest) (signature : Bytes) : Verdict :=
  verifyRsaDigestSignature evp raw p key digest signature

def verifySig (p : RsaParameters) (publicKey msg signature : Bytes) : Verdict := do
  let key ← need (parseRsaPublicKey evp publicKey)
  verifyRsaSignature evp raw p key msg signature

def verifyDigestSig (p : RsaParameters) (publicKey : Bytes) (digest : Digest) (signature : Bytes) : Verdict := do
  if p.digestAlgorithm ≠ digest.algorithm then throw .unspecified
  else
    let key ← need (parseRsaPublicKey evp publicKey)
    verifyRsaDigestSignature evp raw p key digest signature

end RsaParameters

/-! ## ECDSA -/

/-- `ec::signature::AlgorithmID`. -/
inductive EcdsaAlgorithmID where
  | p256 | p384 | p521 | p256k1
  deriving DecidableEq, Repr

def EcdsaAlgorithmID.nid : EcdsaAlgorithmID → Nid
  | .p256 => .prime256v1
  | .p384 => .secp384r1
  | .p521 => .secp521r1
  | .p256k1 => .secp256k1

def EcdsaAlgorithmID.privateKeySize : EcdsaAlgorithmID → Nat
  | .p256 | .p256k1 => 32
  | .p384 => 48
  | .p521 => 66

inductive EcdsaSignatureFormat where
  | asn1
  | fixed
  deriving DecidableEq, Repr

structure EcdsaVerificationAlgorithm where
  id : EcdsaAlgorithmID
  digest : DigestAlgorithm
  sigFormat : EcdsaSignatureFormat
  deriving DecidableEq, Repr

def validateEcEvpKey (key : Pkey) (expectedCurveNid : Nid) : Except KeyRejected Pkey :=
  match evp.curve key with
  | none => throw .unexpectedError
  | some nid =>
    if nid ≠ expectedCurveNid then throw .wrongAlgorithm
    else if evp.checkKey key then pure key
    else throw .inconsistentComponents

def parseSec1PublicPoint (keyBytes : Bytes) (expectedCurveNid : Nid) : Except KeyRejected Pkey :=
  if evp.hasGroup expectedCurveNid then
    match evp.oct2point expectedCurveNid keyBytes with
    | none => throw .invalidEncoding
    | some key => validateEcEvpKey evp key expectedCurveNid
  else throw .unspecified

def parseEcPublicKey (keyBytes : Bytes) (expectedCurveNid : Nid) : Except KeyRejected Pkey := do
  let key ← orElse (parseRfc5280PublicKey evp keyBytes .ec) (parseSec1PublicPoint evp keyBytes expectedCurveNid)
  validateEcEvpKey evp key expectedCurveNid

/-- A signature of fixed width as the ASN.1 one wolfCrypt takes. -/
def convertFixedSignature (alg : EcdsaAlgorithmID) (signature : Bytes) : Except Failure Bytes :=
  if signature.length ≠ 2 * alg.privateKeySize then throw .unspecified
  else
    match evp.i2dEcdsaSig (signature.take alg.privateKeySize) (signature.drop alg.privateKeySize) with
    | none => throw .unspecified
    | some der => pure der

namespace EcdsaVerificationAlgorithm

def asn1 (a : EcdsaVerificationAlgorithm) (signature : Bytes) : Except Failure Bytes :=
  match a.sigFormat with
  | .asn1 => pure signature
  | .fixed => convertFixedSignature evp a.id signature

def verifyEcdsa (a : EcdsaVerificationAlgorithm) (msg signature : Bytes) (key : Pkey) : Verdict := do
  verifyMessage evp raw key msg (some a.digest) false (← asn1 evp a signature)

def verifyDigestEcdsa (a : EcdsaVerificationAlgorithm) (digest : Digest) (signature : Bytes) (key : Pkey) : Verdict := do
  if a.digest ≠ digest.algorithm then throw .unspecified
  else verdict (raw.digest key none false digest.message (← asn1 evp a signature))

def parsedVerifySig (a : EcdsaVerificationAlgorithm) (key : Pkey) (msg signature : Bytes) : Verdict :=
  verifyEcdsa evp raw a msg signature key

def parsedVerifyDigestSig (a : EcdsaVerificationAlgorithm) (key : Pkey) (digest : Digest) (signature : Bytes) : Verdict :=
  verifyDigestEcdsa evp raw a digest signature key

def verifySig (a : EcdsaVerificationAlgorithm) (publicKey msg signature : Bytes) : Verdict := do
  let key ← need (parseEcPublicKey evp publicKey a.id.nid)
  verifyEcdsa evp raw a msg signature key

def verifyDigestSig (a : EcdsaVerificationAlgorithm) (publicKey : Bytes) (digest : Digest) (signature : Bytes) :
    Verdict := do
  let key ← need (parseEcPublicKey evp publicKey a.id.nid)
  verifyDigestEcdsa evp raw a digest signature key

end EcdsaVerificationAlgorithm

/-! ## Ed25519 -/

def ed25519PublicKeyLen : Nat := 32

def parseEd25519PublicKey (keyBytes : Bytes) : Except KeyRejected Pkey :=
  if keyBytes.length = ed25519PublicKeyLen then
    match evp.newRawPublicKey .ed25519 keyBytes with
    | none => throw .invalidEncoding
    | some key => pure key
  else parseRfc5280PublicKey evp keyBytes .ed25519

namespace EdDSAParameters

def parsedVerifySig (key : Pkey) (msg signature : Bytes) : Verdict :=
  verifyMessage evp raw key msg none false signature

def verifySig (publicKey msg signature : Bytes) : Verdict := do
  let key ← need (parseEd25519PublicKey evp publicKey)
  verifyMessage evp raw key msg none false signature

/-- `verify_digest_sig` and `parsed_verify_digest_sig` alike: Ed25519 verifies no digest. -/
def verifyDigestSig : Verdict := .error .unspecified

end EdDSAParameters

/-! ## The two kinds of key -/

/-- The types that implement `VerificationAlgorithm`. -/
inductive VerificationAlgorithm where
  | rsa (p : RsaParameters)
  | ecdsa (a : EcdsaVerificationAlgorithm)
  | eddsa
  deriving DecidableEq, Repr

/-- The hash an algorithm names. -/
def VerificationAlgorithm.hash : VerificationAlgorithm → Option DigestAlgorithm
  | .rsa p => some p.digestAlgorithm
  | .ecdsa a => some a.digest
  | .eddsa => none

structure UnparsedPublicKey where
  algorithm : VerificationAlgorithm
  bytes : Bytes
  deriving DecidableEq, Repr

structure ParsedPublicKey (Pkey : Type) where
  algorithm : VerificationAlgorithm
  key : Pkey
  bytes : Bytes

def UnparsedPublicKey.verify (k : UnparsedPublicKey) (msg signature : Bytes) : Verdict :=
  match k.algorithm with
  | .rsa p => p.verifySig evp raw k.bytes msg signature
  | .ecdsa a => a.verifySig evp raw k.bytes msg signature
  | .eddsa => EdDSAParameters.verifySig evp raw k.bytes msg signature

def UnparsedPublicKey.verifyDigest (k : UnparsedPublicKey) (digest : Digest) (signature : Bytes) : Verdict :=
  match k.algorithm with
  | .rsa p => p.verifyDigestSig evp raw k.bytes digest signature
  | .ecdsa a => a.verifyDigestSig evp raw k.bytes digest signature
  | .eddsa => EdDSAParameters.verifyDigestSig

def parseKey (bytes : Bytes) : VerificationAlgorithm → Except KeyRejected Pkey
  | .rsa _ => parseRsaPublicKey evp bytes
  | .ecdsa a => parseEcPublicKey evp bytes a.id.nid
  | .eddsa => parseEd25519PublicKey evp bytes

def parsePublicKey (bytes : Bytes) (algorithm : VerificationAlgorithm) : Except KeyRejected (ParsedPublicKey Pkey) := do
  let key ← parseKey evp bytes algorithm
  return ⟨algorithm, key, bytes⟩

namespace ParsedPublicKey

def new (algorithm : VerificationAlgorithm) (bytes : Bytes) : Except KeyRejected (ParsedPublicKey Pkey) :=
  parsePublicKey evp bytes algorithm

def verifySig (k : ParsedPublicKey Pkey) (msg signature : Bytes) : Verdict :=
  match k.algorithm with
  | .rsa p => p.parsedVerifySig evp raw k.key msg signature
  | .ecdsa a => a.parsedVerifySig evp raw k.key msg signature
  | .eddsa => EdDSAParameters.parsedVerifySig evp raw k.key msg signature

def verifyDigestSig (k : ParsedPublicKey Pkey) (digest : Digest) (signature : Bytes) : Verdict :=
  match k.algorithm with
  | .rsa p => p.parsedVerifyDigestSig evp raw k.key digest signature
  | .ecdsa a => a.parsedVerifyDigestSig evp raw k.key digest signature
  | .eddsa => EdDSAParameters.verifyDigestSig

end ParsedPublicKey

end Verification

/-! ## Where the two agree -/

section Agreement

variable {Pkey : Type} {evp : Evp Pkey} {alg : VerificationAlgorithm} {bytes : Bytes} {k : ParsedPublicKey Pkey}

theorem ParsedPublicKey.new_ok (h : ParsedPublicKey.new evp alg bytes = .ok k) :
    k.algorithm = alg ∧ k.bytes = bytes ∧ parseKey evp bytes alg = .ok k.key := by
  rw [ParsedPublicKey.new, parsePublicKey] at h
  cases hkey : parseKey evp bytes alg with
  | error e => rw [hkey] at h; cases h
  | ok key =>
    rw [hkey] at h
    cases h
    exact ⟨rfl, rfl, rfl⟩

/-- **A message is verified alike**, whatever the algorithm. -/
theorem verifySig_eq_verify (h : ParsedPublicKey.new evp alg bytes = .ok k) (raw : Raw Pkey) (msg signature : Bytes) :
    k.verifySig evp raw msg signature = UnparsedPublicKey.verify evp raw ⟨alg, bytes⟩ msg signature := by
  obtain ⟨halg, -, hkey⟩ := ParsedPublicKey.new_ok h
  rw [ParsedPublicKey.verifySig, UnparsedPublicKey.verify, halg]
  cases alg with
  | rsa p =>
    have hkey : parseRsaPublicKey evp bytes = .ok k.key := hkey
    simp only [RsaParameters.verifySig, hkey]
    rfl
  | ecdsa a =>
    have hkey : parseEcPublicKey evp bytes a.id.nid = .ok k.key := hkey
    simp only [EcdsaVerificationAlgorithm.verifySig, hkey]
    rfl
  | eddsa =>
    have hkey : parseEd25519PublicKey evp bytes = .ok k.key := hkey
    simp only [EdDSAParameters.verifySig, hkey]
    rfl

/-- **A digest of the hash the algorithm names is verified alike.** -/
theorem verifyDigestSig_eq_verifyDigest (h : ParsedPublicKey.new evp alg bytes = .ok k) (raw : Raw Pkey) (digest : Digest)
    (signature : Bytes) (hhash : alg.hash = some digest.algorithm) :
    k.verifyDigestSig evp raw digest signature =
      UnparsedPublicKey.verifyDigest evp raw ⟨alg, bytes⟩ digest signature := by
  obtain ⟨halg, -, hkey⟩ := ParsedPublicKey.new_ok h
  rw [ParsedPublicKey.verifyDigestSig, UnparsedPublicKey.verifyDigest, halg]
  cases alg with
  | rsa p =>
    have hkey : parseRsaPublicKey evp bytes = .ok k.key := hkey
    have hp : p.digestAlgorithm = digest.algorithm := Option.some.inj hhash
    simp only [RsaParameters.verifyDigestSig, hkey, hp, ne_eq, not_true_eq_false, if_false]
    rfl
  | ecdsa a =>
    have hkey : parseEcPublicKey evp bytes a.id.nid = .ok k.key := hkey
    simp only [EcdsaVerificationAlgorithm.verifyDigestSig, hkey]
    rfl
  | eddsa => rfl

/-- **A digest of another hash is refused by the unparsed key**, whatever the algorithm. -/
theorem verifyDigest_other_hash (h : ParsedPublicKey.new evp alg bytes = .ok k) (raw : Raw Pkey) (digest : Digest)
    (signature : Bytes) (hhash : alg.hash ≠ some digest.algorithm) :
    UnparsedPublicKey.verifyDigest evp raw ⟨alg, bytes⟩ digest signature = .error .unspecified := by
  obtain ⟨-, -, hkey⟩ := ParsedPublicKey.new_ok h
  cases alg with
  | rsa p =>
    have hp : p.digestAlgorithm ≠ digest.algorithm := fun heq => hhash (congrArg some heq)
    simp only [UnparsedPublicKey.verifyDigest, RsaParameters.verifyDigestSig, if_pos hp]
    rfl
  | ecdsa a =>
    have ha : a.digest ≠ digest.algorithm := fun heq => hhash (congrArg some heq)
    have hkey : parseEcPublicKey evp bytes a.id.nid = .ok k.key := hkey
    simp only [UnparsedPublicKey.verifyDigest, EcdsaVerificationAlgorithm.verifyDigestSig, hkey,
      EcdsaVerificationAlgorithm.verifyDigestEcdsa, if_pos ha]
    rfl
  | eddsa => rfl

/-- Whether a parsed key refuses a digest of another hash: ECDSA and Ed25519 keys look at the hash, an RSA key refuses
only if its modulus has a size the algorithm does not allow. -/
def VerificationAlgorithm.refusesOthers (evp : Evp Pkey) (key : Pkey) : VerificationAlgorithm → Prop
  | .rsa p => ∃ bits, keySizeBits evp key = .ok bits ∧ p.allows bits = false
  | _ => True

/-- wolfCrypt accepting everything. -/
def Raw.accepting : Raw Pkey := ⟨fun _ _ _ => true, fun _ _ _ _ _ => true, fun _ _ _ _ _ => true⟩

theorem keySizeBits_error {key : Pkey} {e : Failure} (h : keySizeBits evp key = .error e) : e = .panicked := by
  unfold keySizeBits at h
  split at h
  · cases h
  · cases h
  · split at h
    · cases h
      rfl
    · cases h

theorem checkModulus_ok {key : Pkey} {bits : Nat} (h : keySizeBits evp key = .ok bits) (p : RsaParameters) :
    checkModulus evp p key = if p.allows bits then .ok () else .error .unspecified := by
  rw [checkModulus, h]
  rfl

/-- An RSA digest verification is refused, whatever wolfCrypt says, exactly for the size of the modulus. -/
theorem verifyRsaDigestSignature_refused_iff (p : RsaParameters) (key : Pkey) (digest : Digest) :
    (∀ (raw : Raw Pkey) (signature : Bytes),
        verifyRsaDigestSignature evp raw p key digest signature = .error .unspecified) ↔
      ∃ bits, keySizeBits evp key = .ok bits ∧ p.allows bits = false := by
  unfold verifyRsaDigestSignature
  cases hbits : keySizeBits evp key with
  | error e =>
    -- a size that cannot be told is a panic, not a refusal
    cases keySizeBits_error hbits
    rw [checkModulus, hbits]
    refine ⟨fun hall => ?_, fun ⟨_, hok, _⟩ => by cases hok⟩
    cases hall Raw.accepting []
  | ok bits =>
    rw [checkModulus_ok hbits]
    cases hallow : p.allows bits with
    | false => exact ⟨fun _ => ⟨bits, rfl, hallow⟩, fun _ _ _ => rfl⟩
    | true =>
      refine ⟨fun hall => ?_, fun ⟨bits', hok, hno⟩ => ?_⟩
      · have hacc := hall Raw.accepting []
        rw [if_pos rfl, matchDigestType] at hacc
        cases hmd : evp.hasMd digest.algorithm with
        | false =>
          rw [hmd] at hacc
          cases hacc
        | true =>
          rw [hmd] at hacc
          cases hacc
      · cases hok
        rw [hallow] at hno
        cases hno

/-- **What a parsed key makes of a digest of another hash.** -/
theorem verifyDigestSig_other_hash_iff (h : ParsedPublicKey.new evp alg bytes = .ok k) (digest : Digest)
    (hhash : alg.hash ≠ some digest.algorithm) :
    (∀ (raw : Raw Pkey) (signature : Bytes), k.verifyDigestSig evp raw digest signature = .error .unspecified) ↔
      alg.refusesOthers evp k.key := by
  obtain ⟨halg, -, -⟩ := ParsedPublicKey.new_ok h
  simp only [ParsedPublicKey.verifyDigestSig, halg]
  cases alg with
  | rsa p => exact verifyRsaDigestSignature_refused_iff p k.key digest
  | ecdsa a =>
    have ha : a.digest ≠ digest.algorithm := fun heq => hhash (congrArg some heq)
    refine ⟨fun _ => trivial, fun _ raw signature => ?_⟩
    simp only [EcdsaVerificationAlgorithm.parsedVerifyDigestSig, EcdsaVerificationAlgorithm.verifyDigestEcdsa, if_pos ha]
    rfl
  | eddsa => exact ⟨fun _ => trivial, fun _ _ _ => rfl⟩

/-- **Where a parsed key gives the verdicts of the unparsed one**, whatever wolfCrypt's verification says: messages always,
and a digest exactly if it is of the hash the algorithm names or the key refuses others. -/
theorem parsed_agrees_iff (evp : Evp Pkey) (alg : VerificationAlgorithm) (bytes : Bytes) (k : ParsedPublicKey Pkey)
    (hk : ParsedPublicKey.new evp alg bytes = .ok k) (digest : Digest) :
    (∀ (raw : Raw Pkey) (msg signature : Bytes),
        k.verifySig evp raw msg signature = UnparsedPublicKey.verify evp raw ⟨alg, bytes⟩ msg signature ∧
          k.verifyDigestSig evp raw digest signature =
            UnparsedPublicKey.verifyDigest evp raw ⟨alg, bytes⟩ digest signature ∧
          (alg.hash ≠ some digest.algorithm →
            k.verifyDigestSig evp raw digest signature = .error .unspecified ∧
              UnparsedPublicKey.verifyDigest evp raw ⟨alg, bytes⟩ digest signature = .error .unspecified)) ↔
      alg.hash = some digest.algorithm ∨ alg.refusesOthers evp k.key := by
  by_cases hhash : alg.hash = some digest.algorithm
  · refine ⟨fun _ => .inl hhash, fun _ raw msg signature => ?_⟩
    exact ⟨verifySig_eq_verify hk raw msg signature, verifyDigestSig_eq_verifyDigest hk raw digest signature hhash,
      fun hne => absurd hhash hne⟩
  · have hother := verifyDigestSig_other_hash_iff hk digest hhash
    refine ⟨fun hall => .inr (hother.1 fun raw signature => ((hall raw [] signature).2.2 hhash).1), fun h => ?_⟩
    have hrefused := hother.2 (h.resolve_left hhash)
    intro raw msg signature
    have hun := verifyDigest_other_hash hk raw digest signature hhash
    exact ⟨verifySig_eq_verify hk raw msg signature, (hrefused raw signature).trans hun.symm,
      fun _ => ⟨hrefused raw signature, hun⟩⟩

end Agreement

/-- A wolfCrypt that reads every string as a 2048-bit RSA key. -/
def rsa2048 : Evp Unit where
  d2iRsaPublicKey _ := some ()
  parsePublicKey _ := none
  newRawPublicKey _ _ := none
  id _ := .rsa
  bits _ := 2048
  hasGroup _ := true
  oct2point _ _ := none
  curve _ := none
  checkKey _ := true
  i2dEcdsaSig _ _ := none
  hasMd _ := true

/-- The digest of the SHA-1 hash, and of no message in particular. -/
def sha1Digest : Digest := ⟨.sha1, List.replicate 20 7, rfl⟩

theorem parsed_agrees_iff_sha256 :
    ∃ k, ParsedPublicKey.new rsa2048 (.rsa rsaPkcs1_2048_8192_sha256) [48, 0] = .ok k ∧
      ((∀ (raw : Raw Unit) (msg signature : Bytes),
          k.verifySig rsa2048 raw msg signature =
              UnparsedPublicKey.verify rsa2048 raw ⟨.rsa rsaPkcs1_2048_8192_sha256, [48, 0]⟩ msg signature ∧
            k.verifyDigestSig rsa2048 raw sha1Digest signature =
              UnparsedPublicKey.verifyDigest rsa2048 raw ⟨.rsa rsaPkcs1_2048_8192_sha256, [48, 0]⟩ sha1Digest signature ∧
            (VerificationAlgorithm.hash (.rsa rsaPkcs1_2048_8192_sha256) ≠ some sha1Digest.algorithm →
              k.verifyDigestSig rsa2048 raw sha1Digest signature = .error .unspecified ∧
                UnparsedPublicKey.verifyDigest rsa2048 raw ⟨.rsa rsaPkcs1_2048_8192_sha256, [48, 0]⟩ sha1Digest
                  signature = .error .unspecified)) ↔
        VerificationAlgorithm.hash (.rsa rsaPkcs1_2048_8192_sha256) = some sha1Digest.algorithm ∨
          VerificationAlgorithm.refusesOthers rsa2048 k.key (.rsa rsaPkcs1_2048_8192_sha256)) :=
  ⟨_, rfl, parsed_agrees_iff rsa2048 (.rsa rsaPkcs1_2048_8192_sha256) [48, 0] _ rfl sha1Digest⟩

/-- wolfCrypt on a signature made over a SHA-1 digest: it verifies if the context is set to SHA-1. -/
def signedWithSha1 : Raw Unit where
  ed25519 _ _ _ := false
  message _ md _ _ _ := md = some .sha1
  digest _ md _ _ _ := md = some .sha1

/-- **A SHA-1 signature passes the parsed key of a SHA-256 algorithm** and is refused by the unparsed one. -/
theorem sha1_signature_accepted_parsed :
    ∃ k, ParsedPublicKey.new rsa2048 (.rsa rsaPkcs1_2048_8192_sha256) [48, 0] = .ok k ∧
      k.verifyDigestSig rsa2048 signedWithSha1 sha1Digest [1] = .ok () ∧
      UnparsedPublicKey.verifyDigest rsa2048 signedWithSha1 ⟨.rsa rsaPkcs1_2048_8192_sha256, [48, 0]⟩ sha1Digest [1] =
        .error .unspecified :=
  ⟨_, rfl, rfl, rfl⟩

end Ring
end Wolf
