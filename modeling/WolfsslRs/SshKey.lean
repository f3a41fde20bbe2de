import WolfsslRs.SshEncoding
import Mathlib.Data.List.Chain
/-!
# SshKey — public keys, signatures and certificates (`public/`, `signature.rs`, `certificate.rs`)

The key types, `KeyData` and `Certificate` with their decoders, encoders and announced lengths.  A certificate's
signature key is a key that may be a certificate again, so decoding is followed through a given number of nestings; a
nesting takes bytes of its own, and the length of the input is number enough (`SshSpelling`).
-/
namespace Wolf
namespace Ssh

open Reader

/-! ## Key types -/

structure DsaPublicKey where
  p : Bytes
  q : Bytes
  g : Bytes
  y : Bytes
  deriving DecidableEq

/-- The variants of `EcdsaPublicKey`, with the point as its SEC1 bytes. -/
structure EcdsaPublicKey where
  curve : EcdsaCurve
  point : Bytes
  deriving DecidableEq

structure Ed25519PublicKey where
  bytes : Bytes
  size : bytes.length = 32
  deriving DecidableEq

structure RsaPublicKey where
  e : Bytes
  n : Bytes
  bits : Nat
  deriving DecidableEq

structure SkEcdsaSha2NistP256 where
  ecPoint : Bytes
  application : Text
  deriving DecidableEq

structure SkEd25519 where
  publicKey : Ed25519PublicKey
  application : Text
  deriving DecidableEq

structure OpaquePublicKey where
  algorithm : Algorithm
  key : Bytes
  deriving DecidableEq

inductive CertType where
  | user
  | host
  deriving DecidableEq

/-- A `BTreeMap<String, String>`, as its entries in the order of their names. -/
structure OptionsMap where
  entries : List (Text × Text)
  sorted : (entries.map Prod.fst).IsChain (· < ·)
  deriving DecidableEq

structure Signature where
  algorithm : Algorithm
  data : Bytes
  deriving DecidableEq

mutual

inductive KeyData where
  | dsa (key : DsaPublicKey)
  | ecdsa (key : EcdsaPublicKey)
  | ed25519 (key : Ed25519PublicKey)
  | rsa (key : RsaPublicKey)
  | skEcdsaSha2NistP256 (key : SkEcdsaSha2NistP256)
  | skEd25519 (key : SkEd25519)
  | certificate (cert : Certificate)
  | other (key : OpaquePublicKey)

structure Certificate where
  nonce : Bytes
  publicKey : KeyData
  serial : UInt64
  certType : CertType
  keyId : Text
  validPrincipals : List Text
  validAfter : UInt64
  validBefore : UInt64
  criticalOptions : OptionsMap
  extensions : OptionsMap
  reserved : Bytes
  signatureKey : KeyData
  signature : Signature
  comment : Bytes

end

deriving instance DecidableEq for KeyData, Certificate

mutual

def KeyData.algorithm : KeyData → Algorithm
  | .dsa _ => .dsa
  | .ecdsa key => .ecdsa key.curve
  | .ed25519 _ => .ed25519
  | .rsa _ => .rsa none
  | .skEcdsaSha2NistP256 _ => .skEcdsaSha2NistP256
  | .skEd25519 _ => .skEd25519
  | .certificate cert => cert.algorithm
  | .other key => key.algorithm

def Certificate.algorithm : Certificate → Algorithm
  | ⟨_, publicKey, _, _, _, _, _, _, _, _, _, _, _, _⟩ => publicKey.algorithm

end

def KeyData.isCertificate : KeyData → Bool
  | .certificate _ => true
  | _ => false

/-! ## Decoding -/

section
variable (C : Crates)

def formatError : Exit := .error .formatEncoding
def algorithmUnknown : Exit := .error .algorithmUnknown

def DsaPublicKey.new (p q g y : Bytes) : Except Exit DsaPublicKey :=
  if C.isPositive p && C.isPositive q && C.isPositive g && C.isPositive y then .ok ⟨p, q, g, y⟩ else .error formatError

def DsaPublicKey.decode : EStateM Exit Bytes DsaPublicKey := do
  let p ← C.mpint.decode
  let q ← C.mpint.decode
  let g ← C.mpint.decode
  let y ← C.mpint.decode
  orThrow (DsaPublicKey.new C p q g y)

def RsaPublicKey.new (e n : Bytes) : Except Exit RsaPublicKey :=
  if !C.isPositive e then .error formatError else
    match C.asPositiveBytes n with
    | some bytes => if bytes.length * 8 < 2 ^ 32 then .ok ⟨e, n, bytes.length * 8⟩ else .error formatError
    | none => .error formatError

def RsaPublicKey.decode : EStateM Exit Bytes RsaPublicKey := do
  let e ← C.mpint.decode
  let n ← C.mpint.decode
  orThrow (RsaPublicKey.new C e n)

def Ed25519PublicKey.decode : EStateM Exit Bytes Ed25519PublicKey := do
  let bytes ← C.readPrefixed (take lengthError 32)
  pure ⟨bytes.1, bytes.2⟩

def EcdsaPublicKey.maxSize : Nat := 133

/-- The size of the coordinates, by the tag in front of a point. -/
def sec1PointSize (tag : UInt8) (rest : Bytes) : Except Exit Nat :=
  if tag = 2 ∨ tag = 3 then .ok rest.length
  else if tag = 4 then .ok (rest.length / 2)
  else if tag = 0 ∨ tag = 5 then .error algorithmUnknown
  else .error (.error .ecdsa)

def EcdsaPublicKey.ofPoint (curve : EcdsaCurve) (bytes : Bytes) : Except Exit EcdsaPublicKey :=
  if C.encodedPoint curve bytes then .ok ⟨curve, bytes⟩ else .error (.error .ecdsa)

def EcdsaPublicKey.fromSec1Bytes (bytes : Bytes) : Except Exit EcdsaPublicKey :=
  match bytes with
  | [] => .error lengthError
  | tag :: rest => do
    let pointSize ← sec1PointSize tag rest
    if pointSize = 32 then EcdsaPublicKey.ofPoint C .nistP256 bytes
    else if pointSize = 48 then EcdsaPublicKey.ofPoint C .nistP384 bytes
    else if pointSize = 66 then EcdsaPublicKey.ofPoint C .nistP521 bytes
    else .error lengthError

def EcdsaPublicKey.decode : EStateM Exit Bytes EcdsaPublicKey := do
  let curve ← C.decodeLabel EcdsaCurve.fromStr
  let bytes ← C.byten EcdsaPublicKey.maxSize
  let key ← orThrow (EcdsaPublicKey.fromSec1Bytes C bytes)
  if key.curve = curve then pure key else throw algorithmUnknown

def SkEcdsaSha2NistP256.decode : EStateM Exit Bytes SkEcdsaSha2NistP256 := do
  let curve ← C.decodeLabel EcdsaCurve.fromStr
  if curve ≠ .nistP256 then throw (.error .crypto) else
    let ecPoint ← C.byten 65
    if C.encodedPoint .nistP256 ecPoint then
      let application ← C.string.decode
      pure ⟨ecPoint, application⟩
    else throw (.error .ecdsa)

def SkEd25519.decode : EStateM Exit Bytes SkEd25519 := do
  let publicKey ← Ed25519PublicKey.decode C
  let application ← C.string.decode
  pure ⟨publicKey, application⟩

def OpaquePublicKey.decodeAs (algorithm : Algorithm) : EStateM Exit Bytes OpaquePublicKey := do
  let len ← C.usize.decode
  let bytes ← take lengthError len
  pure ⟨algorithm, bytes.1⟩

def KeyData.decodeAs : Algorithm → EStateM Exit Bytes KeyData
  | .dsa => .dsa <$> DsaPublicKey.decode C
  | .ecdsa curve => do
    let key ← EcdsaPublicKey.decode C
    if key.curve = curve then pure (.ecdsa key) else throw algorithmUnknown
  | .ed25519 => .ed25519 <$> Ed25519PublicKey.decode C
  | .rsa _ => .rsa <$> RsaPublicKey.decode C
  | .skEcdsaSha2NistP256 => .skEcdsaSha2NistP256 <$> SkEcdsaSha2NistP256.decode C
  | .skEd25519 => .skEd25519 <$> SkEd25519.decode C
  | .other name => .other <$> OpaquePublicKey.decodeAs C (.other name)

def CertType.fromU32 (n : UInt32) : Except Exit CertType :=
  if n = 1 then .ok .user else if n = 2 then .ok .host else .error formatError

def CertType.toU32 : CertType → UInt32
  | .user => 1
  | .host => 2

def CertType.decode : EStateM Exit Bytes CertType := do
  let n ← C.u32.decode
  orThrow (CertType.fromU32 n)

/-- The next entry, whose name has to be after the last one's. -/
def OptionsMap.push (m : OptionsMap) (name data : Text) : Except Exit OptionsMap :=
  if h : ∀ prev ∈ (m.entries.map Prod.fst).getLast?, prev < name then
    .ok ⟨m.entries ++ [(name, data)], by
      rw [List.map_append]
      refine List.isChain_append.2 ⟨m.sorted, by simp, ?_⟩
      intro x hx y hy
      cases hy
      exact h x hx⟩
  else .error formatError

def OptionsMap.new : OptionsMap := ⟨[], by simp⟩

/-- The value of an option: a string in a block of its own, or an empty block. -/
def OptionsMap.decodeData : EStateM Exit Bytes Text := do
  if (← get) = [] then pure [] else C.string.decode

def OptionsMap.decodeEntry (m : OptionsMap) : EStateM Exit Bytes OptionsMap := do
  let name ← C.string.decode
  let data ← C.readPrefixed (OptionsMap.decodeData C)
  orThrow (m.push name data)

def OptionsMap.decode : EStateM Exit Bytes OptionsMap :=
  C.readPrefixed (whileUnread .running (OptionsMap.decodeEntry C) OptionsMap.new)

def dsaSignatureSize : Nat := 40
def ed25519SignatureSize : Nat := 64
/-- flags and counter -/
def skSignatureTrailerSize : Nat := 5
def skEd25519SignatureSize : Nat := ed25519SignatureSize + skSignatureTrailerSize

/-- One of the two integers of an ECDSA signature. -/
def ecdsaComponent (curve : EcdsaCurve) : EStateM Exit Bytes Unit := do
  let component ← C.mpint.decode
  match C.asPositiveBytes component with
  | none => throw formatError
  | some bytes => if bytes.length > curve.fieldSize then throw lengthError else pure ()

def ecdsaSigSize (data : Bytes) (curve : EcdsaCurve) (skTrailer : Bool) : Except Exit Unit :=
  finish (do
    ecdsaComponent C curve
    ecdsaComponent C curve
    if skTrailer then
      let _ ← take lengthError skSignatureTrailerSize) data

/-- The check of `Signature::new` that the data is well formed for the algorithm. -/
def Signature.validate (algorithm : Algorithm) (data : Bytes) : Except Exit Unit :=
  match algorithm with
  | .dsa => if data.length = dsaSignatureSize then .ok () else .error lengthError
  | .ecdsa curve => ecdsaSigSize C data curve false
  | .ed25519 => if data.length = ed25519SignatureSize then .ok () else .error lengthError
  | .skEd25519 => if data.length = skEd25519SignatureSize then .ok () else .error lengthError
  | .skEcdsaSha2NistP256 => ecdsaSigSize C data .nistP256 true
  | .rsa _ => .ok ()
  | .other _ => if data ≠ [] then .ok () else .error lengthError

def Signature.new (algorithm : Algorithm) (data : Bytes) : Except Exit Signature := do
  Signature.validate C algorithm data
  .ok ⟨algorithm, data⟩

def Algorithm.isSk (algorithm : Algorithm) : Bool :=
  algorithm = .skEd25519 || algorithm = .skEcdsaSha2NistP256

def Signature.decode : EStateM Exit Bytes Signature := do
  let algorithm ← C.decodeLabel Algorithm.fromStr
  let data ← C.bytes.decode
  if algorithm.isSk then
    let flags ← C.u8.decode
    let counter ← C.u32.decode
    orThrow (Signature.new C algorithm (data ++ [flags] ++ beBytes 4 counter.toNat))
  else orThrow (Signature.new C algorithm data)

/-- `Certificate::decode_as`, with the decoder of the signature key. -/
def Certificate.decodeAs (key : EStateM Exit Bytes KeyData) (algorithm : Algorithm) : EStateM Exit Bytes Certificate := do
  let nonce ← C.bytes.decode
  let publicKey ← KeyData.decodeAs C algorithm
  let serial ← C.u64.decode
  let certType ← CertType.decode C
  let keyId ← C.string.decode
  let validPrincipals ← C.strings.decode
  let validAfter ← C.u64.decode
  let validBefore ← C.u64.decode
  let criticalOptions ← OptionsMap.decode C
  let extensions ← OptionsMap.decode C
  let reserved ← C.bytes.decode
  let signatureKey ← C.readPrefixed key
  let signature ← C.readPrefixed (Signature.decode C)
  pure ⟨nonce, publicKey, serial, certType, keyId, validPrincipals, validAfter, validBefore, criticalOptions, extensions,
    reserved, signatureKey, signature, []⟩

/-- `KeyData::decode` through at most `depth` nestings of certificates. -/
def KeyData.decodeNested : Nat → EStateM Exit Bytes KeyData
  | 0 => throw .running
  | depth + 1 => do
    let algorithm ← C.decodeLabel Algorithm.fromStr
    match algorithm with
    | .other name =>
      match Algorithm.newCertificate name.asStr with
      | .ok certificateAlgorithm =>
        .certificate <$> Certificate.decodeAs C (KeyData.decodeNested depth) certificateAlgorithm
      | .error _ => KeyData.decodeAs C algorithm
    | _ => KeyData.decodeAs C algorithm

def KeyData.decode : EStateM Exit Bytes KeyData := do
  let bs ← get
  KeyData.decodeNested C (bs.length + 1)

def Certificate.decode : EStateM Exit Bytes Certificate := do
  let bs ← get
  let id ← C.string.decode
  let algorithm ← orThrow (Algorithm.newCertificate id)
  Certificate.decodeAs C (KeyData.decodeNested C (bs.length + 1)) algorithm

def Certificate.fromBytes (bytes : Bytes) : Except Exit Certificate := finish (Certificate.decode C) bytes

/-! ## Encoding -/

def DsaPublicKey.encodedLen (key : DsaPublicKey) : Except Exit Nat :=
  C.total [C.mpint.encodedLen key.p, C.mpint.encodedLen key.q, C.mpint.encodedLen key.g, C.mpint.encodedLen key.y]

def DsaPublicKey.encode (key : DsaPublicKey) : Except Exit Bytes :=
  cat [C.mpint.encode key.p, C.mpint.encode key.q, C.mpint.encode key.g, C.mpint.encode key.y]

def RsaPublicKey.encodedLen (key : RsaPublicKey) : Except Exit Nat :=
  C.total [C.mpint.encodedLen key.e, C.mpint.encodedLen key.n]

def RsaPublicKey.encode (key : RsaPublicKey) : Except Exit Bytes :=
  cat [C.mpint.encode key.e, C.mpint.encode key.n]

def Ed25519PublicKey.encodedLen (_ : Ed25519PublicKey) : Except Exit Nat := C.total [.ok 4, .ok 32]

def Ed25519PublicKey.encode (key : Ed25519PublicKey) : Except Exit Bytes := C.bytes.encode key.bytes

def EcdsaPublicKey.encodedLen (key : EcdsaPublicKey) : Except Exit Nat :=
  C.total [C.string.encodedLen key.curve.asStr, .ok 4, .ok key.point.length]

def EcdsaPublicKey.encode (key : EcdsaPublicKey) : Except Exit Bytes :=
  cat [C.string.encode key.curve.asStr, C.bytes.encode key.point]

def SkEcdsaSha2NistP256.encodedLen (key : SkEcdsaSha2NistP256) : Except Exit Nat :=
  C.total [C.string.encodedLen EcdsaCurve.nistP256.asStr, C.bytes.encodedLen key.ecPoint,
    C.string.encodedLen key.application]

def SkEcdsaSha2NistP256.encode (key : SkEcdsaSha2NistP256) : Except Exit Bytes :=
  cat [C.string.encode EcdsaCurve.nistP256.asStr, C.bytes.encode key.ecPoint, C.string.encode key.application]

def SkEd25519.encodedLen (key : SkEd25519) : Except Exit Nat :=
  C.total [key.publicKey.encodedLen C, C.string.encodedLen key.application]

def SkEd25519.encode (key : SkEd25519) : Except Exit Bytes :=
  cat [key.publicKey.encode C, C.string.encode key.application]

def CertType.encode (t : CertType) : Except Exit Bytes := C.u32.encode t.toU32

def OptionsMap.encodedLen (m : OptionsMap) : Except Exit Nat :=
  m.entries.foldlM (fun acc entry => C.total [.ok acc, C.string.encodedLen entry.1,
    if entry.2 = [] then .ok 4 else C.encodedLenPrefixed (C.string.encodedLen entry.2)]) 4

def OptionsMap.encodeEntry (entry : Text × Text) : Except Exit Bytes :=
  cat [C.string.encode entry.1,
    if entry.2 = [] then C.usize.encode 0
    else C.encodePrefixed (C.string.encodedLen entry.2) (C.string.encode entry.2)]

def OptionsMap.encode (m : OptionsMap) : Except Exit Bytes := do
  let len ← m.encodedLen C
  if len < 4 then .error lengthError else
    cat (C.usize.encode (len - 4) :: m.entries.map (OptionsMap.encodeEntry C))

def Signature.isPlaceholder (s : Signature) : Bool := s.algorithm = .ed25519 && s.data.isEmpty

def Signature.encodedLen (s : Signature) : Except Exit Nat :=
  C.total [C.string.encodedLen s.algorithm.asStr, C.bytes.encodedLen s.data]

def Signature.encode (s : Signature) : Except Exit Bytes :=
  if s.isPlaceholder then .error lengthError else
    cat [C.string.encode s.algorithm.asStr,
      if s.algorithm.isSk then
        if s.data.length < skSignatureTrailerSize then .error lengthError else
          cat [C.bytes.encode (s.data.take (s.data.length - skSignatureTrailerSize)),
            .ok (s.data.drop (s.data.length - skSignatureTrailerSize))]
      else C.bytes.encode s.data]

/-- The length of a key from that of its data: a certificate brings its own algorithm. -/
def KeyData.labelledLen (key : KeyData) (dataLen : Except Exit Nat) : Except Exit Nat :=
  if key.isCertificate then dataLen else C.total [C.string.encodedLen key.algorithm.asStr, dataLen]

/-- A key from its data: a certificate brings its own algorithm. -/
def KeyData.labelled (key : KeyData) (data : Except Exit Bytes) : Except Exit Bytes :=
  if key.isCertificate then data else cat [C.string.encode key.algorithm.asStr, data]

/-- `Certificate::encoded_len`, from the lengths of the two keys. -/
def Certificate.lenOf (cert : Certificate) (publicKey signatureKey : Except Exit Nat) : Except Exit Nat :=
  C.total [do C.string.encodedLen (← cert.algorithm.toCertificateType), C.bytes.encodedLen cert.nonce, publicKey,
    C.u64.encodedLen cert.serial, .ok 4, C.string.encodedLen cert.keyId, C.strings.encodedLen cert.validPrincipals,
    C.u64.encodedLen cert.validAfter, C.u64.encodedLen cert.validBefore, cert.criticalOptions.encodedLen C,
    cert.extensions.encodedLen C, C.bytes.encodedLen cert.reserved, C.encodedLenPrefixed signatureKey,
    C.encodedLenPrefixed (cert.signature.encodedLen C)]

/-- `Certificate::encode_tbs`, from the data of the public key and the announced length and bytes of the signature
key. -/
def Certificate.tbsOf (cert : Certificate) (publicKey : Except Exit Bytes) (signatureLen : Except Exit Nat)
    (signatureKey : Except Exit Bytes) : Except Exit Bytes :=
  cat [do C.string.encode (← cert.algorithm.toCertificateType), C.bytes.encode cert.nonce, publicKey,
    C.u64.encode cert.serial, cert.certType.encode C, C.string.encode cert.keyId, C.strings.encode cert.validPrincipals,
    C.u64.encode cert.validAfter, C.u64.encode cert.validBefore, cert.criticalOptions.encode C,
    cert.extensions.encode C, C.bytes.encode cert.reserved, C.encodePrefixed signatureLen signatureKey]

mutual

def KeyData.encodedKeyDataLen : KeyData → Except Exit Nat
  | .dsa key => key.encodedLen C
  | .ecdsa key => key.encodedLen C
  | .ed25519 key => key.encodedLen C
  | .rsa key => key.encodedLen C
  | .skEcdsaSha2NistP256 key => key.encodedLen C
  | .skEd25519 key => key.encodedLen C
  | .certificate cert => cert.encodedLen
  | .other key => C.bytes.encodedLen key.key

def Certificate.encodedLen : Certificate → Except Exit Nat
  | cert@⟨_, publicKey, _, _, _, _, _, _, _, _, _, signatureKey, _, _⟩ =>
    cert.lenOf C publicKey.encodedKeyDataLen (signatureKey.labelledLen C signatureKey.encodedKeyDataLen)

end

def KeyData.encodedLen (key : KeyData) : Except Exit Nat := key.labelledLen C (key.encodedKeyDataLen C)

mutual

def KeyData.encodeKeyData : KeyData → Except Exit Bytes
  | .dsa key => key.encode C
  | .ecdsa key => key.encode C
  | .ed25519 key => key.encode C
  | .rsa key => key.encode C
  | .skEcdsaSha2NistP256 key => key.encode C
  | .skEd25519 key => key.encode C
  | .certificate cert => cert.encode
  | .other key => C.bytes.encode key.key

def Certificate.encode : Certificate → Except Exit Bytes
  | cert@⟨_, publicKey, _, _, _, _, _, _, _, _, _, signatureKey, signature, _⟩ =>
    cat [cert.tbsOf C publicKey.encodeKeyData (signatureKey.encodedLen C)
        (signatureKey.labelled C signatureKey.encodeKeyData),
      C.encodePrefixed (signature.encodedLen C) (signature.encode C)]

end

def KeyData.encode (key : KeyData) : Except Exit Bytes := key.labelled C (key.encodeKeyData C)

def Certificate.encodeTbs (cert : Certificate) : Except Exit Bytes :=
  cert.tbsOf C (cert.publicKey.encodeKeyData C) (cert.signatureKey.encodedLen C) (cert.signatureKey.encode C)

theorem Certificate.encodedLen_eq (cert : Certificate) :
    cert.encodedLen C = cert.lenOf C (cert.publicKey.encodedKeyDataLen C) (cert.signatureKey.encodedLen C) := by
  cases cert
  rfl

theorem Certificate.encode_eq (cert : Certificate) : cert.encode C
    = cat [cert.encodeTbs C, C.encodePrefixed (cert.signature.encodedLen C) (cert.signature.encode C)] := by
  cases cert
  rfl

theorem Certificate.algorithm_eq (cert : Certificate) : cert.algorithm = cert.publicKey.algorithm := by
  cases cert
  rfl

/-- `encode_vec`: the announced length is the capacity of the vector. -/
def Certificate.toBytes (cert : Certificate) : Except Exit Bytes := do
  let _ ← cert.encodedLen C
  cert.encode C

def KeyData.toBytes (key : KeyData) : Except Exit Bytes := do
  let _ ← key.encodedLen C
  key.encode C

end

end Ssh
end Wolf
