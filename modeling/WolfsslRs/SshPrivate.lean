import WolfsslRs.SshText
/-!
# SshPrivate — private keys (`private.rs`, `private/`, `kdf.rs`)

A private key is written as a header, the public key and a block of the keypair, the comment and padding, the block in
the clear or encrypted.  `PrivateCrates` holds what other crates provide: the ciphers of `ssh-cipher`, `bcrypt-pbkdf`,
and the public key wolfCrypt derives from an Ed25519 seed where the feature `ed25519` is on.
-/
namespace Wolf
namespace Ssh

open Reader

/-! ## Keypairs -/

structure DsaKeypair where
  publicKey : DsaPublicKey
  privateKey : Bytes
  deriving DecidableEq

/-- The variants of `EcdsaKeypair`, with the array of an `EcdsaPrivateKey` of the curve's size. -/
structure EcdsaKeypair where
  publicKey : EcdsaPublicKey
  privateKey : Bytes
  size : privateKey.length = publicKey.curve.fieldSize
  deriving DecidableEq

@[ext] structure Ed25519PrivateKey where
  bytes : Bytes
  size : bytes.length = 32

instance : DecidableEq Ed25519PrivateKey := fun _ _ => decidable_of_iff _ Ed25519PrivateKey.ext_iff.symm

structure Ed25519Keypair where
  publicKey : Ed25519PublicKey
  privateKey : Ed25519PrivateKey
  deriving DecidableEq

structure RsaPrivateKey where
  d : Bytes
  iqmp : Bytes
  p : Bytes
  q : Bytes
  deriving DecidableEq

structure RsaKeypair where
  publicKey : RsaPublicKey
  privateKey : RsaPrivateKey
  deriving DecidableEq

/-- The two security keys of `private/sk.rs`, which differ by their public keys. -/
structure SkKeypair (α : Type) where
  publicKey : α
  flags : UInt8
  keyHandle : Bytes
  reserved : Bytes
  deriving DecidableEq

structure OpaqueKeypair where
  privateKey : Bytes
  publicKey : OpaquePublicKey
  deriving DecidableEq

inductive KeypairData where
  | dsa (key : DsaKeypair)
  | ecdsa (key : EcdsaKeypair)
  | ed25519 (key : Ed25519Keypair)
  | encrypted (ciphertext : Bytes)
  | rsa (key : RsaKeypair)
  | skEcdsaSha2NistP256 (key : SkKeypair SkEcdsaSha2NistP256)
  | skEd25519 (key : SkKeypair SkEd25519)
  | other (key : OpaqueKeypair)
  deriving DecidableEq

inductive Kdf where
  | none
  | bcrypt (salt : Bytes) (rounds : UInt32)
  deriving DecidableEq

/-- **The crates behind private keys**, over the ciphers `κ` there are. -/
structure PrivateCrates (κ : Type) where
  none : κ
  chaCha20Poly1305 : κ
  cipher : Codec κ
  blockSize : κ → Nat
  paddingLen : κ → Nat → Nat
  keyAndIvSize : κ → Option (Nat × Nat)
  hasTag : κ → Bool
  tagLen : Nat
  /-- the default `ChaChaNonce` -/
  chaChaNonce : Bytes
  /-- the buffer after the call, and the tag -/
  encrypt : κ → (key iv buffer : Bytes) → Except Exit (Bytes × Option Bytes)
  decrypt : κ → (key iv buffer : Bytes) → (tag : Option Bytes) → Except Exit Bytes
  bcryptPbkdf : (password salt : Bytes) → (rounds : UInt32) → (size : Nat) → Option Bytes
  ed25519 : Option (Ed25519PrivateKey → Ed25519PublicKey)

/-- **What is assumed of the ciphers**: their names are read back, a cipher decrypts what it encrypted, and the padding
completes a block with fewer bytes than a block has. -/
structure PrivateCrates.Lawful {κ : Type} (P : PrivateCrates κ) : Prop where
  cipher_back : P.cipher.RoundTrips
  decrypts : ∀ c key iv buffer out tag, P.encrypt c key iv buffer = .ok (out, tag) →
    P.decrypt c key iv out tag = .ok buffer
  completes : ∀ c n, (n + P.paddingLen c n) % P.blockSize c = 0
  padding_lt : ∀ c n, P.paddingLen c n < P.blockSize c

theorem PrivateCrates.Lawful.blockSize_ne_zero {κ : Type} {P : PrivateCrates κ} (hP : P.Lawful) (c : κ) :
    P.blockSize c ≠ 0 :=
  Nat.ne_of_gt (Nat.lt_of_le_of_lt (Nat.zero_le _) (hP.padding_lt c 0))

structure PrivateKey (κ : Type) where
  cipher : κ
  kdf : Kdf
  checkint : Option UInt32
  publicKey : PublicKey
  keyData : KeypairData
  authTag : Option Bytes
  deriving DecidableEq

def PrivateKey.comment {κ : Type} (k : PrivateKey κ) : Bytes := k.publicKey.comment

/-- `PartialEq`: neither the checkint nor the tag counts. -/
def PrivateKey.Equal {κ : Type} (a b : PrivateKey κ) : Prop :=
  a.keyData = b.keyData ∧ a.cipher = b.cipher ∧ a.kdf = b.kdf ∧ a.publicKey = b.publicKey

instance {κ : Type} [DecidableEq κ] (a b : PrivateKey κ) : Decidable (a.Equal b) :=
  inferInstanceAs (Decidable (_ ∧ _))

def KeypairData.isEncrypted : KeypairData → Bool
  | .encrypted _ => true
  | _ => false

def cryptoError : Exit := .error .crypto

def KeypairData.algorithm : KeypairData → Except Exit Algorithm
  | .dsa _ => .ok .dsa
  | .ecdsa key => .ok (.ecdsa key.publicKey.curve)
  | .ed25519 _ => .ok .ed25519
  | .encrypted _ => .error (.error .encrypted)
  | .rsa _ => .ok (.rsa none)
  | .skEcdsaSha2NistP256 _ => .ok .skEcdsaSha2NistP256
  | .skEd25519 _ => .ok .skEd25519
  | .other key => .ok key.publicKey.algorithm

/-- `public::KeyData::try_from`. -/
def KeypairData.publicData : KeypairData → Except Exit KeyData
  | .dsa key => .ok (.dsa key.publicKey)
  | .ecdsa key => .ok (.ecdsa key.publicKey)
  | .ed25519 key => .ok (.ed25519 key.publicKey)
  | .encrypted _ => .error (.error .encrypted)
  | .rsa key => .ok (.rsa key.publicKey)
  | .skEcdsaSha2NistP256 key => .ok (.skEcdsaSha2NistP256 key.publicKey)
  | .skEd25519 key => .ok (.skEd25519 key.publicKey)
  | .other key => .ok (.other key.publicKey)

/-- The words of `bytes`, as far as they are whole, combined by exclusive or. -/
def xorWords (n : UInt32) : Bytes → UInt32
  | a :: b :: c :: d :: bytes => xorWords (n ^^^ UInt32.ofNat (beNat [a, b, c, d])) bytes
  | _ => n

def KeypairData.checkint (key : KeypairData) : UInt32 :=
  xorWords 0 (match key with
    | .dsa key => key.privateKey
    | .ecdsa key => key.privateKey
    | .ed25519 key => key.privateKey.bytes
    | .encrypted ciphertext => ciphertext
    | .rsa key => key.privateKey.d
    | .skEcdsaSha2NistP256 key => key.keyHandle
    | .skEd25519 key => key.keyHandle
    | .other key => key.privateKey)

/-! ## Decoding keypairs -/

section
variable (C : Crates)

def DsaKeypair.decode : EStateM Exit Bytes DsaKeypair := do
  let publicKey ← DsaPublicKey.decode C
  let x ← C.mpint.decode
  if C.isPositive x then pure ⟨publicKey, x⟩ else throw formatError

/-- The `len` bytes of an ECDSA private key, with the zeros in front that fill up the array. -/
def ecdsaPrivateFill (size len : Nat) : EStateM Exit Bytes {w : Bytes // w.length = size} := do
  if h : len < 32 ∨ size < len then throw lengthError
  else
    let w ← take lengthError len
    pure ⟨List.replicate (size - len) 0 ++ w.1, by
      rw [List.length_append, List.length_replicate, w.2]; omega⟩

/-- `EcdsaPrivateKey::decode` behind the length: a zero in front keeps the integer positive and is left out. -/
def ecdsaPrivateBytes (size : Nat) : EStateM Exit Bytes {w : Bytes // w.length = size} := do
  let bs ← get
  if bs.length = size + 1 then
    let zero ← C.u8.decode
    if zero ≠ 0 then throw formatError else ecdsaPrivateFill size size
  else ecdsaPrivateFill size bs.length

def EcdsaKeypair.decode : EStateM Exit Bytes EcdsaKeypair := do
  let publicKey ← EcdsaPublicKey.decode C
  let w ← C.readPrefixed (ecdsaPrivateBytes C publicKey.curve.fieldSize)
  pure ⟨publicKey, w.1, w.2⟩

def RsaPrivateKey.new (d iqmp p q : Bytes) : Except Exit RsaPrivateKey :=
  if C.isPositive d && C.isPositive iqmp && C.isPositive p && C.isPositive q then .ok ⟨d, iqmp, p, q⟩
  else .error formatError

def RsaPrivateKey.decode : EStateM Exit Bytes RsaPrivateKey := do
  let d ← C.mpint.decode
  let iqmp ← C.mpint.decode
  let p ← C.mpint.decode
  let q ← C.mpint.decode
  orThrow (RsaPrivateKey.new C d iqmp p q)

def RsaKeypair.decode : EStateM Exit Bytes RsaKeypair := do
  let n ← C.mpint.decode
  let e ← C.mpint.decode
  let publicKey ← orThrow (RsaPublicKey.new C e n)
  let privateKey ← RsaPrivateKey.decode C
  pure ⟨publicKey, privateKey⟩

def SkKeypair.decode {α : Type} (key : EStateM Exit Bytes α) : EStateM Exit Bytes (SkKeypair α) := do
  let publicKey ← key
  let flags ← C.u8.decode
  let keyHandle ← C.bytes.decode
  let reserved ← C.bytes.decode
  pure ⟨publicKey, flags, keyHandle, reserved⟩

def OpaqueKeypair.decodeAs (algorithm : Algorithm) : EStateM Exit Bytes OpaqueKeypair := do
  let publicKey ← OpaquePublicKey.decodeAs C algorithm
  let len ← C.usize.decode
  let w ← take lengthError len
  pure ⟨w.1, publicKey⟩

variable (derive : Option (Ed25519PrivateKey → Ed25519PublicKey))

/-- From the private and the public key side by side; checked where the public key can be derived. -/
def Ed25519Keypair.fromBytes (bytes : {w : Bytes // w.length = 64}) : Except Exit Ed25519Keypair :=
  let privateKey : Ed25519PrivateKey := ⟨bytes.1.take 32, by rw [List.length_take, bytes.2]; rfl⟩
  let publicKey : Ed25519PublicKey := ⟨bytes.1.drop 32, by rw [List.length_drop, bytes.2]⟩
  match derive with
  | some derive => if derive privateKey ≠ publicKey then .error cryptoError else .ok ⟨publicKey, privateKey⟩
  | none => .ok ⟨publicKey, privateKey⟩

def Ed25519Keypair.decode : EStateM Exit Bytes Ed25519Keypair := do
  let publicKey ← Ed25519PublicKey.decode C
  let bytes ← C.readPrefixed (take lengthError 64)
  let keypair ← orThrow (Ed25519Keypair.fromBytes derive bytes)
  if keypair.publicKey = publicKey then pure keypair else throw cryptoError

def KeypairData.decodeAs : Algorithm → EStateM Exit Bytes KeypairData
  | .dsa => .dsa <$> DsaKeypair.decode C
  | .ecdsa curve => do
    let keypair ← EcdsaKeypair.decode C
    if keypair.publicKey.curve = curve then pure (.ecdsa keypair) else throw algorithmUnknown
  | .ed25519 => .ed25519 <$> Ed25519Keypair.decode C derive
  | .rsa _ => .rsa <$> RsaKeypair.decode C
  | .skEcdsaSha2NistP256 => .skEcdsaSha2NistP256 <$> SkKeypair.decode C (SkEcdsaSha2NistP256.decode C)
  | .skEd25519 => .skEd25519 <$> SkKeypair.decode C (SkEd25519.decode C)
  | .other name => .other <$> OpaqueKeypair.decodeAs C (.other name)

def KeypairData.decode : EStateM Exit Bytes KeypairData := do
  let algorithm ← C.decodeLabel Algorithm.fromStr
  KeypairData.decodeAs C derive algorithm

end

/-! ## Encoding keypairs -/

section
variable (C : Crates)

def DsaKeypair.encodedLen (key : DsaKeypair) : Except Exit Nat :=
  C.total [key.publicKey.encodedLen C, C.mpint.encodedLen key.privateKey]

def DsaKeypair.encode (key : DsaKeypair) : Except Exit Bytes :=
  cat [key.publicKey.encode C, C.mpint.encode key.privateKey]

/-- Whether the integer needs a zero in front, as a number of bytes. -/
def leadingZero (w : Bytes) : Nat := if 128 ≤ w.headD 0 then 1 else 0

def EcdsaKeypair.encodedLen (key : EcdsaKeypair) : Except Exit Nat :=
  C.total [key.publicKey.encodedLen C,
    C.total [.ok 4, .ok (leadingZero key.privateKey), .ok key.publicKey.curve.fieldSize]]

def EcdsaKeypair.encode (key : EcdsaKeypair) : Except Exit Bytes :=
  cat [key.publicKey.encode C,
    do C.usize.encode (← C.total [.ok (leadingZero key.privateKey), .ok key.publicKey.curve.fieldSize]),
    .ok (List.replicate (leadingZero key.privateKey) 0), .ok key.privateKey]

def Ed25519Keypair.toBytes (key : Ed25519Keypair) : Bytes := key.privateKey.bytes ++ key.publicKey.bytes

def Ed25519Keypair.encodedLen (key : Ed25519Keypair) : Except Exit Nat :=
  C.total [.ok 4, key.publicKey.encodedLen C, .ok 64]

def Ed25519Keypair.encode (key : Ed25519Keypair) : Except Exit Bytes :=
  cat [key.publicKey.encode C, C.bytes.encode key.toBytes]

def RsaPrivateKey.encodedLen (key : RsaPrivateKey) : Except Exit Nat :=
  C.total [C.mpint.encodedLen key.d, C.mpint.encodedLen key.iqmp, C.mpint.encodedLen key.p, C.mpint.encodedLen key.q]

def RsaPrivateKey.encode (key : RsaPrivateKey) : Except Exit Bytes :=
  cat [C.mpint.encode key.d, C.mpint.encode key.iqmp, C.mpint.encode key.p, C.mpint.encode key.q]

def RsaKeypair.encodedLen (key : RsaKeypair) : Except Exit Nat :=
  C.total [C.mpint.encodedLen key.publicKey.n, C.mpint.encodedLen key.publicKey.e, key.privateKey.encodedLen C]

def RsaKeypair.encode (key : RsaKeypair) : Except Exit Bytes :=
  cat [C.mpint.encode key.publicKey.n, C.mpint.encode key.publicKey.e, key.privateKey.encode C]

def SkKeypair.encodedLen {α : Type} (len : α → Except Exit Nat) (key : SkKeypair α) : Except Exit Nat :=
  C.total [len key.publicKey, C.u8.encodedLen key.flags, C.bytes.encodedLen key.keyHandle,
    C.bytes.encodedLen key.reserved]

def SkKeypair.encode {α : Type} (enc : α → Except Exit Bytes) (key : SkKeypair α) : Except Exit Bytes :=
  cat [enc key.publicKey, C.u8.encode key.flags, C.bytes.encode key.keyHandle, C.bytes.encode key.reserved]

def OpaqueKeypair.encodedLen (key : OpaqueKeypair) : Except Exit Nat :=
  C.total [C.bytes.encodedLen key.publicKey.key, C.bytes.encodedLen key.privateKey]

def OpaqueKeypair.encode (key : OpaqueKeypair) : Except Exit Bytes :=
  cat [C.bytes.encode key.publicKey.key, C.bytes.encode key.privateKey]

def KeypairData.encodedLen (key : KeypairData) : Except Exit Nat :=
  let algLen : Except Exit Nat :=
    match key.algorithm with
    | .ok alg => C.string.encodedLen alg.asStr
    | .error _ => .ok 0
  match key with
  | .dsa key => C.total [algLen, key.encodedLen C]
  | .ecdsa key => C.total [algLen, key.encodedLen C]
  | .ed25519 key => C.total [algLen, key.encodedLen C]
  | .encrypted ciphertext => .ok ciphertext.length
  | .rsa key => C.total [algLen, key.encodedLen C]
  | .skEcdsaSha2NistP256 key => C.total [algLen, key.encodedLen C (SkEcdsaSha2NistP256.encodedLen C)]
  | .skEd25519 key => C.total [algLen, key.encodedLen C (SkEd25519.encodedLen C)]
  | .other key => C.total [algLen, key.encodedLen C]

def KeypairData.encode (key : KeypairData) : Except Exit Bytes :=
  let alg : Except Exit Bytes :=
    match key.algorithm with
    | .ok alg => C.string.encode alg.asStr
    | .error _ => .ok []
  match key with
  | .dsa key => cat [alg, key.encode C]
  | .ecdsa key => cat [alg, key.encode C]
  | .ed25519 key => cat [alg, key.encode C]
  | .encrypted ciphertext => cat [alg, .ok ciphertext]
  | .rsa key => cat [alg, key.encode C]
  | .skEcdsaSha2NistP256 key => cat [alg, key.encode C (SkEcdsaSha2NistP256.encode C)]
  | .skEd25519 key => cat [alg, key.encode C (SkEd25519.encode C)]
  | .other key => cat [alg, key.encode C]

end

/-! ## Key derivation -/

inductive KdfAlg where
  | none
  | bcrypt
  deriving DecidableEq

def KdfAlg.asStr : KdfAlg → Text
  | .none => "none".toList
  | .bcrypt => "bcrypt".toList

def KdfAlg.fromStr (kdfname : Text) : Except Exit KdfAlg :=
  if kdfname = "none".toList then .ok .none
  else if kdfname = "bcrypt".toList then .ok .bcrypt
  else .error (LabelError kdfname)

def Kdf.algorithm : Kdf → KdfAlg
  | .none => .none
  | .bcrypt _ _ => .bcrypt

section
variable (C : Crates)

def Kdf.decode : EStateM Exit Bytes Kdf := do
  match ← C.decodeLabel KdfAlg.fromStr with
  | .none => do
    let len ← C.usize.decode
    if len = 0 then pure .none else throw algorithmUnknown
  | .bcrypt => C.readPrefixed (do
    let salt ← C.bytes.decode
    let rounds ← C.u32.decode
    pure (.bcrypt salt rounds))

def Kdf.encodedLen (kdf : Kdf) : Except Exit Nat :=
  C.total [C.string.encodedLen kdf.algorithm.asStr,
    match kdf with
    | .none => .ok 4
    | .bcrypt salt _ => C.total [.ok 12, .ok salt.length]]

def Kdf.encode (kdf : Kdf) : Except Exit Bytes :=
  cat [C.string.encode kdf.algorithm.asStr,
    match kdf with
    | .none => C.usize.encode 0
    | .bcrypt salt rounds => cat [do C.usize.encode (← C.total [.ok 8, .ok salt.length]), C.bytes.encode salt,
        C.u32.encode rounds]]

variable {κ : Type} (P : PrivateCrates κ)

/-- The derived bytes, which fill an output of the given size. -/
def Kdf.derive (kdf : Kdf) (password : Bytes) (size : Nat) : Except Exit Bytes :=
  match kdf with
  | .none => .error (.error .decrypted)
  | .bcrypt salt rounds =>
    match P.bcryptPbkdf password salt rounds size with
    | some output => .ok output
    | .none => .error cryptoError

def Kdf.deriveKeyAndIv [DecidableEq κ] (kdf : Kdf) (cipher : κ) (password : Bytes) : Except Exit (Bytes × Bytes) :=
  match P.keyAndIvSize cipher with
  | .none => .error (.error .decrypted)
  | some (keySize, ivSize) => do
    let okmSize ← C.total [.ok keySize, .ok ivSize]
    let okm ← kdf.derive P password okmSize
    let iv := okm.drop keySize
    if cipher = P.chaCha20Poly1305 then
      if iv.length = P.chaChaNonce.length then .ok (okm.take keySize, P.chaChaNonce)
      else .error (.panic "source slice length does not match destination slice length")
    else .ok (okm.take keySize, iv)

end

/-! ## The file -/

def authMagic : Bytes := [111, 112, 101, 110, 115, 115, 104, 45, 107, 101, 121, 45, 118, 49, 0]

def maxBlockSize : Nat := 16

def paddingBytes : Bytes := [1, 2, 3, 4, 5, 6, 7, 8, 9, 10, 11, 12, 13, 14, 15, 16]

/-- `PADDING_BYTES[..len]`. -/
def paddingOf (len : Nat) : Except Exit Bytes :=
  if len ≤ maxBlockSize then .ok (paddingBytes.take len) else .error (.panic "range end index out of range for slice")

section
variable (C : Crates)

/-- What is written into a `Vec`, which holds no more bytes than can be counted. -/
def Crates.intoVec (p : Except Exit Bytes) : Except Exit Bytes := do
  let w ← p
  if w.length ≤ C.usizeMax then .ok w else .error (.panic "capacity overflow")

variable {κ : Type} (P : PrivateCrates κ)

/-- `PrivateKey::try_from`. -/
def PrivateKey.ofKeypair (keyData : KeypairData) : Except Exit (PrivateKey κ) := do
  let publicKey ← keyData.publicData
  .ok ⟨P.none, .none, none, ⟨publicKey, []⟩, keyData, none⟩

def PrivateKey.new (keyData : KeypairData) (comment : Bytes) : Except Exit (PrivateKey κ) := do
  if keyData.isEncrypted then .error (.error .encrypted) else
    let privateKey ← PrivateKey.ofKeypair P keyData
    .ok { privateKey with publicKey := { privateKey.publicKey with comment := comment } }

/-- `decode_privatekey_comment_pair`. -/
def PrivateKey.decodePair (publicKey : KeyData) (blockSize maxPaddingSize : Nat) :
    EStateM Exit Bytes (PrivateKey κ) := do
  let bs ← get
  if blockSize = 0 ∨ bs.length % blockSize ≠ 0 then throw lengthError else
    let checkint1 ← C.u32.decode
    let checkint2 ← C.u32.decode
    if checkint1 ≠ checkint2 then throw cryptoError else
      let keyData ← KeypairData.decode C P.ed25519
      let expected ← orThrow keyData.publicData
      if publicKey ≠ expected then throw (.error .publicKey) else
        let comment ← C.bytes.decode
        let left ← get
        if maxPaddingSize < left.length then throw lengthError else
          let padding ← take lengthError left.length
          let expectedPadding ← orThrow (paddingOf left.length)
          if expectedPadding ≠ padding.1 then throw formatError else
            let trailing ← get
            if trailing ≠ [] then throw (.error (.trailingData trailing.length)) else
              pure ⟨P.none, .none, some checkint1, ⟨publicKey, comment⟩, keyData, none⟩

variable (k : PrivateKey κ)

def PrivateKey.unpaddedPairLen : Except Exit Nat :=
  C.total [.ok 8, k.keyData.encodedLen C, C.bytes.encodedLen k.comment]

def PrivateKey.encodedPairLen (cipher : κ) : Except Exit Nat := do
  let len ← k.unpaddedPairLen C
  C.total [.ok len, .ok (P.paddingLen cipher len)]

/-- `encode_privatekey_comment_pair`. -/
def PrivateKey.encodePair (cipher : κ) (checkint : UInt32) : Except Exit Bytes := do
  let unpaddedLen ← k.unpaddedPairLen C
  cat [C.u32.encode checkint, C.u32.encode checkint, k.keyData.encode C, C.bytes.encode k.comment,
    paddingOf (P.paddingLen cipher unpaddedLen)]

def PrivateKey.encodedLen : Except Exit Nat := do
  let privateKeyLen ←
    if k.keyData.isEncrypted then C.encodedLenPrefixed (k.keyData.encodedLen C)
    else C.total [.ok 4, k.encodedPairLen C P P.none]
  C.total [.ok authMagic.length, P.cipher.encodedLen k.cipher, k.kdf.encodedLen C, .ok 4,
    C.encodedLenPrefixed (k.publicKey.keyData.encodedLen C), .ok privateKeyLen,
    .ok ((k.authTag.map List.length).getD 0)]

def PrivateKey.encode : Except Exit Bytes :=
  cat [.ok authMagic, P.cipher.encode k.cipher, k.kdf.encode C, C.usize.encode 1,
    C.encodePrefixed (k.publicKey.keyData.encodedLen C) (k.publicKey.keyData.encode C),
    if k.keyData.isEncrypted then
      cat [C.encodePrefixed (k.keyData.encodedLen C) (k.keyData.encode C), .ok (k.authTag.getD [])]
    else
      C.encodePrefixed (k.encodedPairLen C P P.none) (k.encodePair C P P.none (k.checkint.getD k.keyData.checkint))]

def PrivateKey.toBytes : Except Exit Bytes := do
  let _ ← k.encodedLen C P
  C.intoVec (k.encode C P)

variable [DecidableEq κ]

def PrivateKey.decodeTag (cipher : κ) : EStateM Exit Bytes (Option Bytes) := do
  if P.hasTag cipher then
    let tag ← take lengthError P.tagLen
    pure (some tag.1)
  else pure none

/-- The rest of an encrypted key: its ciphertext, and the tag where the cipher has one. -/
def PrivateKey.decodeEncrypted (cipher : κ) (kdf : Kdf) (publicKey : KeyData) :
    EStateM Exit Bytes (PrivateKey κ) := do
  let ciphertext ← C.bytes.decode
  if P.blockSize cipher = 0 ∨ ciphertext.length % P.blockSize cipher ≠ 0 then throw cryptoError else
    let authTag ← PrivateKey.decodeTag P cipher
    let trailing ← get
    if trailing ≠ [] then throw (.error (.trailingData trailing.length)) else
      pure ⟨cipher, kdf, none, ⟨publicKey, []⟩, .encrypted ciphertext, authTag⟩

def PrivateKey.decode : EStateM Exit Bytes (PrivateKey κ) := do
  let magic ← take lengthError authMagic.length
  if magic.1 ≠ authMagic then throw formatError else
    let cipher ← P.cipher.decode
    let kdf ← Kdf.decode C
    let nkeys ← C.usize.decode
    if nkeys ≠ 1 then throw lengthError else
      let publicKey ← C.readPrefixed (KeyData.decode C)
      if cipher ≠ P.none then PrivateKey.decodeEncrypted C P cipher kdf publicKey
      else if kdf ≠ .none then throw cryptoError
      else
        -- PuTTYgen pads unencrypted keys to blocks of 16, and also where nothing is missing
        let maxPaddingSize := if cipher = P.none then maxBlockSize else P.blockSize cipher - 1
        C.readPrefixed (PrivateKey.decodePair C P publicKey (P.blockSize cipher) maxPaddingSize)

def PrivateKey.fromBytes (bytes : Bytes) : Except Exit (PrivateKey κ) := finish (PrivateKey.decode C P) bytes

def PrivateKey.encryptWith (cipher : κ) (kdf : Kdf) (checkint : UInt32) (password : Bytes) :
    Except Exit (PrivateKey κ) := do
  if k.keyData.isEncrypted then .error (.error .encrypted) else
    let (key, iv) ← kdf.deriveKeyAndIv C P cipher password
    let _ ← k.encodedPairLen C P cipher
    let out ← C.intoVec (k.encodePair C P cipher checkint)
    let (ciphertext, authTag) ← P.encrypt cipher key iv out
    .ok ⟨cipher, kdf, none, ⟨k.publicKey.keyData, []⟩, .encrypted ciphertext, authTag⟩

def PrivateKey.decrypt (password : Bytes) : Except Exit (PrivateKey κ) := do
  let (key, iv) ← k.kdf.deriveKeyAndIv C P k.cipher password
  match k.keyData with
  | .encrypted ciphertext =>
    let buffer ← P.decrypt k.cipher key iv ciphertext k.authTag
    match (PrivateKey.decodePair C P k.publicKey.keyData (P.blockSize k.cipher) (P.blockSize k.cipher - 1)).run
      buffer with
    | .ok privateKey _ => .ok privateKey
    | .error e _ => .error e
  | _ => .error (.error .decrypted)

end

theorem intoVec_ok {C : Crates} {p : Except Exit Bytes} {w : Bytes} (h : C.intoVec p = .ok w) :
    p = .ok w ∧ w.length ≤ C.usizeMax := by
  obtain ⟨x, hx, h⟩ := Program.bind_ok.1 h
  split at h
  · rename_i hle
    cases h
    exact ⟨hx, hle⟩
  · cases h

theorem encryptWith_ok {C : Crates} {κ : Type} [DecidableEq κ] {P : PrivateCrates κ} {k : PrivateKey κ} {cipher : κ}
    {kdf : Kdf} {checkint : UInt32} {password : Bytes} {e : PrivateKey κ}
    (h : k.encryptWith C P cipher kdf checkint password = .ok e) :
    ∃ key iv out ciphertext tag, kdf.deriveKeyAndIv C P cipher password = .ok (key, iv) ∧
      k.encodePair C P cipher checkint = .ok out ∧ out.length ≤ C.usizeMax ∧
      P.encrypt cipher key iv out = .ok (ciphertext, tag) ∧
      e = ⟨cipher, kdf, none, ⟨k.publicKey.keyData, []⟩, .encrypted ciphertext, tag⟩ := by
  unfold PrivateKey.encryptWith at h
  split at h
  · cases h
  · obtain ⟨⟨key, iv⟩, hderive, h⟩ := Program.bind_ok.1 h
    obtain ⟨-, -, h⟩ := Program.bind_ok.1 h
    obtain ⟨out, hvec, h⟩ := Program.bind_ok.1 h
    obtain ⟨⟨ciphertext, tag⟩, henc, h⟩ := Program.bind_ok.1 h
    obtain ⟨hout, hmax⟩ := intoVec_ok hvec
    cases h
    exact ⟨key, iv, out, ciphertext, tag, hderive, hout, hmax, henc, rfl⟩

end Ssh
end Wolf
