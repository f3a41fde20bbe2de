import WolfsslRs.SshSign
/-!
# SshSig — signatures over messages (`sshsig.rs`, `PublicKey::verify`)

An `SshSig` does not sign the message but its `SignedData`: a preamble, the namespace, a reserved field, the hash and the
digest of the message.  Signing and verifying build these bytes in two places, and they are the same bytes
(`sign_ok`).  A reader of signed data, which the source has no use for, shows that the bytes determine all four fields
(`signedData_unique`), so that one signature stands for two messages or namespaces only if the raw scheme accepts it for
two byte strings.
-/
namespace Wolf
namespace Ssh

open Reader Program

/-- Data to be signed. -/
structure SignedData where
  nameSpace : Text
  reserved : Bytes
  hashAlg : HashAlg
  hash : Bytes
  deriving DecidableEq

structure SshSig where
  version : UInt32
  publicKey : KeyData
  nameSpace : Text
  reserved : Bytes
  hashAlg : HashAlg
  signature : Signature
  deriving DecidableEq

/-- `SSHSIG` -/
def magicPreamble : Bytes := [83, 83, 72, 83, 73, 71]

def SshSig.currentVersion : UInt32 := 1

def nameSpaceError : Exit := .error .nameSpace

def KeyData.isSkEd25519 : KeyData → Bool
  | .skEd25519 _ => true
  | _ => false

def KeyData.isSkEcdsaP256 : KeyData → Bool
  | .skEcdsaSha2NistP256 _ => true
  | _ => false

/-- `Error::from` on an error of the `signature` crate: its source, if it has one. -/
def ofSignature {α : Type} : Except Exit α → Except Exit α
  | .error (.signature (some e)) => .error (.error e)
  | .error (.signature none) => .error (.error .crypto)
  | r => r

section
variable (C : Crates) (D : Digests) (W : WolfCrypt)

def HashAlg.digest (hashAlg : HashAlg) (msg : Bytes) : Bytes :=
  match hashAlg with
  | .sha256 => D.sha256 msg
  | .sha512 => D.sha512 msg

/-! ## The bytes that are signed -/

def SignedData.encodedLen (data : SignedData) : Except Exit Nat :=
  C.total [.ok magicPreamble.length, C.string.encodedLen data.nameSpace, C.bytes.encodedLen data.reserved,
    C.string.encodedLen data.hashAlg.asStr, C.bytes.encodedLen data.hash]

def SignedData.encode (data : SignedData) : Except Exit Bytes :=
  cat [.ok magicPreamble, C.string.encode data.nameSpace, C.bytes.encode data.reserved,
    C.string.encode data.hashAlg.asStr, C.bytes.encode data.hash]

def SignedData.toBytes (data : SignedData) : Except Exit Bytes := do
  let _ ← data.encodedLen C
  data.encode C

/-! ## Signing -/

def SshSig.new (publicKey : KeyData) (nameSpace : Text) (hashAlg : HashAlg) (signature : Signature) :
    Except Exit SshSig :=
  if nameSpace = [] then .error nameSpaceError
  else .ok ⟨SshSig.currentVersion, publicKey, nameSpace, [], hashAlg, signature⟩

def SshSig.signedDataForPrehash (nameSpace : Text) (hashAlg : HashAlg) (prehash : Bytes) : Except Exit Bytes :=
  if prehash.length ≠ hashAlg.digestSize then .error (.error .hashSize)
  else if nameSpace = [] then .error nameSpaceError
  else SignedData.toBytes C ⟨nameSpace, [], hashAlg, prehash⟩

def SshSig.signPrehash (signingKey : SigningKey) (nameSpace : Text) (hashAlg : HashAlg) (prehash : Bytes) :
    Except Exit SshSig :=
  if nameSpace = [] then .error nameSpaceError
  else if signingKey.publicKey.isSkEd25519 then .error (.error (.algorithmUnsupported .skEd25519))
  else if signingKey.publicKey.isSkEcdsaP256 then .error (.error (.algorithmUnsupported .skEcdsaSha2NistP256))
  else do
    let signedData ← SshSig.signedDataForPrehash C nameSpace hashAlg prehash
    let signature ← ofSignature (signingKey.trySign signedData)
    SshSig.new signingKey.publicKey nameSpace hashAlg signature

def SshSig.sign (signingKey : SigningKey) (nameSpace : Text) (hashAlg : HashAlg) (msg : Bytes) : Except Exit SshSig :=
  SshSig.signPrehash C signingKey nameSpace hashAlg (hashAlg.digest D msg)

/-! ## The wire format -/

def SshSig.decode : EStateM Exit Bytes SshSig := do
  let preamble ← take lengthError magicPreamble.length
  if preamble.1 ≠ magicPreamble then throw formatError else
    let version ← C.u32.decode
    if SshSig.currentVersion < version then throw (.error (.version version)) else
      let publicKey ← C.readPrefixed (KeyData.decode C)
      let nameSpace ← C.string.decode
      if nameSpace = [] then throw nameSpaceError else
        let reserved ← C.bytes.decode
        let hashAlg ← C.decodeLabel HashAlg.fromStr
        let signature ← C.readPrefixed (Signature.decode C)
        pure ⟨version, publicKey, nameSpace, reserved, hashAlg, signature⟩

def SshSig.encodedLen (sig : SshSig) : Except Exit Nat :=
  C.total [.ok magicPreamble.length, C.u32.encodedLen sig.version, C.encodedLenPrefixed (sig.publicKey.encodedLen C),
    C.string.encodedLen sig.nameSpace, C.bytes.encodedLen sig.reserved, C.string.encodedLen sig.hashAlg.asStr,
    C.encodedLenPrefixed (sig.signature.encodedLen C)]

def SshSig.encode (sig : SshSig) : Except Exit Bytes :=
  cat [.ok magicPreamble, C.u32.encode sig.version,
    C.encodePrefixed (sig.publicKey.encodedLen C) (sig.publicKey.encode C), C.string.encode sig.nameSpace,
    C.bytes.encode sig.reserved, C.string.encode sig.hashAlg.asStr,
    C.encodePrefixed (sig.signature.encodedLen C) (sig.signature.encode C)]

/-! ## Verifying -/

/-- The signed data that verifying a digest puts together. -/
def SshSig.signedData (sig : SshSig) (prehash : Bytes) : SignedData := ⟨sig.nameSpace, sig.reserved, sig.hashAlg, prehash⟩

def SshSig.verifyPrehash (sig : SshSig) (prehash : Bytes) : Except Exit Unit :=
  if prehash.length ≠ sig.hashAlg.digestSize then .error (.error .hashSize)
  else do
    let signedData ← (sig.signedData prehash).toBytes C
    ofSignature (sig.publicKey.verify C D W signedData sig.signature)

def PublicKey.verifyPrehash (key : PublicKey) (nameSpace : Text) (prehash : Bytes) (sig : SshSig) : Except Exit Unit :=
  if key.keyData ≠ sig.publicKey then .error (.error .publicKey)
  else if nameSpace ≠ sig.nameSpace then .error nameSpaceError
  else sig.verifyPrehash C D W prehash

def PublicKey.verify (key : PublicKey) (nameSpace : Text) (msg : Bytes) (sig : SshSig) : Except Exit Unit :=
  key.verifyPrehash C D W nameSpace (sig.hashAlg.digest D msg) sig

end

/-! ## What is signed is what is checked -/

section
variable {C : Crates} {D : Digests} {W : WolfCrypt}

theorem ofSignature_ok {α : Type} {r : Except Exit α} {a : α} : ofSignature r = .ok a ↔ r = .ok a := by
  rcases r with e | b
  · rcases e with e | source | message | _
    · exact ⟨nofun, nofun⟩
    · cases source with
      | none => exact ⟨nofun, nofun⟩
      | some e => exact ⟨nofun, nofun⟩
    · exact ⟨nofun, nofun⟩
    · exact ⟨nofun, nofun⟩
  · exact Iff.rfl

theorem sign_ok {key : SigningKey} {nameSpace : Text} {hashAlg : HashAlg} {msg : Bytes} {sig : SshSig}
    (h : SshSig.sign C D key nameSpace hashAlg msg = .ok sig) :
    ∃ signedData s, (hashAlg.digest D msg).length = hashAlg.digestSize ∧
      SignedData.toBytes C ⟨nameSpace, [], hashAlg, hashAlg.digest D msg⟩ = .ok signedData ∧
      key.trySign signedData = .ok s ∧
      sig = ⟨SshSig.currentVersion, key.publicKey, nameSpace, [], hashAlg, s⟩ := by
  unfold SshSig.sign SshSig.signPrehash at h
  split at h
  · cases h
  · rename_i hname
    split at h
    · cases h
    · split at h
      · cases h
      · obtain ⟨signedData, hdata, h⟩ := bind_ok.1 h
        obtain ⟨s, hs, h⟩ := bind_ok.1 h
        rw [SshSig.new, if_neg hname] at h
        cases h
        simp only [SshSig.signedDataForPrehash, if_neg hname] at hdata
        split at hdata
        · cases hdata
        · rename_i hlen
          exact ⟨signedData, s, not_not.1 hlen, hdata, ofSignature_ok.1 hs, rfl⟩

theorem verify_ok {key : PublicKey} {nameSpace : Text} {msg : Bytes} {sig : SshSig} :
    key.verify C D W nameSpace msg sig = .ok () ↔ key.keyData = sig.publicKey ∧ nameSpace = sig.nameSpace ∧
      (sig.hashAlg.digest D msg).length = sig.hashAlg.digestSize ∧
      ∃ signedData, (sig.signedData (sig.hashAlg.digest D msg)).toBytes C = .ok signedData ∧
        sig.publicKey.verify C D W signedData sig.signature = .ok () := by
  unfold PublicKey.verify PublicKey.verifyPrehash SshSig.verifyPrehash
  by_cases hkey : key.keyData = sig.publicKey
  · rw [if_neg (not_not.2 hkey)]
    by_cases hname : nameSpace = sig.nameSpace
    · rw [if_neg (not_not.2 hname)]
      by_cases hlen : (sig.hashAlg.digest D msg).length = sig.hashAlg.digestSize
      · rw [if_neg (not_not.2 hlen), bind_ok]
        simp only [ofSignature_ok]
        exact ⟨fun h => ⟨hkey, hname, hlen, h⟩, fun h => h.2.2.2⟩
      · rw [if_pos hlen]
        exact ⟨nofun, fun h => absurd h.2.2.1 hlen⟩
    · rw [if_pos hname]
      exact ⟨nofun, fun h => absurd h.2.1 hname⟩
  · rw [if_pos hkey]
    exact ⟨nofun, fun h => absurd h.1 hkey⟩

/-! ## The signed bytes determine what they were made from -/

/-- A reader of signed data, with the wire types themselves. -/
def SignedData.read : EStateM Exit Bytes SignedData := do
  let _ ← take lengthError magicPreamble.length
  let nameSpace ← Rfc4251.utf8String.decode
  let reserved ← Rfc4251.bytes.decode
  let hashAlg ← Rfc4251.utf8Crates.decodeLabel HashAlg.fromStr
  let hash ← Rfc4251.bytes.decode
  pure ⟨nameSpace, reserved, hashAlg, hash⟩

theorem HashAlg.fromStr_asStr (hashAlg : HashAlg) : HashAlg.fromStr hashAlg.asStr = .ok hashAlg := by
  cases hashAlg with
  | sha256 => rfl
  | sha512 => rfl

theorem HashAlg.len_asStr (hashAlg : HashAlg) : hashAlg.asStr.len ≤ 48 := by
  cases hashAlg with
  | sha256 => decide
  | sha512 => decide

theorem restores_signedData (hC : C.RoundTrips) {data : SignedData} {w : Bytes} (hw : data.encode C = .ok w) :
    Restores SignedData.read w data := by
  refine restores_cat (b := ⟨magicPreamble, rfl⟩) hw (fun u hu => ?_) fun _ hw =>
    restores_cat hw (fun _ hu => hC.restores_utf8String hu) fun _ hw =>
    restores_cat hw (fun _ hu => hC.restores_bytes hu) fun _ hw =>
      restores_cat hw (fun u hu => ?_) fun _ hw =>
        restores_cat hw (fun _ hu => hC.restores_bytes hu) fun _ hw => restores_nil hw restores_pure
  · cases hu
    exact restores_take magicPreamble rfl
  · rw [hC.string_eq] at hu
    exact restores_ownLabel Rfc4251.utf8Crates_roundTrips data.hashAlg.len_asStr (hC.blockOf_eq hu)
      data.hashAlg.fromStr_asStr

/-- **The bytes that are signed determine the namespace, the reserved field, the hash and the digest.** -/
theorem signedData_unique (hC : C.RoundTrips) {a b : SignedData} {w : Bytes} (ha : a.toBytes C = .ok w)
    (hb : b.toBytes C = .ok w) : a = b := by
  obtain ⟨-, -, ha⟩ := bind_ok.1 ha
  obtain ⟨-, -, hb⟩ := bind_ok.1 hb
  exact restores_unique (restores_signedData hC ha) (restores_signedData hC hb)

end

/-- **Signatures over messages are complete and bound to what was signed**: what `sign` makes is accepted for the same
namespace and message, the checked bytes are those of one namespace, reserved field, hash and digest, and one signature
accepted for two of them is one the raw scheme accepts for two byte strings. -/
theorem sshsig_complete_and_bound (C : Crates) (D : Digests) (W : WolfCrypt) (hC : C.RoundTrips) :
    (∀ (key : SigningKey) (nameSpace : Text) (hashAlg : HashAlg) (msg comment : Bytes) (sig : SshSig),
        key.Verifies C D W → SshSig.sign C D key nameSpace hashAlg msg = .ok sig →
        PublicKey.verify C D W ⟨key.publicKey, comment⟩ nameSpace msg sig = .ok ()) ∧
      (∀ (a b : SshSig) (digest digest' w : Bytes), (a.signedData digest).toBytes C = .ok w →
        (b.signedData digest').toBytes C = .ok w →
        a.nameSpace = b.nameSpace ∧ a.reserved = b.reserved ∧ a.hashAlg = b.hashAlg ∧ digest = digest') ∧
      (∀ (key : PublicKey) (a b : SshSig) (nameSpace nameSpace' : Text) (msg msg' : Bytes), a.signature = b.signature →
        key.verify C D W nameSpace msg a = .ok () → key.verify C D W nameSpace' msg' b = .ok () →
        (nameSpace, a.reserved, a.hashAlg, a.hashAlg.digest D msg) ≠
          (nameSpace', b.reserved, b.hashAlg, b.hashAlg.digest D msg') →
        ∃ w w', w ≠ w' ∧ key.keyData.verify C D W w a.signature = .ok () ∧
          key.keyData.verify C D W w' a.signature = .ok ()) := by
  have hbound : ∀ (a b : SshSig) (digest digest' w : Bytes), (a.signedData digest).toBytes C = .ok w →
      (b.signedData digest').toBytes C = .ok w →
      a.nameSpace = b.nameSpace ∧ a.reserved = b.reserved ∧ a.hashAlg = b.hashAlg ∧ digest = digest' := by
    intro a b digest digest' w ha hb
    have heq := signedData_unique hC ha hb
    simp only [SshSig.signedData, SignedData.mk.injEq] at heq
    exact heq
  refine ⟨?_, hbound, ?_⟩
  · intro key nameSpace hashAlg msg comment sig hraw h
    obtain ⟨signedData, s, hlen, hdata, hs, rfl⟩ := sign_ok h
    exact verify_ok.2 ⟨rfl, rfl, hlen, signedData, hdata, hraw signedData s hs⟩
  · intro key a b nameSpace nameSpace' msg msg' hsig ha hb hne
    obtain ⟨hkey, rfl, -, w, hw, hwok⟩ := verify_ok.1 ha
    obtain ⟨hkey', rfl, -, w', hw', hwok'⟩ := verify_ok.1 hb
    refine ⟨w, w', ?_, ?_, ?_⟩
    · rintro rfl
      obtain ⟨hname, hreserved, hhash, hdigest⟩ := hbound a b _ _ w hw hw'
      exact hne (by rw [hname, hreserved, hhash, ← hdigest, hhash])
    · rw [hkey]
      exact hwok
    · rw [hkey', hsig]
      exact hwok'

theorem sshsig_complete_and_bound_toy :
    ∃ sig, SshSig.sign Rfc4251.utf8Crates Toy.digests Toy.signingKey "file".toList .sha256 [104, 105] = .ok sig ∧
      PublicKey.verify Rfc4251.utf8Crates Toy.digests Toy.wolfCrypt Toy.privateKey.publicKey "file".toList [104, 105]
        sig = .ok () := by
  have h := sshsig_complete_and_bound Rfc4251.utf8Crates Toy.digests Toy.wolfCrypt Rfc4251.utf8Crates_roundTrips
  obtain ⟨sig, hsig⟩ : ∃ sig, SshSig.sign Rfc4251.utf8Crates Toy.digests Toy.signingKey "file".toList .sha256
      [104, 105] = .ok sig := exists_of_isOk (by decide +kernel)
  exact ⟨sig, hsig, h.1 Toy.signingKey _ _ _ [] sig Toy.signingKey_verifies hsig⟩

end Ssh
end Wolf
