import WolfsslRs.SshKeypairTrip
/-!
# SshPrivateTrip — private keys written, encrypted and read back

`PrivateKey::to_bytes` and `from_bytes`, `encrypt_with` and `decrypt`.  What is written is read back when the decoder
takes the keypair for what it is (`restores_decode`, `decrypt_back`), and an answer of the decoder always is such a key
(`gives_keypair`, `gives_decode`), so keys of the other kinds never come back: an opaque key whose name is that of a
certificate type is written without complaint, and the file is refused.
-/
namespace Wolf
namespace Ssh

open Reader

/-! ## What the decoders answer -/

section
variable {C : Crates}

theorem gives_decodeLabel (hC : C.RoundTrips) {α : Type} {parse : Text → Except Exit α} :
    Gives (C.decodeLabel parse) (fun a => ∃ id, parse id = .ok a ∧ id.len ≤ C.labelMax) :=
  gives_bind hC.label_le fun id hid => gives_orThrow fun _ ha => ⟨id, ha, hid⟩

theorem gives_ecdsa : Gives (EcdsaPublicKey.decode C)
    (fun key => C.encodedPoint key.curve key.point = true ∧ ProperPoint key.point) := by
  refine gives_then fun curve => gives_then fun bytes => ?_
  refine gives_bind (D := fun key => C.encodedPoint key.curve key.point = true ∧ ProperPoint key.point)
    (gives_orThrow fun key hkey => ⟨encodedPoint_of_fromSec1Bytes hkey, proper_of_fromSec1Bytes hkey⟩)
    fun key hkey => ?_
  split
  · exact gives_pure hkey
  · exact gives_throw

/-- **Every key whose data is decoded is one the decoder takes for what it is**, of the algorithm it was read as. -/
theorem gives_decodeAs (a : Algorithm) : Gives (KeyData.decodeAs C a)
    (fun key => key.Readable C ∧ key.algorithm = a.ofKey) := by
  cases a with
  | dsa =>
    refine gives_map (D := fun key => DsaPublicKey.new C key.p key.q key.g key.y = .ok key) ?_ fun _ h => ⟨h, rfl⟩
    refine gives_then fun p => gives_then fun q => gives_then fun g => gives_then fun y => gives_orThrow fun key h => ?_
    have hkey : key = ⟨p, q, g, y⟩ := by
      unfold DsaPublicKey.new at h
      split at h
      · cases h; rfl
      · cases h
    subst hkey
    exact h
  | ecdsa curve =>
    refine gives_bind gives_ecdsa fun key hkey => ?_
    split
    · rename_i hcurve
      exact gives_pure ⟨hkey, congrArg Algorithm.ecdsa hcurve⟩
    · exact gives_throw
  | ed25519 => exact gives_made fun _ => ⟨trivial, rfl⟩
  | rsa hash =>
    refine gives_map (D := fun key => RsaPublicKey.new C key.e key.n = .ok key) ?_ fun _ h => ⟨h, rfl⟩
    refine gives_then fun e => gives_then fun n => gives_orThrow fun key h => ?_
    have hkey : key.e = e ∧ key.n = n := by
      unfold RsaPublicKey.new at h
      split at h
      · cases h
      · split at h
        · split at h
          · cases h; exact ⟨rfl, rfl⟩
          · cases h
        · cases h
    rw [hkey.1, hkey.2]
    exact h
  | skEcdsaSha2NistP256 =>
    refine gives_map (D := fun key => C.encodedPoint .nistP256 key.ecPoint = true) ?_ fun _ h => ⟨h, rfl⟩
    refine gives_then fun curve => ?_
    split
    · exact gives_throw
    refine gives_then fun ecPoint => ?_
    split
    · rename_i hpoint
      exact gives_then fun application => gives_pure hpoint
    · exact gives_throw
  | skEd25519 => exact gives_made fun _ => ⟨trivial, rfl⟩
  | other name =>
    refine gives_map (D := fun key => key.algorithm = .other name) ?_ fun _ h => ⟨⟨name, h⟩, h⟩
    exact gives_then fun len => gives_then fun bytes => gives_pure rfl

/-- **Every key that is decoded and no certificate** is one the decoder takes for what it is. -/
theorem gives_nested (hC : C.RoundTrips) (depth : Nat) : Gives (KeyData.decodeNested C depth)
    (fun key => key.isCertificate = false → key.Legible C) := by
  cases depth with
  | zero => exact gives_throw
  | succ depth =>
    rw [KeyData.decodeNested]
    refine gives_bind (gives_decodeLabel hC) ?_
    rintro algorithm ⟨id, hid, hlen⟩
    have hplain : (∀ name a, algorithm = .other name → Algorithm.newCertificate name.asStr ≠ .ok a) →
        Gives (KeyData.decodeAs C algorithm) (fun key => key.isCertificate = false → key.Legible C) := by
      intro hname bs
      refine Program.wp_mono ?_ (fun _ _ h => h) (gives_decodeAs algorithm bs)
      rintro key _ ⟨hread, halg⟩ _
      refine ⟨hread, fun name hother => ?_⟩
      rw [halg] at hother
      cases algorithm with
      | other name' =>
        cases hother
        have hstr : name.asStr = id := (asStr_of_fromStr hid).1
        exact ⟨by rw [hstr]; exact hid, fun a => hname name a rfl, by rw [hstr]; exact hlen⟩
      | _ => cases hother
    cases algorithm with
    | other name =>
      dsimp only
      split
      · refine gives_made fun _ hplainKey => ?_
        cases hplainKey
      · rename_i e he
        refine hplain fun name' a halg => ?_
        cases halg
        rw [he]
        intro hok
        cases hok
    | _ =>
      refine hplain fun _ _ hother => ?_
      cases hother

theorem gives_ed25519Keypair {derive : Option (Ed25519PrivateKey → Ed25519PublicKey)} :
    Gives (Ed25519Keypair.decode C derive) (fun key => ∀ f ∈ derive, f key.privateKey = key.publicKey) := by
  refine gives_then fun publicKey => gives_then fun bytes =>
    gives_bind (D := fun key => ∀ f ∈ derive, f key.privateKey = key.publicKey) (gives_orThrow fun key hkey => ?_) ?_
  · intro f hf
    cases hf
    unfold Ed25519Keypair.fromBytes at hkey
    simp only at hkey
    split at hkey
    · cases hkey
    · rename_i hne
      cases hkey
      exact not_not.1 hne
  · intro key hkey
    split
    · exact gives_pure hkey
    · exact gives_throw

/-- **Every keypair that is decoded is one the decoder takes for what it is.** -/
theorem gives_keypair (hC : C.RoundTrips) {derive : Option (Ed25519PrivateKey → Ed25519PublicKey)} :
    Gives (KeypairData.decode C derive) (fun key => key.Readable C derive) := by
  refine gives_bind (gives_decodeLabel hC) ?_
  rintro algorithm ⟨id, hid, hlen⟩
  cases algorithm with
  | dsa => exact gives_made fun _ => trivial
  | ecdsa curve =>
    refine gives_bind (D := fun key => ProperPoint key.publicKey.point) ?_ fun key hkey => ?_
    · exact gives_bind gives_ecdsa fun publicKey hpub => gives_then fun w => gives_pure hpub.2
    · split
      · exact gives_pure hkey
      · exact gives_throw
  | ed25519 => exact gives_map gives_ed25519Keypair fun _ h => h
  | rsa hash => exact gives_made fun _ => trivial
  | skEcdsaSha2NistP256 => exact gives_made fun _ => trivial
  | skEd25519 => exact gives_made fun _ => trivial
  | other name =>
    have hname : Algorithm.fromStr name.asStr = .ok (.other name) ∧ name.asStr.len ≤ C.labelMax := by
      have hstr : name.asStr = id := (asStr_of_fromStr hid).1
      rw [hstr]
      exact ⟨hid, hlen⟩
    refine gives_map (D := fun key => key.publicKey.algorithm = .other name) ?_ fun key hkey => ⟨name, hkey, hname⟩
    refine gives_bind (D := fun key => key.algorithm = .other name) ?_ fun publicKey hpub => ?_
    · exact gives_then fun len => gives_then fun bytes => gives_pure rfl
    · exact gives_then fun len => gives_then fun w => gives_pure hpub

/-- Not an opaque key with the name of a certificate type. -/
def KeyData.NotCertificateNamed : KeyData → Prop
  | .other key => ∀ a, Algorithm.newCertificate key.algorithm.asStr ≠ .ok a
  | _ => True

/-- A name that stands for a certificate is never decoded as an opaque key. -/
theorem gives_keyData (hC : C.RoundTrips) : Gives (KeyData.decode C) KeyData.NotCertificateNamed := by
  refine gives_then fun bs => ?_
  intro left
  refine Program.wp_mono (fun key _ hkey => ?_) (fun _ _ h => h) (gives_nested hC (bs.length + 1) left)
  cases key with
  | other k =>
    obtain ⟨⟨name, hname⟩, hother⟩ := hkey rfl
    intro a ha
    rw [hname] at ha
    exact (hother name hname).2.1 a ha
  | _ => trivial

end

/-! ## The file -/

section
variable {C : Crates} (hC : C.RoundTrips)
include hC

omit hC in
theorem KdfAlg.fromStr_asStr (a : KdfAlg) : KdfAlg.fromStr a.asStr = .ok a := by
  cases a with
  | none => rfl
  | bcrypt => rfl

omit hC in
theorem KdfAlg.len_asStr (a : KdfAlg) : a.asStr.len ≤ 48 := by
  cases a with
  | none => decide
  | bcrypt => decide

theorem restores_kdf {kdf : Kdf} {w : Bytes} (hw : kdf.encode C = .ok w) (hmax : w.length ≤ C.sizeMax) :
    Restores (Kdf.decode C) w kdf := by
  refine restores_cat_le hw hmax
    (fun _ hu _ => restores_ownLabel hC (KdfAlg.len_asStr _) hu (KdfAlg.fromStr_asStr _)) fun v hv hmax => ?_
  have hv' := cat_one.1 hv
  cases kdf with
  | none =>
    refine restores_end (hC.usize_back _ _ (Nat.zero_le _) hv') ?_
    rw [if_pos rfl]
    exact restores_pure
  | bcrypt salt rounds =>
    obtain ⟨x, hx, -, hcat⟩ := Kdf.options_ok hC.toLawful hv'
    obtain ⟨u, -, rfl, -⟩ := hC.prefixed_ok hcat
    rw [List.length_append] at hmax
    have hopts : Restores (do
        let salt ← C.bytes.decode
        let rounds ← C.u32.decode
        pure (Kdf.bcrypt salt rounds)) x (.bcrypt salt rounds) :=
      restores_cat_le hx (show x.length ≤ C.sizeMax by omega) (hC.bytes_within _) fun _ hw _ =>
        restores_cat hw (hC.u32_back _) fun _ hw => restores_nil hw restores_pure
    exact restores_readPrefixed hC hcat (by omega) (restores_run hopts)

variable {κ : Type} [DecidableEq κ] {P : PrivateCrates κ} {k : PrivateKey κ}

omit hC [DecidableEq κ] in
/-- The checkint that is written. -/
def PrivateKey.writtenCheckint (k : PrivateKey κ) : UInt32 := k.checkint.getD k.keyData.checkint

/-- **What is written is read back**, from a file of a key in the clear. -/
theorem restores_decode (hP : P.Lawful) (hk : k.Plain C P) (hread : k.keyData.Readable C P.ed25519)
    (hcert : ¬ k.keyData.CertificateNamed) {w : Bytes} (hw : k.encode C P = .ok w) (hmax : w.length ≤ C.sizeMax) :
    Restores (PrivateKey.decode C P) w (k.back P k.writtenCheckint) := by
  have hplain := isEncrypted_of_publicData hk.publicData
  have hsize := hC.sizeMax_le
  rw [PrivateKey.encode, hplain, if_neg Bool.false_ne_true] at hw
  obtain ⟨magic, hmagic, v₁, hw₁, rfl⟩ := cat_cons.1 hw
  obtain ⟨cipher, hcipher, v₂, hw₂, rfl⟩ := cat_cons.1 hw₁
  obtain ⟨kdf, hkdf, v₃, hw₃, rfl⟩ := cat_cons.1 hw₂
  obtain ⟨nkeys, hnkeys, v₄, hw₄, rfl⟩ := cat_cons.1 hw₃
  obtain ⟨pub, pair, hpub, hpair, rfl⟩ := cat_pair.1 hw₄
  simp only [List.length_append] at hmax
  cases hmagic
  refine restores_bind (restores_take authMagic rfl) ?_
  rw [if_neg (not_not.2 rfl)]
  have hone : 1 ≤ C.sizeMax := Nat.le_trans (by decide) hC.le_sizeMax
  refine restores_bind (hP.cipher_back _ _ hcipher) (restores_bind (restores_kdf hC hkdf (by omega))
    (restores_bind (hC.usize_back _ _ hone hnkeys) ?_))
  rw [if_neg (not_not.2 rfl)]
  -- the public key, behind its length
  obtain ⟨pubBytes, hpubBytes, hpubLe, hpubCat⟩ := encodePrefixed_ok (announces_key hC.toLawful _) hpub (by omega)
  have hpublic := restores_key hC (legible_publicData hk.publicData hk.valid hread hcert) hpubBytes (by omega)
  refine restores_bind (restores_readPrefixed hC hpubCat (by omega) (restores_run hpublic)) ?_
  rw [if_neg (not_not.2 hk.cipher), if_neg (not_not.2 hk.kdf)]
  -- the pair, behind its length
  obtain ⟨x, hx, hle, hxCat⟩ := encodePrefixed_ok (announces_pair hC.toLawful P.none _) hpair (by omega)
  have hbytes := pairBytes_of_encodePair hC.toLawful hx (by omega)
  refine restores_readPrefixed hC hxCat (by omega) ?_
  rw [hk.cipher, if_pos rfl]
  exact run_decodePair hC hk hread hbytes (by omega) (hP.blockSize_ne_zero P.none) (hbytes.blocks hP) (fun _ h => h)

omit hC [DecidableEq κ] in
theorem encode_of_privateToBytes {w : Bytes} (h : k.toBytes C P = .ok w) : k.encode C P = .ok w := by
  unfold PrivateKey.toBytes at h
  obtain ⟨_, -, h⟩ := Program.bind_ok.1 h
  exact (intoVec_ok h).1

theorem fromBytes_back (hP : P.Lawful) (hk : k.Plain C P) (hread : k.keyData.Readable C P.ed25519)
    (hcert : ¬ k.keyData.CertificateNamed) {w : Bytes} (h : k.toBytes C P = .ok w) (hmax : w.length ≤ C.sizeMax) :
    PrivateKey.fromBytes C P w = .ok (k.back P k.writtenCheckint) :=
  finish_run.2 (restores_run (restores_decode hC hP hk hread hcert (encode_of_privateToBytes h) hmax))

/-- A file that comes back as the key it was written for is of a key the decoder takes for what it is. -/
theorem readable_of_fromBytes (hk : k.Plain C P) {w : Bytes} {k' : PrivateKey κ}
    (h : PrivateKey.fromBytes C P w = .ok k') (heq : k'.Equal k) :
    k.keyData.Readable C P.ed25519 ∧ ¬ k.keyData.CertificateNamed := by
  obtain ⟨hkeyData, -, -, hpublicKey⟩ := heq
  have hplain := isEncrypted_of_publicData hk.publicData
  have hpub := hk.publicData
  obtain ⟨hnamed, hread, -⟩ := gives_ok (gives_decode (gives_keyData hC) (gives_keypair hC)) (finish_run.1 h)
    (by rw [hkeyData]; exact hplain)
  rw [hkeyData] at hread
  rw [hpublicKey] at hnamed
  refine ⟨hread, fun hcert => ?_⟩
  cases hkey : k.keyData with
  | other key =>
    rw [hkey] at hpub hcert
    obtain ⟨a, ha⟩ := hcert
    rw [← Except.ok.inj hpub] at hnamed
    exact hnamed a ha
  | _ =>
    rw [hkey] at hcert
    exact hcert

/-! ## Encryption -/

omit hC in
/-- Decrypting comes down to reading the pair that was encrypted. -/
theorem decrypt_of_encryptWith (hP : P.Lawful) {cipher : κ} {kdf : Kdf} {checkint : UInt32} {password : Bytes}
    {e : PrivateKey κ} (h : k.encryptWith C P cipher kdf checkint password = .ok e) :
    ∃ out, k.encodePair C P cipher checkint = .ok out ∧ out.length ≤ C.usizeMax ∧
      ∀ k', e.decrypt C P password = .ok k' ↔
        ∃ rest, (PrivateKey.decodePair C P k.publicKey.keyData (P.blockSize cipher) (P.blockSize cipher - 1)).run out =
          .ok k' rest := by
  obtain ⟨key, iv, out, ciphertext, tag, hderive, hout, hmax, henc, rfl⟩ := encryptWith_ok h
  refine ⟨out, hout, hmax, fun k' => ?_⟩
  have hdec := hP.decrypts _ _ _ _ _ _ henc
  simp only [PrivateKey.decrypt, hderive, hdec, bind, Except.bind]
  split
  · rename_i a rest hrun
    simp [hrun]
  · rename_i e' s hrun
    simp [hrun]

theorem decrypt_back (hP : P.Lawful) (hk : k.Plain C P) (hread : k.keyData.Readable C P.ed25519) {cipher : κ} {kdf : Kdf}
    {checkint : UInt32} {password : Bytes} {e : PrivateKey κ}
    (h : k.encryptWith C P cipher kdf checkint password = .ok e)
    (hsize : ∀ pair, k.encodePair C P cipher checkint = .ok pair → pair.length ≤ C.sizeMax) :
    e.decrypt C P password = .ok (k.back P checkint) := by
  obtain ⟨out, hout, hmax, hdecrypt⟩ := decrypt_of_encryptWith hP h
  have hbytes := pairBytes_of_encodePair hC.toLawful hout hmax
  have hpadding : ∀ n, P.paddingLen cipher n ≤ maxBlockSize → P.paddingLen cipher n ≤ P.blockSize cipher - 1 :=
    fun n _ => Nat.le_sub_one_of_lt (hP.padding_lt cipher n)
  exact (hdecrypt _).2
    ⟨[], run_decodePair hC hk hread hbytes (hsize out hout) (hP.blockSize_ne_zero cipher) (hbytes.blocks hP) hpadding⟩

/-- **A private key comes back, from its file and from its encryption, exactly when the decoder takes the keypair for
what it is**, and from its file only if its name does not pass for a certificate's; where the file and the keypair are no
longer than a length that is read. -/
theorem private_key_back_iff (hP : P.Lawful) (hk : k.Plain C P) :
    (∀ bytes, k.toBytes C P = .ok bytes → bytes.length ≤ C.sizeMax →
      ((∃ k', PrivateKey.fromBytes C P bytes = .ok k' ∧ k'.Equal k ∧ k'.comment = k.comment) ↔
        k.keyData.Readable C P.ed25519 ∧ ¬ k.keyData.CertificateNamed)) ∧
    (∀ cipher kdf checkint password e, k.encryptWith C P cipher kdf checkint password = .ok e →
      (∀ pair, k.encodePair C P cipher checkint = .ok pair → pair.length ≤ C.sizeMax) →
      ((∃ k', e.decrypt C P password = .ok k' ∧ k'.Equal k ∧ k'.comment = k.comment) ↔
        k.keyData.Readable C P.ed25519)) := by
  refine ⟨fun bytes hbytes hsize => ⟨?_, ?_⟩, fun cipher kdf checkint password e he hsize => ⟨?_, ?_⟩⟩
  · rintro ⟨k', hk', heq, -⟩
    exact readable_of_fromBytes hC hk hk' heq
  · rintro ⟨hread, hcert⟩
    exact ⟨_, fromBytes_back hC hP hk hread hcert hbytes hsize, hk.back_equal _, rfl⟩
  · rintro ⟨k', hk', ⟨hkeyData, -⟩, -⟩
    obtain ⟨out, -, -, hdecrypt⟩ := decrypt_of_encryptWith hP he
    obtain ⟨rest, hrun⟩ := (hdecrypt k').1 hk'
    rw [← hkeyData]
    exact (gives_ok (gives_decodePair (gives_keypair hC)) hrun).2.1
  · intro hread
    exact ⟨_, decrypt_back hC hP hk hread he hsize, hk.back_equal _, rfl⟩

end

/-! ## A file and its encryption -/

/-- Three of the ciphers, by their names. -/
inductive SampleCipher where
  | none
  | aes256Ctr
  | chaCha20Poly1305
  deriving DecidableEq

def SampleCipher.asStr : SampleCipher → Text
  | .none => "none".toList
  | .aes256Ctr => "aes256-ctr".toList
  | .chaCha20Poly1305 => "chacha20-poly1305@openssh.com".toList

def SampleCipher.fromStr (name : Text) : Except Exit SampleCipher :=
  if name = "none".toList then .ok .none
  else if name = "aes256-ctr".toList then .ok .aes256Ctr
  else if name = "chacha20-poly1305@openssh.com".toList then .ok .chaCha20Poly1305
  else .error (LabelError name)

def SampleCipher.blockSize : SampleCipher → Nat
  | .aes256Ctr => 16
  | _ => 8

/-- Exclusive or with one byte, in the place of the key stream. -/
def maskBytes (key buffer : Bytes) : Bytes := buffer.map (key.headD 0 ^^^ ·)

theorem maskBytes_twice (key buffer : Bytes) : maskBytes key (maskBytes key buffer) = buffer := by
  have hid : (key.headD 0 ^^^ ·) ∘ (key.headD 0 ^^^ ·) = id := by
    funext b
    show key.headD 0 ^^^ (key.headD 0 ^^^ b) = b
    rw [← UInt8.xor_assoc, UInt8.xor_self, UInt8.zero_xor]
  rw [maskBytes, maskBytes, List.map_map, hid, List.map_id]

/-- The public key of the seed that is all zeros. -/
def zeroSeedPublicKey : Ed25519PublicKey where
  bytes := [0x3b, 0x6a, 0x27, 0xbc, 0xce, 0xb6, 0xa4, 0x2d, 0x62, 0xa3, 0xa8, 0xd0, 0x2a, 0x6f, 0x0d, 0x73,
    0x65, 0x32, 0x15, 0x77, 0x1d, 0xe2, 0x43, 0xa6, 0x3a, 0xc0, 0x48, 0xa1, 0x8b, 0x59, 0xda, 0x29]
  size := rfl

def sampleCrates : PrivateCrates SampleCipher where
  none := .none
  chaCha20Poly1305 := .chaCha20Poly1305
  cipher :=
    { decode := Rfc4251.utf8Crates.decodeLabel SampleCipher.fromStr
      encode := fun c => Rfc4251.utf8Crates.string.encode c.asStr
      encodedLen := fun c => Rfc4251.utf8Crates.string.encodedLen c.asStr }
  blockSize := SampleCipher.blockSize
  paddingLen c n := (c.blockSize - n % c.blockSize) % c.blockSize
  keyAndIvSize
    | .none => none
    | .aes256Ctr => some (32, 16)
    | .chaCha20Poly1305 => some (32, 12)
  hasTag c := c = .chaCha20Poly1305
  tagLen := 16
  chaChaNonce := List.replicate 12 0
  encrypt
    | .none, _, _, _ => .error cryptoError
    | .aes256Ctr, key, _, buffer => .ok (maskBytes key buffer, none)
    | .chaCha20Poly1305, key, _, buffer => .ok (maskBytes key buffer, some (List.replicate 16 0))
  decrypt _ key _ buffer _ := .ok (maskBytes key buffer)
  bcryptPbkdf password _ _ size := some (List.replicate size (password.headD 0))
  ed25519 := some fun _ => zeroSeedPublicKey

theorem sampleCrates_lawful : sampleCrates.Lawful where
  cipher_back c w hw := by
    have hname : SampleCipher.fromStr c.asStr = .ok c := by
      cases c with
      | none => rfl
      | aes256Ctr => rfl
      | chaCha20Poly1305 => rfl
    have hlen : c.asStr.len ≤ 48 := by cases c <;> decide
    exact restores_ownLabel Rfc4251.utf8Crates_roundTrips hlen hw hname
  decrypts c key iv buffer out tag h := by
    cases c with
    | none => cases h
    | aes256Ctr =>
      cases h
      exact congrArg Except.ok (maskBytes_twice key buffer)
    | chaCha20Poly1305 =>
      cases h
      exact congrArg Except.ok (maskBytes_twice key buffer)
  completes c n := by
    show (n + (c.blockSize - n % c.blockSize) % c.blockSize) % c.blockSize = 0
    cases c with
    | none => simp only [SampleCipher.blockSize]; omega
    | aes256Ctr => simp only [SampleCipher.blockSize]; omega
    | chaCha20Poly1305 => simp only [SampleCipher.blockSize]; omega
  padding_lt c n := by
    refine Nat.mod_lt _ ?_
    show 0 < c.blockSize
    cases c with
    | none => decide
    | aes256Ctr => decide
    | chaCha20Poly1305 => decide

/-- An Ed25519 key, with a comment and a checkint. -/
def zeroSeedKey : PrivateKey SampleCipher where
  cipher := .none
  kdf := .none
  checkint := some 7
  publicKey := ⟨.ed25519 zeroSeedPublicKey, [104, 111, 115, 116]⟩
  keyData := .ed25519 ⟨zeroSeedPublicKey, ⟨List.replicate 32 0, rfl⟩⟩
  authTag := none

theorem zeroSeedKey_plain : zeroSeedKey.Plain Rfc4251.utf8Crates sampleCrates :=
  ⟨rfl, rfl, trivial, rfl⟩

theorem zeroSeedKey_fits :
    (∀ bytes, zeroSeedKey.toBytes Rfc4251.utf8Crates sampleCrates = .ok bytes →
      bytes.length ≤ Rfc4251.utf8Crates.sizeMax) ∧
    ∀ pair, zeroSeedKey.encodePair Rfc4251.utf8Crates sampleCrates .aes256Ctr 9 = .ok pair →
      pair.length ≤ Rfc4251.utf8Crates.sizeMax := by
  have hfile : (List.length <$> zeroSeedKey.toBytes Rfc4251.utf8Crates sampleCrates) = .ok 234 := by decide +kernel
  have hpair : (List.length <$> zeroSeedKey.encodePair Rfc4251.utf8Crates sampleCrates .aes256Ctr 9) = .ok 144 := by
    decide +kernel
  constructor
  · intro bytes h
    rw [h] at hfile
    rw [Except.ok.inj hfile]
    decide
  · intro pair h
    rw [h] at hpair
    rw [Except.ok.inj hpair]
    decide

theorem private_key_back_iff_zeroSeed : zeroSeedKey.Plain Rfc4251.utf8Crates sampleCrates ∧
    (∃ bytes k', zeroSeedKey.toBytes Rfc4251.utf8Crates sampleCrates = .ok bytes ∧
      PrivateKey.fromBytes Rfc4251.utf8Crates sampleCrates bytes = .ok k' ∧ k'.Equal zeroSeedKey ∧
      k'.comment = zeroSeedKey.comment) ∧
    (∃ e k', zeroSeedKey.encryptWith Rfc4251.utf8Crates sampleCrates .aes256Ctr (.bcrypt [1, 2, 3] 16) 9 [112, 119] =
        .ok e ∧ e.decrypt Rfc4251.utf8Crates sampleCrates [112, 119] = .ok k' ∧ k'.Equal zeroSeedKey ∧
      k'.comment = zeroSeedKey.comment) := by
  obtain ⟨hfile, hencrypted⟩ :=
    private_key_back_iff Rfc4251.utf8Crates_roundTrips sampleCrates_lawful zeroSeedKey_plain
  have hread : zeroSeedKey.keyData.Readable Rfc4251.utf8Crates sampleCrates.ed25519 := by
    intro f hf
    cases hf
    rfl
  obtain ⟨bytes, hbytes⟩ : ∃ bytes, zeroSeedKey.toBytes Rfc4251.utf8Crates sampleCrates = .ok bytes :=
    Program.exists_of_isOk (by decide +kernel)
  obtain ⟨e, he⟩ : ∃ e, zeroSeedKey.encryptWith Rfc4251.utf8Crates sampleCrates .aes256Ctr (.bcrypt [1, 2, 3] 16) 9
      [112, 119] = .ok e := Program.exists_of_isOk (by decide +kernel)
  have hsize : bytes.length ≤ Rfc4251.utf8Crates.sizeMax := zeroSeedKey_fits.1 bytes hbytes
  obtain ⟨k', hk'⟩ := (hfile bytes hbytes hsize).2 ⟨hread, id⟩
  obtain ⟨k'', hk''⟩ := (hencrypted _ _ _ _ e he zeroSeedKey_fits.2).2 hread
  exact ⟨zeroSeedKey_plain, ⟨bytes, k', hbytes, hk'⟩, ⟨e, k'', he, hk''⟩⟩

/-- A key of a type this crate does not know, whose name is that of a certificate type. -/
def acmeKeypair : KeypairData :=
  .other ⟨[1, 2, 3, 4], ⟨.other ⟨"acme-cert-v01@example.com".toList⟩, [5, 6, 7, 8]⟩⟩

/-- What `PrivateKey::new` makes of it. -/
def acmeKey : PrivateKey SampleCipher where
  cipher := .none
  kdf := .none
  checkint := none
  publicKey := ⟨.other ⟨.other ⟨"acme-cert-v01@example.com".toList⟩, [5, 6, 7, 8]⟩, []⟩
  keyData := acmeKeypair
  authTag := none

/-- **A file that is written and never read**: `Algorithm::new` accepts the name, `PrivateKey::new` the keypair, and the
key is encoded; decoding takes the public key for a certificate, and its bytes end before the certificate does. -/
theorem certificate_named_key_lost :
    Algorithm.fromStr "acme-cert-v01@example.com".toList = .ok (.other ⟨"acme-cert-v01@example.com".toList⟩) ∧
    PrivateKey.new sampleCrates acmeKeypair [] = .ok acmeKey ∧
    ∃ bytes, acmeKey.toBytes Rfc4251.utf8Crates sampleCrates = .ok bytes ∧
      PrivateKey.fromBytes Rfc4251.utf8Crates sampleCrates bytes = .error lengthError := by
  have hfile : (acmeKey.toBytes Rfc4251.utf8Crates sampleCrates >>=
      PrivateKey.fromBytes Rfc4251.utf8Crates sampleCrates) = .error lengthError := by decide +kernel
  obtain ⟨bytes, hbytes⟩ : ∃ bytes, acmeKey.toBytes Rfc4251.utf8Crates sampleCrates = .ok bytes :=
    Program.exists_of_isOk (by decide +kernel)
  rw [hbytes] at hfile
  exact ⟨rfl, rfl, bytes, hbytes, hfile⟩

end Ssh
end Wolf
