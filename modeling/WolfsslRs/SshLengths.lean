import WolfsslRs.SshSig
/-!
# SshLengths — announced lengths and what is written

What `encoded_len` announces is what `encode` writes, for every type of the wire format: with keys, options and
certificates (`announces_key`) for keypairs, and for private keys in the clear and encrypted.  An encrypted private key has
its tag behind it; `encoded_len` counts a tag wherever there is one and `encode` writes it for encrypted keys only, which is
the same for every key the API makes (`tagged_of_made`).
-/
namespace Wolf
namespace Ssh

open Reader Program

section
variable {C : Crates}

/-- A length written as the sum of two. -/
theorem usize_of_total {a b : Nat} {w : Bytes} (h : (do C.usize.encode (← C.total [.ok a, .ok b])) = .ok w) :
    C.usize.encode (a + b) = .ok w := by
  obtain ⟨n, hn, h⟩ := bind_ok.1 h
  have hsum : Reader.total C.usizeMax lengthError ([a, b].map Except.ok) = .ok n ↔ _ := total_oks
  obtain ⟨rfl, -⟩ := hsum.1 hn
  exact h

theorem EcdsaKeypair.encode_ok {key : EcdsaKeypair} {w : Bytes} (h : key.encode C = .ok w) :
    ∃ u v, key.publicKey.encode C = .ok u ∧ w = u ++ v ∧
      cat [C.usize.encode (List.replicate (leadingZero key.privateKey) (0 : UInt8) ++ key.privateKey).length,
        .ok (List.replicate (leadingZero key.privateKey) 0 ++ key.privateKey)] = .ok v := by
  obtain ⟨u, hu, v, hv, rfl⟩ := cat_cons.1 h
  obtain ⟨l, hl, z, hz, rfl⟩ := cat_cons.1 hv
  obtain ⟨x, y, hx, hy, rfl⟩ := cat_pair.1 hz
  cases hx
  cases hy
  refine ⟨u, _, hu, rfl, cat_pair.2 ⟨l, _, ?_, rfl, rfl⟩⟩
  rw [List.length_append, List.length_replicate, key.size]
  exact usize_of_total hl

end

section
variable {C : Crates} (hC : C.Lawful)
include hC

/-! ## Keypairs -/

theorem announces_ecdsaKeypair (key : EcdsaKeypair) : Announces C.usizeMax (key.encodedLen C) (key.encode C) := by
  intro w hw hmax
  obtain ⟨u, v, hu, rfl, hv⟩ := key.encode_ok hw
  obtain ⟨l, -, rfl, hl⟩ := hC.prefixed_ok hv
  simp only [List.length_append, List.length_replicate, key.size, hl] at hmax ⊢
  have hpub := announces_ecdsa hC key.publicKey u hu (by omega)
  exact total_cons hpub (total_one (total_cons rfl (total_cons rfl (total_one rfl (by omega)) (by omega)) (by omega))
    (by omega)) hmax

theorem announces_ed25519Keypair (key : Ed25519Keypair) : Announces C.usizeMax (key.encodedLen C) (key.encode C) := by
  intro w hw hmax
  obtain ⟨u, v, hu, hv, rfl⟩ := cat_pair.1 hw
  have hv' := hC.bytes_length hv
  rw [Ed25519Keypair.toBytes, List.length_append, key.privateKey.size, key.publicKey.size] at hv'
  rw [List.length_append, hv'] at hmax ⊢
  have hpub := announces_ed25519 hC key.publicKey u hu (by omega)
  have htotal : key.encodedLen C = .ok (4 + (u.length + 64)) :=
    total_cons rfl (total_cons hpub (total_one rfl (by omega)) (by omega)) (by omega)
  rw [htotal]
  exact congrArg Except.ok (by omega)

theorem announces_skKeypair {α : Type} {key : SkKeypair α} {len : α → Except Exit Nat} {enc : α → Except Exit Bytes}
    (hpub : Announces C.usizeMax (len key.publicKey) (enc key.publicKey)) :
    Announces C.usizeMax (key.encodedLen C len) (key.encode C enc) :=
  announces_total _ (.cons hpub (.cons (hC.u8.announces _) (.cons (hC.bytes.announces _)
    (.cons (hC.bytes.announces _) .nil))))

/-- **A keypair announces its length truly**; an encrypted one is its ciphertext. -/
theorem announces_keypair (key : KeypairData) : Announces C.usizeMax (key.encodedLen C) (key.encode C) := by
  have hpublic : ∀ pub : KeyData, pub.isCertificate = false →
      Announces C.usizeMax (pub.encodedKeyDataLen C) (pub.encodeKeyData C) :=
    fun _ h => announces_keyData hC h
  cases key with
  | dsa k =>
    have hkey : Announces C.usizeMax (k.encodedLen C) (k.encode C) :=
      announces_total _ (.cons (hpublic (.dsa k.publicKey) rfl) (.cons (hC.mpint.announces _) .nil))
    exact announces_total _ (.cons (hC.string.announces _) (.cons hkey .nil))
  | ecdsa k => exact announces_total _ (.cons (hC.string.announces _) (.cons (announces_ecdsaKeypair hC k) .nil))
  | ed25519 k => exact announces_total _ (.cons (hC.string.announces _) (.cons (announces_ed25519Keypair hC k) .nil))
  | encrypted ciphertext =>
    intro w hw _
    obtain ⟨u, v, hu, hv, rfl⟩ := cat_pair.1 hw
    cases hu
    cases hv
    rfl
  | rsa k =>
    have hprivate : Announces C.usizeMax (k.privateKey.encodedLen C) (k.privateKey.encode C) :=
      announces_total _ (.cons (hC.mpint.announces _) (.cons (hC.mpint.announces _) (.cons (hC.mpint.announces _)
        (.cons (hC.mpint.announces _) .nil))))
    have hkey : Announces C.usizeMax (k.encodedLen C) (k.encode C) :=
      announces_total _ (.cons (hC.mpint.announces _) (.cons (hC.mpint.announces _) (.cons hprivate .nil)))
    exact announces_total _ (.cons (hC.string.announces _) (.cons hkey .nil))
  | skEcdsaSha2NistP256 k =>
    exact announces_total _ (.cons (hC.string.announces _)
      (.cons (announces_skKeypair hC (hpublic (.skEcdsaSha2NistP256 k.publicKey) rfl)) .nil))
  | skEd25519 k =>
    exact announces_total _ (.cons (hC.string.announces _)
      (.cons (announces_skKeypair hC (hpublic (.skEd25519 k.publicKey) rfl)) .nil))
  | other k =>
    have hkey : Announces C.usizeMax (k.encodedLen C) (k.encode C) :=
      announces_total _ (.cons (hC.bytes.announces _) (.cons (hC.bytes.announces _) .nil))
    exact announces_total _ (.cons (hC.string.announces _) (.cons hkey .nil))

/-! ## Private keys -/

omit hC in
theorem length_paddingOf {n : Nat} {padding : Bytes} (h : paddingOf n = .ok padding) :
    padding.length = n ∧ n ≤ maxBlockSize := by
  unfold paddingOf at h
  split at h
  · rename_i hn
    cases h
    refine ⟨?_, hn⟩
    rw [List.length_take]
    exact Nat.min_eq_left hn
  · cases h

variable {κ : Type} {P : PrivateCrates κ} {k : PrivateKey κ}

/-- What the pair is written as. -/
structure PairBytes (C : Crates) (P : PrivateCrates κ) (k : PrivateKey κ) (cipher : κ) (checkint : UInt32) (w : Bytes) :
    Prop where
  pieces : ∃ c key comment padding, C.u32.encode checkint = .ok c ∧ k.keyData.encode C = .ok key ∧
    C.bytes.encode k.comment = .ok comment ∧ paddingOf padding.length = .ok padding ∧
    w = c ++ (c ++ (key ++ (comment ++ padding))) ∧
    padding.length = P.paddingLen cipher (w.length - padding.length)
  /-- the outer length is the one written in front -/
  announced : k.encodedPairLen C P cipher = .ok w.length

theorem pairBytes_of_encodePair {cipher : κ} {checkint : UInt32} {w : Bytes}
    (h : k.encodePair C P cipher checkint = .ok w) (hmax : w.length ≤ C.usizeMax) :
    PairBytes C P k cipher checkint w := by
  unfold PrivateKey.encodePair at h
  obtain ⟨n, hlen, h⟩ := bind_ok.1 h
  obtain ⟨c, hc, _, h₁, rfl⟩ := cat_cons.1 h
  obtain ⟨c', hc', _, h₂, rfl⟩ := cat_cons.1 h₁
  obtain ⟨key, hkey, _, h₃, rfl⟩ := cat_cons.1 h₂
  obtain ⟨comment, padding, hcomment, hpadding, rfl⟩ := cat_pair.1 h₃
  have hpad := (length_paddingOf hpadding).1
  have hcc : c' = c := by
    rw [hc] at hc'
    exact (Except.ok.inj hc').symm
  subst hcc
  have hfour : c'.length = 4 := by
    rw [hC.u32_eq] at hc
    cases hc
    exact length_beBytes _ _
  simp only [List.length_append] at hmax
  -- the announced length is the true one
  have hkeyLen := announces_keypair hC _ key hkey (by omega)
  have hcommentLen := hC.bytes.announces _ comment hcomment (by omega)
  have htrue : k.unpaddedPairLen C = .ok (8 + (key.length + comment.length)) :=
    total_cons rfl (total_cons hkeyLen (total_one hcommentLen (by omega)) (by omega)) (by omega)
  rw [hlen, Except.ok.injEq] at htrue
  refine ⟨⟨c', key, comment, padding, hc, hkey, hcomment, by rw [hpad]; exact hpadding, rfl, ?_⟩, ?_⟩
  · rw [hpad]
    congr 1
    simp only [List.length_append]
    omega
  · rw [PrivateKey.encodedPairLen, hlen]
    have htotal := total_cons (C := C) (rfl : Except.ok n = .ok n)
      (total_one (rfl : Except.ok (P.paddingLen cipher n) = .ok _) (by omega)) (by omega)
    refine htotal.trans (congrArg Except.ok ?_)
    simp only [List.length_append]
    omega

omit hC in
theorem Kdf.options_ok (hC : C.Lawful) {salt : Bytes} {rounds : UInt32} {w : Bytes}
    (hw : cat [do C.usize.encode (← C.total [.ok 8, .ok salt.length]), C.bytes.encode salt, C.u32.encode rounds]
      = .ok w) :
    ∃ inner, cat [C.bytes.encode salt, C.u32.encode rounds] = .ok inner ∧ inner.length = 8 + salt.length ∧
      cat [C.usize.encode inner.length, .ok inner] = .ok w := by
  obtain ⟨l, hl, inner, hinner, rfl⟩ := cat_cons.1 hw
  have hlen : inner.length = 8 + salt.length := by
    obtain ⟨s, r, hs, hr, rfl⟩ := cat_pair.1 hinner
    rw [hC.u32_eq] at hr
    cases hr
    rw [List.length_append, length_beBytes, hC.bytes_length hs]
    omega
  refine ⟨inner, hinner, hlen, cat_pair.2 ⟨l, inner, ?_, rfl, rfl⟩⟩
  rw [hlen]
  exact usize_of_total hl

theorem announces_kdf (kdf : Kdf) : Announces C.usizeMax (kdf.encodedLen C) (kdf.encode C) := by
  cases kdf with
  | none => exact announces_total _ (.cons (hC.string.announces _) (.cons (announces_usize hC 0) .nil))
  | bcrypt salt rounds =>
    refine announces_total _ (.cons (hC.string.announces _) (.cons (fun w hw hmax => ?_) .nil))
    obtain ⟨inner, -, hlen, hcat⟩ := Kdf.options_ok hC hw
    obtain ⟨u, -, rfl, hfour⟩ := hC.prefixed_ok hcat
    rw [List.length_append, hfour, hlen] at hmax ⊢
    have htotal : C.total [.ok 12, .ok salt.length] = .ok (12 + salt.length) :=
      total_cons rfl (total_one rfl (by omega)) (by omega)
    exact htotal.trans (congrArg Except.ok (by omega))

theorem announces_pair (cipher : κ) (checkint : UInt32) :
    Announces C.usizeMax (k.encodedPairLen C P cipher) (k.encodePair C P cipher checkint) :=
  fun _ hw hmax => (pairBytes_of_encodePair hC hw hmax).announced

omit hC in
/-- A tag is on encrypted keys only. -/
def PrivateKey.Tagged (k : PrivateKey κ) : Prop := k.keyData.isEncrypted = false → k.authTag = none

omit hC in
theorem PrivateKey.encodedLen_eq : k.encodedLen C P =
    (if k.keyData.isEncrypted then C.encodedLenPrefixed (k.keyData.encodedLen C)
      else C.total [.ok 4, k.encodedPairLen C P P.none]) >>= fun privateKeyLen =>
    C.total [.ok authMagic.length, P.cipher.encodedLen k.cipher, k.kdf.encodedLen C, .ok 4,
      C.encodedLenPrefixed (k.publicKey.keyData.encodedLen C), .ok privateKeyLen,
      .ok ((k.authTag.map List.length).getD 0)] := by
  unfold PrivateKey.encodedLen
  split <;> rfl

/-- What follows the public key: the keypair behind its length, and the tag. -/
theorem announces_secret (htag : k.Tagged) {w : Bytes}
    (hw : (if k.keyData.isEncrypted then
        cat [C.encodePrefixed (k.keyData.encodedLen C) (k.keyData.encode C), .ok (k.authTag.getD [])]
      else C.encodePrefixed (k.encodedPairLen C P P.none)
        (k.encodePair C P P.none (k.checkint.getD k.keyData.checkint))) = .ok w) (hmax : w.length ≤ C.usizeMax) :
    ∃ len, (if k.keyData.isEncrypted then C.encodedLenPrefixed (k.keyData.encodedLen C)
        else C.total [.ok 4, k.encodedPairLen C P P.none]) = .ok len ∧
      C.total [.ok len, .ok ((k.authTag.map List.length).getD 0)] = .ok w.length := by
  by_cases henc : k.keyData.isEncrypted = true
  · rw [if_pos henc] at hw ⊢
    obtain ⟨u, tag, hu, ht, rfl⟩ := cat_pair.1 hw
    cases ht
    rw [List.length_append] at hmax ⊢
    have hlen : (k.authTag.map List.length).getD 0 = (k.authTag.getD []).length := by
      cases k.authTag with
      | none => rfl
      | some tag => rfl
    refine ⟨_, announces_prefixed hC (announces_keypair hC _) u hu (by omega), ?_⟩
    rw [hlen]
    exact total_cons rfl (total_one rfl (by omega)) (by omega)
  · have hclear : k.keyData.isEncrypted = false := Bool.eq_false_iff.2 henc
    rw [if_neg henc] at hw ⊢
    refine ⟨_, announces_prefixed hC (announces_pair hC P.none _) w hw hmax, ?_⟩
    rw [htag hclear]
    exact total_cons (m := 0) rfl (total_one rfl (Nat.zero_le _)) hmax

/-- **A private key announces its length truly**, in the clear and encrypted. -/
theorem announces_private (hcipher : ∀ c, Announces C.usizeMax (P.cipher.encodedLen c) (P.cipher.encode c))
    (htag : k.Tagged) : Announces C.usizeMax (k.encodedLen C P) (k.encode C P) := by
  intro w hw hmax
  obtain ⟨magic, hmagic, _, h₁, rfl⟩ := cat_cons.1 hw
  obtain ⟨cipher, hc, _, h₂, rfl⟩ := cat_cons.1 h₁
  obtain ⟨kdf, hkdf, _, h₃, rfl⟩ := cat_cons.1 h₂
  obtain ⟨one, hone, _, h₄, rfl⟩ := cat_cons.1 h₃
  obtain ⟨pub, secret, hpub, hsecret, rfl⟩ := cat_pair.1 h₄
  cases hmagic
  simp only [List.length_append] at hmax ⊢
  obtain ⟨len, hlen, htotal⟩ := announces_secret hC htag hsecret (by omega)
  rw [PrivateKey.encodedLen_eq]
  refine bind_ok.2 ⟨len, hlen, ?_⟩
  have hone := announces_usize hC 1 one hone (by omega)
  rw [Except.ok.injEq] at hone
  rw [← hone] at hmax ⊢
  refine total_cons rfl (total_cons (hcipher _ cipher hc (by omega)) (total_cons (announces_kdf hC _ kdf hkdf (by omega))
    (total_cons rfl (total_cons ?_ htotal (by omega)) (by omega)) (by omega)) (by omega)) hmax
  exact announces_prefixed hC (announces_key hC _) pub hpub (by omega)

end

/-! ## The keys there are -/

/-- **The private keys the API makes**: built from a keypair, read, encrypted, decrypted, or given another comment.
Random keys and those of PuTTY files are built without a tag as well. -/
inductive PrivateKey.Made {κ : Type} [DecidableEq κ] (C : Crates) (P : PrivateCrates κ) : PrivateKey κ → Prop
  | untagged (k : PrivateKey κ) : k.authTag = none → Made C P k
  | fromBytes (bytes : Bytes) (k : PrivateKey κ) : PrivateKey.fromBytes C P bytes = .ok k → Made C P k
  | encryptWith (k e : PrivateKey κ) (cipher : κ) (kdf : Kdf) (checkint : UInt32) (password : Bytes) :
    Made C P k → k.encryptWith C P cipher kdf checkint password = .ok e → Made C P e
  | decrypt (k d : PrivateKey κ) (password : Bytes) : Made C P k → k.decrypt C P password = .ok d → Made C P d
  | setComment (k : PrivateKey κ) (comment : Bytes) :
    Made C P k → Made C P { k with publicKey := { k.publicKey with comment := comment } }

section
variable {C : Crates} {κ : Type} {P : PrivateCrates κ}

/-- What the answers of the two inner readers satisfy, the keypair's and the public key's, the private keys that are
read satisfy as well; in the clear they have no tag. -/
theorem gives_decodePair {Q : KeypairData → Prop} (hpair : Gives (KeypairData.decode C P.ed25519) Q)
    {publicKey : KeyData} {blockSize maxPaddingSize : Nat} :
    Gives (PrivateKey.decodePair C P publicKey blockSize maxPaddingSize)
      (fun k => k.publicKey.keyData = publicKey ∧ Q k.keyData ∧ k.authTag = none) := by
  refine gives_then fun bs => ?_
  split
  · exact gives_throw
  refine gives_then fun checkint1 => gives_then fun checkint2 => ?_
  split
  · exact gives_throw
  refine gives_bind hpair fun keyData hkey => gives_then fun expected => ?_
  split
  · exact gives_throw
  refine gives_then fun comment => gives_then fun left => ?_
  split
  · exact gives_throw
  refine gives_then fun padding => gives_then fun expectedPadding => ?_
  split
  · exact gives_throw
  refine gives_then fun trailing => ?_
  split
  · exact gives_throw
  · exact gives_pure ⟨rfl, hkey, rfl⟩

theorem gives_decode [DecidableEq κ] {R : KeyData → Prop} {Q : KeypairData → Prop} (hpub : Gives (KeyData.decode C) R)
    (hpair : Gives (KeypairData.decode C P.ed25519) Q) :
    Gives (PrivateKey.decode C P) (fun k => k.keyData.isEncrypted = false →
      R k.publicKey.keyData ∧ Q k.keyData ∧ k.authTag = none) := by
  refine gives_then fun magic => ?_
  split
  · exact gives_throw
  refine gives_then fun cipher => gives_then fun kdf => gives_then fun nkeys => ?_
  split
  · exact gives_throw
  refine gives_bind (gives_prefixed hpub) fun publicKey hpub => ?_
  split
  · refine gives_then fun ciphertext => ?_
    split
    · exact gives_throw
    refine gives_then fun authTag => gives_then fun trailing => ?_
    split
    · exact gives_throw
    · exact gives_pure nofun
  · split
    · exact gives_throw
    · refine gives_prefixed fun bs => wp_mono ?_ (fun _ _ h => h) (gives_decodePair hpair bs)
      rintro k _ ⟨rfl, hrest⟩ _
      exact ⟨hpub, hrest⟩

theorem gives_any {α : Type} {d : EStateM Exit Bytes α} : Gives d (fun _ => True) := by
  intro bs
  unfold wp
  split <;> trivial

theorem untagged_of_decrypt [DecidableEq κ] {k d : PrivateKey κ} {password : Bytes}
    (h : k.decrypt C P password = .ok d) : d.authTag = none := by
  obtain ⟨⟨key, iv⟩, -, h⟩ := bind_ok.1 h
  cases hdata : k.keyData with
  | encrypted ciphertext =>
    simp only [hdata] at h
    obtain ⟨buffer, -, h⟩ := bind_ok.1 h
    split at h
    · rename_i privateKey rest hrun
      cases h
      exact (gives_ok (gives_decodePair gives_any) hrun).2.2
    · cases h
  | _ =>
    simp only [hdata] at h
    cases h

/-- **A tag is on encrypted keys only**, whatever was done with them. -/
theorem tagged_of_made [DecidableEq κ] {k : PrivateKey κ} (h : k.Made C P) : k.Tagged := by
  induction h with
  | untagged k htag => exact fun _ => htag
  | fromBytes bytes k h => exact fun hplain => (gives_ok (gives_decode gives_any gives_any) (finish_run.1 h) hplain).2.2
  | encryptWith k e cipher kdf checkint password _ h _ =>
    obtain ⟨-, -, -, -, -, -, -, -, -, rfl⟩ := encryptWith_ok h
    exact nofun
  | decrypt k d password _ h _ => exact fun _ => untagged_of_decrypt h
  | setComment k comment _ ih => exact ih

end

/-! ## All types -/

/-- The announced length is that of what is written into a vector. -/
def Exact (C : Crates) (len : Except Exit Nat) (p : Except Exit Bytes) : Prop :=
  ∀ w, C.intoVec p = .ok w → len = .ok w.length

/-- The block is the true length of its content, and the content. -/
def Framed (C : Crates) (block content : Except Exit Bytes) : Prop :=
  ∀ w, C.intoVec block = .ok w → ∃ inner, content = .ok inner ∧ cat [C.usize.encode inner.length, .ok inner] = .ok w

/-- **Lengths are exact**: `encoded_len` is the number of bytes `encode` writes, and the lengths written in front of
blocks are those of the blocks. -/
structure LengthsExact {κ : Type} [DecidableEq κ] (C : Crates) (P : PrivateCrates κ) : Prop where
  keyData : ∀ key : KeyData, Exact C (key.encodedLen C) (key.encode C)
  privateKey : ∀ k : PrivateKey κ, k.Made C P → Exact C (k.encodedLen C P) (k.encode C P)
  certificate : ∀ cert : Certificate, Exact C (cert.encodedLen C) (cert.encode C)
  signature : ∀ s : Signature, Exact C (s.encodedLen C) (s.encode C)
  sshSig : ∀ sig : SshSig, Exact C (sig.encodedLen C) (sig.encode C)
  kdf : ∀ kdf : Kdf, Exact C (kdf.encodedLen C) (kdf.encode C)
  options : ∀ m : OptionsMap, Exact C (m.encodedLen C) (m.encode C)
  /-- a signature key, the public key of a private key or of an `SshSig` -/
  keyBlock : ∀ key : KeyData, Framed C (C.encodePrefixed (key.encodedLen C) (key.encode C)) (key.encode C)
  signatureBlock : ∀ s : Signature, Framed C (C.encodePrefixed (s.encodedLen C) (s.encode C)) (s.encode C)
  /-- the section of a private key in the clear -/
  pairBlock : ∀ (k : PrivateKey κ) (cipher : κ) (checkint : UInt32),
    Framed C (C.encodePrefixed (k.encodedPairLen C P cipher) (k.encodePair C P cipher checkint))
      (k.encodePair C P cipher checkint)
  /-- the section of an encrypted private key -/
  keypairBlock : ∀ key : KeypairData, Framed C (C.encodePrefixed (key.encodedLen C) (key.encode C)) (key.encode C)
  valueBlock : ∀ data : Text,
    Framed C (C.encodePrefixed (C.string.encodedLen data) (C.string.encode data)) (C.string.encode data)
  optionsBlock : ∀ m : OptionsMap, Framed C (m.encode C) (cat (m.entries.map (OptionsMap.encodeEntry C)))

section
variable {C : Crates}

theorem exact_of_announces {len : Except Exit Nat} {p : Except Exit Bytes} (h : Announces C.usizeMax len p) :
    Exact C len p := by
  intro w hw
  obtain ⟨hw, hmax⟩ := intoVec_ok hw
  exact h w hw hmax

theorem framed_of_announces {len : Except Exit Nat} {p : Except Exit Bytes} (h : Announces C.usizeMax len p) :
    Framed C (C.encodePrefixed len p) p := by
  intro w hw
  obtain ⟨hw, hmax⟩ := intoVec_ok hw
  obtain ⟨inner, hinner, -, hcat⟩ := encodePrefixed_ok h hw hmax
  exact ⟨inner, hinner, hcat⟩

theorem announces_sshSig (hC : C.Lawful) (sig : SshSig) : Announces C.usizeMax (sig.encodedLen C) (sig.encode C) := by
  refine announces_total _ (.cons ?_ (.cons (hC.u32.announces _) (.cons (announces_prefixed hC (announces_key hC _))
    (.cons (hC.string.announces _) (.cons (hC.bytes.announces _) (.cons (hC.string.announces _)
    (.cons (announces_prefixed hC (announces_signature hC _)) .nil)))))))
  intro w hw _
  cases hw
  rfl

theorem framed_options (hC : C.Lawful) (m : OptionsMap) :
    Framed C (m.encode C) (cat (m.entries.map (OptionsMap.encodeEntry C))) := by
  intro w hw
  obtain ⟨hw, hmax⟩ := intoVec_ok hw
  obtain ⟨inner, hinner, hcat, -⟩ := m.encode_ok hC hw hmax
  exact ⟨inner, hinner, hcat⟩

end

/-- **Every length of the wire format is exact**, if those of the primitive types are and a cipher's name announces its
own. -/
theorem encoded_lengths_exact {κ : Type} [DecidableEq κ] (C : Crates) (P : PrivateCrates κ) (hC : C.Lawful)
    (hcipher : ∀ c, Announces C.usizeMax (P.cipher.encodedLen c) (P.cipher.encode c)) : LengthsExact C P where
  keyData key := exact_of_announces (announces_key hC key)
  privateKey _ hmade := exact_of_announces (announces_private hC hcipher (tagged_of_made hmade))
  certificate cert := exact_of_announces (announces_certificate hC cert)
  signature s := exact_of_announces (announces_signature hC s)
  sshSig sig := exact_of_announces (announces_sshSig hC sig)
  kdf kdf := exact_of_announces (announces_kdf hC kdf)
  options m := exact_of_announces (announces_options hC m)
  keyBlock key := framed_of_announces (announces_key hC key)
  signatureBlock s := framed_of_announces (announces_signature hC s)
  pairBlock _ cipher checkint := framed_of_announces (announces_pair hC cipher checkint)
  keypairBlock key := framed_of_announces (announces_keypair hC key)
  valueBlock data := framed_of_announces (hC.string.announces data)
  optionsBlock m := framed_options hC m

/-- The crates behind private keys, with the cipher `none` only. -/
def Toy.privateCrates : PrivateCrates Unit where
  none := ()
  chaCha20Poly1305 := ()
  cipher :=
    { decode := Rfc4251.utf8Crates.decodeLabel (fun id => if id = "none".toList then .ok () else .error (LabelError id))
      encode := fun _ => Rfc4251.utf8Crates.string.encode "none".toList
      encodedLen := fun _ => Rfc4251.utf8Crates.string.encodedLen "none".toList }
  blockSize _ := 8
  paddingLen _ n := (8 - n % 8) % 8
  keyAndIvSize _ := .none
  hasTag _ := false
  tagLen := 16
  chaChaNonce := List.replicate 8 0
  encrypt _ _ _ _ := .error (.error .crypto)
  decrypt _ _ _ _ _ := .error (.error .crypto)
  bcryptPbkdf _ _ _ _ := .none
  ed25519 := .none

theorem encoded_lengths_exact_toy : LengthsExact Rfc4251.utf8Crates Toy.privateCrates ∧
    ∃ w, Toy.privateKey.encode Rfc4251.utf8Crates Toy.privateCrates = .ok w ∧
      Toy.privateKey.encodedLen Rfc4251.utf8Crates Toy.privateCrates = .ok w.length := by
  have hexact := encoded_lengths_exact Rfc4251.utf8Crates Toy.privateCrates Rfc4251.utf8Crates_lawful
    (fun _ => Rfc4251.utf8Crates_lawful.string.announces _)
  obtain ⟨w, hw⟩ : ∃ w, Rfc4251.utf8Crates.intoVec
      (Toy.privateKey.encode Rfc4251.utf8Crates Toy.privateCrates) = .ok w := exists_of_isOk (by decide +kernel)
  exact ⟨hexact, w, (intoVec_ok hw).1, hexact.privateKey _ (.untagged _ rfl) w hw⟩

end Ssh
end Wolf
