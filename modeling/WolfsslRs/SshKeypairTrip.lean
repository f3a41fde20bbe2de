import WolfsslRs.SshLengths
/-!
# SshKeypairTrip — keypairs written and read back

Every encoder of a keypair is undone by its decoder as long as the decoder takes the key for what it is.  Three kinds of
keys it does not: an Ed25519 keypair whose public key is another one's, an ECDSA point that is compact or at infinity,
and an opaque key under a name that stands for something else (`KeypairData.Readable`).  The public key in front of a
file has one more, an opaque key named like a certificate.  With the keypair come the comment and the padding, and the
length announced for the three is the length of what is written (`run_decodePair`).
-/
namespace Wolf
namespace Ssh

open Reader

/-! ## Keys -/

/-- What the constructors of the key types make sure of. -/
def KeypairData.Valid (C : Crates) : KeypairData → Prop
  | .dsa key => DsaPublicKey.new C key.publicKey.p key.publicKey.q key.publicKey.g key.publicKey.y = .ok key.publicKey ∧
      C.isPositive key.privateKey = true
  | .ecdsa key => C.encodedPoint key.publicKey.curve key.publicKey.point = true
  | .rsa key => RsaPublicKey.new C key.publicKey.e key.publicKey.n = .ok key.publicKey ∧
      RsaPrivateKey.new C key.privateKey.d key.privateKey.iqmp key.privateKey.p key.privateKey.q = .ok key.privateKey
  | .skEcdsaSha2NistP256 key => C.encodedPoint .nistP256 key.publicKey.ecPoint = true
  | _ => True

/-- An unencrypted private key as the constructors make it, with the public key of its keypair. -/
structure PrivateKey.Plain {κ : Type} (C : Crates) (P : PrivateCrates κ) (k : PrivateKey κ) : Prop where
  cipher : k.cipher = P.none
  kdf : k.kdf = .none
  valid : k.keyData.Valid C
  publicData : k.keyData.publicData = .ok k.publicKey.keyData

theorem isEncrypted_of_publicData {key : KeypairData} {pub : KeyData} (h : key.publicData = .ok pub) :
    key.isEncrypted = false := by
  cases key with
  | encrypted ciphertext => cases h
  | _ => rfl

/-- Compressed or uncompressed, by the tag. -/
def ProperPoint (point : Bytes) : Prop := point.head? = some 2 ∨ point.head? = some 3 ∨ point.head? = some 4

/-- A name that is read as itself, and as a label. -/
def Algorithm.Custom (C : Crates) (a : Algorithm) : Prop :=
  ∃ name, a = .other name ∧ Algorithm.fromStr name.asStr = .ok (.other name) ∧ name.asStr.len ≤ C.labelMax

/-- **The keypairs the decoder takes for what they are.** -/
def KeypairData.Readable (C : Crates) (derive : Option (Ed25519PrivateKey → Ed25519PublicKey)) : KeypairData → Prop
  | .ecdsa key => ProperPoint key.publicKey.point
  | .ed25519 key => ∀ f ∈ derive, f key.privateKey = key.publicKey
  | .other key => key.publicKey.algorithm.Custom C
  | _ => True

/-- **The keys whose data the decoder takes for what it is**, made of what their constructors take. -/
def KeyData.Readable (C : Crates) : KeyData → Prop
  | .dsa key => DsaPublicKey.new C key.p key.q key.g key.y = .ok key
  | .ecdsa key => C.encodedPoint key.curve key.point = true ∧ ProperPoint key.point
  | .rsa key => RsaPublicKey.new C key.e key.n = .ok key
  | .skEcdsaSha2NistP256 key => C.encodedPoint .nistP256 key.ecPoint = true
  | .certificate _ => False
  | .other key => ∃ name, key.algorithm = .other name
  | .ed25519 _ => True
  | .skEd25519 _ => True

/-- **The keys the decoder takes for what they are**: an opaque key's name is no other algorithm's, no certificate type
and short enough for a label. -/
def KeyData.Legible (C : Crates) (key : KeyData) : Prop :=
  key.Readable C ∧ ∀ name, key.algorithm = .other name →
    Algorithm.fromStr name.asStr = .ok (.other name) ∧ (∀ a, Algorithm.newCertificate name.asStr ≠ .ok a) ∧
      name.asStr.len ≤ C.labelMax

/-- An opaque key with the name of a certificate type. -/
def KeypairData.CertificateNamed : KeypairData → Prop
  | .other key => ∃ a, Algorithm.newCertificate key.publicKey.algorithm.asStr = .ok a
  | _ => False

section
variable {C : Crates}

/-! ## Names -/

theorem EcdsaCurve.fromStr_asStr (curve : EcdsaCurve) : EcdsaCurve.fromStr curve.asStr = .ok curve := by
  cases curve with
  | nistP256 => rfl
  | nistP384 => rfl
  | nistP521 => rfl

theorem fromStr_ecdsa (curve : EcdsaCurve) : Algorithm.fromStr (Algorithm.ecdsa curve).asStr = .ok (.ecdsa curve) := by
  cases curve with
  | nistP256 => rfl
  | nistP384 => rfl
  | nistP521 => rfl

theorem EcdsaCurve.len_asStr (curve : EcdsaCurve) : curve.asStr.len ≤ 48 := by
  cases curve with
  | nistP256 => decide
  | nistP384 => decide
  | nistP521 => decide

theorem Algorithm.len_asStr {a : Algorithm} (h : ∀ name, a ≠ .other name) : a.asStr.len ≤ 48 := by
  cases a with
  | ecdsa curve => cases curve <;> decide
  | rsa hash =>
    rcases hash with _ | hash
    · decide
    · cases hash <;> decide
  | other name => exact absurd rfl (h name)
  | _ => decide

/-! ## Points -/

/-- What a point's first byte has to be. -/
theorem proper_of_sec1PointSize {tag : UInt8} {rest : Bytes} {n : Nat} (h : sec1PointSize tag rest = .ok n) :
    ProperPoint (tag :: rest) := by
  unfold sec1PointSize at h
  unfold ProperPoint
  split at h
  · rename_i htag
    rcases htag with rfl | rfl
    · exact .inl rfl
    · exact .inr (.inl rfl)
  · split at h
    · rename_i htag
      exact .inr (.inr (by rw [htag]; rfl))
    · split at h
      · cases h
      · cases h

theorem proper_of_fromSec1Bytes {bytes : Bytes} {key : EcdsaPublicKey}
    (h : EcdsaPublicKey.fromSec1Bytes C bytes = .ok key) : ProperPoint key.point := by
  rw [point_of_fromSec1Bytes h]
  cases bytes with
  | nil => cases h
  | cons tag rest =>
    unfold EcdsaPublicKey.fromSec1Bytes at h
    obtain ⟨n, hsize, -⟩ := Program.bind_ok.1 h
    exact proper_of_sec1PointSize hsize

theorem encodedPoint_of_fromSec1Bytes {bytes : Bytes} {key : EcdsaPublicKey}
    (h : EcdsaPublicKey.fromSec1Bytes C bytes = .ok key) : C.encodedPoint key.curve key.point = true := by
  have hof : ∀ curve, EcdsaPublicKey.ofPoint C curve bytes = .ok key → C.encodedPoint key.curve key.point = true := by
    intro curve h
    unfold EcdsaPublicKey.ofPoint at h
    split at h
    · rename_i hpoint
      cases h
      exact hpoint
    · cases h
  cases bytes with
  | nil => cases h
  | cons tag rest =>
    obtain ⟨n, -, h⟩ := Program.bind_ok.1 h
    split at h
    · exact hof _ h
    · split at h
      · exact hof _ h
      · split at h
        · exact hof _ h
        · cases h

theorem EcdsaCurve.point_le (curve : EcdsaCurve) : 1 + 2 * curve.fieldSize ≤ EcdsaPublicKey.maxSize := by
  cases curve with
  | nistP256 => decide
  | nistP384 => decide
  | nistP521 => decide

theorem length_encodedPoint {curve : EcdsaCurve} {point : Bytes} (h : Rfc4251.encodedPoint curve point = true) :
    point.length ≤ 1 + 2 * curve.fieldSize := by
  cases point with
  | nil => cases h
  | cons tag rest =>
    simp only [Rfc4251.encodedPoint, decide_eq_true_eq] at h
    rw [List.length_cons]
    unfold Rfc4251.pointSize at h
    split at h
    · have hlen := Option.some.inj h
      omega
    · split at h
      · have hlen := Option.some.inj h
        omega
      · split at h
        · have hlen := Option.some.inj h
          omega
        · cases h

theorem sec1PointSize_of_encodedPoint {curve : EcdsaCurve} {tag : UInt8} {rest : Bytes}
    (hpoint : Rfc4251.encodedPoint curve (tag :: rest) = true) (hproper : ProperPoint (tag :: rest)) :
    sec1PointSize tag rest = .ok curve.fieldSize := by
  simp only [Rfc4251.encodedPoint, decide_eq_true_eq] at hpoint
  simp only [ProperPoint, List.head?_cons, Option.some.injEq] at hproper
  rcases hproper with rfl | rfl | rfl
  · have hlen : 1 + curve.fieldSize = rest.length + 1 := Option.some.inj hpoint
    exact congrArg Except.ok (by omega)
  · have hlen : 1 + curve.fieldSize = rest.length + 1 := Option.some.inj hpoint
    exact congrArg Except.ok (by omega)
  · have hlen : 1 + 2 * curve.fieldSize = rest.length + 1 := Option.some.inj hpoint
    exact congrArg Except.ok (by omega)

theorem fromSec1Bytes_ok (hC : C.RoundTrips) {key : EcdsaPublicKey} (hpoint : C.encodedPoint key.curve key.point = true)
    (hproper : ProperPoint key.point) :
    EcdsaPublicKey.fromSec1Bytes C key.point = .ok key ∧ key.point.length ≤ EcdsaPublicKey.maxSize := by
  obtain ⟨curve, point⟩ := key
  cases point with
  | nil =>
    rw [hC.point_eq] at hpoint
    cases hpoint
  | cons tag rest =>
    have hrfc := hpoint
    rw [hC.point_eq] at hrfc
    have hsize := sec1PointSize_of_encodedPoint hrfc hproper
    have hof : EcdsaPublicKey.ofPoint C curve (tag :: rest) = .ok ⟨curve, tag :: rest⟩ := if_pos hpoint
    refine ⟨?_, ?_⟩
    · rw [EcdsaPublicKey.fromSec1Bytes, hsize]
      cases curve with
      | nistP256 => exact hof
      | nistP384 => exact hof
      | nistP521 => exact hof
    · exact Nat.le_trans (length_encodedPoint hrfc) curve.point_le

end

/-! ## Public keys -/

section
variable {C : Crates} (hC : C.RoundTrips)
include hC

theorem restores_block {α : Type} {f : EStateM Exit Bytes α} {x w : Bytes} {a : α} (hw : C.bytes.encode x = .ok w)
    (hmax : w.length ≤ C.sizeMax) (hf : f.run x = .ok a []) : Restores (C.readPrefixed f) w a := by
  have hlen := hC.bytes_length hw
  rw [hC.bytes_eq] at hw
  exact restores_readPrefixed hC hw (by omega) hf

theorem restores_byten {k : Nat} {x w : Bytes} (hk : x.length ≤ k) (hw : C.bytes.encode x = .ok w)
    (hmax : w.length ≤ C.sizeMax) : Restores (C.byten k) w x := by
  have hlen := hC.bytes_length hw
  exact hC.byten_back k x w hk (by omega) hw

theorem restores_sized {α : Type} {k : Bytes → EStateM Exit Bytes α} {x w : Bytes} {a : α}
    (hw : C.bytes.encode x = .ok w) (hmax : w.length ≤ C.sizeMax) (hk : Restores (k x) [] a) :
    Restores (do let len ← C.usize.decode; let bytes ← take lengthError len; k bytes.1) w a := by
  have hlen := hC.bytes_length hw
  rw [hC.bytes_eq] at hw
  obtain ⟨u, hu, rfl, -⟩ := hC.prefixed_ok hw
  exact restores_bind (hC.usize_back _ _ (by omega) hu) (restores_end (restores_take x rfl) hk)

theorem restores_dsa {key : DsaPublicKey} {w : Bytes} (hnew : DsaPublicKey.new C key.p key.q key.g key.y = .ok key)
    (hw : key.encode C = .ok w) (hmax : w.length ≤ C.sizeMax) : Restores (DsaPublicKey.decode C) w key := by
  refine restores_cat_le hw hmax (hC.mpint_within _) fun _ hw hmax =>
    restores_cat_le hw hmax (hC.mpint_within _) fun _ hw hmax =>
    restores_cat_le hw hmax (hC.mpint_within _) fun _ hw hmax =>
    restores_cat_le hw hmax (hC.mpint_within _) fun _ hw _ => ?_
  exact restores_nil hw (restores_orThrow hnew)

theorem restores_rsa {key : RsaPublicKey} {w : Bytes} (hnew : RsaPublicKey.new C key.e key.n = .ok key)
    (hw : key.encode C = .ok w) (hmax : w.length ≤ C.sizeMax) : Restores (RsaPublicKey.decode C) w key := by
  refine restores_cat_le hw hmax (hC.mpint_within _) fun _ hw hmax =>
    restores_cat_le hw hmax (hC.mpint_within _) fun _ hw _ => ?_
  exact restores_nil hw (restores_orThrow hnew)

theorem restores_ed25519 {key : Ed25519PublicKey} {w : Bytes} (hw : key.encode C = .ok w)
    (hmax : w.length ≤ C.sizeMax) : Restores (Ed25519PublicKey.decode C) w key :=
  restores_end (restores_block hC hw hmax (restores_run (restores_take key.bytes key.size))) restores_pure

theorem restores_ecdsa {key : EcdsaPublicKey} {w : Bytes} (hpoint : C.encodedPoint key.curve key.point = true)
    (hproper : ProperPoint key.point) (hw : key.encode C = .ok w) (hmax : w.length ≤ C.sizeMax) :
    Restores (EcdsaPublicKey.decode C) w key := by
  obtain ⟨hsec1, hlen⟩ := fromSec1Bytes_ok hC hpoint hproper
  refine restores_cat_le hw hmax (fun _ hu _ => restores_ownLabel hC key.curve.len_asStr hu key.curve.fromStr_asStr)
    fun _ hw hmax => restores_cat_le hw hmax (fun _ hu hle => restores_byten hC hlen hu hle) fun _ hw _ =>
      restores_nil hw ?_
  refine restores_then (restores_orThrow hsec1) ?_
  rw [if_pos rfl]
  exact restores_pure

theorem restores_skEcdsa {key : SkEcdsaSha2NistP256} {w : Bytes} (hpoint : C.encodedPoint .nistP256 key.ecPoint = true)
    (hw : key.encode C = .ok w) (hmax : w.length ≤ C.sizeMax) : Restores (SkEcdsaSha2NistP256.decode C) w key := by
  have hlen : key.ecPoint.length ≤ 65 := by
    rw [hC.point_eq] at hpoint
    exact length_encodedPoint hpoint
  refine restores_cat_le hw hmax
    (fun _ hu _ => restores_ownLabel hC (EcdsaCurve.len_asStr _) hu EcdsaCurve.nistP256.fromStr_asStr) fun _ hw hmax => ?_
  rw [if_neg (not_not.2 rfl)]
  refine restores_cat_le hw hmax (fun _ hu hle => restores_byten hC hlen hu hle) fun _ hw hmax => ?_
  rw [if_pos hpoint]
  exact restores_cat_le hw hmax (hC.string_within _) fun _ hw _ => restores_nil hw restores_pure

theorem restores_skEd25519 {key : SkEd25519} {w : Bytes} (hw : key.encode C = .ok w) (hmax : w.length ≤ C.sizeMax) :
    Restores (SkEd25519.decode C) w key :=
  restores_cat_le hw hmax (fun _ hu hle => restores_ed25519 hC hu hle) fun _ hw hmax =>
    restores_cat_le hw hmax (hC.string_within _) fun _ hw _ => restores_nil hw restores_pure

theorem restores_other {key : OpaquePublicKey} {w : Bytes} (hw : C.bytes.encode key.key = .ok w)
    (hmax : w.length ≤ C.sizeMax) : Restores (OpaquePublicKey.decodeAs C key.algorithm) w key :=
  restores_sized hC (k := fun bytes => pure (OpaquePublicKey.mk key.algorithm bytes)) hw hmax restores_pure

/-- **A key's data is read back** after an algorithm that is the key's own. -/
theorem restores_decodeAs {key : KeyData} {a : Algorithm} {w : Bytes} (hread : key.Readable C)
    (ha : key.algorithm = a.ofKey) (hw : key.encodeKeyData C = .ok w) (hmax : w.length ≤ C.sizeMax) :
    Restores (KeyData.decodeAs C a) w key := by
  cases key with
  | dsa k =>
    cases a <;> cases ha
    exact restores_map (restores_dsa hC hread hw hmax)
  | ecdsa k =>
    cases a <;> cases ha
    refine restores_end (restores_ecdsa hC hread.1 hread.2 hw hmax) ?_
    rw [if_pos rfl]
    exact restores_pure
  | ed25519 k =>
    cases a <;> cases ha
    exact restores_map (restores_ed25519 hC hw hmax)
  | rsa k =>
    cases a <;> cases ha
    exact restores_map (restores_rsa hC hread hw hmax)
  | skEcdsaSha2NistP256 k =>
    cases a <;> cases ha
    exact restores_map (restores_skEcdsa hC hread hw hmax)
  | skEd25519 k =>
    cases a <;> cases ha
    exact restores_map (restores_skEd25519 hC hw hmax)
  | certificate cert => exact hread.elim
  | other k =>
    obtain ⟨name, hname⟩ := hread
    have hdata := restores_map (f := KeyData.other) (restores_other hC hw hmax)
    change k.algorithm = a.ofKey at ha
    rw [hname] at hdata ha
    cases a <;> cases ha
    exact hdata

omit hC in
theorem fromStr_of_readable {key : KeyData} (hread : key.Readable C)
    (hother : ∀ name, key.algorithm = .other name → Algorithm.fromStr name.asStr = .ok (.other name)) :
    Algorithm.fromStr key.algorithm.asStr = .ok key.algorithm := by
  cases key with
  | ecdsa k => exact fromStr_ecdsa _
  | certificate cert => exact hread.elim
  | other k =>
    obtain ⟨name, hname⟩ := hread
    show Algorithm.fromStr k.algorithm.asStr = .ok k.algorithm
    rw [hname]
    exact hother name hname
  | _ => rfl

omit hC in
theorem len_of_legible {key : KeyData} (hmax : 48 ≤ C.labelMax) (hleg : key.Legible C) :
    key.algorithm.asStr.len ≤ C.labelMax := by
  by_cases hother : ∃ name, key.algorithm = .other name
  · obtain ⟨name, hname⟩ := hother
    rw [hname]
    exact (hleg.2 name hname).2.2
  · exact Nat.le_trans (Algorithm.len_asStr (not_exists.1 hother)) hmax

/-- **A key is read back**, through however many nestings, if its label is and does not pass for a certificate. -/
theorem restores_nested {key : KeyData} {w : Bytes} (hleg : key.Legible C) (hw : key.encode C = .ok w)
    (hmax : w.length ≤ C.sizeMax) (depth : Nat) : Restores (KeyData.decodeNested C (depth + 1)) w key := by
  have hlabel := len_of_legible hC.le_labelMax hleg
  obtain ⟨hread, hother⟩ := hleg
  have hcert : key.isCertificate = false := by
    cases key with
    | certificate cert => exact hread.elim
    | _ => rfl
  have hcat : cat [C.string.encode key.algorithm.asStr, key.encodeKeyData C] = .ok w := by
    rwa [KeyData.encode, KeyData.labelled, hcert, if_neg Bool.false_ne_true] at hw
  have hname := fromStr_of_readable hread fun name h => (hother name h).1
  rw [KeyData.decodeNested]
  refine restores_cat_le hcat hmax (fun _ hu _ => restores_decodeLabel hC hlabel hu hname) fun v hv hmax => ?_
  have hown : key.algorithm = key.algorithm.ofKey := by
    cases key with
    | other k =>
      obtain ⟨name, hk⟩ := hread
      show k.algorithm = k.algorithm.ofKey
      rw [hk]
      rfl
    | certificate cert => exact hread.elim
    | _ => rfl
  have hrest := restores_decodeAs hC hread hown (cat_one.1 hv) hmax
  split
  · rename_i name halg
    split
    · rename_i a ha
      exact absurd ha ((hother name halg).2.1 a)
    · exact hrest
  · exact hrest

theorem restores_key {key : KeyData} {w : Bytes} (hleg : key.Legible C) (hw : key.encode C = .ok w)
    (hmax : w.length ≤ C.sizeMax) : Restores (KeyData.decode C) w key := by
  intro left
  rw [KeyData.decode, EStateM.run_bind, EStateM.run_get]
  exact restores_nested hC hleg hw hmax (w ++ left).length left

omit hC in
/-- The public key of a keypair is legible unless it passes for a certificate. -/
theorem legible_publicData {key : KeypairData} {pub : KeyData}
    {derive : Option (Ed25519PrivateKey → Ed25519PublicKey)} (hpub : key.publicData = .ok pub) (hvalid : key.Valid C)
    (hread : key.Readable C derive) (hcert : ¬ key.CertificateNamed) : pub.Legible C := by
  cases key with
  | dsa k =>
    cases hpub
    exact ⟨hvalid.1, nofun⟩
  | ecdsa k =>
    cases hpub
    exact ⟨⟨hvalid, hread⟩, nofun⟩
  | ed25519 k =>
    cases hpub
    exact ⟨trivial, nofun⟩
  | encrypted ciphertext => cases hpub
  | rsa k =>
    cases hpub
    exact ⟨hvalid.1, nofun⟩
  | skEcdsaSha2NistP256 k =>
    cases hpub
    exact ⟨hvalid, nofun⟩
  | skEd25519 k =>
    cases hpub
    exact ⟨trivial, nofun⟩
  | other k =>
    cases hpub
    obtain ⟨name, halg, hname, hlen⟩ := hread
    refine ⟨⟨name, halg⟩, fun name' halg' => ?_⟩
    have hsame : name = name' := Algorithm.other.inj (halg.symm.trans halg')
    subst hsame
    refine ⟨hname, fun a ha => hcert ⟨a, ?_⟩, hlen⟩
    rw [halg]
    exact ha

/-! ## Keypairs -/

theorem restores_dsaKeypair {key : DsaKeypair} {w : Bytes} (hvalid : (KeypairData.dsa key).Valid C)
    (hw : key.encode C = .ok w) (hmax : w.length ≤ C.sizeMax) : Restores (DsaKeypair.decode C) w key := by
  refine restores_cat_le hw hmax (fun _ hu hle => restores_dsa hC hvalid.1 hu hle) fun _ hw hmax =>
    restores_cat_le hw hmax (hC.mpint_within _) fun _ hw _ => restores_nil hw ?_
  rw [if_pos hvalid.2]
  exact restores_pure

theorem restores_rsaKeypair {key : RsaKeypair} {w : Bytes} (hvalid : (KeypairData.rsa key).Valid C)
    (hw : key.encode C = .ok w) (hmax : w.length ≤ C.sizeMax) : Restores (RsaKeypair.decode C) w key := by
  have hprivate : ∀ v, key.privateKey.encode C = .ok v → v.length ≤ C.sizeMax →
      Restores (RsaPrivateKey.decode C) v key.privateKey := by
    intro v hv hmax
    refine restores_cat_le hv hmax (hC.mpint_within _) fun _ hw hmax =>
      restores_cat_le hw hmax (hC.mpint_within _) fun _ hw hmax =>
      restores_cat_le hw hmax (hC.mpint_within _) fun _ hw hmax =>
      restores_cat_le hw hmax (hC.mpint_within _) fun _ hw _ => ?_
    exact restores_nil hw (restores_orThrow hvalid.2)
  refine restores_cat_le hw hmax (hC.mpint_within _) fun _ hw hmax =>
    restores_cat_le hw hmax (hC.mpint_within _) fun _ hw hmax => ?_
  refine restores_then (restores_orThrow hvalid.1) ?_
  exact restores_cat_le hw hmax hprivate fun _ hw _ => restores_nil hw restores_pure

theorem restores_skKeypair {α : Type} {key : SkKeypair α} {enc : α → Except Exit Bytes} {dec : EStateM Exit Bytes α}
    {w : Bytes} (hpub : ∀ u, enc key.publicKey = .ok u → u.length ≤ C.sizeMax → Restores dec u key.publicKey)
    (hw : key.encode C enc = .ok w) (hmax : w.length ≤ C.sizeMax) : Restores (SkKeypair.decode C dec) w key :=
  restores_cat_le hw hmax hpub fun _ hw hmax => restores_cat_le hw hmax (fun _ hu _ => hC.u8_back _ _ hu)
    fun _ hw hmax => restores_cat_le hw hmax (hC.bytes_within _) fun _ hw hmax =>
      restores_cat_le hw hmax (hC.bytes_within _) fun _ hw _ => restores_nil hw restores_pure

theorem restores_otherKeypair {key : OpaqueKeypair} {w : Bytes} (hw : key.encode C = .ok w)
    (hmax : w.length ≤ C.sizeMax) : Restores (OpaqueKeypair.decodeAs C key.publicKey.algorithm) w key := by
  refine restores_cat_le hw hmax (fun _ hu hle => restores_other hC hu hle) fun _ hw hmax => ?_
  exact restores_sized hC (k := fun bytes => pure (OpaqueKeypair.mk bytes key.publicKey)) (cat_one.1 hw) hmax
    restores_pure

theorem restores_ed25519Keypair {derive : Option (Ed25519PrivateKey → Ed25519PublicKey)} {key : Ed25519Keypair}
    {w : Bytes} (hderive : ∀ f ∈ derive, f key.privateKey = key.publicKey) (hw : key.encode C = .ok w)
    (hmax : w.length ≤ C.sizeMax) : Restores (Ed25519Keypair.decode C derive) w key := by
  have hlen : key.toBytes.length = 64 := by
    rw [Ed25519Keypair.toBytes, List.length_append, key.privateKey.size, key.publicKey.size]
  have hfrom : Ed25519Keypair.fromBytes derive ⟨key.toBytes, hlen⟩ = .ok key := by
    obtain ⟨⟨pub, hpub⟩, ⟨priv, hpriv⟩⟩ := key
    have htake : (priv ++ pub).take 32 = priv := List.take_left' hpriv
    have hdrop : (priv ++ pub).drop 32 = pub := List.drop_left' hpriv
    cases derive with
    | none => simp only [Ed25519Keypair.fromBytes, Ed25519Keypair.toBytes, htake, hdrop]
    | some f =>
      have hf := hderive f rfl
      simp only [Ed25519Keypair.fromBytes, Ed25519Keypair.toBytes, htake, hdrop]
      exact if_neg (not_not.2 hf)
  refine restores_cat_le hw hmax (fun _ hu hle => restores_ed25519 hC hu hle) fun _ hw hmax => ?_
  refine restores_end (restores_block hC (cat_one.1 hw) hmax (restores_run (restores_take _ hlen))) ?_
  refine restores_then (restores_orThrow hfrom) ?_
  rw [if_pos rfl]
  exact restores_pure

omit hC in
theorem run_ecdsaPrivateFill {size : Nat} {x : Bytes} (h32 : 32 ≤ x.length) (hsize : x.length ≤ size) :
    ∃ hlen, (ecdsaPrivateFill size x.length).run x = .ok ⟨List.replicate (size - x.length) 0 ++ x, hlen⟩ [] := by
  have hok : ¬ (x.length < 32 ∨ size < x.length) := by omega
  refine ⟨by rw [List.length_append, List.length_replicate]; omega, ?_⟩
  rw [ecdsaPrivateFill, dif_neg hok]
  exact restores_run (restores_end (restores_take x rfl) restores_pure)

/-- **What is read as a scalar**: an array with a zero in front, or a shorter one of at least 32 bytes. -/
theorem run_ecdsaPrivateBytes_iff {size : Nat} (h32 : 32 ≤ size) {x : Bytes} {key : {w : Bytes // w.length = size}} :
    (ecdsaPrivateBytes C size).run x = .ok key [] ↔
      x = 0 :: key.1 ∨ (32 ≤ x.length ∧ x.length ≤ size ∧ key.1 = List.replicate (size - x.length) 0 ++ x) := by
  have hrun : (ecdsaPrivateBytes C size).run x = EStateM.run (if x.length = size + 1 then (do
      let zero ← C.u8.decode
      if zero ≠ 0 then throw formatError else ecdsaPrivateFill size size) else ecdsaPrivateFill size x.length) x := rfl
  rw [hrun]
  by_cases hlen : x.length = size + 1
  · rw [if_pos hlen]
    cases x with
    | nil => cases hlen
    | cons b y =>
      have hy : y.length = size := Nat.succ.inj hlen
      have hread : Restores C.u8.decode [b] b := hC.u8_back b [b] (hC.u8_eq b)
      have hbind := run_restores (v := y) (k := fun zero =>
        if zero ≠ 0 then throw formatError else ecdsaPrivateFill size size) hread rfl
      rw [List.singleton_append] at hbind
      rw [hbind]
      by_cases hb : b = 0
      · have hfull : (ecdsaPrivateFill size size).run y = .ok ⟨y, hy⟩ [] := by
          subst hy
          obtain ⟨hsize, hfill⟩ := run_ecdsaPrivateFill h32 (Nat.le_refl y.length)
          simpa only [Nat.sub_self, List.replicate_zero, List.nil_append] using hfill
        rw [if_neg (not_not.2 hb), hfull, hb]
        constructor
        · intro h
          cases h
          exact .inl rfl
        · rintro (h | ⟨-, hle, -⟩)
          · obtain rfl := (List.cons.inj h).2
            rfl
          · rw [List.length_cons] at hle
            omega
      · rw [if_pos hb]
        constructor
        · intro h
          cases h
        · rintro (h | ⟨-, hle, -⟩)
          · exact absurd (List.cons.inj h).1 hb
          · rw [List.length_cons] at hle
            omega
  · rw [if_neg hlen]
    have hzero : x ≠ 0 :: key.1 := by
      rintro rfl
      exact hlen (by rw [List.length_cons, key.2])
    by_cases hfit : 32 ≤ x.length ∧ x.length ≤ size
    · obtain ⟨hsize, hfill⟩ := run_ecdsaPrivateFill hfit.1 hfit.2
      rw [hfill]
      constructor
      · intro h
        cases h
        exact .inr ⟨hfit.1, hfit.2, rfl⟩
      · rintro (h | ⟨-, -, h⟩)
        · exact absurd h hzero
        · exact congrArg (EStateM.Result.ok · []) (Subtype.ext h.symm)
    · have hbad : x.length < 32 ∨ size < x.length := by omega
      rw [ecdsaPrivateFill, dif_pos hbad]
      constructor
      · intro h
        cases h
      · rintro (h | ⟨h, h', -⟩)
        · exact absurd h hzero
        · exact absurd ⟨h, h'⟩ hfit

theorem run_ecdsaPrivateBytes {size : Nat} {x : Bytes} (hx : x.length = size) (h32 : 32 ≤ size) :
    (ecdsaPrivateBytes C size).run (List.replicate (leadingZero x) 0 ++ x) = .ok ⟨x, hx⟩ [] := by
  rw [run_ecdsaPrivateBytes_iff hC h32]
  unfold leadingZero
  split
  · exact .inl rfl
  · subst hx
    refine .inr ⟨h32, Nat.le_refl _, ?_⟩
    rw [List.replicate_zero, List.nil_append, Nat.sub_self]
    rfl

omit hC in
theorem EcdsaCurve.le_fieldSize (curve : EcdsaCurve) : 32 ≤ curve.fieldSize := by
  cases curve with
  | nistP256 => decide
  | nistP384 => decide
  | nistP521 => decide

theorem restores_ecdsaKeypair {key : EcdsaKeypair} {w : Bytes} (hvalid : (KeypairData.ecdsa key).Valid C)
    (hproper : ProperPoint key.publicKey.point) (hw : key.encode C = .ok w) (hmax : w.length ≤ C.sizeMax) :
    Restores (EcdsaKeypair.decode C) w key := by
  obtain ⟨u, v, hu, rfl, hv⟩ := key.encode_ok hw
  obtain ⟨x, -, rfl, -⟩ := hC.prefixed_ok hv
  rw [List.length_append, List.length_append] at hmax
  refine restores_bind (restores_ecdsa hC hvalid hproper hu (by omega)) ?_
  have hinteger := restores_readPrefixed hC hv (by omega)
    (run_ecdsaPrivateBytes hC key.size key.publicKey.curve.le_fieldSize)
  exact restores_end hinteger restores_pure

/-- **A keypair is read back** if the decoder takes it for what it is. -/
theorem restores_keypair {derive : Option (Ed25519PrivateKey → Ed25519PublicKey)} {key : KeypairData} {w : Bytes}
    (hplain : key.isEncrypted = false) (hvalid : key.Valid C) (hread : key.Readable C derive)
    (hw : key.encode C = .ok w) (hmax : w.length ≤ C.sizeMax) : Restores (KeypairData.decode C derive) w key := by
  have hown : ∀ (a : Algorithm) (u : Bytes), (∀ name, a ≠ .other name) → Algorithm.fromStr a.asStr = .ok a →
      C.string.encode a.asStr = .ok u → Restores (C.decodeLabel Algorithm.fromStr) u a :=
    fun _ _ ha hname hu => restores_ownLabel hC (Algorithm.len_asStr ha) hu hname
  cases key with
  | dsa k =>
    refine restores_cat_le hw hmax (fun u hu _ => hown .dsa u (by simp) rfl hu) fun _ hw hmax => ?_
    exact restores_map (restores_dsaKeypair hC hvalid (cat_one.1 hw) hmax)
  | ecdsa k =>
    refine restores_cat_le hw hmax (fun u hu _ => hown (.ecdsa _) u (by simp) (fromStr_ecdsa _) hu) fun _ hw hmax => ?_
    refine restores_end (restores_ecdsaKeypair hC hvalid hread (cat_one.1 hw) hmax) ?_
    rw [if_pos rfl]
    exact restores_pure
  | ed25519 k =>
    refine restores_cat_le hw hmax (fun u hu _ => hown .ed25519 u (by simp) rfl hu) fun _ hw hmax => ?_
    exact restores_map (restores_ed25519Keypair hC hread (cat_one.1 hw) hmax)
  | encrypted ciphertext => cases hplain
  | rsa k =>
    refine restores_cat_le hw hmax (fun u hu _ => hown (.rsa none) u (by simp) rfl hu) fun _ hw hmax => ?_
    exact restores_map (restores_rsaKeypair hC hvalid (cat_one.1 hw) hmax)
  | skEcdsaSha2NistP256 k =>
    refine restores_cat_le hw hmax (fun u hu _ => hown .skEcdsaSha2NistP256 u (by simp) rfl hu) fun _ hw hmax => ?_
    exact restores_map (restores_skKeypair hC (fun _ hu hle => restores_skEcdsa hC hvalid hu hle) (cat_one.1 hw) hmax)
  | skEd25519 k =>
    refine restores_cat_le hw hmax (fun u hu _ => hown .skEd25519 u (by simp) rfl hu) fun _ hw hmax => ?_
    exact restores_map (restores_skKeypair hC (fun _ hu hle => restores_skEd25519 hC hu hle) (cat_one.1 hw) hmax)
  | other k =>
    obtain ⟨name, halg, hname, hlen⟩ := hread
    have hfrom : Algorithm.fromStr k.publicKey.algorithm.asStr = .ok (.other name) := by
      rw [halg]
      exact hname
    have hlabel : k.publicKey.algorithm.asStr.len ≤ C.labelMax := by
      rw [halg]
      exact hlen
    refine restores_cat_le hw hmax (fun _ hu _ => restores_decodeLabel hC hlabel hu hfrom) fun _ hw hmax => ?_
    have hdata := restores_map (f := KeypairData.other) (restores_otherKeypair hC (cat_one.1 hw) hmax)
    rw [halg] at hdata
    exact hdata

/-! ## The keypair with its comment and padding -/

variable {κ : Type} {P : PrivateCrates κ} {k : PrivateKey κ}

omit hC in
theorem PairBytes.blocks {cipher : κ} {checkint : UInt32} {w : Bytes} (h : PairBytes C P k cipher checkint w)
    (hP : P.Lawful) : w.length % P.blockSize cipher = 0 := by
  obtain ⟨c, key, comment, padding, -, -, -, -, hweq, hpadLen⟩ := h.pieces
  have hle : padding.length ≤ w.length := by
    simp only [hweq, List.length_append]
    omega
  have hsum := hP.completes cipher (w.length - padding.length)
  rwa [← hpadLen, Nat.sub_add_cancel hle] at hsum

/-- The key as it comes back, with the checkint it was written with. -/
def PrivateKey.back (P : PrivateCrates κ) (k : PrivateKey κ) (checkint : UInt32) : PrivateKey κ :=
  ⟨P.none, .none, some checkint, k.publicKey, k.keyData, none⟩

omit hC in
theorem PrivateKey.Plain.back_equal (hk : k.Plain C P) (checkint : UInt32) : (k.back P checkint).Equal k :=
  ⟨rfl, hk.cipher.symm, hk.kdf.symm, rfl⟩

/-- **The pair is read back**, whole blocks of it and no more padding than allowed. -/
theorem run_decodePair (hk : k.Plain C P) (hread : k.keyData.Readable C P.ed25519) {cipher : κ} {checkint : UInt32}
    {w : Bytes} (hw : PairBytes C P k cipher checkint w) (hmax : w.length ≤ C.sizeMax)
    {blockSize maxPaddingSize : Nat} (hpos : blockSize ≠ 0) (hblocks : w.length % blockSize = 0)
    (hpadding : ∀ n, P.paddingLen cipher n ≤ maxBlockSize → P.paddingLen cipher n ≤ maxPaddingSize) :
    (PrivateKey.decodePair C P k.publicKey.keyData blockSize maxPaddingSize).run w = .ok (k.back P checkint) [] := by
  have hplain := isEncrypted_of_publicData hk.publicData
  obtain ⟨c, key, comment, padding, hc, hkey, hcomment, hpad, hweq, hpadLen⟩ := hw.pieces
  have hblock : ¬ (blockSize = 0 ∨ w.length % blockSize ≠ 0) := by
    rintro (h | h)
    · exact hpos h
    · exact h hblocks
  rw [PrivateKey.decodePair, EStateM.run_bind, EStateM.run_get]
  show EStateM.run (if blockSize = 0 ∨ w.length % blockSize ≠ 0 then _ else _) w = _
  rw [hweq] at hmax
  simp only [List.length_append] at hmax
  rw [if_neg hblock, hweq]
  refine run_restores (hC.u32_back _ _ hc) (run_restores (hC.u32_back _ _ hc) ?_)
  rw [if_neg (not_not.2 rfl)]
  refine run_restores (restores_keypair hC hplain hk.valid hread hkey (by omega)) ?_
  rw [hk.publicData]
  show EStateM.run (if k.publicKey.keyData ≠ k.publicKey.keyData then _ else _) _ = _
  rw [if_neg (not_not.2 rfl)]
  refine run_restores (hC.bytes_within _ _ hcomment (by omega)) ?_
  have hroom : ¬ maxPaddingSize < padding.length := by
    have hsixteen := (length_paddingOf hpad).2
    rw [hpadLen] at hsixteen ⊢
    exact Nat.not_lt.2 (hpadding _ hsixteen)
  show EStateM.run (if maxPaddingSize < padding.length then _ else _) padding = _
  rw [if_neg hroom]
  refine run_restores_end (restores_take padding rfl) ?_
  rw [hpad]
  show EStateM.run (if padding ≠ padding then _ else _) [] = _
  rw [if_neg (not_not.2 rfl)]
  rfl

end

end Ssh
end Wolf
