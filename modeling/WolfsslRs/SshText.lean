import WolfsslRs.SshVerify
import WolfsslRs.SshReencode
/-!
# SshText — the text form, fingerprints and checking a certificate, without panics

`Certificate::from_openssh` and `PublicKey::from_bytes`, and what is done with what they accept: encoding again, as bytes
or text, taking fingerprints, checking signatures.  All of it goes through `AlgorithmName::certificate_type`, whose
`expect` rests on a name in front of `-cert-v01`.  `new` asks for one and `from_certificate_type` does not, so the panic is
there, and only there (`parsed_uses_panic_free_iff`).
-/
namespace Wolf
namespace Ssh

open Reader

/-- A `Base64Reader` on a text: what can be read from it, and whether that is to its end. -/
structure Base64Reader where
  readable : Bytes
  complete : Bool

/-- What `ssh-encoding` and the standard library provide for text. -/
structure TextCrates where
  base64Reader : Text → Except Exit Base64Reader
  base64Encode : Bytes → Text
  fromUtf8 : Bytes → Option Text

/-- The base64 reader answers or fails, without a panic, and has no more bytes than the text had. -/
structure TextCrates.Lawful (T : TextCrates) : Prop where
  errs : ∀ t, Errs (T.base64Reader t)
  readable_le : ∀ t reader, T.base64Reader t = .ok reader → reader.readable.length ≤ t.len

/-! ## The text form -/

/-- `char::is_whitespace`: the characters with the property `White_Space`. -/
def isWhitespace (c : Char) : Bool :=
  (9 ≤ c.val && c.val ≤ 13) || c.val = 0x20 || c.val = 0x85 || c.val = 0xA0 || c.val = 0x1680 ||
    (0x2000 ≤ c.val && c.val ≤ 0x200A) || c.val = 0x2028 || c.val = 0x2029 || c.val = 0x202F || c.val = 0x205F ||
    c.val = 0x3000

def trimEnd (t : Text) : Text := (t.reverse.dropWhile isWhitespace).reverse

def segmentChar (c : Char) : Bool :=
  ('A' ≤ c && c ≤ 'Z') || ('a' ≤ c && c ≤ 'z') || ('0' ≤ c && c ≤ '9') || c = '+' || c = '-' || c = '/' || c = '=' ||
    c = '@' || c = '.'

def decodeSegment : Text → Except Exit (Text × Text)
  | [] => .ok ([], [])
  | c :: t =>
    if segmentChar c then do
      let (segment, rest) ← decodeSegment t
      .ok (c :: segment, rest)
    else if c = ' ' then .ok ([], t)
    else .error (.error (.encoding .characterEncoding))

structure SshFormat where
  algorithmId : Text
  base64Data : Text
  comment : Text

def SshFormat.decode (t : Text) : Except Exit SshFormat := do
  let (algorithmId, t) ← decodeSegment t
  let (base64Data, t) ← decodeSegment t
  if algorithmId.isEmpty || base64Data.isEmpty then .error lengthError
  else .ok ⟨algorithmId, base64Data, trimEnd t⟩

section
variable (C : Crates) (T : TextCrates) (D : Digests) (W : WolfCrypt)

def base64LenApprox (inputLen : Nat) : Nat := min (min (inputLen * 4) C.usizeMax / 3 + 3) C.usizeMax / 4 * 4

/-- `SshFormat::encode_string`, from the announced length and the bytes of the key: each part has to fit in the buffer. -/
def SshFormat.encodeString (algorithmId : Text) (keyLen : Except Exit Nat) (key : Except Exit Bytes) (comment : Text) :
    Except Exit Text := do
  let len ← keyLen
  let capacity ← C.total [.ok 2, .ok algorithmId.len, .ok (base64LenApprox C len), .ok comment.len]
  if capacity < algorithmId.len + 1 then .error lengthError else
    let bytes ← key
    let out := algorithmId ++ ' ' :: T.base64Encode bytes
    if capacity < out.len then .error lengthError
    else if comment.isEmpty then .ok out
    else if capacity < out.len + 1 + comment.len then .error lengthError
    else .ok (out ++ ' ' :: comment)

/-- `Comment::as_str_lossy`: the longest front that is UTF-8. -/
def asStrLossy (comment : Bytes) : Text :=
  ((List.range comment.length).reverse.findSome? (fun i => T.fromUtf8 (comment.take (i + 1)))).getD []

def Certificate.fromOpenssh (certificateStr : Text) : Except Exit Certificate := do
  let encapsulation ← SshFormat.decode (trimEnd certificateStr)
  let reader ← T.base64Reader encapsulation.base64Data
  match (Certificate.decode C).run reader.readable with
  | .error e _ => .error e
  | .ok cert rest => do
    let type ← cert.algorithm.toCertificateType
    if encapsulation.algorithmId ≠ type then .error algorithmUnknown
    else if rest = [] ∧ reader.complete then .ok { cert with comment := encapsulation.comment.utf8 }
    else .error (.error (.encoding (.trailingData rest.length)))

def Certificate.toOpenssh (cert : Certificate) : Except Exit Text := do
  let type ← cert.algorithm.toCertificateType
  SshFormat.encodeString C T type (cert.encodedLen C) (cert.encode C) (asStrLossy T cert.comment)

structure PublicKey where
  keyData : KeyData
  comment : Bytes
  deriving DecidableEq

def PublicKey.fromBytes (bytes : Bytes) : Except Exit PublicKey := do
  let keyData ← finish (KeyData.decode C) bytes
  .ok ⟨keyData, []⟩

def PublicKey.toBytes (key : PublicKey) : Except Exit Bytes := key.keyData.toBytes C

def PublicKey.toOpenssh (key : PublicKey) : Except Exit Text :=
  SshFormat.encodeString C T key.keyData.algorithm.asStr (key.keyData.encodedLen C) (key.keyData.encode C)
    (asStrLossy T key.comment)

/-- `Fingerprint::new`: the digest of the encoded key, whose errors panic. -/
def Fingerprint.new (hash : HashAlg) (key : KeyData) : Except Exit Bytes :=
  match key.encode C with
  | .ok bytes => .ok (match hash with | .sha256 => D.sha256 bytes | .sha512 => D.sha512 bytes)
  | .error (.panic message) => .error (.panic message)
  | .error _ => .error (.panic "fingerprint encoding error")

def Certificate.verifySignature (cert : Certificate) : Except Exit Unit := do
  let tbsCertificate ← cert.encodeTbs C
  match cert.signatureKey.verify C D W tbsCertificate cert.signature with
  | .ok () => .ok ()
  | .error (.panic message) => .error (.panic message)
  | .error _ => .error (.error .certificateValidation)

/-! ## What may be done with what was parsed -/

def NoPanic {α : Type} (r : Except Exit α) : Prop := ∀ message, r ≠ .error (.panic message)

/-- Encoding the certificate again, its fingerprints and its signature check do not panic. -/
structure Certificate.PanicFree (cert : Certificate) : Prop where
  toBytes : NoPanic (cert.toBytes C)
  toOpenssh : NoPanic (cert.toOpenssh C T)
  publicKey : ∀ hash, NoPanic (Fingerprint.new C D hash cert.publicKey)
  signatureKey : ∀ hash, NoPanic (Fingerprint.new C D hash cert.signatureKey)
  verifySignature : NoPanic (cert.verifySignature C D W)

/-- Encoding the key again, its fingerprints and the checks of signatures with it do not panic. -/
structure PublicKey.PanicFree (key : PublicKey) : Prop where
  toBytes : NoPanic (key.toBytes C)
  toOpenssh : NoPanic (key.toOpenssh C T)
  fingerprint : ∀ hash, NoPanic (Fingerprint.new C D hash key.keyData)
  verify : ∀ message s, NoPanic (key.keyData.verify C D W message s)

end

theorem noPanic_of_errs {α : Type} {r : Except Exit α} (h : Errs r) : NoPanic r :=
  fun message hr => h (.panic message) hr

section
variable {C : Crates} {T : TextCrates} {D : Digests} {W : WolfCrypt}

theorem errs_total : ∀ {ls : List (Except Exit Nat)}, (∀ l ∈ ls, Errs l) → Errs (C.total ls)
  | [], _ => errs_ok
  | l :: _, h => errs_bind (h l (List.mem_cons_self ..)) fun _ =>
      errs_bind (errs_total fun l hl => h l (List.mem_cons_of_mem _ hl)) fun _ => errs_ite errs_ok (errs_error trivial)

theorem errs_encodeString {id comment : Text} {len : Except Exit Nat} {key : Except Exit Bytes} (hlen : Errs len)
    (hkey : Errs key) : Errs (SshFormat.encodeString C T id len key comment) := by
  refine errs_bind hlen fun n => errs_bind (errs_total ?_) fun capacity => ?_
  · intro l hl
    simp only [List.mem_cons, List.not_mem_nil, or_false] at hl
    rcases hl with rfl | rfl | rfl | rfl <;> exact errs_ok
  · refine errs_ite (errs_error trivial) (errs_bind hkey fun bytes => ?_)
    exact errs_ite (errs_error trivial) (errs_ite errs_ok (errs_ite (errs_error trivial) errs_ok))

theorem errs_ofWolfCrypt {α : Type} (r : Except WolfCryptError α) : Errs (ofWolfCrypt r) := by
  cases r with
  | ok a => exact errs_ok
  | error e => exact errs_error trivial

theorem errs_fromSource {α : Type} {r : Except Exit α} (h : Errs r) : Errs (fromSource r) := by
  cases r with
  | ok a => exact errs_ok
  | error e =>
    cases e with
    | error e => exact errs_error trivial
    | _ => exact errs_error (h _ rfl)

theorem errs_ecdsaVerifyMessage (hC : C.Lawful) (curve : EcdsaCurve) (pk message data : Bytes) :
    Errs (ecdsaVerifyMessage C D W curve pk message data) := by
  have hder : Errs (sshSigToDer C W data) := by
    unfold sshSigToDer
    have hpair : Reads Exit.IsErr data.length (mpintPair C) (fun _ _ => True) :=
      reads_bind (hC.mpint.reads _) fun _ _ _ => reads_bind (hC.mpint.reads _) fun _ _ _ => reads_pure trivial
    cases hrun : (mpintPair C).run data with
    | error e rest => exact errs_error (reads_error hpair hrun)
    | ok p rest =>
      dsimp only
      split
      · exact errs_ofWolfCrypt _
      · exact errs_error trivial
  exact errs_bind hder fun _ => errs_bind (errs_ofWolfCrypt _) fun _ => errs_bind (errs_ofWolfCrypt _) fun _ =>
    errs_ite errs_ok (errs_error trivial)

theorem errs_splitSkSignature (s : Signature) : Errs (splitSkSignature s) := errs_ite (errs_error trivial) errs_ok

theorem errs_rsaVerify (key : RsaPublicKey) (message : Bytes) (s : Signature) : Errs (key.verify C D W message s) := by
  unfold RsaPublicKey.verify
  split
  · split
    · refine errs_fromSource (errs_bind (errs_ofWolfCrypt _) fun _ => errs_bind (errs_ofWolfCrypt _) fun _ =>
        errs_bind ?_ fun _ => errs_ite errs_ok (errs_error trivial))
      unfold buildDigestInfo
      split
      · exact errs_ok
      · exact errs_ok
      · split
        · exact errs_ok
        · exact errs_error trivial
    · exact errs_error trivial
  · exact errs_error trivial

/-- **Checking a signature fails without a panic**, whatever wolfCrypt answers. -/
theorem errs_verify (hC : C.Lawful) (key : KeyData) (message : Bytes) (s : Signature) :
    Errs (key.verify C D W message s) := by
  cases key with
  | dsa pk => exact errs_error trivial
  | certificate cert => exact errs_error trivial
  | other pk => exact errs_error trivial
  | rsa pk => exact errs_rsaVerify pk message s
  | ed25519 pk =>
    show Errs (Ed25519PublicKey.verify W pk message s)
    unfold Ed25519PublicKey.verify
    split
    · exact errs_fromSource (errs_ofWolfCrypt _)
    · exact errs_error trivial
  | ecdsa pk =>
    show Errs (EcdsaPublicKey.verify C D W pk message s)
    unfold EcdsaPublicKey.verify
    split
    · exact errs_fromSource (errs_ecdsaVerifyMessage hC _ _ _ _)
    · exact errs_error trivial
  | skEd25519 pk => exact errs_fromSource (errs_bind (errs_splitSkSignature s) fun _ => errs_ofWolfCrypt _)
  | skEcdsaSha2NistP256 pk =>
    exact errs_fromSource (errs_bind (errs_splitSkSignature s) fun _ => errs_ecdsaVerifyMessage hC _ _ _ _)

theorem noPanic_certificateType {a : AlgorithmName} : NoPanic a.certificateType ↔ a.WellFormed := by
  unfold AlgorithmName.certificateType
  cases hs : splitAlgorithmId a.id with
  | ok p =>
    refine ⟨fun _ => ⟨p.1, p.2, splitAlgorithmId_ok.1 hs⟩, fun _ => nofun⟩
  | error e =>
    refine ⟨fun h => absurd rfl (h _), ?_⟩
    rintro ⟨n, d, hparts⟩
    rw [splitAlgorithmId_ok.2 hparts] at hs
    cases hs

theorem noPanic_fingerprint {key : KeyData} {bytes : Bytes} (h : key.encode C = .ok bytes) (hash : HashAlg) :
    NoPanic (Fingerprint.new C D hash key) := by
  rw [Fingerprint.new, h]
  exact nofun

theorem noPanic_verifySignature (hC : C.Lawful) {cert : Certificate} {tbs : Bytes} (h : cert.encodeTbs C = .ok tbs) :
    NoPanic (cert.verifySignature C D W) := by
  intro message hm
  simp only [Certificate.verifySignature, h, bind, Except.bind] at hm
  split at hm
  · cases hm
  · rename_i hv
    exact errs_verify hC _ _ _ _ hv
  · cases hm

/-! ## Keys -/

theorem encode_of_named (hC : C.Lawful) {sp : Spelling} {key : KeyData} {w : Bytes} (hsp : Spells C sp key w)
    (hw : w.length ≤ C.usizeMax) (hnamed : sp.Named) :
    ∃ w', key.encode C = .ok w' ∧ key.encodedLen C = .ok w'.length ∧ w'.length ≤ w.length := by
  obtain ⟨hvalid, rfl, hbytes⟩ := hsp
  obtain ⟨w', hw', hle, -⟩ := shrinks_spelling hC sp w hbytes
  obtain ⟨henc, hlen⟩ := writes_spelling hC hvalid hnamed w' hw' (Nat.le_trans hle hw)
  exact ⟨w', henc, hlen, hle⟩

/-- **A decoded key is used without a panic exactly when its names are all there.** -/
theorem PublicKey.panicFree_iff (hC : C.Lawful) {sp : Spelling} {key : PublicKey} {w : Bytes}
    (hsp : Spells C sp key.keyData w) (hw : w.length ≤ C.usizeMax) : key.PanicFree C T D W ↔ sp.Named := by
  constructor
  · intro h
    by_contra hnamed
    obtain ⟨hvalid, hvalue, hbytes⟩ := hsp
    have hlen := encodedLen_of_unnamed hC hvalid hnamed hbytes hw
    rw [hvalue] at hlen
    refine h.toBytes "format checked in constructor" ?_
    rw [PublicKey.toBytes, KeyData.toBytes, hlen]
    rfl
  · intro hnamed
    obtain ⟨bytes, henc, hlen, -⟩ := encode_of_named hC hsp hw hnamed
    refine ⟨?_, ?_, noPanic_fingerprint henc, fun message s => noPanic_of_errs (errs_verify hC _ message s)⟩
    · rw [PublicKey.toBytes, KeyData.toBytes, hlen, henc]
      intro message hpanic
      cases hpanic
    · rw [PublicKey.toOpenssh, hlen, henc]
      exact noPanic_of_errs (errs_encodeString errs_ok errs_ok)

/-! ## Certificates -/

/-- The key a certificate is for is written, whatever the certificate's type. -/
theorem encode_publicKey (hC : C.Lawful) {type : Text} {body : Body} {key : Spelling} {w : Bytes}
    (hvalid : (Spelling.certificate type body key).Valid) (hw : (Spelling.certificate type body key).bytes C = .ok w) :
    ∃ w', body.publicKey.encode C = .ok w' := by
  obtain ⟨⟨a, ha, halg⟩, hcert, -⟩ := hvalid
  obtain ⟨u, hu, v, hv, rfl⟩ := cat_cons.1 hw
  obtain ⟨x, hx, -⟩ := cat_mem (p := body.publicKey.encodeKeyData C) (by simp [Body.pieces]) hv
  obtain ⟨u', hu'⟩ := hC.string_le hu (Nat.le_of_lt (len_asStr_of_newCertificate ha))
  rw [KeyData.encode, KeyData.labelled, hcert, halg]
  exact ⟨_, cat_ok hu' (cat_ok hx (cat_nil.2 rfl))⟩

/-- **A decoded certificate is used without a panic exactly when its names are all there**, whatever comment it has. -/
theorem Certificate.panicFree_iff (hC : C.Lawful) {type : Text} {body : Body} {key : Spelling} {cert : Certificate}
    {w : Bytes} (hsp : Spells C (.certificate type body key) (.certificate cert) w) (hw : w.length ≤ C.usizeMax)
    (comment : Bytes) :
    Certificate.PanicFree C T D W { cert with comment := comment } ↔ ¬ EmptyNamed type ∧ key.Named := by
  obtain ⟨hvalid, hvalue, hbytes⟩ := hsp
  cases hvalue
  constructor
  · intro h
    by_contra hnamed
    have hlen := encodedLen_of_unnamed hC hvalid hnamed hbytes hw
    refine h.toBytes "format checked in constructor" ?_
    rw [Certificate.toBytes]
    exact congrArg (· >>= _) hlen
  · intro hnamed
    obtain ⟨bytes, henc, hlen, -⟩ := encode_of_named hC ⟨hvalid, rfl, hbytes⟩ hw hnamed
    have henc : (body.cert key.value).encode C = .ok bytes := henc
    have hlen : (body.cert key.value).encodedLen C = .ok bytes.length := hlen
    refine ⟨?_, ?_, ?_, ?_, ?_⟩
    · show NoPanic (Certificate.toBytes C (body.cert key.value))
      rw [Certificate.toBytes, hlen, henc]
      exact nofun
    · show NoPanic (do
        let type ← (body.cert key.value).algorithm.toCertificateType
        SshFormat.encodeString C T type ((body.cert key.value).encodedLen C) ((body.cert key.value).encode C) _)
      rw [toCertificateType_of_valid hvalid, if_neg hnamed.1, hlen, henc]
      exact noPanic_of_errs (errs_encodeString errs_ok errs_ok)
    · obtain ⟨w', hw'⟩ := encode_publicKey hC hvalid hbytes
      exact noPanic_fingerprint hw'
    · obtain ⟨v, hkey, hle⟩ := spells_signatureKey hvalid hbytes
      obtain ⟨w', hw', -⟩ := encode_of_named hC hkey (Nat.le_trans hle hw) hnamed.2
      exact noPanic_fingerprint hw'
    · rw [Certificate.encode_eq] at henc
      obtain ⟨tbs, htbs, -⟩ := cat_cons.1 henc
      exact noPanic_verifySignature hC htbs

/-! ## Texts -/

theorem errs_decodeSegment : ∀ t : Text, Errs (decodeSegment t)
  | [] => errs_ok
  | _ :: t => errs_ite (errs_bind (errs_decodeSegment t) fun _ => errs_ok) (errs_ite errs_ok (errs_error trivial))

theorem errs_decode (t : Text) : Errs (SshFormat.decode t) :=
  errs_bind (errs_decodeSegment t) fun _ => errs_bind (errs_decodeSegment _) fun _ =>
    errs_ite (errs_error trivial) errs_ok

theorem len_decodeSegment : ∀ {t segment rest : Text}, decodeSegment t = .ok (segment, rest) →
    segment.len + rest.len ≤ t.len
  | [], _, _, h => by
    cases h
    exact Nat.le_refl _
  | c :: t, segment, rest, h => by
    rw [Text.len_cons]
    unfold decodeSegment at h
    split at h
    · obtain ⟨⟨segment', rest'⟩, ht, h⟩ := Program.bind_ok.1 h
      cases h
      have ih := len_decodeSegment ht
      rw [Text.len_cons]
      omega
    · split at h
      · cases h
        exact Nat.add_le_add_right (Nat.zero_le _) _
      · cases h

/-- **What a text is made of** that was taken apart: two fields that are not empty, and the comment. -/
theorem decode_segments {t : Text} {enc : SshFormat} (h : SshFormat.decode t = .ok enc) : ∃ rest rest',
    decodeSegment t = .ok (enc.algorithmId, rest) ∧ decodeSegment rest = .ok (enc.base64Data, rest') ∧
      enc.comment = trimEnd rest' ∧ enc.algorithmId ≠ [] ∧ enc.base64Data ≠ [] := by
  obtain ⟨⟨algorithmId, rest⟩, hid, h⟩ := Program.bind_ok.1 h
  obtain ⟨⟨base64Data, rest'⟩, hdata, h⟩ := Program.bind_ok.1 h
  dsimp only at h
  split at h
  · cases h
  · rename_i hempty
    cases h
    simp only [Bool.or_eq_true, List.isEmpty_iff, not_or] at hempty
    exact ⟨rest, rest', hid, hdata, rfl, hempty⟩

theorem len_base64Data {t : Text} {enc : SshFormat} (h : SshFormat.decode t = .ok enc) : enc.base64Data.len ≤ t.len := by
  obtain ⟨rest, rest', hid, hdata, -⟩ := decode_segments h
  have hidLen := len_decodeSegment hid
  have hdataLen := len_decodeSegment hdata
  omega

theorem len_trimEnd (t : Text) : (trimEnd t).len ≤ t.len := by
  obtain ⟨r, hr⟩ : trimEnd t <+: t := by
    have := List.reverse_prefix.2 (List.dropWhile_suffix isWhitespace (l := t.reverse))
    rwa [List.reverse_reverse] at this
  conv_rhs => rw [← hr, Text.len_append]
  exact Nat.le_add_right _ _

end

section
variable (C : Crates) (T : TextCrates) (D : Digests) (W : WolfCrypt)

/-- What `Certificate::from_openssh` finds in `s` before it compares the names: the parts of the text, a reader of its
data, and at the front of that a certificate with its spelling. -/
structure Carries (s : Text) (encapsulation : SshFormat) (reader : Base64Reader) (type : Text) (body : Body)
    (key : Spelling) (rest : Bytes) : Prop where
  format : SshFormat.decode (trimEnd s) = .ok encapsulation
  data : T.base64Reader encapsulation.base64Data = .ok reader
  decoded : (Certificate.decode C).run reader.readable = .ok (body.cert key.value) rest
  spelled : ∃ w, reader.readable = w ++ rest ∧
    Spells C (.certificate type body key) (.certificate (body.cert key.value)) w

/-- The certificate in `s` has a type with a name; and if the text names the type and holds nothing else, so have the
certificates among its signature keys. -/
def NamedText (s : Text) : Prop := ∀ encapsulation reader type body key rest,
  Carries C T s encapsulation reader type body key rest → ¬ EmptyNamed type ∧
    (encapsulation.algorithmId = canonicalType type → rest = [] ∧ reader.complete → key.Named)

/-- The text is parsed, and the certificate used if there is one, without a panic. -/
def TextPanicFree (s : Text) : Prop := NoPanic (Certificate.fromOpenssh C T s) ∧
  ∀ cert, Certificate.fromOpenssh C T s = .ok cert → cert.PanicFree C T D W

end

section
variable {C : Crates} {T : TextCrates} {D : Digests} {W : WolfCrypt} {s : Text} {encapsulation : SshFormat}
  {reader : Base64Reader} {type : Text} {body : Body} {key : Spelling} {rest : Bytes}

/-- **Where parsing a text gets to**: an error, or a certificate whose names are to be compared. -/
theorem errs_or_carries (hC : C.Lawful) (hT : T.Lawful) (s : Text) :
    (∃ e, Certificate.fromOpenssh C T s = .error e ∧ e.IsErr) ∨
      ∃ encapsulation reader type body key rest, Carries C T s encapsulation reader type body key rest := by
  cases hformat : SshFormat.decode (trimEnd s) with
  | error e => exact .inl ⟨e, by simp [Certificate.fromOpenssh, hformat, bind, Except.bind], errs_decode _ e hformat⟩
  | ok encapsulation =>
    cases hdata : T.base64Reader encapsulation.base64Data with
    | error e =>
      exact .inl ⟨e, by simp [Certificate.fromOpenssh, hformat, hdata, bind, Except.bind], hT.errs _ e hdata⟩
    | ok reader =>
      cases hrun : (Certificate.decode C).run reader.readable with
      | error e rest =>
        exact .inl ⟨e, by simp [Certificate.fromOpenssh, hformat, hdata, hrun, bind, Except.bind],
          reads_error (reads_certificate hC _) hrun⟩
      | ok cert rest =>
        obtain ⟨w, hw, type, body, key, hsp⟩ := reads_ok (reads_certificate hC _) hrun
        have hvalue := hsp.2.1
        cases hvalue
        exact .inr ⟨encapsulation, reader, type, body, key, rest, hformat, hdata, hrun, w, hw, hsp⟩

/-- **What becomes of the certificate in a text.** -/
theorem fromOpenssh_of_carries (h : Carries C T s encapsulation reader type body key rest) :
    Certificate.fromOpenssh C T s = if EmptyNamed type then .error (.panic "format checked in constructor") else
      if encapsulation.algorithmId ≠ canonicalType type then .error algorithmUnknown
      else if rest = [] ∧ reader.complete then .ok { body.cert key.value with comment := encapsulation.comment.utf8 }
      else .error (.error (.encoding (.trailingData rest.length))) := by
  obtain ⟨hformat, hdata, hrun, w, -, hvalid, -⟩ := h
  simp only [Certificate.fromOpenssh, hformat, hdata, hrun, toCertificateType_of_valid hvalid, bind, Except.bind]
  by_cases hname : EmptyNamed type
  · rw [if_pos hname, if_pos hname]
  · rw [if_neg hname, if_neg hname]

theorem textPanicFree_of_carries (hC : C.Lawful) (hT : T.Lawful) (hs : s.len ≤ C.usizeMax)
    (h : Carries C T s encapsulation reader type body key rest) :
    TextPanicFree C T D W s ↔ ¬ EmptyNamed type ∧
      (encapsulation.algorithmId = canonicalType type → rest = [] ∧ reader.complete → key.Named) := by
  obtain ⟨w, hw, hsp⟩ := h.spelled
  have hmax : w.length ≤ C.usizeMax := by
    have h₁ := hT.readable_le _ _ h.data
    have h₂ := len_base64Data h.format
    have h₃ := len_trimEnd s
    rw [hw, List.length_append] at h₁
    omega
  have huse := Certificate.panicFree_iff (T := T) (D := D) (W := W) hC hsp hmax
  rw [TextPanicFree, fromOpenssh_of_carries h]
  by_cases hname : EmptyNamed type
  · rw [if_pos hname]
    exact ⟨fun h => absurd rfl (h.1 _), fun h => absurd hname h.1⟩
  · rw [if_neg hname]
    by_cases hid : encapsulation.algorithmId = canonicalType type
    · rw [if_neg (not_not_intro hid)]
      by_cases hend : rest = [] ∧ reader.complete
      · rw [if_pos hend]
        constructor
        · intro h
          exact ⟨hname, fun _ _ => ((huse _).1 (h.2 _ rfl)).2⟩
        · rintro ⟨-, hkey⟩
          refine ⟨nofun, ?_⟩
          rintro _ ⟨⟩
          exact (huse _).2 ⟨hname, hkey hid hend⟩
      · rw [if_neg hend]
        exact ⟨fun _ => ⟨hname, fun _ h => absurd h hend⟩, fun _ => ⟨nofun, nofun⟩⟩
    · rw [if_pos hid]
      exact ⟨fun _ => ⟨hname, fun h => absurd h hid⟩, fun _ => ⟨nofun, nofun⟩⟩

end

/-! ## A base64 reader -/

namespace Rfc4648

def alphabet : Text := "ABCDEFGHIJKLMNOPQRSTUVWXYZabcdefghijklmnopqrstuvwxyz0123456789+/".toList

/-- The bytes in front of the first group that is not base64, and whether that is all of the text. -/
def decode : Text → Bytes × Bool
  | a :: b :: c :: d :: t =>
    match alphabet.idxOf? a, alphabet.idxOf? b with
    | some x, some y =>
      if c = '=' ∧ d = '=' ∧ t = [] then ([.ofNat (x * 4 + y / 16)], true)
      else match alphabet.idxOf? c with
        | some z =>
          if d = '=' ∧ t = [] then ([.ofNat (x * 4 + y / 16), .ofNat (y * 16 + z / 4)], true)
          else match alphabet.idxOf? d with
            | some w =>
              let (bytes, complete) := decode t
              (.ofNat (x * 4 + y / 16) :: .ofNat (y * 16 + z / 4) :: .ofNat (z * 64 + w) :: bytes, complete)
            | none => ([], false)
        | none => ([], false)
    | _, _ => ([], false)
  | t => ([], t.isEmpty)

def digits : Nat → Nat → Text
  | 0, _ => []
  | k + 1, n => digits k (n / 64) ++ [alphabet.getD (n % 64) '=']

def encode : Bytes → Text
  | a :: b :: c :: x => digits 4 (beNat [a, b, c]) ++ encode x
  | [a, b] => digits 3 (beNat [a, b] * 4) ++ ['=']
  | [a] => digits 2 (beNat [a] * 16) ++ ['=', '=']
  | [] => []

theorem length_le_len : ∀ t : Text, t.length ≤ t.len
  | [] => Nat.le_refl _
  | c :: t => by
    have ih := length_le_len t
    have hc := c.utf8Size_pos
    rw [List.length_cons, Text.len_cons]
    omega

theorem length_decode (t : Text) : (decode t).1.length ≤ t.length := by
  fun_induction decode t <;> simp_all
  omega

/-- The base64 alphabet, and ASCII for text. -/
def crates : TextCrates where
  base64Reader t := .ok ⟨(decode t).1, (decode t).2⟩
  base64Encode := encode
  fromUtf8 x := if x.all (· < 128) then some (Rfc4251.asText x) else none

theorem crates_lawful : crates.Lawful where
  errs _ := errs_ok
  readable_le := by
    rintro t _ ⟨⟩
    exact Nat.le_trans (length_decode t) (length_le_len t)

end Rfc4648

/-- **When parsing and using a key or a certificate cannot panic.**  `AlgorithmName::new` gives well formed names,
`from_certificate_type` gives them for types that have a name, and `certificate_type` needs them.  `PublicKey::from_bytes`
does not panic, and what it accepts is used without a panic just when every certificate type in the bytes has a name.
A text is parsed, and its certificate used, without a panic just when its certificate types have names. -/
theorem parsed_uses_panic_free_iff (C : Crates) (T : TextCrates) (D : Digests) (W : WolfCrypt) (hC : C.Lawful)
    (hT : T.Lawful) :
    ((∀ a : AlgorithmName, NoPanic a.certificateType ↔ a.WellFormed) ∧
      (∀ id a, AlgorithmName.new id = .ok a → a.WellFormed) ∧
      ∀ id a, AlgorithmName.fromCertificateType id = .ok a → (a.WellFormed ↔ ¬ EmptyNamed id)) ∧
    (∀ b : Bytes, b.length ≤ C.usizeMax → NoPanic (PublicKey.fromBytes C b) ∧
      ∀ key, PublicKey.fromBytes C b = .ok key → (∃ sp, Spells C sp key.keyData b) ∧
        ∀ sp, Spells C sp key.keyData b → (key.PanicFree C T D W ↔ sp.Named)) ∧
    (∀ s : Text, s.len ≤ C.usizeMax → (TextPanicFree C T D W s ↔ NamedText C T s)) := by
  refine ⟨⟨fun _ => noPanic_certificateType, fun _ _ h => (new_ok h).2, fun _ _ => wellFormed_of_fromCertificateType⟩,
    fun b hb => ⟨?_, fun key hkey => ?_⟩, fun s hs => ⟨?_, fun hnamed => ?_⟩⟩
  · refine noPanic_of_errs (errs_bind (fun e he => ?_) fun _ => errs_ok)
    exact finish_error (reads_keyData hC b.length) he
  · obtain ⟨keyData, hfin, hkey⟩ := Program.bind_ok.1 hkey
    cases hkey
    exact ⟨finish_ok (reads_keyData hC b.length) hfin, fun sp hsp => PublicKey.panicFree_iff hC hsp hb⟩
  · intro h encapsulation reader type body key rest hcarries
    exact (textPanicFree_of_carries hC hT hs hcarries).1 h
  · rcases errs_or_carries hC hT s with ⟨e, he, herr⟩ | ⟨encapsulation, reader, type, body, key, rest, hcarries⟩
    · rw [TextPanicFree, he]
      exact ⟨noPanic_of_errs (errs_error herr), nofun⟩
    · exact (textPanicFree_of_carries hC hT hs hcarries).2 (hnamed _ _ _ _ _ _ hcarries)

/-- A text with the type and the bytes of a certificate. -/
def Sample.text (type : Text) (bytes : Bytes) : Text := type ++ ' ' :: Rfc4648.encode bytes

theorem parsed_uses_panic_free_sample :
    PublicKey.fromBytes Rfc4251.crates (Sample.bytes certRsa Sample.rsaKey []) = .ok ⟨.certificate Sample.cert, []⟩ ∧
    Certificate.fromOpenssh Rfc4251.crates Rfc4648.crates
      (Sample.text certRsa (Sample.bytes certRsa Sample.rsaKey [])) = .ok Sample.cert ∧
    ∀ D W, PublicKey.PanicFree Rfc4251.crates Rfc4648.crates D W ⟨.certificate Sample.cert, []⟩ ∧
      TextPanicFree Rfc4251.crates Rfc4648.crates D W (Sample.text certRsa (Sample.bytes certRsa Sample.rsaKey [])) := by
  have hkey : PublicKey.fromBytes Rfc4251.crates (Sample.bytes certRsa Sample.rsaKey []) =
      .ok ⟨.certificate Sample.cert, []⟩ := by decide +kernel
  refine ⟨hkey, by decide +kernel, fun D W => ?_⟩
  obtain ⟨-, hbytes, htext⟩ := parsed_uses_panic_free_iff Rfc4251.crates Rfc4648.crates D W Rfc4251.crates_lawful
    Rfc4648.crates_lawful
  have hiff := ((hbytes _ (by decide +kernel)).2 _ hkey).2
  have hfree := (hiff _ Sample.spells_cert).2 Sample.named_spelling
  refine ⟨hfree, (htext _ (by decide +kernel)).2 ?_⟩
  -- any other spelling of the certificate in the text has its names too
  rintro encapsulation reader type body key rest ⟨hformat, hdata, hrun, w, hw, hsp⟩
  have hreadable : (do
      let encapsulation ← SshFormat.decode (trimEnd (Sample.text certRsa (Sample.bytes certRsa Sample.rsaKey [])))
      let reader ← Rfc4648.crates.base64Reader encapsulation.base64Data
      pure reader.readable) = .ok (Sample.bytes certRsa Sample.rsaKey []) := by decide +kernel
  have hdecode : (Certificate.decode Rfc4251.crates).run (Sample.bytes certRsa Sample.rsaKey []) = .ok Sample.cert [] :=
    finish_run.1 (by decide +kernel : Certificate.fromBytes Rfc4251.crates _ = .ok Sample.cert)
  simp only [hformat, hdata, bind, Except.bind] at hreadable
  rw [Except.ok.inj hreadable] at hrun hw
  have hcert := hrun.symm.trans hdecode
  injection hcert with hcert hrest
  rw [hrest, List.append_nil] at hw
  rw [hcert, ← hw] at hsp
  have hnamed := (hiff _ hsp).1 hfree
  exact ⟨hnamed.1, fun _ _ => hnamed.2⟩

/-- A certificate type with an empty name: its algorithm has no name, the bytes of such a certificate are accepted as a
public key that cannot be written or have a fingerprint, and the text of it panics before it is accepted. -/
theorem empty_name_panics :
    AlgorithmName.fromCertificateType "-cert-v01@d".toList = .ok ⟨"@d".toList⟩ ∧
    (PublicKey.fromBytes Rfc4251.crates (Sample.bytes "-cert-v01@d".toList (Sample.str [5]) [])).isOk ∧
    (do
      let key ← PublicKey.fromBytes Rfc4251.crates (Sample.bytes "-cert-v01@d".toList (Sample.str [5]) [])
      key.toBytes Rfc4251.crates) = .error (.panic "format checked in constructor") ∧
    (do
      let key ← PublicKey.fromBytes Rfc4251.crates (Sample.bytes "-cert-v01@d".toList (Sample.str [5]) [])
      Fingerprint.new Rfc4251.crates ⟨none, id, id, id⟩ .sha256 key.keyData)
        = .error (.panic "format checked in constructor") ∧
    Certificate.fromOpenssh Rfc4251.crates Rfc4648.crates
      (Sample.text "-cert-v01@d".toList (Sample.bytes "-cert-v01@d".toList (Sample.str [5]) []))
        = .error (.panic "format checked in constructor") := by
  decide +kernel

end Ssh
end Wolf
