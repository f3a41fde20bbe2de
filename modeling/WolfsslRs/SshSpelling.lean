import WolfsslRs.SshKey
/-!
# SshSpelling — how a key stands in the bytes it was decoded from

A `Spelling` is a key with what decoding forgets: the identifier or certificate type in front of it, and whether an
option's value was an empty block or a block with a string.  Whatever `KeyData.decode` or `Certificate.decode` accepts
is the bytes of a spelling of the answer (`reads_keyData`, `reads_certificate`), and nothing stops them short of an
error.
-/
namespace Wolf
namespace Ssh

open Reader

/-- Options as they stand in the input; `none` is a value whose block is empty. -/
structure SpelledOptions where
  entries : List (Text × Option Text)
  sorted : (entries.map Prod.fst).IsChain (· < ·)

def SpelledOptions.toMap (o : SpelledOptions) : OptionsMap where
  entries := o.entries.map (fun e => (e.1, e.2.getD []))
  sorted := by
    rw [List.map_map]
    exact o.sorted

/-- A certificate between its type and its signature key, and its signature. -/
structure Body where
  nonce : Bytes
  publicKey : KeyData
  serial : UInt64
  certType : CertType
  keyId : Text
  validPrincipals : List Text
  validAfter : UInt64
  validBefore : UInt64
  criticalOptions : SpelledOptions
  extensions : SpelledOptions
  reserved : Bytes
  signature : Signature

inductive Spelling where
  | plain (label : Text) (key : KeyData)
  | certificate (type : Text) (body : Body) (signatureKey : Spelling)

def Body.cert (b : Body) (signatureKey : KeyData) : Certificate where
  nonce := b.nonce
  publicKey := b.publicKey
  serial := b.serial
  certType := b.certType
  keyId := b.keyId
  validPrincipals := b.validPrincipals
  validAfter := b.validAfter
  validBefore := b.validBefore
  criticalOptions := b.criticalOptions.toMap
  extensions := b.extensions.toMap
  reserved := b.reserved
  signatureKey := signatureKey
  signature := b.signature
  comment := []

/-- The key that is spelled. -/
def Spelling.value : Spelling → KeyData
  | .plain _ key => key
  | .certificate _ body signatureKey => .certificate (body.cert signatureKey.value)

/-- The identifiers are of the keys they stand in front of. -/
def Spelling.Valid : Spelling → Prop
  | .plain label key => (∃ a, Algorithm.fromStr label = .ok a ∧ key.algorithm = a.ofKey) ∧ key.isCertificate = false
  | .certificate type body signatureKey =>
    (∃ a, Algorithm.newCertificate type = .ok a ∧ body.publicKey.algorithm = a.ofKey) ∧
      body.publicKey.isCertificate = false ∧ signatureKey.Valid

section
variable (C : Crates)

/-- A block: its length and its contents. -/
def block (p : Except Exit Bytes) : Except Exit Bytes := do
  let inner ← p
  cat [C.usize.encode inner.length, .ok inner]

def SpelledOptions.dataBytes : Option Text → Except Exit Bytes
  | none => .ok []
  | some t => C.string.encode t

def SpelledOptions.entryBytes (e : Text × Option Text) : Except Exit Bytes :=
  cat [C.string.encode e.1, block C (SpelledOptions.dataBytes C e.2)]

def SpelledOptions.bytes (o : SpelledOptions) : Except Exit Bytes :=
  block C (cat (o.entries.map (SpelledOptions.entryBytes C)))

def Body.pieces (b : Body) (signatureKey : Except Exit Bytes) : List (Except Exit Bytes) :=
  [C.bytes.encode b.nonce, b.publicKey.encodeKeyData C, C.u64.encode b.serial, b.certType.encode C,
    C.string.encode b.keyId, C.strings.encode b.validPrincipals, C.u64.encode b.validAfter, C.u64.encode b.validBefore,
    b.criticalOptions.bytes C, b.extensions.bytes C, C.bytes.encode b.reserved, block C signatureKey,
    block C (b.signature.encode C)]

def Spelling.bytes : Spelling → Except Exit Bytes
  | .plain label key => cat [C.string.encode label, key.encodeKeyData C]
  | .certificate type body signatureKey => cat (C.string.encode type :: body.pieces C signatureKey.bytes)

/-- `w` is the bytes of a spelling of the key. -/
def Spells (sp : Spelling) (key : KeyData) (w : Bytes) : Prop := sp.Valid ∧ sp.value = key ∧ sp.bytes C = .ok w

end

theorem block_ok {C : Crates} {p : Except Exit Bytes} {w : Bytes} :
    block C p = .ok w ↔ ∃ inner, p = .ok inner ∧ cat [C.usize.encode inner.length, .ok inner] = .ok w := by
  cases p with
  | error e => exact ⟨nofun, by rintro ⟨_, h, _⟩; cases h⟩
  | ok x => exact ⟨fun h => ⟨x, rfl, h⟩, by rintro ⟨_, h, hw⟩; cases h; exact hw⟩

/-! ## Errors, not panics -/

/-- A result without a panic. -/
def Errs {α : Type} (r : Except Exit α) : Prop := ∀ e, r = .error e → e.IsErr

theorem errs_ok {α : Type} {a : α} : Errs (.ok a) := nofun

theorem errs_error {α : Type} {e : Exit} (h : e.IsErr) : Errs (.error e : Except Exit α) := by
  rintro _ ⟨⟩
  exact h

theorem errs_bind {α β : Type} {r : Except Exit α} {k : α → Except Exit β} (hr : Errs r) (hk : ∀ a, Errs (k a)) :
    Errs (r >>= k) := by
  cases r with
  | error e => exact errs_error (hr e rfl)
  | ok a => exact hk a

theorem errs_ite {α : Type} {c : Prop} [Decidable c] {r r' : Except Exit α} (h : Errs r) (h' : Errs r') :
    Errs (if c then r else r') := by
  by_cases hc : c
  · rwa [if_pos hc]
  · rwa [if_neg hc]

theorem errs_validateAlgorithmId (id : Text) (k : Nat) : Errs (validateAlgorithmId id k) :=
  errs_ite (errs_error trivial) errs_ok

theorem errs_splitAlgorithmId (id : Text) : Errs (splitAlgorithmId id) := by
  unfold splitAlgorithmId
  cases splitOnce '@' id with
  | none => exact errs_error trivial
  | some p => exact errs_ite (errs_error trivial) errs_ok

theorem errs_fromStr (id : Text) : Errs (Algorithm.fromStr id) := by
  unfold Algorithm.fromStr
  cases plainNames.lookup id with
  | some a => exact errs_ok
  | none =>
    refine errs_bind ?_ fun _ => errs_ok
    exact errs_bind (errs_validateAlgorithmId id _) fun _ => errs_bind (errs_splitAlgorithmId id) fun _ => errs_ok

theorem errs_newCertificate (id : Text) : Errs (Algorithm.newCertificate id) := by
  unfold Algorithm.newCertificate
  cases certNames.lookup id with
  | some a => exact errs_ok
  | none =>
    refine errs_bind (errs_bind (errs_validateAlgorithmId id _) fun _ =>
      errs_bind (errs_splitAlgorithmId id) ?_) fun _ => errs_ok
    rintro ⟨name, domain⟩
    dsimp only
    cases stripSuffix certStrSuffix name with
    | none => exact errs_error trivial
    | some name => exact errs_ok

theorem errs_curve (id : Text) : Errs (EcdsaCurve.fromStr id) :=
  errs_ite errs_ok (errs_ite errs_ok (errs_ite errs_ok (errs_error trivial)))

/-! ## Keys -/

section
variable {C : Crates} (hC : C.Lawful) (n : Nat)
include hC

theorem reads_dsa : Reads Exit.IsErr n (DsaPublicKey.decode C) (fun k w => k.encode C = .ok w) := by
  refine reads_bind (hC.mpint.reads n) fun p _ hp => reads_bind (hC.mpint.reads n) fun q _ hq =>
    reads_bind (hC.mpint.reads n) fun g _ hg => reads_bind (hC.mpint.reads n) fun y _ hy => reads_orThrow ?_ ?_
  · intro k hk
    unfold DsaPublicKey.new at hk
    split at hk
    · cases hk
      exact cat_ok hp (cat_ok hq (cat_ok hg (cat_ok hy (cat_nil.2 rfl))))
    · cases hk
  · exact errs_ite errs_ok (errs_error trivial)

theorem reads_rsa : Reads Exit.IsErr n (RsaPublicKey.decode C) (fun k w => k.encode C = .ok w) := by
  refine reads_bind (hC.mpint.reads n) fun e _ he => reads_bind (hC.mpint.reads n) fun m _ hm => reads_orThrow ?_ ?_
  · intro k hk
    unfold RsaPublicKey.new at hk
    split at hk
    · cases hk
    · split at hk
      · split at hk
        · cases hk
          exact cat_ok he (cat_ok hm (cat_nil.2 rfl))
        · cases hk
      · cases hk
  · refine errs_ite (errs_error trivial) ?_
    cases C.asPositiveBytes m with
    | none => exact errs_error trivial
    | some x => exact errs_ite errs_ok (errs_error trivial)

theorem reads_ed25519 : Reads Exit.IsErr n (Ed25519PublicKey.decode C) (fun k w => k.encode C = .ok w) := by
  refine reads_bind (reads_readPrefixed hC (reads_take trivial)) ?_
  rintro bytes w ⟨inner, rfl, hw⟩
  refine reads_pure ?_
  rw [Ed25519PublicKey.encode, hC.bytes_eq, List.append_nil]
  exact hw

omit hC in
theorem point_of_ofPoint {curve : EcdsaCurve} {bytes : Bytes} {key : EcdsaPublicKey}
    (h : EcdsaPublicKey.ofPoint C curve bytes = .ok key) : key.point = bytes := by
  unfold EcdsaPublicKey.ofPoint at h
  split at h
  · cases h; rfl
  · cases h

omit hC in
theorem point_of_fromSec1Bytes {bytes : Bytes} {key : EcdsaPublicKey}
    (h : EcdsaPublicKey.fromSec1Bytes C bytes = .ok key) : key.point = bytes := by
  cases bytes with
  | nil => cases h
  | cons tag rest =>
    unfold EcdsaPublicKey.fromSec1Bytes at h
    obtain ⟨size, -, h⟩ := Program.bind_ok.1 h
    split at h
    · exact point_of_ofPoint h
    · split at h
      · exact point_of_ofPoint h
      · split at h
        · exact point_of_ofPoint h
        · cases h

omit hC in
theorem errs_fromSec1Bytes (bytes : Bytes) : Errs (EcdsaPublicKey.fromSec1Bytes C bytes) := by
  cases bytes with
  | nil => exact errs_error trivial
  | cons tag rest =>
    have hpoint : ∀ curve, Errs (EcdsaPublicKey.ofPoint C curve (tag :: rest)) :=
      fun _ => errs_ite errs_ok (errs_error trivial)
    refine errs_bind ?_ fun size => errs_ite (hpoint _) (errs_ite (hpoint _) (errs_ite (hpoint _) (errs_error trivial)))
    exact errs_ite errs_ok (errs_ite errs_ok (errs_ite (errs_error trivial) (errs_error trivial)))

theorem reads_ecdsa : Reads Exit.IsErr n (EcdsaPublicKey.decode C) (fun k w => k.encode C = .ok w) := by
  refine reads_bind (reads_decodeLabel hC errs_curve) ?_
  rintro curve w ⟨id, hid, hw⟩
  refine reads_bind (hC.byten _ n) fun bytes v hv => ?_
  refine reads_bind (D := fun key u => key.point = bytes ∧ u = [])
    (reads_orThrow (fun key hkey => ⟨point_of_fromSec1Bytes hkey, rfl⟩) (errs_fromSec1Bytes bytes)) ?_
  rintro key _ ⟨hpoint, rfl⟩
  by_cases hcurve : key.curve = curve
  · rw [if_pos hcurve]
    refine reads_pure (cat_ok ?_ (cat_ok ?_ (cat_nil.2 rfl)))
    · rw [hcurve, EcdsaCurve.asStr_of_fromStr hid]
      exact hw
    · rw [hpoint]
      exact hv
  · rw [if_neg hcurve]
    exact reads_throw trivial

theorem reads_skEcdsa : Reads Exit.IsErr n (SkEcdsaSha2NistP256.decode C) (fun k w => k.encode C = .ok w) := by
  refine reads_bind (reads_decodeLabel hC errs_curve) ?_
  rintro curve w ⟨id, hid, hw⟩
  by_cases hcurve : curve = .nistP256
  · rw [if_neg (not_not_intro hcurve)]
    refine reads_bind (hC.byten 65 n) fun ecPoint v hv => ?_
    by_cases hpoint : C.encodedPoint .nistP256 ecPoint
    · rw [if_pos hpoint]
      refine reads_bind (hC.string.reads n) fun application u hu =>
        reads_pure (cat_ok ?_ (cat_ok hv (cat_ok hu (cat_nil.2 rfl))))
      rw [← hcurve, EcdsaCurve.asStr_of_fromStr hid]
      exact hw
    · rw [if_neg hpoint]
      exact reads_throw trivial
  · rw [if_pos hcurve]
    exact reads_throw trivial

theorem reads_skEd25519 : Reads Exit.IsErr n (SkEd25519.decode C) (fun k w => k.encode C = .ok w) :=
  reads_bind (reads_ed25519 hC n) fun _ _ hk => reads_bind (hC.string.reads n) fun _ _ ha =>
    reads_pure (cat_ok hk (cat_ok ha (cat_nil.2 rfl)))

theorem reads_other (algorithm : Algorithm) : Reads Exit.IsErr n (OpaquePublicKey.decodeAs C algorithm)
    (fun k w => k.algorithm = algorithm ∧ C.bytes.encode k.key = .ok w) := by
  refine reads_bind (hC.usize.reads n) fun len w hw => reads_bind (reads_take trivial) ?_
  rintro ⟨bytes, hlen⟩ _ rfl
  refine reads_pure ⟨rfl, ?_⟩
  rw [hC.bytes_eq, hlen]
  exact cat_ok hw (cat_ok rfl (cat_nil.2 rfl))

/-- **A key is read from its encoding**, and is of the algorithm it was read as. -/
theorem reads_decodeAs (a : Algorithm) : Reads Exit.IsErr n (KeyData.decodeAs C a)
    (fun k w => k.encodeKeyData C = .ok w ∧ k.algorithm = a.ofKey ∧ k.isCertificate = false) := by
  cases a with
  | dsa => exact reads_map (reads_dsa hC n) fun _ _ h => ⟨h, rfl, rfl⟩
  | ed25519 => exact reads_map (reads_ed25519 hC n) fun _ _ h => ⟨h, rfl, rfl⟩
  | rsa hash => exact reads_map (reads_rsa hC n) fun _ _ h => ⟨h, rfl, rfl⟩
  | skEcdsaSha2NistP256 => exact reads_map (reads_skEcdsa hC n) fun _ _ h => ⟨h, rfl, rfl⟩
  | skEd25519 => exact reads_map (reads_skEd25519 hC n) fun _ _ h => ⟨h, rfl, rfl⟩
  | other name => exact reads_map (reads_other hC n (.other name)) fun _ _ h => ⟨h.2, h.1, rfl⟩
  | ecdsa curve =>
    refine reads_bind (reads_ecdsa hC n) fun key w hw => ?_
    by_cases hcurve : key.curve = curve
    · rw [if_pos hcurve]
      exact reads_pure ⟨by rw [List.append_nil]; exact hw, congrArg Algorithm.ecdsa hcurve, rfl⟩
    · rw [if_neg hcurve]
      exact reads_throw trivial

/-! ## Options -/

omit hC in
theorem push_ok {m m' : OptionsMap} {name data : Text} (h : m.push name data = .ok m') :
    m'.entries = m.entries ++ [(name, data)] := by
  unfold OptionsMap.push at h
  split at h
  · cases h; rfl
  · cases h

omit hC in
theorem errs_push (m : OptionsMap) (name data : Text) : Errs (m.push name data) := by
  intro e h
  unfold OptionsMap.push at h
  split at h
  · cases h
  · cases h; trivial

theorem reads_decodeData : Reads Exit.IsErr n (OptionsMap.decodeData C)
    (fun t w => ∃ o : Option Text, o.getD [] = t ∧ SpelledOptions.dataBytes C o = .ok w) := by
  intro bs hbs
  refine Program.wp_bind.2 (Program.wp_get.2 ?_)
  by_cases hnil : bs = []
  · rw [if_pos hnil]
    exact ⟨[], rfl, none, rfl, rfl⟩
  · rw [if_neg hnil]
    exact reads_mono (hC.string.reads n) (fun t w hw => ⟨some t, rfl, hw⟩) bs hbs

theorem reads_decodeEntry (m : OptionsMap) : Reads Exit.IsErr n (OptionsMap.decodeEntry C m)
    (fun m' w => ∃ e : Text × Option Text, m'.entries = m.entries ++ [(e.1, e.2.getD [])] ∧
      SpelledOptions.entryBytes C e = .ok w) := by
  refine reads_bind (hC.string.reads n) fun name w hw => ?_
  refine reads_bind (reads_readPrefixed hC (reads_decodeData hC _)) ?_
  rintro data v ⟨inner, ⟨o, rfl, hinner⟩, hv⟩
  refine reads_orThrow (fun m' hm' => ⟨(name, o), push_ok hm', ?_⟩) (errs_push m name _)
  exact cat_ok hw (cat_ok (block_ok.2 ⟨inner, hinner, hv⟩) (cat_nil.2 rfl))

theorem entryBytes_ne_nil {e : Text × Option Text} {w : Bytes} (h : SpelledOptions.entryBytes C e = .ok w) : w ≠ [] := by
  rintro rfl
  obtain ⟨u, hu, v, -, hnil⟩ := cat_cons.1 h
  have := hC.string_length hu
  rw [(List.append_eq_nil_iff.1 hnil.symm).1, List.length_nil] at this
  omega

/-- **Options are read from a spelling of theirs.** -/
theorem reads_options : Reads Exit.IsErr n (OptionsMap.decode C)
    (fun m w => ∃ o : SpelledOptions, o.toMap = m ∧ o.bytes C = .ok w) := by
  have hloop : Reads Exit.IsErr (n - 4) (whileUnread .running (OptionsMap.decodeEntry C) OptionsMap.new)
      (fun m w => ∃ es : List (Text × Option Text), m.entries = es.map (fun e => (e.1, e.2.getD [])) ∧
        cat (es.map (SpelledOptions.entryBytes C)) = .ok w) := by
    refine reads_while ?_ ⟨[], rfl, rfl⟩
    rintro m w ⟨es, hes, hw⟩
    refine reads_mono (reads_decodeEntry hC (n - 4) m) ?_
    rintro m' v ⟨e, he, hv⟩
    refine ⟨⟨es ++ [e], ?_, ?_⟩, entryBytes_ne_nil hC hv⟩
    · rw [he, hes, List.map_append]
      rfl
    · rw [List.map_append]
      exact cat_append hw (cat_cons.2 ⟨v, hv, [], cat_nil.2 rfl, (List.append_nil v).symm⟩)
  refine reads_mono (reads_readPrefixed hC hloop) ?_
  rintro ⟨entries, hsorted⟩ w ⟨inner, ⟨es, rfl, hes⟩, hw⟩
  have hes' : (es.map Prod.fst).IsChain (· < ·) := by
    have := hsorted
    rwa [List.map_map] at this
  exact ⟨⟨es, hes'⟩, rfl, block_ok.2 ⟨inner, hes, hw⟩⟩

/-! ## Signatures -/

theorem reads_ecdsaComponent (curve : EcdsaCurve) :
    Reads Exit.IsErr n (ecdsaComponent C curve) (fun _ _ => True) := by
  refine reads_bind (hC.mpint.reads n) fun component _ _ => ?_
  cases C.asPositiveBytes component with
  | none => exact reads_throw trivial
  | some x =>
    dsimp only
    by_cases hx : x.length > curve.fieldSize
    · rw [if_pos hx]
      exact reads_throw trivial
    · rw [if_neg hx]
      exact reads_pure trivial

theorem errs_ecdsaSigSize (data : Bytes) (curve : EcdsaCurve) (skTrailer : Bool) :
    Errs (ecdsaSigSize C data curve skTrailer) := by
  have hreads : Reads Exit.IsErr data.length (do
      ecdsaComponent C curve
      ecdsaComponent C curve
      if skTrailer then
        let _ ← take lengthError skSignatureTrailerSize) (fun _ _ => True) := by
    refine reads_bind (reads_ecdsaComponent hC _ curve) fun _ _ _ =>
      reads_bind (reads_ecdsaComponent hC _ curve) fun _ _ _ => ?_
    cases skTrailer with
    | false => exact reads_pure trivial
    | true => exact reads_bind (reads_take trivial) fun _ _ _ => reads_pure trivial
  exact fun e he => finish_error hreads he

theorem errs_signatureNew (a : Algorithm) (data : Bytes) : Errs (Signature.new C a data) := by
  refine errs_bind ?_ fun _ => errs_ok
  cases a with
  | dsa => exact errs_ite errs_ok (errs_error trivial)
  | ecdsa curve => exact errs_ecdsaSigSize hC data curve false
  | ed25519 => exact errs_ite errs_ok (errs_error trivial)
  | rsa hash => exact errs_ok
  | skEcdsaSha2NistP256 => exact errs_ecdsaSigSize hC data .nistP256 true
  | skEd25519 => exact errs_ite errs_ok (errs_error trivial)
  | other name => exact errs_ite errs_ok (errs_error trivial)

omit hC in
theorem signatureNew_ok {a : Algorithm} {data : Bytes} {s : Signature} (h : Signature.new C a data = .ok s) :
    s = ⟨a, data⟩ ∧ s.isPlaceholder = false := by
  unfold Signature.new at h
  obtain ⟨_, hv, h⟩ := Program.bind_ok.1 h
  cases h
  refine ⟨rfl, ?_⟩
  cases a with
  | ed25519 =>
    cases data with
    | nil => cases hv
    | cons b data => rfl
  | _ => rfl

/-- **A signature is read from its encoding.** -/
theorem reads_signature : Reads Exit.IsErr n (Signature.decode C) (fun s w => s.encode C = .ok w) := by
  refine reads_bind (reads_decodeLabel hC errs_fromStr) ?_
  rintro a w ⟨id, hid, hw⟩
  rw [← (asStr_of_fromStr hid).1] at hw
  refine reads_bind (hC.bytes.reads n) fun data v hv => ?_
  by_cases hsk : a.isSk = true
  · rw [if_pos hsk]
    refine reads_bind (hC.u8.reads n) fun flags u hu => reads_bind (hC.u32.reads n) fun counter t ht =>
      reads_orThrow (fun s hs => ?_) (errs_signatureNew hC a _)
    obtain ⟨rfl, hplace⟩ := signatureNew_ok hs
    rw [hC.u8_eq] at hu
    rw [hC.u32_eq] at ht
    cases hu
    cases ht
    have hlen : (data ++ [flags] ++ beBytes 4 counter.toNat).length = data.length + skSignatureTrailerSize := by
      simp [skSignatureTrailerSize]
    have htrail : ¬ (data ++ [flags] ++ beBytes 4 counter.toNat).length < skSignatureTrailerSize := by
      omega
    rw [Signature.encode, hplace, if_neg Bool.false_ne_true, if_pos hsk, if_neg htrail, hlen, Nat.add_sub_cancel,
      List.append_assoc, List.take_left, List.drop_left]
    exact cat_cons.2 ⟨w, hw, _, cat_cons.2 ⟨_, cat_ok hv (cat_ok rfl (cat_nil.2 rfl)), [], cat_nil.2 rfl, rfl⟩, by simp⟩
  · rw [if_neg hsk]
    refine reads_orThrow (fun s hs => ?_) (errs_signatureNew hC a _)
    obtain ⟨rfl, hplace⟩ := signatureNew_ok hs
    rw [Signature.encode, hplace, if_neg Bool.false_ne_true, if_neg hsk]
    exact cat_ok hw (cat_ok hv (cat_nil.2 rfl))

/-! ## Certificates -/

omit hC in
theorem fromU32_ok {k : UInt32} {t : CertType} (h : CertType.fromU32 k = .ok t) : t.toU32 = k := by
  unfold CertType.fromU32 at h
  split at h
  · rename_i hk; cases h; exact hk.symm
  · split at h
    · rename_i hk; cases h; exact hk.symm
    · cases h

theorem reads_certType : Reads Exit.IsErr n (CertType.decode C) (fun t w => t.encode C = .ok w) := by
  refine reads_bind (hC.u32.reads n) fun k w hw => reads_orThrow (fun t ht => ?_) ?_
  · rw [CertType.encode, fromU32_ok ht, List.append_nil]
    exact hw
  · exact errs_ite errs_ok (errs_ite errs_ok (errs_error trivial))

/-- **The rest of a certificate is read from a spelling of it**, if its signature key is. -/
theorem reads_certificateAs {key : EStateM Exit Bytes KeyData} (a : Algorithm)
    (hkey : Reads Exit.IsErr n key (fun k w => ∃ sp, Spells C sp k w)) :
    Reads Exit.IsErr n (Certificate.decodeAs C key a) (fun c w => ∃ (b : Body) (sp : Spelling), sp.Valid ∧
      b.publicKey.algorithm = a.ofKey ∧ b.publicKey.isCertificate = false ∧ b.cert sp.value = c ∧
      cat (b.pieces C (sp.bytes C)) = .ok w) := by
  refine reads_bind (hC.bytes.reads n) fun nonce _ h₁ => reads_bind (reads_decodeAs hC n a) fun publicKey _ h₂ =>
    reads_bind (hC.u64.reads n) fun serial _ h₃ => reads_bind (reads_certType hC n) fun certType _ h₄ =>
    reads_bind (hC.string.reads n) fun keyId _ h₅ => reads_bind (hC.strings.reads n) fun principals _ h₆ =>
    reads_bind (hC.u64.reads n) fun validAfter _ h₇ => reads_bind (hC.u64.reads n) fun validBefore _ h₈ =>
    reads_bind (reads_options hC n) ?_
  rintro _ _ ⟨critical, rfl, h₉⟩
  refine reads_bind (reads_options hC n) ?_
  rintro _ _ ⟨extensions, rfl, h₁₀⟩
  refine reads_bind (hC.bytes.reads n) fun reserved _ h₁₁ =>
    reads_bind (reads_readPrefixed hC (reads_le hkey (Nat.sub_le ..))) ?_
  rintro _ _ ⟨inner, ⟨sp, hsp, rfl, hinner⟩, h₁₂⟩
  refine reads_bind (reads_readPrefixed hC (reads_signature hC _)) ?_
  rintro signature _ ⟨sig, hsig, h₁₃⟩
  refine reads_pure ⟨⟨nonce, publicKey, serial, certType, keyId, principals, validAfter, validBefore, critical,
    extensions, reserved, signature⟩, sp, hsp, h₂.2.1, h₂.2.2, rfl, ?_⟩
  exact cat_ok h₁ (cat_ok h₂.1 (cat_ok h₃ (cat_ok h₄ (cat_ok h₅ (cat_ok h₆ (cat_ok h₇ (cat_ok h₈ (cat_ok h₉ (cat_ok h₁₀
    (cat_ok h₁₁ (cat_ok (block_ok.2 ⟨inner, hinner, h₁₂⟩) (cat_ok (block_ok.2 ⟨sig, hsig, h₁₃⟩)
      (cat_nil.2 rfl)))))))))))))

/-- **A key is read from a spelling of it**, and enough nestings were followed. -/
theorem reads_decodeNested : ∀ (d n : Nat), n < d →
    Reads Exit.IsErr n (KeyData.decodeNested C d) (fun k w => ∃ sp, Spells C sp k w)
  | 0, _, h => absurd h (Nat.not_lt_zero _)
  | d + 1, n, h => by
    refine reads_bind_le (reads_decodeLabel hC errs_fromStr) ?_
    rintro a w ⟨id, hid, hw⟩ hle
    have hlen := hC.string_length hw
    have hplain : Reads Exit.IsErr (n - w.length) (KeyData.decodeAs C a) (fun k v => ∃ sp, Spells C sp k (w ++ v)) := by
      refine reads_mono (reads_decodeAs hC _ a) ?_
      rintro k v ⟨hk, halg, hcert⟩
      exact ⟨.plain id k, ⟨⟨a, hid, halg⟩, hcert⟩, rfl,
        cat_ok hw (cat_cons.2 ⟨v, hk, [], cat_nil.2 rfl, (List.append_nil v).symm⟩)⟩
    cases a with
    | other name =>
      have hname : name.asStr = id := (asStr_of_fromStr hid).1
      cases hc : Algorithm.newCertificate name.asStr with
      | error e =>
        simp only [hc]
        exact hplain
      | ok ca =>
        simp only [hc]
        have hkey := reads_decodeNested d (n - w.length) (by omega)
        refine reads_map (reads_certificateAs hC _ ca hkey) ?_
        rintro c v ⟨b, sp, hsp, halg, hcert, rfl, hv⟩
        rw [hname] at hc
        exact ⟨.certificate id b sp, ⟨⟨ca, hc, halg⟩, hcert, hsp⟩, rfl, cat_ok hw hv⟩
    | _ => exact hplain

theorem reads_keyData : Reads Exit.IsErr n (KeyData.decode C) (fun k w => ∃ sp, Spells C sp k w) := by
  intro bs _
  refine Program.wp_bind.2 (Program.wp_get.2 ?_)
  exact reads_decodeNested hC (bs.length + 1) bs.length (Nat.lt_succ_self _) bs (Nat.le_refl _)

/-- **A certificate is read from a spelling of it.** -/
theorem reads_certificate : Reads Exit.IsErr n (Certificate.decode C)
    (fun c w => ∃ type b sp, Spells C (.certificate type b sp) (.certificate c) w) := by
  intro bs _
  refine Program.wp_bind.2 (Program.wp_get.2 ?_)
  refine reads_bind (n := bs.length) (hC.string.reads _) (fun id w hw => ?_) bs (Nat.le_refl _)
  refine reads_bind (D := fun a u => Algorithm.newCertificate id = .ok a ∧ u = [])
    (reads_orThrow (fun a ha => ⟨ha, rfl⟩) (errs_newCertificate id)) ?_
  rintro a _ ⟨ha, rfl⟩
  have hkey := reads_decodeNested hC (bs.length + 1) bs.length (Nat.lt_succ_self _)
  refine reads_mono (reads_certificateAs hC _ a hkey) ?_
  rintro c v ⟨b, sp, hsp, halg, hcert, rfl, hv⟩
  exact ⟨id, b, sp, ⟨⟨a, ha, halg⟩, hcert, hsp⟩, rfl, cat_ok hw hv⟩

end

end Ssh
end Wolf
