import WolfsslRs.Bytes
import WolfsslRs.Program
import Mathlib.Data.List.TakeWhile
/-!
# SshAlgorithm — algorithm identifiers and certificate types (`algorithm.rs`, `algorithm/name.rs`)

An identifier is read in two tables, the key algorithms and the certificate types, and whatever is in neither is an
`AlgorithmName` of the form `name@domain`.  Reading an identifier and writing it again gives the identifier back
(`asStr_of_fromStr`); for certificate types there is one exception, a type with nothing in front of `-cert-v01`, which
`fromCertificateType` accepts and `certificateType` then panics on (`toCertificateType_of_newCertificate`).
-/
namespace Wolf
namespace Ssh

/-- A Rust string, as its Unicode scalar values. -/
abbrev Text := List Char

/-- The bytes of a string. -/
def Text.utf8 (t : Text) : Bytes := t.flatMap String.utf8EncodeChar

def Text.len (t : Text) : Nat := t.utf8.length

def Text.isAscii (t : Text) : Bool := t.all (fun c => c.val < 128)

def splitOnce (c : Char) (t : Text) : Option (Text × Text) :=
  match t.dropWhile (· != c) with
  | [] => none
  | _ :: after => some (t.takeWhile (· != c), after)

def stripSuffix (suffix t : Text) : Option Text :=
  if suffix <:+ t then some (t.take (t.length - suffix.length)) else none

/-! ## Names and identifiers -/

structure AlgorithmName where
  id : Text
  deriving DecidableEq

inductive EcdsaCurve where
  | nistP256
  | nistP384
  | nistP521
  deriving DecidableEq

inductive HashAlg where
  | sha256
  | sha512
  deriving DecidableEq

inductive Algorithm where
  | dsa
  | ecdsa (curve : EcdsaCurve)
  | ed25519
  | rsa (hash : Option HashAlg)
  | skEcdsaSha2NistP256
  | skEd25519
  | other (name : AlgorithmName)
  deriving DecidableEq

/-- `encoding::Error`, the errors this crate raises itself. -/
inductive EncodingError where
  | base64
  | characterEncoding
  | label (id : Text)
  | length
  | mpintEncoding
  | trailingData (remaining : Nat)
  deriving DecidableEq

/-- `certificate::Field`, the fields a certificate builder reports. -/
inductive Field where
  | publicKey
  | nonce
  | serial
  | type
  | keyId
  | validPrincipals
  | validAfter
  | validBefore
  | criticalOptions
  | extensions
  | signatureKey
  | signature
  | comment
  deriving DecidableEq

/-- `ssh_key::Error`, the variants of parsing, encoding, building, encryption, signing and verification. -/
inductive Error where
  | algorithmUnknown
  | algorithmUnsupported (algorithm : Algorithm)
  | certificateFieldInvalid (field : Field)
  | certificateValidation
  | crypto
  | decrypted
  | wolfCrypt (func : String) (code : Int)
  | ecdsa
  | encoding (e : EncodingError)
  | encrypted
  | formatEncoding
  | hashSize
  /-- `Error::Namespace` -/
  | nameSpace
  | publicKey
  | trailingData (remaining : Nat)
  | version (number : UInt32)
  deriving DecidableEq

/-- How a call ends without a value: an error, an error of the `signature` crate with its source, or a panic.
`running` is for a loop or a nesting that was not followed to its end. -/
inductive Exit where
  | error (e : Error)
  | signature (source : Option Error)
  | panic (message : String)
  | running
  deriving DecidableEq

/-- An `Err` rather than a panic. -/
def Exit.IsErr : Exit → Prop
  | .error _ => True
  | .signature _ => True
  | .panic _ => False
  | .running => False

def LabelError (id : Text) : Exit := .error (.encoding (.label id))

def certStrSuffix : Text := "-cert-v01".toList
def maxAlgorithmNameLen : Nat := 64
def maxCertStrLen : Nat := maxAlgorithmNameLen + certStrSuffix.len

def validateAlgorithmId (id : Text) (n : Nat) : Except Exit Unit :=
  if id.len > n || !id.isAscii then .error (LabelError id) else .ok ()

def splitAlgorithmId (id : Text) : Except Exit (Text × Text) :=
  match splitOnce '@' id with
  | none => .error (LabelError id)
  | some (name, domain) =>
    if name.isEmpty || domain.isEmpty || domain.contains '@' then .error (LabelError id) else .ok (name, domain)

def AlgorithmName.new (id : Text) : Except Exit AlgorithmName := do
  validateAlgorithmId id maxAlgorithmNameLen
  let _ ← splitAlgorithmId id
  .ok ⟨id⟩

def AlgorithmName.asStr (n : AlgorithmName) : Text := n.id

def AlgorithmName.certificateType (n : AlgorithmName) : Except Exit Text :=
  match splitAlgorithmId n.id with
  | .ok (name, domain) => .ok (name ++ certStrSuffix ++ '@' :: domain)
  | .error _ => .error (.panic "format checked in constructor")

def AlgorithmName.fromCertificateType (id : Text) : Except Exit AlgorithmName := do
  validateAlgorithmId id maxCertStrLen
  let (name, domain) ← splitAlgorithmId id
  match stripSuffix certStrSuffix name with
  | none => .error (LabelError id)
  | some name => .ok ⟨name ++ '@' :: domain⟩

def certDsa : Text := "ssh-dss-cert-v01@openssh.com".toList
def certEcdsaSha2P256 : Text := "ecdsa-sha2-nistp256-cert-v01@openssh.com".toList
def certEcdsaSha2P384 : Text := "ecdsa-sha2-nistp384-cert-v01@openssh.com".toList
def certEcdsaSha2P521 : Text := "ecdsa-sha2-nistp521-cert-v01@openssh.com".toList
def certEd25519 : Text := "ssh-ed25519-cert-v01@openssh.com".toList
def certRsa : Text := "ssh-rsa-cert-v01@openssh.com".toList
def certRsaSha2256 : Text := "rsa-sha2-256-cert-v01@openssh.com".toList
def certRsaSha2512 : Text := "rsa-sha2-512-cert-v01@openssh.com".toList
def certSkEcdsaSha2P256 : Text := "sk-ecdsa-sha2-nistp256-cert-v01@openssh.com".toList
def certSkSshEd25519 : Text := "sk-ssh-ed25519-cert-v01@openssh.com".toList
def ecdsaSha2P256 : Text := "ecdsa-sha2-nistp256".toList
def ecdsaSha2P384 : Text := "ecdsa-sha2-nistp384".toList
def ecdsaSha2P521 : Text := "ecdsa-sha2-nistp521".toList
def rsaSha2256 : Text := "rsa-sha2-256".toList
def rsaSha2512 : Text := "rsa-sha2-512".toList
def sshDsa : Text := "ssh-dss".toList
def sshEd25519 : Text := "ssh-ed25519".toList
def sshRsa : Text := "ssh-rsa".toList
def skEcdsaSha2P256 : Text := "sk-ecdsa-sha2-nistp256@openssh.com".toList
def skSshEd25519 : Text := "sk-ssh-ed25519@openssh.com".toList

/-- The arms of `Algorithm::from_str`, in order. -/
def plainNames : List (Text × Algorithm) :=
  [(sshDsa, .dsa), (ecdsaSha2P256, .ecdsa .nistP256), (ecdsaSha2P384, .ecdsa .nistP384),
    (ecdsaSha2P521, .ecdsa .nistP521), (rsaSha2256, .rsa (some .sha256)), (rsaSha2512, .rsa (some .sha512)),
    (sshEd25519, .ed25519), (sshRsa, .rsa none), (skEcdsaSha2P256, .skEcdsaSha2NistP256), (skSshEd25519, .skEd25519)]

/-- The arms of `Algorithm::new_certificate`, in order. -/
def certNames : List (Text × Algorithm) :=
  [(certDsa, .dsa), (certEcdsaSha2P256, .ecdsa .nistP256), (certEcdsaSha2P384, .ecdsa .nistP384),
    (certEcdsaSha2P521, .ecdsa .nistP521), (certEd25519, .ed25519), (certRsa, .rsa none),
    (certRsaSha2256, .rsa (some .sha256)), (certRsaSha2512, .rsa (some .sha512)),
    (certSkEcdsaSha2P256, .skEcdsaSha2NistP256), (certSkSshEd25519, .skEd25519)]

def Algorithm.fromStr (id : Text) : Except Exit Algorithm :=
  match plainNames.lookup id with
  | some a => .ok a
  | none => do .ok (.other (← AlgorithmName.new id))

def Algorithm.newCertificate (id : Text) : Except Exit Algorithm :=
  match certNames.lookup id with
  | some a => .ok a
  | none => do .ok (.other (← AlgorithmName.fromCertificateType id))

def Algorithm.asStr : Algorithm → Text
  | .dsa => sshDsa
  | .ecdsa .nistP256 => ecdsaSha2P256
  | .ecdsa .nistP384 => ecdsaSha2P384
  | .ecdsa .nistP521 => ecdsaSha2P521
  | .ed25519 => sshEd25519
  | .rsa none => sshRsa
  | .rsa (some .sha256) => rsaSha2256
  | .rsa (some .sha512) => rsaSha2512
  | .skEcdsaSha2NistP256 => skEcdsaSha2P256
  | .skEd25519 => skSshEd25519
  | .other name => name.asStr

def Algorithm.toCertificateType : Algorithm → Except Exit Text
  | .dsa => .ok certDsa
  | .ecdsa .nistP256 => .ok certEcdsaSha2P256
  | .ecdsa .nistP384 => .ok certEcdsaSha2P384
  | .ecdsa .nistP521 => .ok certEcdsaSha2P521
  | .ed25519 => .ok certEd25519
  | .rsa none => .ok certRsa
  | .rsa (some .sha256) => .ok certRsaSha2256
  | .rsa (some .sha512) => .ok certRsaSha2512
  | .skEcdsaSha2NistP256 => .ok certSkEcdsaSha2P256
  | .skEd25519 => .ok certSkSshEd25519
  | .other name => name.certificateType

def EcdsaCurve.asStr : EcdsaCurve → Text
  | .nistP256 => "nistp256".toList
  | .nistP384 => "nistp384".toList
  | .nistP521 => "nistp521".toList

def EcdsaCurve.fromStr (id : Text) : Except Exit EcdsaCurve :=
  if id = "nistp256".toList then .ok .nistP256
  else if id = "nistp384".toList then .ok .nistP384
  else if id = "nistp521".toList then .ok .nistP521
  else .error (LabelError id)

def EcdsaCurve.fieldSize : EcdsaCurve → Nat
  | .nistP256 => 32
  | .nistP384 => 48
  | .nistP521 => 66

def HashAlg.asStr : HashAlg → Text
  | .sha256 => "sha256".toList
  | .sha512 => "sha512".toList

def HashAlg.fromStr (id : Text) : Except Exit HashAlg :=
  if id = "sha256".toList then .ok .sha256
  else if id = "sha512".toList then .ok .sha512
  else .error (LabelError id)

def HashAlg.digestSize : HashAlg → Nat
  | .sha256 => 32
  | .sha512 => 64

/-- The algorithm of a key that came with this identifier: an RSA key keeps no hash. -/
def Algorithm.ofKey : Algorithm → Algorithm
  | .rsa _ => .rsa none
  | a => a

/-! ## Splitting an identifier -/

theorem splitOnce_eq_some {c : Char} {t a b : Text} : splitOnce c t = some (a, b) ↔ t = a ++ c :: b ∧ c ∉ a := by
  unfold splitOnce
  constructor
  · intro h
    cases hd : t.dropWhile (· != c) with
    | nil => simp [hd] at h
    | cons x after =>
      simp only [hd, Option.some.injEq, Prod.mk.injEq] at h
      obtain ⟨rfl, rfl⟩ := h
      have hx : x = c := by
        have := List.head_dropWhile_not (· != c) (l := t) (by simp [hd])
        simpa [hd] using this
      subst hx
      refine ⟨?_, fun hc => by simpa using List.mem_takeWhile_imp hc⟩
      rw [← hd, List.takeWhile_append_dropWhile]
  · rintro ⟨rfl, hc⟩
    have hpos : ∀ x ∈ a, (x != c) = true := by
      intro x hx
      simp only [bne_iff_ne]
      rintro rfl
      exact hc hx
    rw [List.dropWhile_append_of_pos hpos, List.takeWhile_append_of_pos hpos]
    simp

theorem splitAlgorithmId_ok {id n d : Text} : splitAlgorithmId id = .ok (n, d) ↔
    id = n ++ '@' :: d ∧ '@' ∉ n ∧ n ≠ [] ∧ d ≠ [] ∧ '@' ∉ d := by
  unfold splitAlgorithmId
  cases hs : splitOnce '@' id with
  | none =>
    refine ⟨nofun, ?_⟩
    rintro ⟨hid, hn, -⟩
    have := splitOnce_eq_some.2 ⟨hid, hn⟩
    simp [hs] at this
  | some p =>
    obtain ⟨a, b⟩ := p
    obtain ⟨hid, ha⟩ := splitOnce_eq_some.1 hs
    constructor
    · intro h
      simp only at h
      split at h
      · cases h
      · rename_i hc
        cases h
        simp only [Bool.or_eq_true, List.isEmpty_iff, List.contains_iff_mem, not_or] at hc
        exact ⟨hid, ha, hc.1.1, hc.1.2, hc.2⟩
    · rintro ⟨hid', hn, hne, hde, hd⟩
      have heq := splitOnce_eq_some.2 ⟨hid', hn⟩
      rw [hs, Option.some.injEq, Prod.mk.injEq] at heq
      obtain ⟨rfl, rfl⟩ := heq
      simp [hne, hde, hd]

theorem splitAlgorithmId_of_nil {d : Text} : ∃ e, splitAlgorithmId ('@' :: d) = .error e := by
  cases h : splitAlgorithmId ('@' :: d) with
  | error e => exact ⟨e, rfl⟩
  | ok p =>
    obtain ⟨n, d'⟩ := p
    obtain ⟨hid, hat, hne, -⟩ := splitAlgorithmId_ok.1 h
    cases n with
    | nil => exact absurd rfl hne
    | cons c n =>
      cases hid
      exact absurd (List.mem_cons_self ..) hat

/-- What a certificate type outside the table is made of; nothing asks for a character before the suffix. -/
theorem fromCertificateType_ok {id : Text} {a : AlgorithmName} (h : AlgorithmName.fromCertificateType id = .ok a) :
    ∃ n d, id = n ++ certStrSuffix ++ '@' :: d ∧ a.id = n ++ '@' :: d ∧ '@' ∉ n ∧ d ≠ [] ∧ '@' ∉ d := by
  unfold AlgorithmName.fromCertificateType at h
  obtain ⟨_, -, h⟩ := Program.bind_ok.1 h
  obtain ⟨⟨name, d⟩, hsplit, h⟩ := Program.bind_ok.1 h
  obtain ⟨hid, hat, -, hd, hdat⟩ := splitAlgorithmId_ok.1 hsplit
  unfold stripSuffix at h
  by_cases hsuf : certStrSuffix <:+ name
  · obtain ⟨n, rfl⟩ := hsuf
    simp only [List.suffix_append, if_true, List.length_append, Nat.add_sub_cancel, List.take_left,
      Except.ok.injEq] at h
    subst h
    exact ⟨n, d, hid, rfl, fun hn => hat (List.mem_append_left _ hn), hd, hdat⟩
  · simp [hsuf] at h

/-! ## Writing back what was read -/

/-- A certificate type with nothing in front of `-cert-v01`. -/
def EmptyNamed (id : Text) : Prop := certStrSuffix ++ ['@'] <+: id

instance (id : Text) : Decidable (EmptyNamed id) := inferInstanceAs (Decidable (_ <+: _))

theorem emptyNamed_iff {n d : Text} (hn : '@' ∉ n) : EmptyNamed (n ++ certStrSuffix ++ '@' :: d) ↔ n = [] := by
  constructor
  · rintro ⟨d', hd'⟩
    have hsuf : '@' ∉ certStrSuffix := by decide
    have h₁ : splitOnce '@' (n ++ certStrSuffix ++ '@' :: d) = some (n ++ certStrSuffix, d) :=
      splitOnce_eq_some.2 ⟨rfl, by simp [hn, hsuf]⟩
    have h₂ : splitOnce '@' (n ++ certStrSuffix ++ '@' :: d) = some (certStrSuffix, d') :=
      splitOnce_eq_some.2 ⟨by rw [← hd']; simp, hsuf⟩
    rw [h₁, Option.some.injEq, Prod.mk.injEq] at h₂
    simpa using h₂.1
  · rintro rfl
    exact ⟨d, by simp⟩

theorem certificateType_of_parts {n d : Text} (hn : '@' ∉ n) (hd : d ≠ []) (hdat : '@' ∉ d) :
    AlgorithmName.certificateType ⟨n ++ '@' :: d⟩
      = if n = [] then .error (.panic "format checked in constructor") else .ok (n ++ certStrSuffix ++ '@' :: d) := by
  unfold AlgorithmName.certificateType
  by_cases hne : n = []
  · subst hne
    obtain ⟨e, he⟩ := splitAlgorithmId_of_nil (d := d)
    simp only [List.nil_append, he, if_true]
  · rw [splitAlgorithmId_ok.2 ⟨rfl, hn, hne, hd, hdat⟩, if_neg hne]

/-- The certificate type that is written for a key that came with type `id`. -/
def canonicalType (id : Text) : Text :=
  if id = certRsaSha2256 ∨ id = certRsaSha2512 then certRsa else id

/-- The identifier that is written for a key that came with identifier `id`. -/
def canonicalLabel (id : Text) : Text :=
  if id = rsaSha2256 ∨ id = rsaSha2512 then sshRsa else id

theorem mem_of_lookup {α : Type} {names : List (Text × α)} {id : Text} {a : α} (h : names.lookup id = some a) :
    (id, a) ∈ names := by
  obtain ⟨l₁, l₂, hnames, -⟩ := List.lookup_eq_some_iff.1 h
  rw [hnames]
  exact List.mem_append_right _ (List.mem_cons_self ..)

theorem ne_of_lookup {α : Type} {names : List (Text × α)} {id : Text} (h : names.lookup id = none) :
    ∀ p ∈ names, id ≠ p.1 :=
  fun p hp => by simpa using List.lookup_eq_none_iff.1 h p hp

/-- **What an accepted certificate type is**: one of the table, or the name of an algorithm with the suffix in it. -/
theorem newCertificate_ok {id : Text} {a : Algorithm} (h : Algorithm.newCertificate id = .ok a) : (id, a) ∈ certNames ∨
    (∀ p ∈ certNames, id ≠ p.1) ∧ ∃ n d, id = n ++ certStrSuffix ++ '@' :: d ∧ a = .other ⟨n ++ '@' :: d⟩ ∧
      '@' ∉ n ∧ d ≠ [] ∧ '@' ∉ d := by
  unfold Algorithm.newCertificate at h
  cases hl : certNames.lookup id with
  | some b =>
    simp only [hl, Except.ok.injEq] at h
    rw [← h]
    exact .inl (mem_of_lookup hl)
  | none =>
    simp only [hl] at h
    obtain ⟨name, hname, h⟩ := Program.bind_ok.1 h
    obtain ⟨n, d, hid, hparts, hat⟩ := fromCertificateType_ok hname
    refine .inr ⟨ne_of_lookup hl, n, d, hid, ?_, hat⟩
    rw [← Except.ok.inj h, ← hparts]

/-- **A certificate type is written back** as it was read, but for the RSA hash, and except for an empty name, which
panics. -/
theorem toCertificateType_of_newCertificate {id : Text} {a : Algorithm} (h : Algorithm.newCertificate id = .ok a) :
    a.ofKey.toCertificateType
      = if EmptyNamed id then .error (.panic "format checked in constructor") else .ok (canonicalType id) := by
  have htable : ∀ p ∈ certNames, p.2.ofKey.toCertificateType
      = if EmptyNamed p.1 then .error (.panic "format checked in constructor") else .ok (canonicalType p.1) := by
    decide +kernel
  rcases newCertificate_ok h with hmem | ⟨hne, n, d, rfl, rfl, hat, hd, hdat⟩
  · exact htable _ hmem
  · have h256 := hne (certRsaSha2256, .rsa (some .sha256)) (by decide)
    have h512 := hne (certRsaSha2512, .rsa (some .sha512)) (by decide)
    have hcanon : canonicalType (n ++ certStrSuffix ++ '@' :: d) = n ++ certStrSuffix ++ '@' :: d := by
      rw [canonicalType, if_neg (not_or.2 ⟨h256, h512⟩)]
    show AlgorithmName.certificateType ⟨n ++ '@' :: d⟩ = _
    rw [certificateType_of_parts hat hd hdat, hcanon]
    simp only [emptyNamed_iff hat]

theorem Text.len_append (s t : Text) : Text.len (s ++ t) = s.len + t.len := by
  simp [Text.len, Text.utf8]

theorem Text.len_cons (c : Char) (t : Text) : Text.len (c :: t) = c.utf8Size + t.len := by
  simp [Text.len, Text.utf8]

theorem len_asStr_of_newCertificate {id : Text} {a : Algorithm} (h : Algorithm.newCertificate id = .ok a) :
    a.ofKey.asStr.len < id.len := by
  have htable : ∀ p ∈ certNames, p.2.ofKey.asStr.len < p.1.len := by decide +kernel
  have hsuffix : certStrSuffix.len = 9 := by decide
  rcases newCertificate_ok h with hmem | ⟨-, n, d, rfl, rfl, -⟩
  · exact htable _ hmem
  · show Text.len (n ++ '@' :: d) < _
    rw [Text.len_append, Text.len_append, Text.len_append, hsuffix]
    omega

/-- A non-empty name, an `@` and a non-empty domain, with no other `@`. -/
def AlgorithmName.WellFormed (a : AlgorithmName) : Prop :=
  ∃ n d, a.id = n ++ '@' :: d ∧ '@' ∉ n ∧ n ≠ [] ∧ d ≠ [] ∧ '@' ∉ d

theorem new_ok {id : Text} {a : AlgorithmName} (h : AlgorithmName.new id = .ok a) : a = ⟨id⟩ ∧ a.WellFormed := by
  obtain ⟨_, -, h⟩ := Program.bind_ok.1 h
  obtain ⟨⟨n, d⟩, hsplit, h⟩ := Program.bind_ok.1 h
  cases h
  exact ⟨rfl, n, d, splitAlgorithmId_ok.1 hsplit⟩

/-- **The name that is left of a certificate type** is well formed unless the type has an empty name. -/
theorem wellFormed_of_fromCertificateType {id : Text} {a : AlgorithmName}
    (h : AlgorithmName.fromCertificateType id = .ok a) : a.WellFormed ↔ ¬ EmptyNamed id := by
  obtain ⟨n, d, rfl, hid, hat, hd, hdat⟩ := fromCertificateType_ok h
  rw [emptyNamed_iff hat]
  constructor
  · rintro ⟨n', d', hid', hparts⟩ rfl
    obtain ⟨e, he⟩ := splitAlgorithmId_of_nil (d := d)
    have hok := splitAlgorithmId_ok.2 ⟨hid.symm.trans hid', hparts⟩
    rw [List.nil_append, he] at hok
    cases hok
  · intro hn
    exact ⟨n, d, hid, hat, hn, hd, hdat⟩

/-- An accepted identifier is one of the table, or a name of its own. -/
theorem fromStr_ok {id : Text} {a : Algorithm} (h : Algorithm.fromStr id = .ok a) : (id, a) ∈ plainNames ∨
    (∀ p ∈ plainNames, id ≠ p.1) ∧ a = .other ⟨id⟩ := by
  unfold Algorithm.fromStr at h
  cases hl : plainNames.lookup id with
  | some b =>
    simp only [hl, Except.ok.injEq] at h
    rw [← h]
    exact .inl (mem_of_lookup hl)
  | none =>
    simp only [hl] at h
    obtain ⟨name, hname, h⟩ := Program.bind_ok.1 h
    refine .inr ⟨ne_of_lookup hl, ?_⟩
    rw [← Except.ok.inj h, (new_ok hname).1]

/-- **An identifier is written back** as it was read; for a key, but for the RSA hash. -/
theorem asStr_of_fromStr {id : Text} {a : Algorithm} (h : Algorithm.fromStr id = .ok a) :
    a.asStr = id ∧ a.ofKey.asStr = canonicalLabel id := by
  have htable : ∀ p ∈ plainNames, p.2.asStr = p.1 ∧ p.2.ofKey.asStr = canonicalLabel p.1 := by decide +kernel
  rcases fromStr_ok h with hmem | ⟨hne, rfl⟩
  · exact htable _ hmem
  · have h256 := hne (rsaSha2256, .rsa (some .sha256)) (by decide)
    have h512 := hne (rsaSha2512, .rsa (some .sha512)) (by decide)
    refine ⟨rfl, ?_⟩
    rw [canonicalLabel, if_neg (not_or.2 ⟨h256, h512⟩)]
    rfl

theorem EcdsaCurve.asStr_of_fromStr {id : Text} {c : EcdsaCurve} (h : EcdsaCurve.fromStr id = .ok c) :
    c.asStr = id := by
  unfold EcdsaCurve.fromStr at h
  split at h
  · rename_i hid; cases h; exact hid.symm
  · split at h
    · rename_i hid; cases h; exact hid.symm
    · split at h
      · rename_i hid; cases h; exact hid.symm
      · cases h

end Ssh
end Wolf
