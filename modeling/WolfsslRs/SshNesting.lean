import WolfsslRs.SshBuilder
/-!
# SshNesting — certificates signed by certificates

`Certificate::decode_as` reads the signature key with `KeyData::decode`, which reads certificates as well as keys, and
so on.  The recursion goes exactly as deep as the certificates nest (`decodeNested_iff`), and they nest as soon as the
block of a signature key begins with the name of a certificate type (`signature_key_plain_iff`); only the length of the
input puts an end to it (`certificates_chain`).
-/
namespace Wolf
namespace Ssh

open Reader Program

/-! ## How deep -/

mutual

/-- The certificates between a key and the key at the end of its signature keys. -/
def KeyData.nesting : KeyData → Nat
  | .certificate cert => cert.nesting + 1
  | _ => 0

def Certificate.nesting : Certificate → Nat
  | ⟨_, _, _, _, _, _, _, _, _, _, _, signatureKey, _, _⟩ => signatureKey.nesting

end

theorem Certificate.nesting_eq (cert : Certificate) : cert.nesting = cert.signatureKey.nesting := by
  cases cert
  rfl

theorem nesting_eq_zero {key : KeyData} : key.nesting = 0 ↔ key.isCertificate = false := by
  cases key with
  | certificate cert => simp [KeyData.nesting, KeyData.isCertificate]
  | _ => simp [KeyData.nesting, KeyData.isCertificate]

section
variable {C : Crates}

theorem plain_of_readable {key : KeyData} (h : key.Readable C) : key.isCertificate = false := by
  cases key with
  | certificate cert => exact h.elim
  | _ => rfl

/-- No more certificates than calls of the decoder. -/
theorem gives_nesting : ∀ depth : Nat, Gives (KeyData.decodeNested C depth) (fun key => key.nesting < depth)
  | 0 => gives_throw
  | depth + 1 => by
    have hplain : ∀ a, Gives (KeyData.decodeAs C a) (fun key => key.nesting < depth + 1) := by
      intro a bs
      apply Program.wp_mono _ (fun _ _ h => h) (gives_decodeAs a bs)
      rintro key - ⟨hread, -⟩
      rw [nesting_eq_zero.2 (plain_of_readable hread)]
      exact Nat.succ_pos depth
    rw [KeyData.decodeNested]
    apply gives_then
    intro algorithm
    cases algorithm with
    | other name =>
      dsimp only
      split
      · rename_i a ha
        apply gives_map (gives_certificateAs (gives_nesting depth) gives_true a)
        rintro cert ⟨-, hnesting, -⟩
        show cert.nesting + 1 < depth + 1
        rw [cert.nesting_eq]
        exact Nat.succ_lt_succ hnesting
      · exact hplain _
    | _ => exact hplain _

/-- Two readers of the signature key that agree on its answers agree on the certificate's. -/
theorem beside_certificateAs {f g : EStateM Exit Bytes KeyData} {Q : KeyData → Prop}
    (hfg : ∀ inner key, f.run inner = .ok key [] → Q key → g.run inner = .ok key []) (a : Algorithm) :
    Beside (Certificate.decodeAs C f a) (Certificate.decodeAs C g a)
      (fun cert rest r => Q cert.signatureKey → r = .ok cert rest) := by
  refine beside_bind fun nonce => beside_bind fun publicKey => beside_bind fun serial => beside_bind fun certType =>
    beside_bind fun keyId => beside_bind fun principals => beside_bind fun validAfter => beside_bind fun validBefore =>
    beside_bind fun criticalOptions => beside_bind fun extensions => beside_bind fun reserved => ?_
  intro bs cert rest hrun hQ
  obtain ⟨key, mid, hkey, hrun⟩ := run_bind_ok.1 hrun
  obtain ⟨signature, left, hsignature, hrun⟩ := run_bind_ok.1 hrun
  cases hrun
  obtain ⟨inner, hinner, hf⟩ := run_prefixed_ok.1 hkey
  have hg := run_prefixed_ok.2 ⟨inner, hinner, hfg inner key hf hQ⟩
  exact run_bind_ok.2 ⟨key, mid, hg, run_bind_ok.2 ⟨signature, rest, hsignature, rfl⟩⟩

/-- As many calls as certificates, and one, are enough. -/
theorem decodeNested_enough : ∀ (depth enough : Nat) (bs rest : Bytes) (key : KeyData),
    (KeyData.decodeNested C depth).run bs = .ok key rest → key.nesting < enough →
      (KeyData.decodeNested C enough).run bs = .ok key rest
  | 0, _, _, _, _, h, _ => nomatch h
  | _ + 1, 0, _, _, _, _, hlt => absurd hlt (Nat.not_lt_zero _)
  | depth + 1, enough + 1, bs, rest, key, h, hlt => by
    rw [KeyData.decodeNested] at h ⊢
    obtain ⟨algorithm, mid, halg, h⟩ := run_bind_ok.1 h
    refine run_bind_ok.2 ⟨algorithm, mid, halg, ?_⟩
    cases algorithm with
    | other name =>
      dsimp only at h ⊢
      split at h
      · rename_i a ha
        obtain ⟨cert, hcert, rfl⟩ := run_map_ok.1 h
        have hle : cert.signatureKey.nesting < enough := by
          rw [← cert.nesting_eq]
          exact Nat.lt_of_succ_lt_succ hlt
        have hother := beside_certificateAs (C := C)
          (fun inner key h hle => decodeNested_enough depth enough inner [] key h hle) a mid cert rest hcert hle
        exact run_map_ok.2 ⟨cert, hother, rfl⟩
      · exact h
    | _ => exact h

/-- **The recursion goes as deep as the certificates nest**, and no deeper. -/
theorem decodeNested_iff {bs rest : Bytes} {key : KeyData} (h : (KeyData.decode C).run bs = .ok key rest)
    (depth : Nat) : (KeyData.decodeNested C depth).run bs = .ok key rest ↔ key.nesting < depth := by
  rw [run_decode_key] at h
  constructor
  · exact gives_ok (gives_nesting depth)
  · exact decodeNested_enough (bs.length + 1) depth bs rest key h

end

/-! ## What the block of a signature key begins with -/

/-- The name at the front of the signature key of a certificate, read behind the certificate's type. -/
def Certificate.signatureKeyName (C : Crates) (algorithm : Algorithm) : EStateM Exit Bytes Text := do
  let _ ← C.bytes.decode
  let _ ← KeyData.decodeAs C algorithm
  let _ ← C.u64.decode
  let _ ← CertType.decode C
  let _ ← C.string.decode
  let _ ← C.strings.decode
  let _ ← C.u64.decode
  let _ ← C.u64.decode
  let _ ← OptionsMap.decode C
  let _ ← OptionsMap.decode C
  let _ ← C.bytes.decode
  C.readPrefixed do
    let id ← C.label
    let _ ← rest
    pure id

/-- **The bytes have a certificate type in front of the signature key** of the certificate they begin; `first` reads
their own. -/
def Chained (C : Crates) (first : EStateM Exit Bytes Text) (b : Bytes) : Prop :=
  ∃ type left a id left' a', first.run b = .ok type left ∧ Algorithm.newCertificate type = .ok a ∧
    (Certificate.signatureKeyName C a).run left = .ok id left' ∧ Algorithm.newCertificate id = .ok a'

section
variable {C : Crates}

/-- An algorithm of the table is not the name of a certificate type. -/
theorem newCertificate_of_plain {id : Text} {a : Algorithm} (h : Algorithm.fromStr id = .ok a)
    (hplain : ∀ name, a ≠ .other name) (a' : Algorithm) : Algorithm.newCertificate id ≠ .ok a' := by
  have htable : ∀ p ∈ plainNames, (Algorithm.newCertificate p.1).isOk = false := by decide +kernel
  rcases fromStr_ok h with hmem | ⟨-, rfl⟩
  · intro hok
    have hno := htable _ hmem
    rw [hok] at hno
    cases hno
  · exact absurd rfl (hplain _)

/-- **What the decoder of keys does**: behind the name of a certificate type it reads a certificate, behind any other name
a key. -/
theorem decodeNested_ok {depth : Nat} {bs rest : Bytes} {key : KeyData}
    (h : (KeyData.decodeNested C (depth + 1)).run bs = .ok key rest) :
    ∃ id mid, C.label.run bs = .ok id mid ∧
      ((∃ a cert name, Algorithm.newCertificate id = .ok a ∧ key = .certificate cert ∧
          Algorithm.fromStr id = .ok (.other name) ∧
          (Certificate.decodeAs C (KeyData.decodeNested C depth) a).run mid = .ok cert rest) ∨
        (∀ a, Algorithm.newCertificate id ≠ .ok a) ∧ key.isCertificate = false ∧
          ∃ a, Algorithm.fromStr id = .ok a ∧ key.algorithm = a.ofKey) := by
  rw [KeyData.decodeNested] at h
  obtain ⟨algorithm, mid, halg, h⟩ := run_bind_ok.1 h
  obtain ⟨id, mid', hid, halg⟩ := run_bind_ok.1 halg
  obtain ⟨hname, rfl⟩ := run_orThrow_ok.1 halg
  have hkey : (KeyData.decodeAs C algorithm).run mid = .ok key rest →
      key.isCertificate = false ∧ ∃ a, Algorithm.fromStr id = .ok a ∧ key.algorithm = a.ofKey := by
    intro hrun
    obtain ⟨hread, halg⟩ := gives_ok (gives_decodeAs algorithm) hrun
    exact ⟨plain_of_readable hread, algorithm, hname, halg⟩
  refine ⟨id, mid, hid, ?_⟩
  cases algorithm with
  | other name =>
    have hstr : name.asStr = id := (asStr_of_fromStr hname).1
    dsimp only at h
    rw [hstr] at h
    split at h
    · rename_i a ha
      obtain ⟨cert, hcert, rfl⟩ := run_map_ok.1 h
      exact .inl ⟨a, cert, name, ha, rfl, hname, hcert⟩
    · rename_i e he
      refine .inr ⟨fun a ha => ?_, hkey h⟩
      rw [he] at ha
      cases ha
  | _ =>
    refine .inr ⟨newCertificate_of_plain hname ?_, hkey h⟩
    intro _ hother
    cases hother

/-- **A key is decoded as a certificate exactly if its name is that of a certificate type.** -/
theorem isCertificate_iff {depth : Nat} {bs rest : Bytes} {key : KeyData}
    (h : (KeyData.decodeNested C depth).run bs = .ok key rest) :
    ∃ id mid, C.label.run bs = .ok id mid ∧ (key.isCertificate = true ↔ ∃ a, Algorithm.newCertificate id = .ok a) := by
  cases depth with
  | zero => cases h
  | succ depth =>
    obtain ⟨id, mid, hid, hcase⟩ := decodeNested_ok h
    refine ⟨id, mid, hid, ?_⟩
    rcases hcase with ⟨a, cert, name, ha, rfl, -⟩ | ⟨hno, hplain, -⟩
    · exact ⟨fun _ => ⟨a, ha⟩, fun _ => rfl⟩
    · rw [hplain]
      exact ⟨nofun, fun ⟨a, ha⟩ => absurd ha (hno a)⟩

/-- What is read of a certificate and the name in front of its signature key, side by side. -/
theorem beside_signatureKeyName (depth : Nat) (a : Algorithm) :
    Beside (Certificate.decodeAs C (KeyData.decodeNested C depth) a) (Certificate.signatureKeyName C a)
      (fun cert _ r => ∃ id left, r = .ok id left ∧
        (cert.signatureKey.isCertificate = true ↔ ∃ a', Algorithm.newCertificate id = .ok a')) := by
  refine beside_bind fun nonce => beside_bind fun publicKey => beside_bind fun serial => beside_bind fun certType =>
    beside_bind fun keyId => beside_bind fun principals => beside_bind fun validAfter => beside_bind fun validBefore =>
    beside_bind fun criticalOptions => beside_bind fun extensions => beside_bind fun reserved => ?_
  intro bs cert rest hrun
  obtain ⟨key, mid, hkey, hrun⟩ := run_bind_ok.1 hrun
  obtain ⟨signature, left, -, hrun⟩ := run_bind_ok.1 hrun
  cases hrun
  obtain ⟨inner, hinner, hkey⟩ := run_prefixed_ok.1 hkey
  obtain ⟨id, behind, hid, hiff⟩ := isCertificate_iff hkey
  refine ⟨id, mid, run_prefixed_ok.2 ⟨inner, hinner, ?_⟩, hiff⟩
  exact run_bind_ok.2 ⟨id, behind, hid, rfl⟩

/-- **A certificate has a certificate as its signature key exactly if the bytes say so.** -/
theorem chained_iff {first : EStateM Exit Bytes Text} {b left rest : Bytes} {type : Text} {a : Algorithm} {depth : Nat}
    {cert : Certificate} (hfirst : first.run b = .ok type left) (ha : Algorithm.newCertificate type = .ok a)
    (hcert : (Certificate.decodeAs C (KeyData.decodeNested C depth) a).run left = .ok cert rest) :
    Chained C first b ↔ cert.signatureKey.isCertificate = true := by
  obtain ⟨id, left', hid, hiff⟩ := beside_signatureKeyName depth a left cert rest hcert
  rw [hiff]
  constructor
  · rintro ⟨type', left₁, a₁, id₁, left₂, a₂, hfirst', ha₁, hid', ha₂⟩
    rw [hfirst] at hfirst'
    cases hfirst'
    rw [ha] at ha₁
    cases ha₁
    rw [hid] at hid'
    cases hid'
    exact ⟨a₂, ha₂⟩
  · rintro ⟨a', ha'⟩
    exact ⟨type, left, a, id, left', a', hfirst, ha, hid, ha'⟩

end

/-! ## A chain of any length -/

namespace Toy

def link (signatureKey : KeyData) : Certificate where
  nonce := []
  publicKey := subject
  serial := 0
  certType := .user
  keyId := []
  validPrincipals := []
  validAfter := 0
  validBefore := 1
  criticalOptions := OptionsMap.new
  extensions := OptionsMap.new
  reserved := []
  signatureKey := signatureKey
  signature := ⟨.ed25519, List.replicate 64 0⟩
  comment := []

/-- Certificates, each the signature key of the next. -/
def chain : Nat → KeyData
  | 0 => subject
  | n + 1 => .certificate (link (chain n))

theorem nesting_chain : ∀ n, (chain n).nesting = n
  | 0 => rfl
  | n + 1 => by
    show (link (chain n)).nesting + 1 = n + 1
    rw [Certificate.nesting_eq]
    exact congrArg (· + 1) (nesting_chain n)

theorem subject_legible : subject.Legible Rfc4251.wireCrates := ⟨trivial, nofun⟩

theorem link_legible (key : KeyData) : (link key).signature.Legible Rfc4251.wireCrates := by
  have hlen : sshEd25519.len ≤ 48 := by decide
  exact ⟨rfl, rfl, hlen⟩

theorem encode_link {key : KeyData} {w : Bytes} (hw : key.encode Rfc4251.wireCrates = .ok w) (hlt : w.length < 2 ^ 32) :
    ∃ v, (link key).encode Rfc4251.wireCrates = .ok v ∧ v.length = 215 + w.length := by
  obtain ⟨type, hu, hulen⟩ : ∃ u, Rfc4251.wireCrates.string.encode certEd25519 = .ok u ∧ u.length = 36 :=
    ⟨_, rfl, by decide⟩
  obtain ⟨front, hfront, hflen⟩ : ∃ front, cat (((link subject).pieces Rfc4251.wireCrates).take 11) = .ok front ∧
      front.length = 88 := ⟨_, rfl, by decide⟩
  obtain ⟨sig, hsig, hslen⟩ : ∃ sig, Rfc4251.wireCrates.encodePrefixed
      ((link subject).signature.encodedLen Rfc4251.wireCrates) ((link subject).signature.encode Rfc4251.wireCrates)
        = .ok sig ∧ sig.length = 87 := ⟨_, rfl, by decide⟩
  have hmax : w.length ≤ Rfc4251.wireCrates.usizeMax := Nat.le_trans (Nat.le_of_lt hlt) (by decide)
  have hkey : Rfc4251.wireCrates.encodePrefixed (key.encodedLen Rfc4251.wireCrates) (key.encode Rfc4251.wireCrates)
      = .ok (beBytes 4 w.length ++ w) :=
    bind_ok.2 ⟨w.length, announces_key Rfc4251.wireCrates_roundTrips.toLawful key w hw hmax,
      cat_pair.2 ⟨_, w, Rfc4251.usize_encode.2 ⟨hlt, rfl⟩, hw, rfl⟩⟩
  have hpieces := cat_append hfront (cat_ok hkey (cat_one.2 hsig))
  refine ⟨type ++ (front ++ (beBytes 4 w.length ++ w ++ sig)),
    Certificate.encode_ok.2 ⟨certEd25519, type, _, rfl, hu, rfl, hpieces⟩, ?_⟩
  simp only [List.length_append, hulen, hflen, hslen, length_beBytes]
  omega

theorem encode_chain : ∀ n, 51 + 215 * n < 2 ^ 32 →
    ∃ w, (chain n).encode Rfc4251.wireCrates = .ok w ∧ w.length = 51 + 215 * n
  | 0, _ => ⟨_, rfl, by decide⟩
  | n + 1, hn => by
    obtain ⟨w, hw, hlen⟩ := encode_chain n (by omega)
    obtain ⟨v, hv, hvlen⟩ := encode_link hw (by omega)
    exact ⟨v, hv, by omega⟩

theorem restores_chain : ∀ (n depth : Nat), n < depth → ∀ w : Bytes, (chain n).encode Rfc4251.wireCrates = .ok w →
    w.length ≤ Rfc4251.wireCrates.sizeMax → Restores (KeyData.decodeNested Rfc4251.wireCrates depth) w (chain n)
  | _, 0, hlt, _, _, _ => absurd hlt (Nat.not_lt_zero _)
  | 0, depth + 1, _, w, hw, hmax =>
    restores_nested Rfc4251.wireCrates_roundTrips.toRoundTrips subject_legible hw hmax depth
  | n + 1, depth + 1, hlt, w, hw, hmax => by
    have hread : (link (chain n)).publicKey.Readable Rfc4251.wireCrates := trivial
    have hlen : certEd25519.len ≤ 48 := by decide
    exact restores_wrapped Rfc4251.wireCrates_roundTrips (a := .ed25519) rfl hlen rfl rfl hread rfl
      (restores_chain n depth (Nat.lt_of_succ_lt_succ hlt)) (link_legible _) hw hmax

theorem length_le_of_lt {w : Bytes} {k : Nat} (hlen : w.length = k) (hk : k < 2 ^ 32) :
    w.length ≤ Rfc4251.wireCrates.sizeMax := by
  rw [hlen]
  exact Nat.le_sub_one_of_lt hk

theorem decode_chain {n : Nat} {w : Bytes} (hw : (chain n).encode Rfc4251.wireCrates = .ok w)
    (hlen : w.length = 51 + 215 * n) (hn : 51 + 215 * n < 2 ^ 32) :
    (KeyData.decode Rfc4251.wireCrates).run w = .ok (chain n) [] := by
  rw [run_decode_key]
  exact restores_run (restores_chain n (w.length + 1) (by omega) w hw (length_le_of_lt hlen hn))

end Toy

/-- **The signature key of what is decoded is a plain key, and one call of the key decoder below the certificate
enough, exactly if its block does not begin with the name of a certificate type.** -/
theorem signature_key_plain_iff (C : Crates) (b : Bytes) :
    (∀ cert, Certificate.fromBytes C b = .ok cert →
      (cert.signatureKey.isCertificate = false ∧ (Certificate.decodeWithin C 1).run b = .ok cert [] ↔
        ¬ Chained C C.string.decode b)) ∧
    (∀ cert comment, PublicKey.fromBytes C b = .ok ⟨.certificate cert, comment⟩ →
      (cert.signatureKey.isCertificate = false ∧ (KeyData.decodeNested C 2).run b = .ok (.certificate cert) [] ↔
        ¬ Chained C C.label b)) ∧
    (∀ key, PublicKey.fromBytes C b = .ok key → key.keyData.isCertificate = false →
      (KeyData.decodeNested C 1).run b = .ok key.keyData []) := by
  refine ⟨fun cert h => ?_, fun cert comment h => ?_, fun key h hplain => ?_⟩
  · rw [Certificate.fromBytes, finish_run, run_decode_certificate] at h
    obtain ⟨type, left, htype, h⟩ := run_bind_ok.1 h
    obtain ⟨a, left', hthrow, hcert⟩ := run_bind_ok.1 h
    obtain ⟨ha, rfl⟩ := run_orThrow_ok.1 hthrow
    rw [chained_iff htype ha hcert, Bool.not_eq_true]
    refine ⟨And.left, fun hplain => ⟨hplain, ?_⟩⟩
    have hbody := beside_certificateAs (C := C) (Q := fun key => key.nesting < 1)
      (fun inner key hkey hlt => decodeNested_enough _ 1 inner [] key hkey hlt) a left' cert [] hcert
      (by rw [nesting_eq_zero.2 hplain]; decide)
    exact run_bind_ok.2 ⟨type, left', htype, run_bind_ok.2 ⟨a, left', hthrow, hbody⟩⟩
  · obtain ⟨key, hkey, h⟩ := bind_ok.1 h
    cases h
    have hdecode := finish_run.1 hkey
    have hnested := hdecode
    rw [run_decode_key] at hnested
    obtain ⟨id, mid, hid, ⟨a, cert', name, ha, hcert', -, hbody⟩ | ⟨-, hplain, -⟩⟩ := decodeNested_ok hnested
    · cases hcert'
      rw [chained_iff hid ha hbody, Bool.not_eq_true, decodeNested_iff hdecode]
      show _ ∧ cert.nesting + 1 < 2 ↔ _
      rw [cert.nesting_eq]
      refine ⟨And.left, fun hplain => ⟨hplain, ?_⟩⟩
      rw [nesting_eq_zero.2 hplain]
      decide
    · cases hplain
  · obtain ⟨keyData, hkey, h⟩ := bind_ok.1 h
    cases h
    rw [decodeNested_iff (finish_run.1 hkey), nesting_eq_zero.2 hplain]
    decide

theorem signature_key_plain_link : ∃ b, Certificate.fromBytes Rfc4251.wireCrates b = .ok (Toy.link Toy.subject) ∧
    PublicKey.fromBytes Rfc4251.wireCrates b = .ok ⟨.certificate (Toy.link Toy.subject), []⟩ ∧
    ¬ Chained Rfc4251.wireCrates Rfc4251.wireCrates.string.decode b ∧
    ¬ Chained Rfc4251.wireCrates Rfc4251.wireCrates.label b := by
  obtain ⟨w, hw, hlen⟩ := Toy.encode_chain 1 (by decide)
  have hmax := Toy.length_le_of_lt hlen (by decide)
  have hcert : ∀ depth, 0 < depth →
      (Certificate.decodeWithin Rfc4251.wireCrates depth).run w = .ok (Toy.link Toy.subject) [] :=
    fun depth hpos => restores_run (restores_certificate Rfc4251.wireCrates_roundTrips Toy.subject_certifiable
      (Toy.restores_chain 0 depth hpos) (Toy.link_legible _) hw hmax)
  have hkey := restores_run (Toy.restores_chain 1 2 (by decide) w hw hmax)
  have hfrom : Certificate.fromBytes Rfc4251.wireCrates w = .ok (Toy.link Toy.subject) := by
    rw [Certificate.fromBytes, finish_run, run_decode_certificate]
    exact hcert _ (Nat.succ_pos _)
  have hpub : PublicKey.fromBytes Rfc4251.wireCrates w = .ok ⟨.certificate (Toy.link Toy.subject), []⟩ :=
    bind_ok.2 ⟨_, finish_run.2 (Toy.decode_chain hw hlen (by decide)), rfl⟩
  obtain ⟨hfirst, hsecond, -⟩ := signature_key_plain_iff Rfc4251.wireCrates w
  exact ⟨w, hfrom, hpub, (hfirst _ hfrom).1 ⟨rfl, hcert 1 (by decide)⟩, (hsecond _ _ hpub).1 ⟨rfl, hkey⟩⟩

/-- **A certificate signed by a certificate is decoded**, by both decoders, and so is a chain of any length that the
lengths leave room for: the decoder calls itself as often as there are certificates. -/
theorem certificates_chain :
    (∃ b cert inner, Certificate.fromBytes Rfc4251.wireCrates b = .ok cert ∧
      PublicKey.fromBytes Rfc4251.wireCrates b = .ok ⟨.certificate cert, []⟩ ∧
      cert.signatureKey = .certificate inner) ∧
    ∀ n, 51 + 215 * n < 2 ^ 32 → ∃ b, b.length = 51 + 215 * n ∧
      PublicKey.fromBytes Rfc4251.wireCrates b = .ok ⟨Toy.chain n, []⟩ ∧
      ∀ depth, (KeyData.decodeNested Rfc4251.wireCrates depth).run b = .ok (Toy.chain n) [] → n < depth := by
  constructor
  · obtain ⟨w, hw, hlen⟩ := Toy.encode_chain 2 (by decide)
    have hdecode := Toy.decode_chain hw hlen (by decide)
    have hcert : (Certificate.decode Rfc4251.wireCrates).run w = .ok (Toy.link (Toy.chain 1)) [] := by
      rw [run_decode_certificate]
      exact restores_run (restores_certificate Rfc4251.wireCrates_roundTrips Toy.subject_certifiable
        (Toy.restores_chain 1 (w.length + 1) (by omega)) (Toy.link_legible _) hw
        (Toy.length_le_of_lt hlen (by decide)))
    exact ⟨w, Toy.link (Toy.chain 1), Toy.link (Toy.chain 0), finish_run.2 hcert,
      bind_ok.2 ⟨_, finish_run.2 hdecode, rfl⟩, rfl⟩
  · intro n hn
    obtain ⟨w, hw, hlen⟩ := Toy.encode_chain n hn
    have hdecode := Toy.decode_chain hw hlen hn
    refine ⟨w, hlen, bind_ok.2 ⟨_, finish_run.2 hdecode, rfl⟩, fun depth hdepth => ?_⟩
    have hlt := (decodeNested_iff hdecode depth).1 hdepth
    rwa [Toy.nesting_chain] at hlt

end Ssh
end Wolf
