import WolfsslRs.SshNesting
/-!
# SshLine — public keys as bytes and on a line of text (`PublicKey::from_openssh`, `to_openssh`)

A decoded key is written back as it was read but for the names of RSA hashes and options with an empty string
(`toBytes_eq_iff`), and the first field of a line is compared with the algorithm of the key, which is not always the name
that its bytes begin with (`public_key_canonical_iff`).
-/
namespace Wolf
namespace Ssh

open Reader Program

def PublicKey.fromOpenssh (C : Crates) (T : TextCrates) (publicKey : Text) : Except Exit PublicKey := do
  let encapsulation ← SshFormat.decode (trimEnd publicKey)
  let reader ← T.base64Reader encapsulation.base64Data
  match (KeyData.decode C).run reader.readable with
  | .error e _ => .error e
  | .ok keyData rest =>
    if encapsulation.algorithmId ≠ keyData.algorithm.asStr then .error algorithmUnknown
    else if rest = [] ∧ reader.complete then .ok ⟨keyData, encapsulation.comment.utf8⟩
    else .error (.error (.encoding (.trailingData rest.length)))

section
variable {C : Crates} {T : TextCrates}

/-- **What an accepted line is**: the algorithm, the data of a key of that algorithm and nothing else, and the comment. -/
theorem fromOpenssh_ok {s : Text} {key : PublicKey} : PublicKey.fromOpenssh C T s = .ok key ↔
    ∃ encapsulation reader, SshFormat.decode (trimEnd s) = .ok encapsulation ∧
      T.base64Reader encapsulation.base64Data = .ok reader ∧
      (KeyData.decode C).run reader.readable = .ok key.keyData [] ∧ reader.complete = true ∧
      encapsulation.algorithmId = key.keyData.algorithm.asStr ∧ key.comment = encapsulation.comment.utf8 := by
  constructor
  · intro h
    obtain ⟨encapsulation, hformat, h⟩ := bind_ok.1 h
    obtain ⟨reader, hdata, h⟩ := bind_ok.1 h
    refine ⟨encapsulation, reader, hformat, hdata, ?_⟩
    split at h
    · cases h
    · rename_i keyData rest hrun
      split at h
      · cases h
      · rename_i hname
        split at h
        · rename_i hend
          cases h
          rw [hend.1] at hrun
          exact ⟨hrun, hend.2, not_not.1 hname, rfl⟩
        · cases h
  · rintro ⟨encapsulation, reader, hformat, hdata, hrun, hcomplete, hname, hcomment⟩
    refine bind_ok.2 ⟨encapsulation, hformat, bind_ok.2 ⟨reader, hdata, ?_⟩⟩
    rw [hrun]
    show (if _ then _ else if _ then _ else _) = _
    rw [if_neg (not_not.2 hname), if_pos ⟨rfl, hcomplete⟩, ← hcomment]

theorem algorithm_eq_name_iff {bs rest : Bytes} {key : KeyData} (h : (KeyData.decode C).run bs = .ok key rest) :
    ∃ name left, C.label.run bs = .ok name left ∧ (key.algorithm.asStr = name ↔
      ¬ (name = rsaSha2256 ∨ name = rsaSha2512 ∨ ∃ a, Algorithm.newCertificate name = .ok a)) := by
  rw [run_decode_key] at h
  obtain ⟨name, left, hname, hcase⟩ := decodeNested_ok h
  refine ⟨name, left, hname, ?_⟩
  rcases hcase with ⟨a, cert, -, ha, rfl, -, hcert⟩ | ⟨hno, -, a, ha, halg⟩
  · -- a certificate has the algorithm of its key, and its bytes begin with the certificate type
    obtain ⟨⟨-, halg⟩, -⟩ := gives_ok (gives_certificateAs gives_true gives_true a) hcert
    have hkey : (KeyData.certificate cert).algorithm = a.ofKey := cert.algorithm_eq.trans halg
    rw [hkey]
    constructor
    · intro heq
      have hlt := len_asStr_of_newCertificate ha
      rw [heq] at hlt
      exact absurd hlt (Nat.lt_irrefl _)
    · intro hnot
      exact absurd (.inr (.inr ⟨a, ha⟩)) hnot
  · rw [halg, (asStr_of_fromStr ha).2]
    unfold canonicalLabel
    by_cases hrsa : name = rsaSha2256 ∨ name = rsaSha2512
    · rw [if_pos hrsa]
      rcases hrsa with rfl | rfl
      · exact ⟨fun h => absurd h (by decide), fun h => absurd (.inl rfl) h⟩
      · exact ⟨fun h => absurd h (by decide), fun h => absurd (.inr (.inl rfl)) h⟩
    · rw [if_neg hrsa]
      refine ⟨fun _ => ?_, fun _ => rfl⟩
      rintro (h256 | h512 | ⟨a', ha'⟩)
      · exact hrsa (.inl h256)
      · exact hrsa (.inr h512)
      · exact hno a' ha'

end

/-- **When a key's bytes come back, and when a line is named as its bytes are.**  Accepted bytes are those of a spelling,
and are written back just when no name in it has an RSA hash, no option a block with an empty string, and no certificate
type an empty name.  The first field of an accepted line is the name its data begins with just when that is neither the
name of an RSA hash nor a certificate type. -/
theorem public_key_canonical_iff (C : Crates) (T : TextCrates) (hC : C.Lawful) :
    (∀ b key, b.length ≤ C.usizeMax → PublicKey.fromBytes C b = .ok key → (∃ sp, Spells C sp key.keyData b) ∧
      ∀ sp, Spells C sp key.keyData b → (key.toBytes C = .ok b ↔ sp.Plain ∧ sp.Named)) ∧
    (∀ s key, PublicKey.fromOpenssh C T s = .ok key → ∃ encapsulation reader name left,
      SshFormat.decode (trimEnd s) = .ok encapsulation ∧ T.base64Reader encapsulation.base64Data = .ok reader ∧
      C.label.run reader.readable = .ok name left ∧ (encapsulation.algorithmId = name ↔
        ¬ (name = rsaSha2256 ∨ name = rsaSha2512 ∨ ∃ a, Algorithm.newCertificate name = .ok a))) := by
  constructor
  · intro b key hb h
    obtain ⟨keyData, hkey, h⟩ := bind_ok.1 h
    cases h
    exact ⟨finish_ok (reads_keyData hC b.length) hkey, fun sp hsp => toBytes_eq_iff hC hsp hb⟩
  · intro s key h
    obtain ⟨encapsulation, reader, hformat, hdata, hrun, -, hname, -⟩ := fromOpenssh_ok.1 h
    obtain ⟨name, left, hlabel, hiff⟩ := algorithm_eq_name_iff hrun
    rw [← hname] at hiff
    exact ⟨encapsulation, reader, name, left, hformat, hdata, hlabel, hiff⟩

/-- An RSA key under the given name. -/
def Sample.rsaBytes (label : Text) : Bytes := Sample.str label.utf8 ++ Sample.rsaKey

def Sample.rsaPublic : PublicKey := ⟨.rsa ⟨[3], [5], 8⟩, []⟩

theorem Sample.spells_rsa {label : Text} {a : Algorithm} (ha : Algorithm.fromStr label = .ok a)
    (hkey : a.ofKey = .rsa none)
    (hbytes : (Spelling.plain label rsaPublic.keyData).bytes Rfc4251.crates = .ok (rsaBytes label)) :
    Spells Rfc4251.crates (.plain label rsaPublic.keyData) rsaPublic.keyData (rsaBytes label) :=
  ⟨⟨⟨a, ha, hkey.symm⟩, rfl⟩, rfl, hbytes⟩

/-- The name that the data of a line begins with. -/
def Sample.dataName (s : Text) : Except Exit Text := do
  let encapsulation ← SshFormat.decode (trimEnd s)
  let reader ← Rfc4648.crates.base64Reader encapsulation.base64Data
  match Rfc4251.crates.label.run reader.readable with
  | .ok name _ => .ok name
  | .error e _ => .error e

/-- An RSA key under its own name comes back, and a line with it is named as its bytes are; under the name of an RSA hash
neither holds. -/
theorem public_key_canonical_sample :
    Sample.rsaPublic.toBytes Rfc4251.crates = .ok (Sample.rsaBytes sshRsa) ∧
    Sample.rsaPublic.toBytes Rfc4251.crates ≠ .ok (Sample.rsaBytes rsaSha2256) ∧
    (∃ encapsulation, SshFormat.decode (trimEnd (Sample.text sshRsa (Sample.rsaBytes sshRsa))) = .ok encapsulation ∧
      Sample.dataName (Sample.text sshRsa (Sample.rsaBytes sshRsa)) = .ok encapsulation.algorithmId) ∧
    ∃ encapsulation, SshFormat.decode (trimEnd (Sample.text sshRsa (Sample.rsaBytes rsaSha2256))) = .ok encapsulation ∧
      Sample.dataName (Sample.text sshRsa (Sample.rsaBytes rsaSha2256)) ≠ .ok encapsulation.algorithmId := by
  obtain ⟨hbytes, hline⟩ := public_key_canonical_iff Rfc4251.crates Rfc4648.crates Rfc4251.crates_lawful
  have hown := hbytes (Sample.rsaBytes sshRsa) Sample.rsaPublic (by decide +kernel) (by decide +kernel)
  have hhash := hbytes (Sample.rsaBytes rsaSha2256) Sample.rsaPublic (by decide +kernel) (by decide +kernel)
  -- the name is the one found, and it is compared with the three kinds of names
  have hnamed : ∀ s name, PublicKey.fromOpenssh Rfc4251.crates Rfc4648.crates s = .ok Sample.rsaPublic →
      Sample.dataName s = .ok name → ∃ encapsulation, SshFormat.decode (trimEnd s) = .ok encapsulation ∧
        (encapsulation.algorithmId = name ↔
          ¬ (name = rsaSha2256 ∨ name = rsaSha2512 ∨ ∃ a, Algorithm.newCertificate name = .ok a)) := by
    intro s name hs hname
    obtain ⟨encapsulation, reader, name', left, hformat, hdata, hlabel, hiff⟩ := hline s _ hs
    simp only [Sample.dataName, hformat, hdata, hlabel, bind, Except.bind] at hname
    cases hname
    exact ⟨encapsulation, hformat, hiff⟩
  have hback := hown.2 _ (Sample.spells_rsa rfl rfl (by decide +kernel))
  refine ⟨hback.2 ⟨⟨by decide, by decide⟩, trivial⟩, fun h => ?_, ?_, ?_⟩
  · exact ((hhash.2 _ (Sample.spells_rsa rfl rfl (by decide +kernel))).1 h).1.1 rfl
  · have hname : Sample.dataName (Sample.text sshRsa (Sample.rsaBytes sshRsa)) = .ok sshRsa := by decide +kernel
    obtain ⟨encapsulation, hformat, hiff⟩ := hnamed _ _ (by decide +kernel) hname
    refine ⟨encapsulation, hformat, hname.trans (congrArg Except.ok (hiff.2 ?_).symm)⟩
    rintro (h | h | ⟨a, ha⟩)
    · exact absurd h (by decide)
    · exact absurd h (by decide)
    · cases ha
  · have hname : Sample.dataName (Sample.text sshRsa (Sample.rsaBytes rsaSha2256)) = .ok rsaSha2256 := by decide +kernel
    obtain ⟨encapsulation, hformat, hiff⟩ := hnamed _ _ (by decide +kernel) hname
    refine ⟨encapsulation, hformat, fun h => ?_⟩
    exact hiff.1 (Except.ok.inj (h.symm.trans hname)) (.inl rfl)

/-- The name of an RSA hash in front of an RSA key is accepted and written back as `ssh-rsa`, and a line that begins with
`ssh-rsa` is accepted with that name in its data, or with a certificate type. -/
theorem line_named_otherwise :
    PublicKey.fromBytes Rfc4251.crates (Sample.rsaBytes rsaSha2256) = .ok Sample.rsaPublic ∧
    Sample.rsaPublic.toBytes Rfc4251.crates = .ok (Sample.rsaBytes sshRsa) ∧
    Sample.rsaBytes rsaSha2256 ≠ Sample.rsaBytes sshRsa ∧
    PublicKey.fromOpenssh Rfc4251.crates Rfc4648.crates (Sample.text sshRsa (Sample.rsaBytes rsaSha2256))
      = .ok Sample.rsaPublic ∧
    PublicKey.fromOpenssh Rfc4251.crates Rfc4648.crates (Sample.text sshRsa (Sample.bytes certRsa Sample.rsaKey []))
      = .ok ⟨.certificate Sample.cert, []⟩ := by
  decide +kernel

end Ssh
end Wolf
