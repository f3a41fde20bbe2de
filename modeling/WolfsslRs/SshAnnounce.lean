import WolfsslRs.SshSpelling
/-!
# SshAnnounce — the lengths that keys and certificates announce

`encoded_len` and `encode` go over a value independently of each other, and the length in front of a block is taken from
the first.  They agree for keys, signatures and options, and for certificates by an induction over their nesting
(`announces_keyDataOf`, `announces_certificate`).
-/
namespace Wolf
namespace Ssh

open Reader Program

section
variable {C : Crates}

theorem total_cons {k m : Nat} {l : Except Exit Nat} {ls : List (Except Exit Nat)} (hl : l = .ok k)
    (hls : C.total ls = .ok m) (hmax : k + m ≤ C.usizeMax) : C.total (l :: ls) = .ok (k + m) := by
  unfold Crates.total at hls ⊢
  simp [total, hl, hls, bind, Except.bind, pure, Except.pure, hmax]

theorem total_one {k : Nat} {l : Except Exit Nat} (hl : l = .ok k) (hmax : k ≤ C.usizeMax) : C.total [l] = .ok k :=
  total_cons (m := 0) hl rfl hmax

theorem encodePrefixed_ok {l : Except Exit Nat} {p : Except Exit Bytes} {w : Bytes} (hl : Announces C.usizeMax l p)
    (h : C.encodePrefixed l p = .ok w) (hmax : w.length ≤ C.usizeMax) :
    ∃ inner, p = .ok inner ∧ inner.length ≤ w.length ∧ cat [C.usize.encode inner.length, .ok inner] = .ok w := by
  unfold Crates.encodePrefixed at h
  cases l with
  | error e => cases h
  | ok n =>
    obtain ⟨u, inner, hu, hinner, rfl⟩ := cat_pair.1 h
    rw [List.length_append] at hmax ⊢
    have hn := Except.ok.inj (hl inner hinner (by omega))
    subst hn
    exact ⟨inner, hinner, by omega, cat_pair.2 ⟨u, inner, hu, rfl, rfl⟩⟩

end

section
variable {C : Crates} (hC : C.Lawful)
include hC

theorem announces_prefixed {l : Except Exit Nat} {p : Except Exit Bytes} (hl : Announces C.usizeMax l p) :
    Announces C.usizeMax (C.encodedLenPrefixed l) (C.encodePrefixed l p) := by
  intro w hw hmax
  obtain ⟨inner, hinner, hle, hcat⟩ := encodePrefixed_ok hl hw hmax
  obtain ⟨u, -, rfl, hfour⟩ := hC.prefixed_ok hcat
  rw [List.length_append, hfour] at hmax ⊢
  exact total_cons rfl (total_one (hl inner hinner (by omega)) (by omega)) hmax

theorem announces_usize (n : Nat) : Announces C.usizeMax (.ok 4) (C.usize.encode n) := by
  intro w hw _
  rw [hC.usize_length n w hw]

/-! ## Options -/

theorem announces_value (data : Text) :
    Announces C.usizeMax (if data = [] then .ok 4 else C.encodedLenPrefixed (C.string.encodedLen data))
      (if data = [] then C.usize.encode 0 else C.encodePrefixed (C.string.encodedLen data) (C.string.encode data)) := by
  by_cases hdata : data = []
  · rw [if_pos hdata, if_pos hdata]
    exact announces_usize hC 0
  · rw [if_neg hdata, if_neg hdata]
    exact announces_prefixed hC (hC.string.announces data)

/-- The fold over the entries adds the length of each to what came before. -/
theorem announces_entries : ∀ (entries : List (Text × Text)) (acc : Nat) (w : Bytes),
    cat (entries.map (OptionsMap.encodeEntry C)) = .ok w → acc + w.length ≤ C.usizeMax →
    entries.foldlM (fun acc entry => C.total [.ok acc, C.string.encodedLen entry.1,
      if entry.2 = [] then .ok 4 else C.encodedLenPrefixed (C.string.encodedLen entry.2)]) acc = .ok (acc + w.length)
  | [], acc, w, hw, _ => by
    rw [List.map_nil, cat_nil] at hw
    subst hw
    rfl
  | entry :: entries, acc, w, hw, hmax => by
    obtain ⟨u, hu, v, hv, rfl⟩ := cat_cons.1 hw
    rw [List.length_append] at hmax ⊢
    have hentry := announces_total lengthError (.cons (hC.string.announces entry.1)
      (.cons (announces_value hC entry.2) .nil)) u hu (by omega)
    have hentries := announces_entries entries (acc + u.length) v hv (by omega)
    rw [List.foldlM_cons, total_cons rfl hentry (by omega)]
    rw [Nat.add_assoc] at hentries
    exact hentries

theorem OptionsMap.encode_ok {m : OptionsMap} {w : Bytes} (hw : m.encode C = .ok w) (hmax : w.length ≤ C.usizeMax) :
    ∃ inner, cat (m.entries.map (OptionsMap.encodeEntry C)) = .ok inner ∧
      cat [C.usize.encode inner.length, .ok inner] = .ok w ∧ m.encodedLen C = .ok w.length := by
  obtain ⟨len, hlen, hw⟩ := bind_ok.1 hw
  split at hw
  · cases hw
  · obtain ⟨u, hu, inner, hinner, rfl⟩ := cat_cons.1 hw
    rw [List.length_append, hC.usize_length _ _ hu] at hmax
    have htrue : m.encodedLen C = .ok (4 + inner.length) := announces_entries hC m.entries 4 inner hinner hmax
    rw [hlen, Except.ok.injEq] at htrue
    subst htrue
    rw [Nat.add_sub_cancel_left] at hu
    refine ⟨inner, hinner, cat_pair.2 ⟨u, inner, hu, rfl, rfl⟩, ?_⟩
    rw [hlen, List.length_append, hC.usize_length _ _ hu]

theorem announces_options (m : OptionsMap) : Announces C.usizeMax (m.encodedLen C) (m.encode C) := by
  intro w hw hmax
  obtain ⟨-, -, -, hlen⟩ := m.encode_ok hC hw hmax
  exact hlen

/-! ## Keys and certificates -/

theorem announces_certType (t : CertType) : Announces C.usizeMax (.ok 4) (t.encode C) := by
  intro w hw _
  rw [CertType.encode, hC.u32_eq] at hw
  cases hw
  rw [length_beBytes]

theorem announces_ecdsa (key : EcdsaPublicKey) : Announces C.usizeMax (key.encodedLen C) (key.encode C) := by
  intro w hw hmax
  obtain ⟨u, x, hu, hx, rfl⟩ := cat_pair.1 hw
  rw [List.length_append, hC.bytes_length hx] at hmax ⊢
  have hlabel := hC.string.announces _ u hu (by omega)
  exact total_cons hlabel (total_cons rfl (total_one rfl (by omega)) (by omega)) (by omega)

theorem announces_ed25519 (key : Ed25519PublicKey) : Announces C.usizeMax (key.encodedLen C) (key.encode C) := by
  have hlen : key.encodedLen C = C.bytes.encodedLen key.bytes := by
    rw [hC.bytes_len, key.size]
    rfl
  rw [hlen]
  exact hC.bytes.announces key.bytes

theorem announces_keyData {key : KeyData} (h : key.isCertificate = false) :
    Announces C.usizeMax (key.encodedKeyDataLen C) (key.encodeKeyData C) := by
  cases key with
  | dsa k =>
    exact announces_total _ (.cons (hC.mpint.announces _) (.cons (hC.mpint.announces _) (.cons (hC.mpint.announces _)
      (.cons (hC.mpint.announces _) .nil))))
  | ecdsa k => exact announces_ecdsa hC k
  | ed25519 k => exact announces_ed25519 hC k
  | rsa k => exact announces_total _ (.cons (hC.mpint.announces _) (.cons (hC.mpint.announces _) .nil))
  | skEcdsaSha2NistP256 k =>
    exact announces_total _ (.cons (hC.string.announces _) (.cons (hC.bytes.announces _)
      (.cons (hC.string.announces _) .nil)))
  | skEd25519 k => exact announces_total _ (.cons (announces_ed25519 hC _) (.cons (hC.string.announces _) .nil))
  | certificate c => cases h
  | other k => exact hC.bytes.announces k.key

theorem announces_signature (s : Signature) : Announces C.usizeMax (s.encodedLen C) (s.encode C) := by
  intro w hw hmax
  unfold Signature.encode at hw
  split at hw
  · cases hw
  · obtain ⟨u, x, hu, hx, rfl⟩ := cat_pair.1 hw
    rw [List.length_append] at hmax ⊢
    have hlabel := hC.string.announces _ u hu (by omega)
    have hdata : x.length = 4 + s.data.length := by
      split at hx
      · split at hx
        · cases hx
        · rename_i hlen
          obtain ⟨y, _, hy, ht, rfl⟩ := cat_pair.1 hx
          cases ht
          rw [List.length_append, hC.bytes_length hy, List.length_take, List.length_drop]
          omega
      · exact hC.bytes_length hx
    have hbytes : C.bytes.encodedLen s.data = .ok x.length := by
      rw [hC.bytes_len, hdata]
      exact total_cons rfl (total_one rfl (by omega)) (by omega)
    exact total_cons hlabel (total_one hbytes (by omega)) (by omega)

theorem announces_type (type : Except Exit Text) :
    Announces C.usizeMax (do C.string.encodedLen (← type)) (do C.string.encode (← type)) := by
  cases type with
  | error e => exact nofun
  | ok t => exact hC.string.announces t

/-- A key behind its algorithm; a certificate brings its own. -/
theorem announces_labelled {key : KeyData} (h : Announces C.usizeMax (key.encodedKeyDataLen C) (key.encodeKeyData C)) :
    Announces C.usizeMax (key.encodedLen C) (key.encode C) := by
  rw [KeyData.encodedLen, KeyData.encode, KeyData.labelledLen, KeyData.labelled]
  split
  · exact h
  · exact announces_total _ (.cons (hC.string.announces _) (.cons h .nil))

mutual

/-- **A key's data announces its length truly**, a certificate's as well. -/
theorem announces_keyDataOf : ∀ key : KeyData,
    Announces C.usizeMax (key.encodedKeyDataLen C) (key.encodeKeyData C)
  | .certificate cert => announces_certificate cert
  | .dsa key => @announces_keyData C hC (.dsa key) rfl
  | .ecdsa key => @announces_keyData C hC (.ecdsa key) rfl
  | .ed25519 key => @announces_keyData C hC (.ed25519 key) rfl
  | .rsa key => @announces_keyData C hC (.rsa key) rfl
  | .skEcdsaSha2NistP256 key => @announces_keyData C hC (.skEcdsaSha2NistP256 key) rfl
  | .skEd25519 key => @announces_keyData C hC (.skEd25519 key) rfl
  | .other key => @announces_keyData C hC (.other key) rfl

/-- **A certificate announces its length truly.** -/
theorem announces_certificate : ∀ cert : Certificate, Announces C.usizeMax (cert.encodedLen C) (cert.encode C)
  | ⟨nonce, publicKey, serial, certType, keyId, validPrincipals, validAfter, validBefore, criticalOptions, extensions,
      reserved, signatureKey, signature, comment⟩ => by
    have hpublic := announces_keyDataOf publicKey
    have hsignatureKey := announces_labelled hC (announces_keyDataOf signatureKey)
    rw [Certificate.encodedLen_eq, Certificate.encode_eq, Certificate.encodeTbs, Certificate.tbsOf, cat_concat,
      Certificate.lenOf]
    exact announces_total _ (.cons (announces_type hC _) (.cons (hC.bytes.announces _) (.cons hpublic
      (.cons (hC.u64.announces _) (.cons (announces_certType hC _) (.cons (hC.string.announces _)
      (.cons (hC.strings.announces _) (.cons (hC.u64.announces _) (.cons (hC.u64.announces _)
      (.cons (announces_options hC _) (.cons (announces_options hC _) (.cons (hC.bytes.announces _)
      (.cons (announces_prefixed hC hsignatureKey) (.cons (announces_prefixed hC (announces_signature hC _))
        .nil))))))))))))))

end

theorem announces_key (key : KeyData) : Announces C.usizeMax (key.encodedLen C) (key.encode C) :=
  announces_labelled hC (announces_keyDataOf hC key)

end

end Ssh
end Wolf
