import WolfsslRs.SshPrivateTrip
/-!
# SshCertTrip — certificates and signatures written and read back

A certificate's encoding is read back as the certificate without its comment, exactly if the decoder takes its three
parts for what they are (`fromBytes_encode_iff`):
- the subject's key, whose certificate type has to name the key's own algorithm again (`KeyData.Certifiable`);
- the signature key, which is decoded as any key (`KeyData.Legible`);
- the signature, whose data has to pass the check for its algorithm (`Signature.Legible`).

Options are read back entry by entry, since the map they are written from is in the order the reader asks for.
-/
namespace Wolf
namespace Ssh

open Reader Program

/-- **What is assumed of the crates for certificates**, besides what is for keys. -/
structure Crates.CertRoundTrips (C : Crates) : Prop extends Crates.RoundTrips C where
  u64_back : C.u64.RoundTrips
  strings_back : C.strings.RoundTripsWithin C.sizeMax

/-- **The subject keys whose certificates are read as theirs.** -/
def KeyData.Certifiable (C : Crates) (key : KeyData) : Prop :=
  key.Readable C ∧ ∃ type a, key.algorithm.toCertificateType = .ok type ∧ Algorithm.newCertificate type = .ok a ∧
    key.algorithm = a.ofKey

/-- **The signatures the decoder takes for what they are.** -/
def Signature.Legible (C : Crates) (s : Signature) : Prop :=
  Signature.new C s.algorithm s.data = .ok s ∧ Algorithm.fromStr s.algorithm.asStr = .ok s.algorithm ∧
    s.algorithm.asStr.len ≤ C.labelMax

/-- The bytes of `data` in front of the flags and the counter. -/
def Signature.body (s : Signature) : Bytes :=
  if s.algorithm.isSk then s.data.take (s.data.length - skSignatureTrailerSize) else s.data

/-- What is written of a certificate behind its type. -/
def Certificate.pieces (C : Crates) (cert : Certificate) : List (Except Exit Bytes) :=
  [C.bytes.encode cert.nonce, cert.publicKey.encodeKeyData C, C.u64.encode cert.serial, cert.certType.encode C,
    C.string.encode cert.keyId, C.strings.encode cert.validPrincipals, C.u64.encode cert.validAfter,
    C.u64.encode cert.validBefore, cert.criticalOptions.encode C, cert.extensions.encode C,
    C.bytes.encode cert.reserved, C.encodePrefixed (cert.signatureKey.encodedLen C) (cert.signatureKey.encode C),
    C.encodePrefixed (cert.signature.encodedLen C) (cert.signature.encode C)]

/-- `Certificate::decode` with a bound on the calls of the key decoder for the signature key. -/
def Certificate.decodeWithin (C : Crates) (depth : Nat) : EStateM Exit Bytes Certificate := do
  let id ← C.string.decode
  let algorithm ← orThrow (Algorithm.newCertificate id)
  Certificate.decodeAs C (KeyData.decodeNested C depth) algorithm

section
variable {C : Crates}

theorem run_decode_certificate (bs : Bytes) :
    (Certificate.decode C).run bs = (Certificate.decodeWithin C (bs.length + 1)).run bs := by
  rw [Certificate.decode, EStateM.run_bind, EStateM.run_get]
  rfl

theorem run_decode_key (bs : Bytes) : (KeyData.decode C).run bs = (KeyData.decodeNested C (bs.length + 1)).run bs := by
  rw [KeyData.decode, EStateM.run_bind, EStateM.run_get]

theorem fromU32_toU32 (t : CertType) : CertType.fromU32 t.toU32 = .ok t := by
  cases t with
  | user => rfl
  | host => rfl

theorem Signature.new_eq {a : Algorithm} {data : Bytes} {s : Signature} (h : Signature.new C a data = .ok s) :
    s = ⟨a, data⟩ := by
  obtain ⟨-, -, hs⟩ := bind_ok.1 h
  exact (Except.ok.inj hs).symm

/-! ## What the decoders answer -/

theorem gives_signature (hC : C.RoundTrips) :
    Gives (Signature.decode C) (fun s => s.Legible C ∧ s.body.length ≤ C.sizeMax) := by
  refine gives_bind (gives_decodeLabel hC) ?_
  rintro algorithm ⟨id, hid, hlen⟩
  obtain rfl := (asStr_of_fromStr hid).1
  refine gives_bind hC.bytes_le fun data hdata => ?_
  split
  · rename_i hsk
    refine gives_then fun flags => gives_then fun counter => gives_orThrow fun s hs => ?_
    cases Signature.new_eq hs
    refine ⟨⟨hs, hid, hlen⟩, ?_⟩
    -- the trailer is five bytes, and what is in front of it was read
    rw [Signature.body, if_pos hsk, List.length_take]
    simp only [List.length_append, List.length_singleton, length_beBytes, skSignatureTrailerSize]
    omega
  · rename_i hsk
    refine gives_orThrow fun s hs => ?_
    cases Signature.new_eq hs
    refine ⟨⟨hs, hid, hlen⟩, ?_⟩
    rw [Signature.body, if_neg hsk]
    exact hdata

theorem gives_certificateAs {key : EStateM Exit Bytes KeyData} {Q : KeyData → Prop} {S : Signature → Prop}
    (hkey : Gives key Q) (hsig : Gives (Signature.decode C) S) (a : Algorithm) :
    Gives (Certificate.decodeAs C key a) (fun cert =>
      (cert.publicKey.Readable C ∧ cert.publicKey.algorithm = a.ofKey) ∧ Q cert.signatureKey ∧
        S cert.signature ∧ cert.comment = []) := by
  refine gives_then fun nonce => gives_bind (gives_decodeAs a) fun publicKey hpublic => ?_
  refine gives_then fun serial => gives_then fun certType => gives_then fun keyId => gives_then fun principals =>
    gives_then fun validAfter => gives_then fun validBefore => gives_then fun criticalOptions =>
    gives_then fun extensions => gives_then fun reserved => ?_
  refine gives_bind (gives_prefixed hkey) fun signatureKey hsignatureKey => ?_
  exact gives_bind (gives_prefixed hsig) fun signature hsignature =>
    gives_pure ⟨hpublic, hsignatureKey, hsignature, rfl⟩

end

/-! ## Options -/

section
variable {C : Crates} (hC : C.RoundTrips)
include hC

theorem string_ne_nil {t : Text} {w : Bytes} (hw : C.string.encode t = .ok w) : w ≠ [] := by
  rintro rfl
  have hlen : 0 = 4 + t.len := hC.string_length hw
  omega

theorem restores_value {data : Text} {w : Bytes}
    (hw : (if data = [] then C.usize.encode 0 else C.encodePrefixed (C.string.encodedLen data) (C.string.encode data))
      = .ok w) (hmax : w.length ≤ C.sizeMax) : Restores (C.readPrefixed (OptionsMap.decodeData C)) w data := by
  by_cases hdata : data = []
  · subst hdata
    rw [if_pos rfl] at hw
    have hcat : cat [C.usize.encode ([] : Bytes).length, .ok []] = .ok w :=
      cat_pair.2 ⟨w, [], hw, rfl, (List.append_nil w).symm⟩
    exact restores_readPrefixed hC hcat (Nat.zero_le _) rfl
  · rw [if_neg hdata] at hw
    obtain ⟨inner, hinner, hle, hcat⟩ := encodePrefixed_ok (hC.string.announces data) hw (Nat.le_trans hmax hC.sizeMax_le)
    refine restores_readPrefixed hC hcat (Nat.le_trans hle hmax) ?_
    rw [OptionsMap.decodeData, EStateM.run_bind, EStateM.run_get]
    show EStateM.run (if inner = [] then _ else _) inner = _
    rw [if_neg (string_ne_nil hC hinner)]
    exact restores_run (hC.string_within _ _ hinner (Nat.le_trans hle hmax))

theorem restores_entry {m m' : OptionsMap} {entry : Text × Text} {w : Bytes}
    (hpush : m.push entry.1 entry.2 = .ok m') (hw : OptionsMap.encodeEntry C entry = .ok w)
    (hmax : w.length ≤ C.sizeMax) : Restores (OptionsMap.decodeEntry C m) w m' :=
  restores_cat_le hw hmax (hC.string_within _) fun _ hw hmax =>
    restores_cat_le hw hmax (fun _ hu hle => restores_value hC hu hle) fun _ hw _ =>
      restores_nil hw (restores_orThrow hpush)

theorem passes_entries : ∀ (entries before : List (Text × Text)) (w : Bytes)
    (hbefore : (before.map Prod.fst).IsChain (· < ·)) (hall : ((before ++ entries).map Prod.fst).IsChain (· < ·)),
    cat (entries.map (OptionsMap.encodeEntry C)) = .ok w → w.length ≤ C.sizeMax →
    Passes (OptionsMap.decodeEntry C) ⟨before, hbefore⟩ w ⟨before ++ entries, hall⟩
  | [], before, w, hbefore, hall, hw, _ => by
    rw [List.map_nil, cat_nil] at hw
    subst hw
    simp only [List.append_nil]
    exact .done _
  | entry :: entries, before, w, hbefore, hall, hw, hmax => by
    obtain ⟨u, hu, v, hv, rfl⟩ := cat_cons.1 hw
    rw [List.length_append] at hmax
    have hnext : ((before ++ [entry]) ++ entries) = before ++ entry :: entries := by simp
    have hchain : ((before ++ [entry]).map Prod.fst).IsChain (· < ·) := by
      rw [← hnext, List.map_append] at hall
      exact (List.isChain_append.1 hall).1
    have hafter : ∀ prev ∈ (before.map Prod.fst).getLast?, prev < entry.1 := by
      rw [List.map_append] at hall
      exact fun prev hprev => (List.isChain_append.1 hall).2.2 prev hprev entry.1 rfl
    have hpush : OptionsMap.push ⟨before, hbefore⟩ entry.1 entry.2 = .ok ⟨before ++ [entry], hchain⟩ := dif_pos hafter
    have hne : u ≠ [] := by
      rintro rfl
      obtain ⟨x, hx, y, -, hnil⟩ := cat_cons.1 hu
      exact string_ne_nil hC hx (List.append_eq_nil_iff.1 hnil.symm).1
    have hrest := passes_entries entries (before ++ [entry]) v hchain (by rw [hnext]; exact hall) hv (by omega)
    simp only [hnext] at hrest
    exact .pass hne (restores_entry hC hpush hu (by omega)) hrest

/-- **Options are read back.** -/
theorem restores_options {m : OptionsMap} {w : Bytes} (hw : m.encode C = .ok w) (hmax : w.length ≤ C.sizeMax) :
    Restores (OptionsMap.decode C) w m := by
  obtain ⟨inner, hinner, hcat, -⟩ := m.encode_ok hC.toLawful hw (Nat.le_trans hmax hC.sizeMax_le)
  obtain ⟨u, -, rfl, -⟩ := hC.prefixed_ok hcat
  rw [List.length_append] at hmax
  exact restores_readPrefixed hC hcat (by omega)
    (run_whileUnread (passes_entries hC m.entries [] inner (by simp) m.sorted hinner (by omega)))

/-! ## Signatures -/

omit hC in
theorem trailer_eq {trailer : Bytes} (h : trailer.length = 5) :
    ∃ flags counter, trailer = [flags] ++ beBytes 4 (UInt32.toNat counter) := by
  cases trailer with
  | nil => cases h
  | cons flags rest =>
    have hlen : rest.length = 4 := Nat.succ.inj h
    have hlt : beNat rest < 2 ^ 32 := by
      have := beNat_lt rest
      rw [hlen] at this
      exact this
    refine ⟨flags, UInt32.ofNat (beNat rest), ?_⟩
    rw [UInt32.toNat_ofNat_of_lt' hlt, ← hlen, beBytes_beNat]
    rfl

theorem body_of_encode {s : Signature} {w : Bytes} (hw : s.encode C = .ok w) : s.body.length ≤ w.length := by
  unfold Signature.encode at hw
  split at hw
  · cases hw
  obtain ⟨u, v, -, hv, rfl⟩ := cat_pair.1 hw
  rw [List.length_append]
  unfold Signature.body
  split at hv
  · rename_i hsk
    rw [if_pos hsk]
    split at hv
    · cases hv
    · obtain ⟨x, y, hx, -, rfl⟩ := cat_pair.1 hv
      have hlen := hC.bytes_length hx
      rw [List.length_append]
      omega
  · rename_i hsk
    have hlen := hC.bytes_length hv
    rw [if_neg hsk]
    omega

/-- **A signature is read back**; the flags and the counter of a security key stand behind its bytes. -/
theorem restores_signature {s : Signature} {w : Bytes} (hleg : s.Legible C) (hw : s.encode C = .ok w)
    (hmax : s.body.length ≤ C.sizeMax) : Restores (Signature.decode C) w s := by
  obtain ⟨hnew, hname, hlen⟩ := hleg
  unfold Signature.encode at hw
  split at hw
  · cases hw
  refine restores_cat hw (fun _ hu => restores_decodeLabel hC hlen hu hname) fun v hv => ?_
  rw [cat_one] at hv
  unfold Signature.body at hmax
  by_cases hsk : s.algorithm.isSk = true
  · rw [if_pos hsk] at hv hmax
    split at hv
    · cases hv
    · rename_i hlong
      have hsize : (s.data.drop (s.data.length - skSignatureTrailerSize)).length = 5 := by
        rw [List.length_drop]
        simp only [skSignatureTrailerSize] at hlong ⊢
        omega
      obtain ⟨flags, counter, htrailer⟩ := trailer_eq hsize
      have hdata : s.data = s.data.take (s.data.length - skSignatureTrailerSize) ++ [flags] ++
          beBytes 4 counter.toNat := by
        rw [List.append_assoc, ← htrailer, List.take_append_drop]
      refine restores_cat hv (fun _ hu => hC.bytes_back _ _ hmax hu) fun v hv => ?_
      rw [cat_one, Except.ok.injEq, htrailer] at hv
      subst hv
      rw [if_pos hsk]
      refine restores_bind (hC.u8_back _ _ (hC.u8_eq flags)) ?_
      refine restores_end (hC.u32_back _ _ (hC.u32_eq counter)) (restores_orThrow ?_)
      rw [← hdata]
      exact hnew
  · rw [if_neg hsk] at hv hmax
    refine restores_end (hC.bytes_back _ _ hmax hv) ?_
    rw [if_neg hsk]
    exact restores_orThrow hnew

theorem restores_encodePrefixed {α : Type} {f : EStateM Exit Bytes α} {l : Except Exit Nat} {p : Except Exit Bytes}
    {w : Bytes} {a : α} (hl : Announces C.usizeMax l p) (hw : C.encodePrefixed l p = .ok w)
    (hmax : w.length ≤ C.sizeMax) (hf : ∀ inner, p = .ok inner → inner.length ≤ C.sizeMax → Restores f inner a) :
    Restores (C.readPrefixed f) w a := by
  obtain ⟨inner, hinner, hle, hcat⟩ := encodePrefixed_ok hl hw (Nat.le_trans hmax hC.sizeMax_le)
  have hinnerMax := Nat.le_trans hle hmax
  exact restores_readPrefixed hC hcat hinnerMax (restores_run (hf inner hinner hinnerMax))

/-- **A signature of a message is read back**, with the preamble in front. -/
theorem restores_sshSig {sig : SshSig} {w : Bytes} (hversion : sig.version ≤ SshSig.currentVersion)
    (hkey : sig.publicKey.Legible C) (hnamed : sig.nameSpace ≠ []) (hsig : sig.signature.Legible C)
    (hw : sig.encode C = .ok w) (hmax : w.length ≤ C.sizeMax) : Restores (SshSig.decode C) w sig := by
  refine restores_cat_le (b := ⟨magicPreamble, rfl⟩) hw hmax
    (fun u hu _ => by cases hu; exact restores_take magicPreamble rfl) fun _ hw hmax => ?_
  rw [if_neg (not_not.2 rfl)]
  refine restores_cat_le hw hmax (fun _ hu _ => hC.u32_back _ _ hu) fun _ hw hmax => ?_
  rw [if_neg (UInt32.not_lt.2 hversion)]
  refine restores_cat_le hw hmax (fun _ hu hle => restores_encodePrefixed hC (announces_key hC.toLawful _) hu hle
    fun _ h hle => restores_key hC hkey h hle) fun _ hw hmax => ?_
  refine restores_cat_le hw hmax (hC.string_within _) fun _ hw hmax => ?_
  rw [if_neg hnamed]
  refine restores_cat_le hw hmax (hC.bytes_within _) fun _ hw hmax => ?_
  refine restores_cat_le hw hmax
    (fun _ hu _ => restores_ownLabel hC (HashAlg.len_asStr _) hu (HashAlg.fromStr_asStr _)) fun _ hw hmax => ?_
  exact restores_cat_le hw hmax (fun _ hu hle => restores_encodePrefixed hC (announces_signature hC.toLawful _) hu hle
    fun _ h hle => restores_signature hC hsig h (Nat.le_trans (body_of_encode hC h) hle)) fun _ hw _ =>
      restores_nil hw restores_pure

end

/-- A signature of a file, as far as its format goes. -/
def sampleSig : SshSig :=
  ⟨1, .ed25519 ⟨List.replicate 32 11, by decide⟩, "file".toList, [], .sha512, ⟨.ed25519, List.replicate 64 5⟩⟩

theorem restores_sshSig_sample : ∃ w, sampleSig.encode Rfc4251.utf8Crates = .ok w ∧
    Restores (SshSig.decode Rfc4251.utf8Crates) w sampleSig := by
  obtain ⟨w, hw⟩ : ∃ w, sampleSig.encode Rfc4251.utf8Crates = .ok w := exists_of_isOk (by decide +kernel)
  have hmax : w.length ≤ Rfc4251.utf8Crates.sizeMax := by
    cases hw
    decide +kernel
  exact ⟨w, hw, restores_sshSig Rfc4251.utf8Crates_roundTrips (by decide) ⟨trivial, fun _ hname => by cases hname⟩
    (by decide) ⟨rfl, rfl, by decide⟩ hw hmax⟩

/-! ## Certificates -/

section
variable {C : Crates} (hC : C.CertRoundTrips)
include hC

theorem restores_certType {t : CertType} {w : Bytes} (hw : t.encode C = .ok w) : Restores (CertType.decode C) w t :=
  restores_end (hC.u32_back _ _ hw) (restores_orThrow (fromU32_toU32 t))

omit hC in
theorem Certificate.encode_ok {cert : Certificate} {w : Bytes} : cert.encode C = .ok w ↔
    ∃ type u v, cert.publicKey.algorithm.toCertificateType = .ok type ∧ C.string.encode type = .ok u ∧ w = u ++ v ∧
      cat (cert.pieces C) = .ok v := by
  rw [Certificate.encode_eq, Certificate.encodeTbs, Certificate.tbsOf, cat_concat, Certificate.algorithm_eq]
  constructor
  · intro hw
    obtain ⟨u, hu, v, hv, rfl⟩ := cat_cons.1 hw
    obtain ⟨type, htype, hu⟩ := bind_ok.1 hu
    exact ⟨type, u, v, htype, hu, rfl, hv⟩
  · rintro ⟨type, u, v, htype, hu, rfl, hv⟩
    exact cat_ok (bind_ok.2 ⟨type, htype, hu⟩) hv

/-- The body of a certificate is read back behind its type, with any reader that reads its signature key back. -/
theorem restores_certificateAs {cert : Certificate} {a : Algorithm} {key : EStateM Exit Bytes KeyData} {v : Bytes}
    (hread : cert.publicKey.Readable C) (ha : cert.publicKey.algorithm = a.ofKey)
    (hkey : ∀ inner, cert.signatureKey.encode C = .ok inner → inner.length ≤ C.sizeMax →
      Restores key inner cert.signatureKey)
    (hsig : cert.signature.Legible C) (hv : cat (cert.pieces C) = .ok v) (hmax : v.length ≤ C.sizeMax) :
    Restores (Certificate.decodeAs C key a) v { cert with comment := [] } := by
  have hback := hC.toRoundTrips
  refine restores_cat_le hv hmax (hback.bytes_within _) fun _ hv hmax => ?_
  refine restores_cat_le hv hmax (fun _ hu hle => restores_decodeAs hback hread ha hu hle) fun _ hv hmax => ?_
  refine restores_cat_le hv hmax (fun _ hu _ => hC.u64_back _ _ hu) fun _ hv hmax => ?_
  refine restores_cat_le hv hmax (fun _ hu _ => restores_certType hC hu) fun _ hv hmax => ?_
  refine restores_cat_le hv hmax (hback.string_within _) fun _ hv hmax => ?_
  refine restores_cat_le hv hmax (hC.strings_back _) fun _ hv hmax => ?_
  refine restores_cat_le hv hmax (fun _ hu _ => hC.u64_back _ _ hu) fun _ hv hmax => ?_
  refine restores_cat_le hv hmax (fun _ hu _ => hC.u64_back _ _ hu) fun _ hv hmax => ?_
  refine restores_cat_le hv hmax (fun _ hu hle => restores_options hback hu hle) fun _ hv hmax => ?_
  refine restores_cat_le hv hmax (fun _ hu hle => restores_options hback hu hle) fun _ hv hmax => ?_
  refine restores_cat_le hv hmax (hback.bytes_within _) fun _ hv hmax => ?_
  refine restores_cat_le hv hmax (fun _ hu hle => restores_encodePrefixed hback (announces_key hC.toLawful _) hu hle
    hkey) fun _ hv hmax => ?_
  exact restores_cat_le hv hmax (fun _ hu hle => restores_encodePrefixed hback (announces_signature hC.toLawful _) hu hle
    fun _ h hle => restores_signature hback hsig h (Nat.le_trans (body_of_encode hback h) hle)) fun _ hv _ =>
      restores_nil hv restores_pure

theorem restores_certificate {cert : Certificate} {w : Bytes} {depth : Nat} (hsubject : cert.publicKey.Certifiable C)
    (hkey : ∀ inner, cert.signatureKey.encode C = .ok inner → inner.length ≤ C.sizeMax →
      Restores (KeyData.decodeNested C depth) inner cert.signatureKey)
    (hsig : cert.signature.Legible C) (hw : cert.encode C = .ok w) (hmax : w.length ≤ C.sizeMax) :
    Restores (Certificate.decodeWithin C depth) w { cert with comment := [] } := by
  obtain ⟨hread, type, a, htype, hnew, ha⟩ := hsubject
  obtain ⟨type', u, v, htype', hu, rfl, hv⟩ := Certificate.encode_ok.1 hw
  cases Except.ok.inj (htype.symm.trans htype')
  rw [List.length_append] at hmax
  have hbody := restores_certificateAs hC hread ha hkey hsig hv (by omega)
  exact restores_bind (hC.string_within _ _ hu (by omega)) (restores_then (restores_orThrow hnew) hbody)

/-- The same where any key may stand, behind a certificate type that is read as such. -/
theorem restores_wrapped {cert : Certificate} {w : Bytes} {depth : Nat} {type : Text} {name : AlgorithmName}
    {a : Algorithm} (htype : cert.publicKey.algorithm.toCertificateType = .ok type) (hlen : type.len ≤ C.labelMax)
    (hname : Algorithm.fromStr type = .ok (.other name)) (hnew : Algorithm.newCertificate name.asStr = .ok a)
    (hread : cert.publicKey.Readable C) (ha : cert.publicKey.algorithm = a.ofKey)
    (hkey : ∀ inner, cert.signatureKey.encode C = .ok inner → inner.length ≤ C.sizeMax →
      Restores (KeyData.decodeNested C depth) inner cert.signatureKey)
    (hsig : cert.signature.Legible C) (hw : cert.encode C = .ok w) (hmax : w.length ≤ C.sizeMax) :
    Restores (KeyData.decodeNested C (depth + 1)) w (.certificate { cert with comment := [] }) := by
  obtain ⟨type', u, v, htype', hu, rfl, hv⟩ := Certificate.encode_ok.1 hw
  cases Except.ok.inj (htype.symm.trans htype')
  rw [List.length_append] at hmax
  rw [KeyData.decodeNested]
  refine restores_bind (restores_decodeLabel hC.toRoundTrips hlen hu hname) ?_
  dsimp only
  rw [hnew]
  exact restores_map (restores_certificateAs hC hread ha hkey hsig hv (by omega))

end

namespace Rfc4251

/-- The primitives of the SSH wire format with all of UTF-8, in lists as well. -/
def wireCrates : Crates := { utf8Crates with strings := stringsOf utf8String }

theorem utf8String_ne_nil (t : Text) (w : Bytes) (h : utf8String.encode t = .ok w) : w ≠ [] := blockOf_ne_nil h

theorem wireCrates_roundTrips : wireCrates.CertRoundTrips :=
  { utf8Crates_roundTrips with
    strings := stringsOf_canonical utf8String_canonical utf8String_ne_nil
    u64_back := restores_uint (fun a => a.toNat_lt) (fun _ => UInt64.ofNat_toNat)
    strings_back := fun _ _ hw _ => stringsOf_roundTrips utf8String_roundTrips utf8String_ne_nil _ _ hw }

end Rfc4251

end Ssh
end Wolf
