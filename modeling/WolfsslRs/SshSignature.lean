import WolfsslRs.CMemory
import WolfsslRs.SshCertTrip
/-!
# SshSignature — signatures as byte strings

`Signature::new`, `encode` and `try_from`.  A signature is read back from its encoding if its algorithm is the one its
name is read as; `try_from` takes a signature off the front of its argument and does not look at what follows.
-/
namespace Wolf
namespace Ssh

open Reader Program

/-- A length the crate writes. -/
def Crates.Fits (C : Crates) (n : Nat) : Prop := ∃ w, C.usize.encode n = .ok w

/-- `TryFrom<&[u8]>`: what the reader has left is dropped. -/
def Signature.tryFrom (C : Crates) (bytes : Bytes) : Except Exit Signature :=
  match (Signature.decode C).run bytes with
  | .ok s _ => .ok s
  | .error e _ => .error e

def Signature.trailer (s : Signature) : Bytes :=
  if s.algorithm.isSk then s.data.drop (s.data.length - skSignatureTrailerSize) else []

def lengthAt (bytes : Bytes) (pos : Nat) : Nat := beNat (slice bytes pos 4)

/-- Where a signature at the front of `bytes` ends: its name, its body, and a trailer behind one of a security key. -/
def signatureEnd (bytes : Bytes) : Nat :=
  let name := lengthAt bytes 0
  let type := slice bytes 4 name
  let trailer := if type = skSshEd25519.utf8 ∨ type = skEcdsaSha2P256.utf8 then skSignatureTrailerSize else 0
  8 + name + lengthAt bytes (4 + name) + trailer

section
variable {C : Crates}

theorem tryFrom_ok {bytes : Bytes} {s : Signature} :
    Signature.tryFrom C bytes = .ok s ↔ ∃ rest, (Signature.decode C).run bytes = .ok s rest := by
  unfold Signature.tryFrom
  cases (Signature.decode C).run bytes with
  | ok s' rest => exact ⟨fun h => ⟨rest, by rw [Except.ok.inj h]⟩, fun ⟨_, h⟩ => by cases h; rfl⟩
  | error e rest => exact ⟨nofun, fun ⟨_, h⟩ => by cases h⟩

/-- A trailer was asked for by the check of `Signature::new`. -/
theorem trailer_of_new (hC : C.Lawful) {a : Algorithm} {data : Bytes} {s : Signature}
    (h : Signature.new C a data = .ok s) (hsk : a.isSk = true) : skSignatureTrailerSize ≤ data.length := by
  obtain ⟨_, hv, -⟩ := bind_ok.1 h
  cases a with
  | skEd25519 =>
    simp only [Signature.validate] at hv
    split at hv
    · rename_i hlen
      rw [hlen]
      decide
    · cases hv
  | skEcdsaSha2NistP256 =>
    have hreads : Reads Exit.IsErr data.length (do
        ecdsaComponent C .nistP256
        ecdsaComponent C .nistP256
        if true then
          let _ ← take lengthError skSignatureTrailerSize) (fun _ w => skSignatureTrailerSize ≤ w.length) := by
      refine reads_bind (reads_ecdsaComponent hC _ .nistP256) fun _ u _ =>
        reads_bind (reads_ecdsaComponent hC _ .nistP256) fun _ v _ => ?_
      refine reads_bind (reads_take trivial) fun t w hw => reads_pure ?_
      have ht := t.2
      rw [hw] at ht
      simp only [List.length_append]
      omega
    exact finish_ok hreads hv
  | dsa => cases hsk
  | ecdsa curve => cases hsk
  | ed25519 => cases hsk
  | rsa hash => cases hsk
  | other name => cases hsk

theorem fits_iff (hC : C.Lawful) (x : Bytes) : C.Fits x.length ↔ ∃ w, C.bytes.encode x = .ok w := by
  constructor
  · rintro ⟨u, hu⟩
    exact ⟨u ++ x, by rw [hC.bytes_eq]; exact cat_pair.2 ⟨u, x, hu, rfl, rfl⟩⟩
  · rintro ⟨w, hw⟩
    rw [hC.bytes_eq] at hw
    obtain ⟨u, hu, -⟩ := hC.prefixed_ok hw
    exact ⟨u, hu⟩

/-- **What is written of a signature**: its name, its body, and the trailer of a security key. -/
theorem encode_signature_ok (hC : C.Lawful) {a : Algorithm} {data : Bytes} {s : Signature} {w : Bytes}
    (h : Signature.new C a data = .ok s) :
    s.encode C = .ok w ↔ ∃ u v, C.string.encode s.algorithm.asStr = .ok u ∧ C.bytes.encode s.body = .ok v ∧
      w = u ++ (v ++ s.trailer) := by
  obtain ⟨rfl, hplace⟩ := signatureNew_ok h
  unfold Signature.encode Signature.body Signature.trailer
  rw [hplace, if_neg Bool.false_ne_true, cat_pair]
  by_cases hsk : a.isSk = true
  · have hlong : ¬ data.length < skSignatureTrailerSize := Nat.not_lt.2 (trailer_of_new hC h hsk)
    simp only [if_pos hsk, if_neg hlong]
    constructor
    · rintro ⟨u, v, hu, hv, rfl⟩
      obtain ⟨x, y, hx, hy, rfl⟩ := cat_pair.1 hv
      cases hy
      exact ⟨u, x, hu, hx, rfl⟩
    · rintro ⟨u, v, hu, hv, rfl⟩
      exact ⟨u, _, hu, cat_pair.2 ⟨v, _, hv, rfl, rfl⟩, rfl⟩
  · simp only [if_neg hsk, List.append_nil]

/-- **A signature is written if its two lengths are.** -/
theorem encode_fits_iff (hC : C.Lawful) {a : Algorithm} {data : Bytes} {s : Signature}
    (h : Signature.new C a data = .ok s) :
    (∃ w, s.encode C = .ok w) ↔ C.Fits s.algorithm.asStr.len ∧ C.Fits s.body.length := by
  have hname := fits_iff hC s.algorithm.asStr.utf8
  rw [← hC.string_eq] at hname
  rw [Text.len, hname, fits_iff hC]
  constructor
  · rintro ⟨w, hw⟩
    obtain ⟨u, v, hu, hv, -⟩ := (encode_signature_ok hC h).1 hw
    exact ⟨⟨u, hu⟩, ⟨v, hv⟩⟩
  · rintro ⟨⟨u, hu⟩, ⟨v, hv⟩⟩
    exact ⟨_, (encode_signature_ok hC h).2 ⟨u, v, hu, hv, rfl⟩⟩

/-! ## Where a signature ends -/

/-- An algorithm that its name is read as has a trailer if its name is one of the two. -/
theorem isSk_iff {a : Algorithm} (h : Algorithm.fromStr a.asStr = .ok a) :
    a.asStr.utf8 ∈ [skSshEd25519.utf8, skEcdsaSha2P256.utf8] ↔ a.isSk = true := by
  constructor
  · intro hmem
    rcases List.mem_cons.1 hmem with heq | hmem
    · rw [utf8_inj heq] at h
      rw [← Except.ok.inj h]
      decide
    · rw [utf8_inj (List.mem_singleton.1 hmem)] at h
      rw [← Except.ok.inj h]
      decide
  · intro hsk
    cases a with
    | skEd25519 => exact List.mem_cons_self ..
    | skEcdsaSha2NistP256 => exact List.mem_cons_of_mem _ (List.mem_cons_self ..)
    | dsa => cases hsk
    | ecdsa curve => cases hsk
    | ed25519 => cases hsk
    | rsa hash => cases hsk
    | other name => cases hsk

theorem bytes_exact (hC : C.RoundTrips) {x w : Bytes} (h : C.bytes.encode x = .ok w) :
    x.length < 2 ^ 32 ∧ w = beBytes 4 x.length ++ x := by
  rw [hC.bytes_eq] at h
  obtain ⟨u, hu, rfl, -⟩ := hC.prefixed_ok h
  obtain ⟨hlt, rfl⟩ := hC.usize_eq _ _ hu
  exact ⟨hlt, rfl⟩

theorem lengthAt_append {a t : Bytes} {pos n : Nat} (ha : a.length = pos) (hn : n < 2 ^ 32) :
    lengthAt (a ++ (beBytes 4 n ++ t)) pos = n := by
  rw [lengthAt, slice_middle ha (length_beBytes 4 n), beNat_beBytes, Nat.mod_eq_of_lt (by omega)]

/-- **A signature ends where its encoding does**, whatever follows. -/
theorem signatureEnd_encode (hC : C.RoundTrips) {s : Signature} {w rest : Bytes} (hleg : s.Legible C)
    (hw : s.encode C = .ok w) : signatureEnd (w ++ rest) = w.length := by
  obtain ⟨hnew, hname, -⟩ := hleg
  obtain ⟨u, v, hu, hv, rfl⟩ := (encode_signature_ok hC.toLawful hnew).1 hw
  rw [hC.string_eq] at hu
  obtain ⟨hn, rfl⟩ := bytes_exact hC hu
  obtain ⟨hm, rfl⟩ := bytes_exact hC hv
  generalize hname' : s.algorithm.asStr.utf8 = name at *
  have hfirst : lengthAt (beBytes 4 name.length ++ name ++ (beBytes 4 s.body.length ++ s.body ++ s.trailer) ++ rest) 0
      = name.length := by
    rw [List.append_assoc, List.append_assoc]
    exact lengthAt_append (a := []) rfl hn
  have hslice : slice (beBytes 4 name.length ++ name ++ (beBytes 4 s.body.length ++ s.body ++ s.trailer) ++ rest) 4
      name.length = name := by
    rw [List.append_assoc, List.append_assoc]
    exact slice_middle (length_beBytes ..) rfl
  have hsecond : lengthAt (beBytes 4 name.length ++ name ++ (beBytes 4 s.body.length ++ s.body ++ s.trailer) ++ rest)
      (4 + name.length) = s.body.length := by
    rw [List.append_assoc, List.append_assoc (beBytes 4 s.body.length), List.append_assoc (beBytes 4 s.body.length)]
    exact lengthAt_append (by rw [List.length_append, length_beBytes]) hm
  have htrailer : (if name = skSshEd25519.utf8 ∨ name = skEcdsaSha2P256.utf8 then skSignatureTrailerSize else 0) =
      s.trailer.length := by
    unfold Signature.trailer
    by_cases hsk : s.algorithm.isSk = true
    · have hlong := trailer_of_new hC.toLawful hnew hsk
      rw [if_pos hsk, if_pos (List.mem_pair.1 (hname' ▸ (isSk_iff hname).2 hsk)), List.length_drop]
      omega
    · rw [if_neg hsk, if_neg (fun hmem => hsk ((isSk_iff hname).1 (hname' ▸ List.mem_pair.2 hmem)))]
      rfl
  simp only [signatureEnd]
  rw [hfirst, hslice, hsecond, htrailer]
  simp only [List.length_append, length_beBytes]
  omega

/-- **Signatures are read back from their encoding exactly when the name of their algorithm is read as the algorithm**,
the name is short enough for a label and the body for a length that is read (and both lengths are ones the crate writes);
**and what `try_from` accepts is the encoding of the answer exactly when nothing follows the signature**. -/
theorem signature_round_trip_iff (C : Crates) (hC : C.RoundTrips) :
    (∀ a data s, Signature.new C a data = .ok s →
      ((∃ w, s.encode C = .ok w ∧ Signature.tryFrom C w = .ok s) ↔
        Algorithm.fromStr a.asStr = .ok a ∧ a.asStr.len ≤ C.labelMax ∧ s.body.length ≤ C.sizeMax ∧
          C.Fits a.asStr.len ∧ C.Fits s.body.length)) ∧
    (∀ bytes s, Signature.tryFrom C bytes = .ok s →
      (s.encode C = .ok bytes ↔ bytes.length = signatureEnd bytes)) := by
  refine ⟨fun a data s hnew => ?_, fun bytes s hs => ?_⟩
  · obtain ⟨rfl, -⟩ := signatureNew_ok hnew
    constructor
    · rintro ⟨w, hw, hback⟩
      obtain ⟨rest, hrun⟩ := tryFrom_ok.1 hback
      obtain ⟨⟨-, hname, hlabel⟩, hbody⟩ := gives_ok (gives_signature hC) hrun
      exact ⟨hname, hlabel, hbody, (encode_fits_iff hC.toLawful hnew).1 ⟨w, hw⟩⟩
    · rintro ⟨hname, hlabel, hbody, hfits⟩
      obtain ⟨w, hw⟩ := (encode_fits_iff hC.toLawful hnew).2 hfits
      exact ⟨w, hw, tryFrom_ok.2 ⟨[], restores_run (restores_signature hC ⟨hnew, hname, hlabel⟩ hw hbody)⟩⟩
  · obtain ⟨rest, hrun⟩ := tryFrom_ok.1 hs
    have hleg := (gives_ok (gives_signature hC) hrun).1
    obtain ⟨w, rfl, hw⟩ := reads_ok (reads_signature hC.toLawful _) hrun
    rw [signatureEnd_encode hC hleg hw, hw, Except.ok.injEq, List.length_append]
    constructor
    · intro heq
      have := congrArg List.length heq
      rw [List.length_append] at this
      omega
    · intro hlen
      rw [List.eq_nil_of_length_eq_zero (show rest.length = 0 by omega), List.append_nil]

end

theorem signature_round_trip_iff_sk :
    Signature.new Rfc4251.utf8Crates .skEd25519 (List.replicate 69 7) = .ok ⟨.skEd25519, List.replicate 69 7⟩ ∧
      ∃ w, Signature.encode Rfc4251.utf8Crates ⟨.skEd25519, List.replicate 69 7⟩ = .ok w ∧
        Signature.tryFrom Rfc4251.utf8Crates w = .ok ⟨.skEd25519, List.replicate 69 7⟩ :=
  ⟨by decide, ((signature_round_trip_iff Rfc4251.utf8Crates Rfc4251.utf8Crates_roundTrips).1
    .skEd25519 (List.replicate 69 7) _ (by decide)).2 ⟨by decide, by decide, by decide, ⟨_, rfl⟩, ⟨_, rfl⟩⟩⟩

/-- A signature under an unknown algorithm with the name of a known one is not read back, and a byte after a signature
is not looked at. -/
theorem signature_not_read_back :
    let C := Rfc4251.crates
    let name : AlgorithmName := ⟨skSshEd25519⟩
    let other : Signature := ⟨.other name, [1]⟩
    let plain : Signature := ⟨.ed25519, List.replicate 64 7⟩
    (AlgorithmName.new skSshEd25519 = .ok name ∧ Signature.new C (.other name) [1] = .ok other ∧
      ∃ w, other.encode C = .ok w ∧ Signature.tryFrom C w = .error lengthError) ∧
    ∃ w, plain.encode C = .ok w ∧ Signature.tryFrom C (w ++ [0]) = .ok plain ∧ plain.encode C ≠ .ok (w ++ [0]) := by
  exact ⟨⟨by decide +kernel, by decide +kernel, _, rfl, by decide +kernel⟩,
    _, rfl, by decide +kernel, by decide +kernel⟩

end Ssh
end Wolf
