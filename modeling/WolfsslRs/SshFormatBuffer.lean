import WolfsslRs.CMemory
import WolfsslRs.SshLineTrip
/-!
# SshFormatBuffer — the buffer a line is written into (`public/ssh_format.rs`)

`encode_string` allocates a buffer for the line before it knows the line, from the announced length of the key, and
`encode` writes into it part by part, each of which is refused if it does not fit.  The length of base64 is guessed with
`base64_len_approx`, which is exact as long as its product does not saturate (`base64LenApprox_exact`); then every line
fits into its buffer (`openssh_line_fits`).
-/
namespace Wolf
namespace Ssh

open Program

/-- The output of `encode`: the buffer, and where the next part goes. -/
structure LineBuffer where
  out : Bytes
  offset : Nat

def base64Error : Exit := .error (.encoding .base64)

section
variable (C : Crates) (T : TextCrates)

def encodeStr (b : LineBuffer) (s : Text) : Except Exit LineBuffer :=
  if C.usizeMax < b.offset + s.len then .error lengthError
  else if b.out.length < b.offset + s.len then .error lengthError
  else .ok ⟨splice b.out b.offset s.utf8, b.offset + s.len⟩

/-- The `Base64Writer` on `out[offset..]`: it is not made for an empty slice, and fails where a character does not fit. -/
def writeBase64 (b : LineBuffer) (key : Except Exit Bytes) : Except Exit LineBuffer :=
  if b.out.length < b.offset then .error (.panic "range start index out of range for slice")
  else if b.out.length = b.offset then .error base64Error
  else do
    let base64 := T.base64Encode (← key)
    if b.out.length < b.offset + base64.len then .error base64Error
    else if C.usizeMax < b.offset + base64.len then .error lengthError
    else .ok ⟨splice b.out b.offset base64.utf8, b.offset + base64.len⟩

/-- `str::from_utf8` and `String::from_utf8`. -/
def fromUtf8 (bytes : Bytes) : Except Exit Text :=
  match T.fromUtf8 bytes with
  | some t => .ok t
  | none => .error (.error (.encoding .characterEncoding))

/-- The `if` of `encode` around the comment. -/
def encodeComment (b : LineBuffer) (comment : Text) : Except Exit LineBuffer :=
  if comment.isEmpty then .ok b
  else do
    let b ← encodeStr C b [' ']
    encodeStr C b comment

/-- `SshFormat::encode`, with the buffer as it leaves it. -/
def SshFormat.encode (algorithmId : Text) (key : Except Exit Bytes) (comment : Text) (out : Bytes) :
    Except Exit (Bytes × Text) := do
  let b ← encodeStr C ⟨out, 0⟩ algorithmId
  let b ← encodeStr C b [' ']
  let b ← writeBase64 C T b key
  let b ← encodeComment C b comment
  .ok (b.out, ← fromUtf8 T (b.out.take b.offset))

/-- `SshFormat::encode_string`; a `vec!` of more than `isize::MAX` bytes panics. -/
def SshFormat.encodeStringBuffered (algorithmId : Text) (keyLen : Except Exit Nat) (key : Except Exit Bytes)
    (comment : Text) : Except Exit Text := do
  let len ← keyLen
  let encodedLen ← C.total [.ok 2, .ok algorithmId.len, .ok (base64LenApprox C len), .ok comment.len]
  if C.usizeMax / 2 < encodedLen then .error (.panic "capacity overflow")
  else do
    let (out, line) ← SshFormat.encode C T algorithmId key comment (List.replicate encodedLen 0)
    fromUtf8 T (out.take line.len)

def PublicKey.toOpensshBuffered (key : PublicKey) : Except Exit Text :=
  SshFormat.encodeStringBuffered C T key.keyData.algorithm.asStr (key.keyData.encodedLen C) (key.keyData.encode C)
    (asStrLossy T key.comment)

def Certificate.toOpensshBuffered (cert : Certificate) : Except Exit Text := do
  let type ← cert.algorithm.toCertificateType
  SshFormat.encodeStringBuffered C T type (cert.encodedLen C) (cert.encode C) (asStrLossy T cert.comment)

end

/-! ## The length of base64 -/

/-- **The guess is exact** as long as nothing saturates. -/
theorem base64LenApprox_exact {C : Crates} {n : Nat} (hmul : n * 4 ≤ C.usizeMax) (hadd : n * 4 / 3 + 3 ≤ C.usizeMax) :
    base64LenApprox C n = 4 * ((n + 2) / 3) := by
  rw [base64LenApprox, Nat.min_eq_left hmul, Nat.min_eq_left hadd]
  omega

/-! ## Parts of a line -/

theorem Text.utf8_append (s t : Text) : Text.utf8 (s ++ t) = s.utf8 ++ t.utf8 := List.flatMap_append

/-- `front` is what was written so far into a buffer of `n` bytes. -/
structure LineBuffer.Holds (n : Nat) (front : Text) (b : LineBuffer) : Prop where
  length : b.out.length = n
  offset : b.offset = front.len
  front : b.out.take b.offset = front.utf8

theorem LineBuffer.Holds.write {n : Nat} {front : Text} {b : LineBuffer} (h : b.Holds n front) (s : Text)
    (hfits : (front ++ s).len ≤ n) : LineBuffer.Holds n (front ++ s) ⟨splice b.out b.offset s.utf8, b.offset + s.len⟩ := by
  rw [Text.len_append] at hfits
  have hroom : b.offset + s.utf8.length ≤ b.out.length := by
    rw [h.offset, h.length]
    exact hfits
  refine ⟨(length_splice hroom).trans h.length, ?_, ?_⟩
  · rw [Text.len_append]
    exact congrArg (· + s.len) h.offset
  · exact (take_splice (by omega)).trans (by rw [h.front, Text.utf8_append])

section
variable {C : Crates} {T : TextCrates} {n : Nat} {front : Text} {b : LineBuffer}

/-- **A part is written exactly if it fits.** -/
theorem encodeStr_ok (h : b.Holds n front) (hn : n ≤ C.usizeMax) {s : Text} {b' : LineBuffer} :
    encodeStr C b s = .ok b' ↔
      (front ++ s).len ≤ n ∧ b' = ⟨splice b.out b.offset s.utf8, b.offset + s.len⟩ := by
  unfold encodeStr
  rw [h.length, h.offset, Text.len_append]
  by_cases hfits : front.len + s.len ≤ n
  · rw [if_neg (by omega), if_neg (by omega), Except.ok.injEq, and_iff_right hfits, eq_comm]
  · refine iff_of_false (fun hok => ?_) fun hok => hfits hok.1
    split at hok
    · cases hok
    · rw [if_pos (by omega)] at hok
      cases hok

theorem writeBase64_ok (h : b.Holds n front) (hn : n ≤ C.usizeMax) (hspace : front.len < n) {bytes : Bytes}
    {b' : LineBuffer} : writeBase64 C T b (.ok bytes) = .ok b' ↔ (front ++ T.base64Encode bytes).len ≤ n ∧
      b' = ⟨splice b.out b.offset (T.base64Encode bytes).utf8, b.offset + (T.base64Encode bytes).len⟩ := by
  unfold writeBase64
  rw [h.length, h.offset, Text.len_append, if_neg (by omega), if_neg (by omega)]
  simp only [bind, Except.bind]
  by_cases hfits : front.len + (T.base64Encode bytes).len ≤ n
  · rw [if_neg (by omega), if_neg (by omega), Except.ok.injEq, and_iff_right hfits, eq_comm]
  · rw [if_pos (by omega)]
    exact iff_of_false nofun fun hok => hfits hok.1

theorem encodeStr_holds (h : b.Holds n front) (hn : n ≤ C.usizeMax) {s : Text} (hfits : (front ++ s).len ≤ n) :
    ∃ b', encodeStr C b s = .ok b' ∧ b'.Holds n (front ++ s) :=
  ⟨_, (encodeStr_ok h hn).2 ⟨hfits, rfl⟩, h.write s hfits⟩

theorem of_encodeStr (h : b.Holds n front) (hn : n ≤ C.usizeMax) {s : Text} {b' : LineBuffer}
    (hok : encodeStr C b s = .ok b') : (front ++ s).len ≤ n ∧ b'.Holds n (front ++ s) := by
  obtain ⟨hfits, rfl⟩ := (encodeStr_ok h hn).1 hok
  exact ⟨hfits, h.write s hfits⟩

end

theorem holds_empty (out : Bytes) : LineBuffer.Holds out.length [] ⟨out, 0⟩ := ⟨rfl, rfl, rfl⟩

/-! ## Lines -/

section
variable {C : Crates} {T : TextCrates} (hT : T.RoundTrips) {id comment : Text} {bytes out : Bytes}

theorem line_eq (id base64Data comment : Text) : SshFormat.line id base64Data comment =
    if comment = [] then id ++ [' '] ++ base64Data else id ++ [' '] ++ base64Data ++ [' '] ++ comment := by
  unfold SshFormat.line
  split <;> simp

/-- **What `encode` writes before the comment**, if there is room for it. -/
theorem encode_front (bytes : Bytes) (comment : Text) (hn : out.length ≤ C.usizeMax) (hspace : id.len + 1 < out.length)
    (hfits : (id ++ [' '] ++ T.base64Encode bytes).len ≤ out.length) :
    ∃ b, b.Holds out.length (id ++ [' '] ++ T.base64Encode bytes) ∧
      SshFormat.encode C T id (.ok bytes) comment out = (do
        let b ← encodeComment C b comment
        .ok (b.out, ← fromUtf8 T (b.out.take b.offset))) := by
  have hone : Text.len [' '] = 1 := by decide
  have hid : (id ++ [' ']).len = id.len + 1 := by rw [Text.len_append, hone]
  obtain ⟨b₁, hb₁, h₁⟩ := encodeStr_holds (s := id) (holds_empty out) hn (by rw [List.nil_append]; omega)
  rw [List.nil_append] at h₁
  obtain ⟨b₂, hb₂, h₂⟩ := encodeStr_holds (s := [' ']) h₁ hn (by omega)
  have hb₃ := (writeBase64_ok (T := T) h₂ hn (by omega)).2 ⟨hfits, rfl⟩
  refine ⟨_, h₂.write _ hfits, ?_⟩
  unfold SshFormat.encode
  rw [hb₁]
  simp only [bind, Except.bind]
  rw [hb₂]
  simp only
  rw [hb₃]

/-- **The comment, behind the rest of the line.** -/
theorem encodeComment_holds {n : Nat} {base64Data : Text} {b : LineBuffer} (h : b.Holds n (id ++ [' '] ++ base64Data))
    (hn : n ≤ C.usizeMax) (hfits : (SshFormat.line id base64Data comment).len ≤ n) :
    ∃ b', encodeComment C b comment = .ok b' ∧ b'.Holds n (SshFormat.line id base64Data comment) := by
  rw [line_eq] at hfits ⊢
  unfold encodeComment
  by_cases hc : comment = []
  · rw [if_pos hc, if_pos (by simpa using hc)]
    exact ⟨b, rfl, h⟩
  · rw [if_neg hc] at hfits ⊢
    have hspace : (id ++ [' '] ++ base64Data ++ [' ']).len ≤ n := by
      rw [Text.len_append] at hfits
      omega
    obtain ⟨b₁, hb₁, h₁⟩ := encodeStr_holds h hn hspace
    obtain ⟨b₂, hb₂, h₂⟩ := encodeStr_holds h₁ hn hfits
    rw [if_neg (by simpa using hc)]
    exact ⟨b₂, bind_ok.2 ⟨b₁, hb₁, hb₂⟩, h₂⟩

theorem len_front_le (id base64Data comment : Text) :
    (id ++ [' '] ++ base64Data).len ≤ (SshFormat.line id base64Data comment).len := by
  rw [line_eq]
  split
  · exact Nat.le_refl _
  · rw [Text.len_append _ comment, Text.len_append _ [' ']]
    omega

include hT

theorem fromUtf8_utf8 (t : Text) : fromUtf8 T t.utf8 = .ok t := by
  rw [fromUtf8, hT.utf8 t]

/-- **A line that fits is written**, and the buffer begins with it. -/
theorem encode_fits (id comment : Text) (bytes out : Bytes) (hn : out.length ≤ C.usizeMax) (hspace : id.len + 1 < out.length)
    (hfits : (SshFormat.line id (T.base64Encode bytes) comment).len ≤ out.length) :
    ∃ out', SshFormat.encode C T id (.ok bytes) comment out =
        .ok (out', SshFormat.line id (T.base64Encode bytes) comment) ∧
      out'.take (SshFormat.line id (T.base64Encode bytes) comment).len =
        (SshFormat.line id (T.base64Encode bytes) comment).utf8 := by
  obtain ⟨b, hb, hencode⟩ := encode_front bytes comment hn hspace (Nat.le_trans (len_front_le ..) hfits)
  obtain ⟨b', hb', h'⟩ := encodeComment_holds hb hn hfits
  refine ⟨b'.out, ?_, ?_⟩
  · rw [hencode]
    refine bind_ok.2 ⟨b', hb', bind_ok.2 ⟨_, ?_, rfl⟩⟩
    rw [h'.front]
    exact fromUtf8_utf8 hT _
  · rw [← h'.offset, h'.front]

omit hT in
theorem fits_of_encode (hn : out.length ≤ C.usizeMax) (hspace : id.len + 1 < out.length) {r : Bytes × Text}
    (hok : SshFormat.encode C T id (.ok bytes) comment out = .ok r) :
    (SshFormat.line id (T.base64Encode bytes) comment).len ≤ out.length := by
  obtain ⟨b₁, hb₁, hok⟩ := bind_ok.1 hok
  obtain ⟨b₂, hb₂, hok⟩ := bind_ok.1 hok
  obtain ⟨b₃, hb₃, hok⟩ := bind_ok.1 hok
  obtain ⟨b₄, hb₄, -⟩ := bind_ok.1 hok
  obtain ⟨-, h₁⟩ := of_encodeStr (holds_empty out) hn hb₁
  obtain ⟨-, h₂⟩ := of_encodeStr h₁ hn hb₂
  rw [List.nil_append] at h₂
  have hone : Text.len [' '] = 1 := by decide
  obtain ⟨hfits, rfl⟩ := (writeBase64_ok h₂ hn (by rw [Text.len_append, hone]; exact hspace)).1 hb₃
  rw [line_eq]
  by_cases hc : comment = []
  · rw [if_pos hc]
    exact hfits
  · rw [encodeComment, if_neg (by simpa using hc)] at hb₄
    obtain ⟨b₅, hb₅, hb₄⟩ := bind_ok.1 hb₄
    obtain ⟨-, h₅⟩ := of_encodeStr (h₂.write _ hfits) hn hb₅
    rw [if_neg hc]
    exact (of_encodeStr h₅ hn hb₄).1

/-- **A line fits into its buffer exactly if its base64 is not longer than guessed**: the one space a line without a comment
leaves over is less than a group of base64. -/
theorem line_fits_iff (id comment : Text) (bytes : Bytes) : (SshFormat.line id (T.base64Encode bytes) comment).len ≤
    2 + id.len + base64LenApprox C bytes.length + comment.len ↔
      4 * ((bytes.length + 2) / 3) ≤ base64LenApprox C bytes.length := by
  have hone : Text.len [' '] = 1 := by decide
  have hfour : base64LenApprox C bytes.length % 4 = 0 := Nat.mul_mod_left _ 4
  rw [line_eq]
  by_cases hc : comment = []
  · have hzero : comment.len = 0 := by rw [hc]; rfl
    rw [if_pos hc, Text.len_append, Text.len_append, hone, hT.len]
    omega
  · rw [if_neg hc, Text.len_append, Text.len_append, Text.len_append, Text.len_append, hone, hT.len]
    omega

/-- **With the buffer and without**: the line is the same, as long as the buffer can be allocated. -/
theorem encodeStringBuffered_ok {t : Text} :
    SshFormat.encodeStringBuffered C T id (.ok bytes.length) (.ok bytes) comment = .ok t ↔
      SshFormat.encodeString C T id (.ok bytes.length) (.ok bytes) comment = .ok t ∧
        2 + id.len + base64LenApprox C bytes.length + comment.len ≤ C.usizeMax / 2 := by
  rw [encodeString_ok hT]
  constructor
  · intro h
    obtain ⟨_, hlen, h⟩ := bind_ok.1 h
    cases hlen
    obtain ⟨capacity, hcapacity, h⟩ := bind_ok.1 h
    obtain ⟨hsum, hle⟩ := capacity_ok.1 hcapacity
    split at h
    · cases h
    · rename_i hhalf
      have hn : (List.replicate capacity (0 : UInt8)).length = capacity := List.length_replicate
      obtain ⟨⟨out', line⟩, hencode, h⟩ := bind_ok.1 h
      have hfits := fits_of_encode (by rw [hn]; exact hle) (by rw [hn]; omega) hencode
      obtain ⟨out'', hencode', hfront⟩ := encode_fits hT id comment bytes _ (by rw [hn]; exact hle) (by rw [hn]; omega) hfits
      rw [hencode] at hencode'
      cases hencode'
      simp only at h
      rw [hfront, fromUtf8_utf8 hT] at h
      rw [hn, hsum] at hfits
      exact ⟨⟨⟨by omega, (line_fits_iff hT id comment bytes).1 hfits⟩, (Except.ok.inj h).symm⟩, by omega⟩
  · rintro ⟨⟨⟨hle, hroom⟩, rfl⟩, hhalf⟩
    have hn : ∀ n, (List.replicate n (0 : UInt8)).length = n := fun n => List.length_replicate
    obtain ⟨out', hencode, hfront⟩ := encode_fits hT id comment bytes
      (List.replicate (2 + id.len + base64LenApprox C bytes.length + comment.len) 0) (by rw [hn]; exact hle)
      (by rw [hn]; omega) (by rw [hn]; exact (line_fits_iff hT id comment bytes).2 hroom)
    refine bind_ok.2 ⟨_, rfl, bind_ok.2 ⟨_, capacity_ok.2 ⟨rfl, hle⟩, ?_⟩⟩
    rw [if_neg (by omega)]
    refine bind_ok.2 ⟨_, hencode, ?_⟩
    simp only
    rw [hfront]
    exact fromUtf8_utf8 hT _

end

/-! ## Names -/

theorem len_asStr_le_type {a : Algorithm} {type : Text} (h : a.toCertificateType = .ok type) : a.asStr.len ≤ type.len := by
  cases a with
  | other name =>
    rw [Algorithm.toCertificateType, AlgorithmName.certificateType] at h
    split at h
    · rename_i n d hparts
      cases h
      have hid : name.id = n ++ '@' :: d := (splitAlgorithmId_ok.1 hparts).1
      show name.id.len ≤ _
      rw [hid, Text.len_append, Text.len_append, Text.len_append]
      omega
    · cases h
  | ecdsa curve =>
    cases curve with
    | nistP256 => cases h; decide +kernel
    | nistP384 => cases h; decide +kernel
    | nistP521 => cases h; decide +kernel
  | rsa hash =>
    cases hash with
    | none => cases h; decide +kernel
    | some hash =>
      cases hash with
      | sha256 => cases h; decide +kernel
      | sha512 => cases h; decide +kernel
  | dsa => cases h; decide +kernel
  | ed25519 => cases h; decide +kernel
  | skEcdsaSha2NistP256 => cases h; decide +kernel
  | skEd25519 => cases h; decide +kernel

section
variable {C : Crates} (hC : C.Lawful)
include hC

theorem len_type_le {cert : Certificate} {w : Bytes} (hw : cert.encode C = .ok w) :
    ∃ type, cert.algorithm.toCertificateType = .ok type ∧ type.len ≤ w.length := by
  obtain ⟨type, u, v, htype, hu, rfl, -⟩ := Certificate.encode_ok.1 hw
  have hlen := hC.string_length hu
  refine ⟨type, by rw [Certificate.algorithm_eq]; exact htype, ?_⟩
  rw [List.length_append]
  omega

/-- A key is longer than its algorithm's name, which it begins with, or the type of a certificate for it. -/
theorem len_name_le {key : KeyData} {w : Bytes} (hw : key.encode C = .ok w) : key.algorithm.asStr.len ≤ w.length := by
  rw [KeyData.encode, KeyData.labelled] at hw
  split at hw
  · rename_i hcert
    cases key with
    | certificate cert =>
      rw [KeyData.encodeKeyData] at hw
      obtain ⟨type, htype, hle⟩ := len_type_le hC hw
      exact Nat.le_trans (len_asStr_le_type htype) hle
    | _ => cases hcert
  · obtain ⟨u, hu, v, -, rfl⟩ := Reader.cat_cons.1 hw
    have hlen := hC.string_length hu
    rw [List.length_append]
    omega

end

/-! ## Keys and certificates -/

section
variable {C : Crates} {T : TextCrates} (hC : C.Lawful) (hT : T.RoundTrips) (h64 : C.usizeMax = 2 ^ 64 - 1)
include h64

theorem base64LenApprox_64 {n : Nat} (hn : n < 2 ^ 61) : base64LenApprox C n = 4 * ((n + 2) / 3) :=
  base64LenApprox_exact (by omega) (by omega)

include hT

/-- The line, or a panic where its buffer is larger than anything that can be allocated. -/
def lineOrOverflow (C : Crates) (T : TextCrates) (id : Text) (bytes : Bytes) (comment : Text) : Except Exit Text :=
  if 2 + id.len + base64LenApprox C bytes.length + comment.len ≤ C.usizeMax / 2 then
    .ok (SshFormat.line id (T.base64Encode bytes) comment)
  else .error (.panic "capacity overflow")

/-- **A name no longer than the key and a comment that is in memory** are written with the key, or no buffer is there. -/
theorem encodeStringBuffered_eq {id comment : Text} {bytes : Bytes} (hbytes : bytes.length < 2 ^ 61)
    (hid : id.len ≤ bytes.length) (hcomment : comment.len ≤ C.usizeMax / 2) :
    SshFormat.encodeStringBuffered C T id (.ok bytes.length) (.ok bytes) comment = lineOrOverflow C T id bytes comment := by
  have happrox := base64LenApprox_64 h64 hbytes
  have hle : 2 + id.len + base64LenApprox C bytes.length + comment.len ≤ C.usizeMax := by omega
  unfold lineOrOverflow
  by_cases hhalf : 2 + id.len + base64LenApprox C bytes.length + comment.len ≤ C.usizeMax / 2
  · rw [if_pos hhalf]
    exact (encodeStringBuffered_ok hT).2 ⟨(encodeString_ok hT).2 ⟨⟨hle, Nat.le_of_eq happrox.symm⟩, rfl⟩, hhalf⟩
  · rw [if_neg hhalf]
    have htotal := (capacity_ok (C := C)).2 ⟨rfl, hle⟩
    unfold SshFormat.encodeStringBuffered
    simp only [bind, Except.bind]
    rw [htotal]
    exact if_pos (by omega)

end

/-- **Every line fits into its buffer**, on a target of 64 bits and for keys of less than 2⁶¹ bytes: the guessed length is
the length, `encode` succeeds on a buffer of the computed size, and a key or a certificate that can be encoded is written,
unless the buffer cannot be allocated. -/
theorem openssh_line_fits (C : Crates) (T : TextCrates) (hC : C.Lawful) (hT : T.RoundTrips) (h64 : C.usizeMax = 2 ^ 64 - 1) :
    (∀ n < 2 ^ 61, base64LenApprox C n = 4 * ((n + 2) / 3)) ∧
    (∀ id comment bytes out, bytes.length < 2 ^ 61 → out.length ≤ C.usizeMax →
      out.length = 2 + id.len + base64LenApprox C bytes.length + comment.len →
      ∃ out', SshFormat.encode C T id (.ok bytes) comment out =
        .ok (out', SshFormat.line id (T.base64Encode bytes) comment)) ∧
    (∀ (key : PublicKey) w, key.keyData.encode C = .ok w → w.length < 2 ^ 61 →
      (asStrLossy T key.comment).len ≤ C.usizeMax / 2 →
      key.toOpensshBuffered C T = lineOrOverflow C T key.keyData.algorithm.asStr w (asStrLossy T key.comment)) ∧
    (∀ (cert : Certificate) w, cert.encode C = .ok w → w.length < 2 ^ 61 →
      (asStrLossy T cert.comment).len ≤ C.usizeMax / 2 → ∃ type, cert.algorithm.toCertificateType = .ok type ∧
        cert.toOpensshBuffered C T = lineOrOverflow C T type w (asStrLossy T cert.comment)) := by
  refine ⟨fun n hn => base64LenApprox_64 h64 hn, ?_, ?_, ?_⟩
  · intro id comment bytes out hbytes hmax hout
    have happrox := base64LenApprox_64 h64 hbytes
    have hfits := (line_fits_iff hT id comment bytes).2 (Nat.le_of_eq happrox.symm)
    rw [← hout] at hfits
    obtain ⟨out', hencode, -⟩ := encode_fits hT id comment bytes out hmax (by omega) hfits
    exact ⟨out', hencode⟩
  · intro key w hw hlen hcomment
    have hannounced := announces_key hC key.keyData w hw (by omega)
    rw [PublicKey.toOpensshBuffered, hannounced, hw]
    exact encodeStringBuffered_eq hT h64 hlen (len_name_le hC hw) hcomment
  · intro cert w hw hlen hcomment
    have hannounced := announces_certificate hC cert w hw (by omega)
    obtain ⟨type, htype, hle⟩ := len_type_le hC hw
    refine ⟨type, htype, ?_⟩
    rw [Certificate.toOpensshBuffered, htype, hannounced, hw]
    exact encodeStringBuffered_eq hT h64 hlen hle hcomment

theorem openssh_line_fits_sample :
    base64LenApprox Rfc4251.wireCrates 27 = 36 ∧
      PublicKey.toOpensshBuffered Rfc4251.wireCrates Rfc4648.lineCrates ⟨Sample.other Sample.name, Sample.comment.utf8⟩ =
        .ok (SshFormat.line Sample.name (Rfc4648.encode (Sample.otherBytes Sample.name)) Sample.comment) := by
  obtain ⟨hexact, -, hkey, -⟩ := openssh_line_fits Rfc4251.wireCrates Rfc4648.lineCrates
    Rfc4251.wireCrates_roundTrips.toLawful Rfc4648.lineCrates_roundTrips rfl
  have hline := hkey ⟨Sample.other Sample.name, Sample.comment.utf8⟩ (Sample.otherBytes Sample.name) (by decide +kernel)
    (by decide +kernel) (by decide +kernel)
  refine ⟨hexact 27 (by decide), hline.trans ?_⟩
  decide +kernel

end Ssh
end Wolf
