import WolfsslRs.SshLine
import Mathlib.Data.List.DropRight
/-!
# SshLineTrip — a public key written on a line and read back

What was decoded is written and read back as the same key, certificates and their signature keys included
(`restores_decoded`).  On a line of text there is more to go wrong.  The algorithm's name and the comment are written as
they are, and the reader has its own idea of both: the first field ends at a character that names may have and lines may
not, and white space at the end of the comment is not read (`openssh_round_trip_iff`).
-/
namespace Wolf
namespace Ssh

open Reader Program

/-! ## Decoded keys are read back -/

/-- What a key is that was decoded. -/
inductive KeyData.Decoded (C : Crates) : KeyData → Prop
  | plain {key : KeyData} : key.Legible C → Decoded C key
  | certificate {cert : Certificate} {type : Text} {name : AlgorithmName} {a : Algorithm} : type.len ≤ C.labelMax →
    Algorithm.fromStr type = .ok (.other name) → Algorithm.newCertificate type = .ok a → cert.publicKey.Readable C →
    cert.publicKey.algorithm = a.ofKey → cert.signature.Legible C → cert.comment = [] →
    Decoded C cert.signatureKey → Decoded C (.certificate cert)

section
variable {C : Crates}

theorem gives_decoded (hC : C.RoundTrips) : ∀ depth : Nat, Gives (KeyData.decodeNested C depth) (KeyData.Decoded C)
  | 0 => gives_throw
  | depth + 1 => by
    apply gives_of_ok
    intro bs key rest hrun
    obtain ⟨id, mid, hid, ⟨a, cert, name, ha, rfl, hname, hcert⟩ | ⟨-, hplain, -⟩⟩ := decodeNested_ok hrun
    · obtain ⟨⟨hread, halg⟩, hkey, ⟨hsig, -⟩, hcomment⟩ :=
        gives_ok (gives_certificateAs (gives_decoded hC depth) (gives_signature hC) a) hcert
      have hlabel := gives_ok (Q := fun t : Text => t.len ≤ C.labelMax) hC.label_le hid
      exact .certificate hlabel hname ha hread halg hsig hcomment hkey
    · exact .plain (gives_ok (gives_nested hC (depth + 1)) hrun hplain)

theorem canonicalType_back {type : Text} {name : AlgorithmName} {a : Algorithm}
    (hname : Algorithm.fromStr type = .ok (.other name)) (ha : Algorithm.newCertificate type = .ok a) :
    ∃ name' a', Algorithm.fromStr (canonicalType type) = .ok (.other name') ∧
      Algorithm.newCertificate name'.asStr = .ok a' ∧ a'.ofKey = a.ofKey := by
  unfold canonicalType
  by_cases hrsa : type = certRsaSha2256 ∨ type = certRsaSha2512
  · rw [if_pos hrsa]
    refine ⟨⟨certRsa⟩, .rsa none, by decide +kernel, by decide +kernel, ?_⟩
    rcases hrsa with rfl | rfl
    · cases (Except.ok.inj ha)
      rfl
    · cases (Except.ok.inj ha)
      rfl
  · rw [if_neg hrsa]
    refine ⟨name, a, hname, ?_, rfl⟩
    have hstr : name.asStr = type := (asStr_of_fromStr hname).1
    rw [hstr]
    exact ha

end

section
variable {C : Crates} (hC : C.CertRoundTrips)
include hC

/-- What is written of a certificate holds what is written of its signature key, and more. -/
theorem encode_signatureKey_lt {cert : Certificate} {w : Bytes} (hw : cert.encode C = .ok w)
    (hmax : w.length ≤ C.usizeMax) : ∃ inner, cert.signatureKey.encode C = .ok inner ∧ inner.length < w.length := by
  obtain ⟨type, u, v, -, hu, rfl, hv⟩ := Certificate.encode_ok.1 hw
  have hulen := hC.string_length hu
  rw [List.length_append] at hmax ⊢
  obtain ⟨x, hx, hle⟩ := cat_mem
    (p := C.encodePrefixed (cert.signatureKey.encodedLen C) (cert.signatureKey.encode C)) (by simp [Certificate.pieces]) hv
  obtain ⟨inner, hinner, hle', -⟩ := encodePrefixed_ok (announces_key hC.toLawful _) hx (by omega)
  exact ⟨inner, hinner, by omega⟩

/-- **A decoded key is read back from what is written of it**, through as many calls as it has certificates, and one;
and it has fewer certificates than bytes. -/
theorem restores_decoded {key : KeyData} (h : key.Decoded C) : ∀ {w : Bytes}, key.encode C = .ok w →
    w.length ≤ C.sizeMax →
      key.nesting ≤ w.length ∧ ∀ depth, key.nesting < depth → Restores (KeyData.decodeNested C depth) w key := by
  induction h with
  | @plain key hleg =>
    intro w hw hmax
    have hzero : key.nesting = 0 := nesting_eq_zero.2 (plain_of_readable hleg.1)
    rw [hzero]
    refine ⟨Nat.zero_le _, fun depth hdepth => ?_⟩
    cases depth with
    | zero => exact absurd hdepth (Nat.not_lt_zero _)
    | succ depth => exact restores_nested hC.toRoundTrips hleg hw hmax depth
  | @certificate cert type name a hlabel hname ha hread halg hsig hcomment _ ih =>
    intro w hw hmax
    have hnesting : (KeyData.certificate cert).nesting = cert.signatureKey.nesting + 1 :=
      congrArg (· + 1) cert.nesting_eq
    rw [hnesting]
    constructor
    · obtain ⟨inner, hinner, hlt⟩ := encode_signatureKey_lt hC hw (Nat.le_trans hmax hC.sizeMax_le)
      have hle := (ih hinner (by omega)).1
      omega
    · intro depth hdepth
      cases depth with
      | zero => exact absurd hdepth (Nat.not_lt_zero _)
      | succ depth =>
        have htype := toCertificateType_of_newCertificate ha
        by_cases hempty : EmptyNamed type
        · -- the type could not have been written
          rw [if_pos hempty] at htype
          obtain ⟨type', -, -, htype', -⟩ := Certificate.encode_ok.1 hw
          rw [halg, htype] at htype'
          cases htype'
        · rw [if_neg hempty, ← halg] at htype
          obtain ⟨name', a', hname', ha', hown⟩ := canonicalType_back hname ha
          have hlabel' := Nat.le_trans (len_canonicalType type).1 hlabel
          have hback := restores_wrapped hC htype hlabel' hname' ha' hread (halg.trans hown.symm)
            (fun _ hinner hle => (ih hinner hle).2 depth (Nat.lt_of_succ_lt_succ hdepth)) hsig hw hmax
          have hsame : { cert with comment := [] } = cert := by
            cases cert
            cases hcomment
            rfl
          rw [hsame] at hback
          exact hback

/-- What was decoded is decoded again from what is written of it. -/
theorem decode_encode {bs rest w : Bytes} {key : KeyData} (h : (KeyData.decode C).run bs = .ok key rest)
    (hw : key.encode C = .ok w) (hmax : w.length ≤ C.sizeMax) : (KeyData.decode C).run w = .ok key [] := by
  rw [run_decode_key] at h ⊢
  obtain ⟨hle, hback⟩ := restores_decoded hC (gives_ok (gives_decoded hC.toRoundTrips _) h) hw hmax
  exact restores_run (hback (w.length + 1) (Nat.lt_succ_of_le hle))

end

/-! ## Lines -/

/-- The text of a line; a comment that is empty brings no space. -/
def SshFormat.line (algorithmId base64Data comment : Text) : Text :=
  algorithmId ++ ' ' :: (base64Data ++ if comment = [] then [] else ' ' :: comment)

def isLineBreak (c : Char) : Bool := c.val = 10 || c.val = 13

/-- **What is assumed of the crates for lines**: what was written as base64 is read back, base64 has only characters that a
field may have and four for three bytes, and UTF-8 is the text it was made from. -/
structure TextCrates.RoundTrips (T : TextCrates) : Prop where
  back : ∀ x, x ≠ [] → T.base64Reader (T.base64Encode x) = .ok ⟨x, true⟩
  segment : ∀ x, ∀ c ∈ T.base64Encode x, segmentChar c = true
  len : ∀ x, (T.base64Encode x).len = 4 * ((x.length + 2) / 3)
  utf8 : ∀ t : Text, T.fromUtf8 t.utf8 = some t

/-- The length of the text can be counted, and four characters for three bytes of the key fit in it. -/
def Room (C : Crates) (keyLen : Nat) (algorithmId comment : Text) : Prop :=
  2 + algorithmId.len + base64LenApprox C keyLen + comment.len ≤ C.usizeMax ∧
    4 * ((keyLen + 2) / 3) ≤ base64LenApprox C keyLen

theorem segment_lt {c : Char} (h : segmentChar c = true) : c.toNat < 128 := by
  have hle : ∀ d : Char, c ≤ d → d.toNat < 128 → c.toNat < 128 := fun d hcd hd => Nat.lt_of_le_of_lt hcd hd
  simp only [segmentChar, Bool.or_eq_true, Bool.and_eq_true, decide_eq_true_eq] at h
  rcases h with (((((((⟨-, h⟩ | ⟨-, h⟩) | ⟨-, h⟩) | rfl) | rfl) | rfl) | rfl) | rfl) | rfl
  · exact hle _ h (by decide)
  · exact hle _ h (by decide)
  · exact hle _ h (by decide)
  all_goals decide

/-- A character of a field is no white space, and so no line break. -/
theorem not_isWhitespace_of_segment {c : Char} (h : segmentChar c = true) :
    isWhitespace c = false ∧ isLineBreak c = false := by
  have htable : ∀ n : Fin 128, segmentChar (Char.ofNat n) = true →
      isWhitespace (Char.ofNat n) = false ∧ isLineBreak (Char.ofNat n) = false := by decide
  have hc := htable ⟨c.toNat, segment_lt h⟩
  simp only [Char.ofNat_toNat] at hc
  exact hc h

theorem decodeSegment_field : ∀ {field : Text} (rest : Text), (∀ c ∈ field, segmentChar c = true) →
    decodeSegment (field ++ ' ' :: rest) = .ok (field, rest)
  | [], _, _ => rfl
  | c :: field, rest, h => by
    have hc := h c (List.mem_cons_self ..)
    have ih := decodeSegment_field rest fun d hd => h d (List.mem_cons_of_mem _ hd)
    rw [List.cons_append, decodeSegment, if_pos hc, ih]
    rfl

theorem decodeSegment_end : ∀ {field : Text}, (∀ c ∈ field, segmentChar c = true) →
    decodeSegment field = .ok (field, [])
  | [], _ => rfl
  | c :: field, h => by
    have hc := h c (List.mem_cons_self ..)
    have ih := decodeSegment_end fun d hd => h d (List.mem_cons_of_mem _ hd)
    rw [decodeSegment, if_pos hc, ih]
    rfl

theorem segment_of_decodeSegment : ∀ {t field rest : Text}, decodeSegment t = .ok (field, rest) →
    ∀ c ∈ field, segmentChar c = true
  | [], _, _, h => by
    cases h
    simp
  | c :: t, field, rest, h => by
    unfold decodeSegment at h
    split at h
    · rename_i hc
      obtain ⟨⟨field', rest'⟩, ht, h⟩ := bind_ok.1 h
      cases h
      intro d hd
      rcases List.mem_cons.1 hd with rfl | hd
      · exact hc
      · exact segment_of_decodeSegment ht d hd
    · split at h
      · cases h
        simp
      · cases h

/-! ## White space at the end -/

theorem trimEnd_eq_self {t : Text} : trimEnd t = t ↔ ∀ h : t ≠ [], isWhitespace (t.getLast h) = false := by
  have hdrop : trimEnd t = t.rdropWhile isWhitespace := rfl
  rw [hdrop, List.rdropWhile_eq_self_iff]
  simp

theorem trimEnd_trimEnd (t : Text) : trimEnd (trimEnd t) = trimEnd t :=
  List.rdropWhile_idempotent isWhitespace t

theorem trimEnd_subset (t : Text) : trimEnd t ⊆ t := by
  have hfront := List.rdropWhile_prefix isWhitespace t
  exact hfront.subset

theorem trimEnd_append {x y : Text} (hne : y ≠ []) (hy : trimEnd y = y) : trimEnd (x ++ y) = x ++ y := by
  rw [trimEnd_eq_self] at hy ⊢
  intro h
  rw [List.getLast_append_of_ne_nil h hne]
  exact hy hne

theorem trimEnd_segment {t : Text} (h : ∀ c ∈ t, segmentChar c = true) : trimEnd t = t := by
  rw [trimEnd_eq_self]
  intro hne
  exact (not_isWhitespace_of_segment (h _ (List.getLast_mem hne))).1

/-- What was read of a line: the first field has the characters of a field, and the comment no white space at its end. -/
theorem decode_format_ok {t : Text} {encapsulation : SshFormat} (h : SshFormat.decode t = .ok encapsulation) :
    (∀ c ∈ encapsulation.algorithmId, segmentChar c = true) ∧
      trimEnd encapsulation.comment = encapsulation.comment := by
  obtain ⟨rest, rest', hid, -, hcomment, -⟩ := decode_segments h
  refine ⟨segment_of_decodeSegment hid, ?_⟩
  rw [hcomment]
  exact trimEnd_trimEnd rest'

theorem trimEnd_line (algorithmId : Text) {base64Data comment : Text} (hdata : ∀ c ∈ base64Data, segmentChar c = true)
    (hne : base64Data ≠ []) (hcomment : trimEnd comment = comment) :
    trimEnd (SshFormat.line algorithmId base64Data comment) = SshFormat.line algorithmId base64Data comment := by
  unfold SshFormat.line
  by_cases hc : comment = []
  · rw [if_pos hc, List.append_nil, ← List.singleton_append, ← List.append_assoc]
    exact trimEnd_append hne (trimEnd_segment hdata)
  · rw [if_neg hc, ← List.singleton_append, ← List.singleton_append (l := comment), ← List.append_assoc,
      ← List.append_assoc, ← List.append_assoc]
    exact trimEnd_append hc hcomment

/-- **A line is read as its parts.** -/
theorem decode_line {algorithmId base64Data comment : Text} (hid : ∀ c ∈ algorithmId, segmentChar c = true)
    (hdata : ∀ c ∈ base64Data, segmentChar c = true) (hne : algorithmId ≠ []) (hne' : base64Data ≠ [])
    (hcomment : trimEnd comment = comment) :
    SshFormat.decode (trimEnd (SshFormat.line algorithmId base64Data comment))
      = .ok ⟨algorithmId, base64Data, comment⟩ := by
  have hsecond : decodeSegment (base64Data ++ if comment = [] then [] else ' ' :: comment)
      = .ok (base64Data, comment) := by
    by_cases hc : comment = []
    · rw [if_pos hc, List.append_nil, hc]
      exact decodeSegment_end hdata
    · rw [if_neg hc]
      exact decodeSegment_field comment hdata
  rw [trimEnd_line _ hdata hne' hcomment]
  refine bind_ok.2 ⟨_, decodeSegment_field _ hid, bind_ok.2 ⟨_, hsecond, ?_⟩⟩
  dsimp only
  rw [hcomment, if_neg (by simp [hne, hne'])]

theorem mem_line_comment {id base64Data comment : Text} {c : Char} (h : c ∈ comment) :
    c ∈ SshFormat.line id base64Data comment := by
  unfold SshFormat.line
  rw [if_neg (List.ne_nil_of_mem h)]
  simp [h]

/-- A line has the characters of fields, spaces, and the comment. -/
theorem of_mem_line {id base64Data comment : Text} (hid : ∀ c ∈ id, segmentChar c = true)
    (hdata : ∀ c ∈ base64Data, segmentChar c = true) {c : Char} (h : c ∈ SshFormat.line id base64Data comment) :
    segmentChar c = true ∨ c = ' ' ∨ c ∈ comment := by
  rcases List.mem_append.1 h with hc | hc
  · exact .inl (hid c hc)
  rcases List.mem_cons.1 hc with rfl | hc
  · exact .inr (.inl rfl)
  rcases List.mem_append.1 hc with hc | hc
  · exact .inl (hdata c hc)
  by_cases hempty : comment = []
  · rw [if_pos hempty] at hc
    cases hc
  · rw [if_neg hempty] at hc
    exact .inr (List.mem_cons.1 hc)

/-- Only the comment can break a line. -/
theorem not_isLineBreak_of_mem_line {id base64Data comment : Text} (hid : ∀ c ∈ id, segmentChar c = true)
    (hdata : ∀ c ∈ base64Data, segmentChar c = true) (hcomment : ∀ c ∈ comment, isLineBreak c = false) :
    ∀ c ∈ SshFormat.line id base64Data comment, isLineBreak c = false := by
  intro c hc
  rcases of_mem_line hid hdata hc with hc | rfl | hc
  · exact (not_isWhitespace_of_segment hc).2
  · decide
  · exact hcomment c hc

/-! ## Writing a line -/

/-- The buffer is of the length of the text, counted. -/
theorem capacity_ok {C : Crates} {id approx comment capacity : Nat} :
    C.total [.ok 2, .ok id, .ok approx, .ok comment] = .ok capacity ↔
      capacity = 2 + id + approx + comment ∧ capacity ≤ C.usizeMax := by
  have hsum : Reader.total C.usizeMax lengthError ([2, id, approx, comment].map Except.ok) = .ok capacity ↔ _ := total_oks
  simp only [List.sum_cons, List.sum_nil] at hsum
  refine hsum.trans ⟨fun h => ?_, fun h => ?_⟩
  · omega
  · omega

section
variable {C : Crates} {T : TextCrates} (hT : T.RoundTrips)
include hT

/-- **A line is written if there is room for it**, and then it is the line. -/
theorem encodeString_ok {id comment t : Text} {bytes : Bytes} :
    SshFormat.encodeString C T id (.ok bytes.length) (.ok bytes) comment = .ok t ↔
      Room C bytes.length id comment ∧ t = SshFormat.line id (T.base64Encode bytes) comment := by
  have hout : (id ++ ' ' :: T.base64Encode bytes).len = id.len + 1 + 4 * ((bytes.length + 2) / 3) := by
    have hspace : Char.utf8Size ' ' = 1 := rfl
    rw [Text.len_append, Text.len_cons, hspace, hT.len]
    omega
  have hfour : base64LenApprox C bytes.length % 4 = 0 := Nat.mul_mod_left _ 4
  have hnil : comment = [] → comment.len = 0 := fun h => by rw [h]; rfl
  unfold Room SshFormat.line
  show (C.total _ >>= _) = .ok t ↔ _
  rw [bind_ok]
  constructor
  · rintro ⟨capacity, hcapacity, h⟩
    obtain ⟨hcapacity, hle⟩ := capacity_ok.1 hcapacity
    rw [if_neg (show ¬ capacity < id.len + 1 by omega)] at h
    obtain ⟨_, hbytes, h⟩ := bind_ok.1 h
    cases hbytes
    simp only [hout] at h
    by_cases hc : comment = []
    · have hzero := hnil hc
      split at h
      · cases h
      · rename_i hfits
        rw [hc] at h
        cases h
        rw [if_pos hc, List.append_nil]
        exact ⟨⟨by omega, by omega⟩, rfl⟩
    · rw [if_neg (show ¬ comment.isEmpty = true by simpa using hc)] at h
      split at h
      · cases h
      · split at h
        · cases h
        · rename_i hfits
          cases h
          rw [if_neg hc]
          exact ⟨⟨by omega, by omega⟩, by simp⟩
  · rintro ⟨⟨hle, hroom⟩, rfl⟩
    refine ⟨_, capacity_ok.2 ⟨rfl, hle⟩, ?_⟩
    rw [if_neg (by omega)]
    refine bind_ok.2 ⟨bytes, rfl, ?_⟩
    simp only [hout]
    rw [if_neg (by omega)]
    by_cases hc : comment = []
    · rw [if_pos (by simpa using hc), if_pos hc, List.append_nil]
    · rw [if_neg (by simpa using hc), if_neg (by omega), if_neg hc]
      simp

theorem asStrLossy_utf8 (t : Text) : asStrLossy T t.utf8 = t := by
  unfold asStrLossy
  cases hn : t.utf8.length with
  | zero =>
    have hnil : t.utf8 = Text.utf8 [] := List.eq_nil_of_length_eq_zero hn
    have hback := hT.utf8 t
    rw [hnil, hT.utf8] at hback
    cases hback
    rfl
  | succ n =>
    rw [List.range_succ, List.reverse_append, List.reverse_singleton, List.singleton_append, List.findSome?_cons,
      List.take_of_length_le (by omega), hT.utf8]
    rfl

theorem toOpenssh_ok {key : KeyData} {comment t : Text} {w : Bytes} (hw : key.encode C = .ok w)
    (hlen : key.encodedLen C = .ok w.length) : PublicKey.toOpenssh C T ⟨key, comment.utf8⟩ = .ok t ↔
      Room C w.length key.algorithm.asStr comment ∧
        t = SshFormat.line key.algorithm.asStr (T.base64Encode w) comment := by
  unfold PublicKey.toOpenssh
  rw [asStrLossy_utf8 hT, hw, hlen]
  exact encodeString_ok hT

theorem base64Encode_ne_nil {x : Bytes} (hne : x ≠ []) : T.base64Encode x ≠ [] := by
  intro hnil
  have hlen := hT.len x
  have hpos := List.length_pos_of_ne_nil hne
  have hzero : Text.len [] = 0 := rfl
  rw [hnil, hzero] at hlen
  omega

end

/-! ## Names -/

theorem marked_of_fromStr {id : Text} {a : Algorithm} (h : Algorithm.fromStr id = .ok a) : '-' ∈ id ∨ '@' ∈ id := by
  have htable : ∀ p ∈ plainNames, '-' ∈ p.1 ∨ '@' ∈ p.1 := by decide +kernel
  unfold Algorithm.fromStr at h
  cases hl : plainNames.lookup id with
  | some b => exact htable _ (mem_of_lookup hl)
  | none =>
    simp only [hl] at h
    obtain ⟨name, hname, -⟩ := bind_ok.1 h
    obtain ⟨rfl, n, d, hid, -⟩ := new_ok hname
    exact .inr (by rw [show id = n ++ '@' :: d from hid]; simp)

theorem marked_of_newCertificate {id : Text} {a : Algorithm} (h : Algorithm.newCertificate id = .ok a) :
    '-' ∈ a.ofKey.asStr ∨ '@' ∈ a.ofKey.asStr := by
  have htable : ∀ p ∈ certNames, '-' ∈ p.2.ofKey.asStr ∨ '@' ∈ p.2.ofKey.asStr := by decide +kernel
  rcases newCertificate_ok h with hmem | ⟨-, n, d, -, rfl, -⟩
  · exact htable _ hmem
  · right
    show '@' ∈ n ++ '@' :: d
    simp

/-- The name of a decoded key's algorithm has a character that base64 has not. -/
theorem marked_of_decode {C : Crates} {bs rest : Bytes} {key : KeyData} (h : (KeyData.decode C).run bs = .ok key rest) :
    '-' ∈ key.algorithm.asStr ∨ '@' ∈ key.algorithm.asStr := by
  rw [run_decode_key] at h
  obtain ⟨id, mid, -, ⟨a, cert, name, ha, rfl, -, hcert⟩ | ⟨-, -, a, ha, halg⟩⟩ := decodeNested_ok h
  · obtain ⟨⟨-, halg⟩, -⟩ := gives_ok (gives_certificateAs gives_true gives_true a) hcert
    have hkey : (KeyData.certificate cert).algorithm = a.ofKey := cert.algorithm_eq.trans halg
    rw [hkey]
    exact marked_of_newCertificate ha
  · rw [halg, (asStr_of_fromStr ha).2]
    unfold canonicalLabel
    split
    · decide
    · exact marked_of_fromStr ha

theorem asStr_ne_nil {C : Crates} {bs rest : Bytes} {key : KeyData} (h : (KeyData.decode C).run bs = .ok key rest) :
    key.algorithm.asStr ≠ [] := by
  rcases marked_of_decode h with hmem | hmem
  · exact List.ne_nil_of_mem hmem
  · exact List.ne_nil_of_mem hmem

/-! ## Round trips -/

/-- A key begins with a name, whose length alone takes four bytes. -/
theorem ne_nil_of_decode {C : Crates} (hC : C.Lawful) {bs rest : Bytes} {key : KeyData}
    (h : (KeyData.decode C).run bs = .ok key rest) : bs ≠ [] := by
  rw [run_decode_key] at h
  obtain ⟨id, mid, hid, -⟩ := decodeNested_ok h
  obtain ⟨u, rfl, hu⟩ := reads_ok (hC.label _) hid
  have hlen := hC.string_length hu
  intro hnil
  rw [List.append_eq_nil_iff] at hnil
  rw [hnil.1, List.length_nil] at hlen
  omega

section
variable {C : Crates} {T : TextCrates} (hC : C.CertRoundTrips) (hT : T.RoundTrips)
include hC hT

/-- The line of a decoded key is read back just when the reader's characters and white space agree with it. -/
theorem fromOpenssh_line_iff {bs rest w : Bytes} {key : KeyData} (h : (KeyData.decode C).run bs = .ok key rest)
    (hw : key.encode C = .ok w) (hmax : w.length ≤ C.sizeMax) (comment : Text) :
    PublicKey.fromOpenssh C T (SshFormat.line key.algorithm.asStr (T.base64Encode w) comment)
        = .ok ⟨key, comment.utf8⟩ ↔
      (∀ c ∈ key.algorithm.asStr, segmentChar c = true) ∧ trimEnd comment = comment := by
  constructor
  · intro hread
    obtain ⟨encapsulation, reader, hformat, -, -, -, hname, hcomment⟩ := fromOpenssh_ok.1 hread
    obtain ⟨hsegment, htrim⟩ := decode_format_ok hformat
    rw [hname] at hsegment
    rw [← utf8_inj hcomment] at htrim
    exact ⟨hsegment, htrim⟩
  · rintro ⟨hsegment, htrim⟩
    have hback := decode_encode hC h hw hmax
    have hne : w ≠ [] := ne_nil_of_decode hC.toLawful hback
    exact fromOpenssh_ok.2 ⟨_, _, decode_line hsegment (hT.segment w) (asStr_ne_nil h) (base64Encode_ne_nil hT hne)
      htrim, hT.back w hne, hback, rfl, rfl, rfl⟩

end

/-! ## Base64 is read back -/

namespace Rfc4648

theorem idxOf_digit (n : Nat) : alphabet.idxOf? (alphabet.getD (n % 64) '=') = some (n % 64) := by
  have htable : ∀ k : Fin 64, alphabet.idxOf? (alphabet.getD k '=') = some k.val := by decide +kernel
  exact htable ⟨n % 64, Nat.mod_lt n (by decide)⟩

theorem digit_segment (n : Nat) : segmentChar (alphabet.getD (n % 64) '=') = true := by
  have htable : ∀ k : Fin 64, segmentChar (alphabet.getD k '=') = true := by decide +kernel
  exact htable ⟨n % 64, Nat.mod_lt n (by decide)⟩

theorem digit_ne (n : Nat) : alphabet.getD (n % 64) '=' ≠ '=' := by
  intro h
  have hidx := idxOf_digit n
  have hno : alphabet.idxOf? '=' = none := by decide +kernel
  rw [h, hno] at hidx
  cases hidx

theorem ofNat_eq {n : Nat} {b : UInt8} (h : n % 256 = b.toNat) : UInt8.ofNat n = b := by
  apply UInt8.toNat_inj.1
  rw [UInt8.toNat_ofNat']
  exact h

theorem digits_segment : ∀ k n, ∀ c ∈ digits k n, segmentChar c = true
  | 0, _, _, h => by cases h
  | k + 1, n, c, h => by
    rcases List.mem_append.1 h with h | h
    · exact digits_segment k (n / 64) c h
    · rw [List.mem_singleton.1 h]
      exact digit_segment n

theorem encode_segment : ∀ x, ∀ c ∈ encode x, segmentChar c = true
  | a :: b :: c :: x, d, h => by
    rcases List.mem_append.1 h with h | h
    · exact digits_segment 4 _ d h
    · exact encode_segment x d h
  | [a, b], d, h => by
    rcases List.mem_append.1 h with h | h
    · exact digits_segment 3 _ d h
    · rw [List.mem_singleton.1 h]
      decide
  | [a], d, h => by
    rcases List.mem_append.1 h with h | h
    · exact digits_segment 2 _ d h
    · rcases List.mem_pair.1 h with rfl | rfl <;> decide
  | [], _, h => by cases h

theorem length_digits : ∀ k n, (digits k n).length = k
  | 0, _ => rfl
  | k + 1, n => by rw [digits, List.length_append, length_digits k, List.length_singleton]

theorem length_encode : ∀ x, (encode x).length = 4 * ((x.length + 2) / 3)
  | a :: b :: c :: x => by
    have ih := length_encode x
    rw [encode, List.length_append, length_digits, ih]
    simp only [List.length_cons]
    omega
  | [a, b] => by rw [encode, List.length_append, length_digits]; simp
  | [a] => by rw [encode, List.length_append, length_digits]; simp
  | [] => rfl

theorem len_eq_length : ∀ {t : Text}, (∀ c ∈ t, segmentChar c = true) → t.len = t.length
  | [], _ => rfl
  | c :: t, h => by
    have hlt := segment_lt (h c (List.mem_cons_self ..))
    have ih := len_eq_length fun d hd => h d (List.mem_cons_of_mem _ hd)
    rw [Text.len_cons, ih, Char.utf8Size_eq_one_iff.2 (Nat.le_of_lt_succ hlt), List.length_cons, Nat.add_comm]

/-- **What is written is read back.** -/
theorem decode_encode : ∀ x, decode (encode x) = (x, true)
  | a :: b :: c :: x => by
    have ha := a.toNat_lt
    have hb := b.toNat_lt
    have hc := c.toNat_lt
    have ih := decode_encode x
    simp only [encode, digits, List.nil_append, List.cons_append, decode, idxOf_digit, digit_ne, false_and, if_false, ih]
    refine congrArg (·, true) ?_
    refine congrArg₂ List.cons (ofNat_eq ?_) (congrArg₂ List.cons (ofNat_eq ?_) (congrArg₂ List.cons (ofNat_eq ?_) rfl))
    all_goals
      simp only [beNat, List.length_cons, List.length_nil]
      omega
  | [a, b] => by
    have ha := a.toNat_lt
    have hb := b.toNat_lt
    simp only [encode, digits, List.nil_append, List.cons_append, decode, idxOf_digit, digit_ne, false_and, if_false,
      and_self, if_true]
    refine congrArg (·, true) (congrArg₂ List.cons (ofNat_eq ?_) (congrArg₂ List.cons (ofNat_eq ?_) rfl))
    all_goals
      simp only [beNat, List.length_cons, List.length_nil]
      omega
  | [a] => by
    have ha := a.toNat_lt
    simp only [encode, digits, List.nil_append, List.cons_append, decode, idxOf_digit, and_self, if_true]
    refine congrArg (·, true) (congrArg₂ List.cons (ofNat_eq ?_) rfl)
    simp only [beNat, List.length_nil]
    omega
  | [] => rfl

/-- Base64, and all of UTF-8 for text. -/
def lineCrates : TextCrates := { crates with fromUtf8 := fun x => (Rfc4251.ofUtf8 x).toOption }

theorem lineCrates_roundTrips : lineCrates.RoundTrips where
  back x _ := by
    show Except.ok (Base64Reader.mk (decode (encode x)).1 (decode (encode x)).2) = _
    rw [decode_encode]
  segment := encode_segment
  len x := (len_eq_length (encode_segment x)).trans (length_encode x)
  utf8 t := by
    show (Rfc4251.ofUtf8 t.utf8).toOption = some t
    rw [Rfc4251.ofUtf8_utf8]
    rfl

end Rfc4648

/-- **When a key comes back from its line.**  A decoded key with a comment in UTF-8 is written on one line that is read as
the same key and comment just when every certificate type in its bytes has a name, its algorithm's name has only
characters that a field may have, the comment has no white space at its end and no line break, and the length of the line
can be counted. -/
theorem openssh_round_trip_iff (C : Crates) (T : TextCrates) (hC : C.CertRoundTrips) (hT : T.RoundTrips) (b : Bytes)
    (key : PublicKey) (comment : Text) (hb : b.length ≤ C.sizeMax) (hkey : PublicKey.fromBytes C b = .ok key) :
    (∃ t, PublicKey.toOpenssh C T ⟨key.keyData, comment.utf8⟩ = .ok t ∧ (∀ c ∈ t, isLineBreak c = false) ∧
        PublicKey.fromOpenssh C T t = .ok ⟨key.keyData, comment.utf8⟩) ↔
      (∃ sp, Spells C sp key.keyData b ∧ sp.Named) ∧
      (∀ c ∈ key.keyData.algorithm.asStr, segmentChar c = true) ∧
      trimEnd comment = comment ∧ (∀ c ∈ comment, isLineBreak c = false) ∧
      ∀ n, key.keyData.encodedLen C = .ok n → Room C n key.keyData.algorithm.asStr comment := by
  obtain ⟨keyData, hdecode, hkey⟩ := bind_ok.1 hkey
  cases hkey
  obtain ⟨sp, hsp⟩ := finish_ok (reads_keyData hC.toLawful b.length) hdecode
  have hrun := finish_run.1 hdecode
  have hb' := Nat.le_trans hb hC.sizeMax_le
  by_cases hnamed : sp.Named
  · obtain ⟨w, hw, hlen, hle⟩ := encode_of_named hC.toLawful hsp hb' hnamed
    have hread := fromOpenssh_line_iff hC hT hrun hw (Nat.le_trans hle hb) comment
    constructor
    · rintro ⟨t, ht, hbreaks, hback⟩
      obtain ⟨hroom, rfl⟩ := (toOpenssh_ok hT hw hlen).1 ht
      obtain ⟨hsegment, htrim⟩ := hread.1 hback
      refine ⟨⟨sp, hsp, hnamed⟩, hsegment, htrim, fun c hc => hbreaks c (mem_line_comment hc), ?_⟩
      intro n hn
      rw [hlen] at hn
      rw [← Except.ok.inj hn]
      exact hroom
    · rintro ⟨-, hsegment, htrim, hbreaks, hroom⟩
      refine ⟨_, (toOpenssh_ok hT hw hlen).2 ⟨hroom _ hlen, rfl⟩, ?_, hread.2 ⟨hsegment, htrim⟩⟩
      exact not_isLineBreak_of_mem_line hsegment (hT.segment w) hbreaks
  · -- a name is missing: the length of the key is not known, and asking for it panics
    obtain ⟨hvalid, hvalue, hbytes⟩ := hsp
    have hpanic := encodedLen_of_unnamed hC.toLawful hvalid hnamed hbytes hb'
    constructor
    · rintro ⟨t, ht, -⟩
      obtain ⟨n, hn, -⟩ := bind_ok.1 ht
      rw [hvalue] at hpanic
      rw [hpanic] at hn
      cases hn
    · rintro ⟨⟨sp', hsp', hnamed'⟩, -⟩
      obtain ⟨w, -, hlen, -⟩ := encode_of_named hC.toLawful hsp' hb' hnamed'
      rw [← hvalue, hpanic] at hlen
      cases hlen

/-- An opaque key under the given name. -/
def Sample.otherBytes (name : Text) : Bytes := Sample.str name.utf8 ++ Sample.str [5]

def Sample.other (name : Text) : KeyData := .other ⟨.other ⟨name⟩, [5]⟩

def Sample.name : Text := "my-key@example.com".toList

def Sample.underscored : Text := "my_key@example.com".toList

def Sample.comment : Text := "user on host".toList

theorem openssh_round_trip_sample :
    ∃ t, PublicKey.toOpenssh Rfc4251.wireCrates Rfc4648.lineCrates ⟨Sample.other Sample.name, Sample.comment.utf8⟩
        = .ok t ∧ (∀ c ∈ t, isLineBreak c = false) ∧
      PublicKey.fromOpenssh Rfc4251.wireCrates Rfc4648.lineCrates t
        = .ok ⟨Sample.other Sample.name, Sample.comment.utf8⟩ := by
  have hiff := openssh_round_trip_iff Rfc4251.wireCrates Rfc4648.lineCrates Rfc4251.wireCrates_roundTrips
    Rfc4648.lineCrates_roundTrips (Sample.otherBytes Sample.name) ⟨Sample.other Sample.name, []⟩ Sample.comment
    (by decide +kernel) (by decide +kernel)
  have hspells : Spells Rfc4251.wireCrates (.plain Sample.name (Sample.other Sample.name)) (Sample.other Sample.name)
      (Sample.otherBytes Sample.name) :=
    ⟨⟨⟨.other ⟨Sample.name⟩, by decide +kernel, rfl⟩, rfl⟩, rfl, by decide +kernel⟩
  have hlen : (Sample.other Sample.name).encodedLen Rfc4251.wireCrates = .ok 27 := by decide +kernel
  have hname : (Sample.other Sample.name).algorithm.asStr.all segmentChar = true := by decide +kernel
  have hcomment : Sample.comment.any isLineBreak = false := by decide +kernel
  refine hiff.2 ⟨⟨_, hspells, trivial⟩, List.all_eq_true.1 hname, by decide +kernel, fun c hc => ?_, fun n hn => ?_⟩
  · exact Bool.eq_false_iff.2 (List.any_eq_false.1 hcomment c hc)
  rw [hlen] at hn
  rw [← Except.ok.inj hn]
  unfold Room
  decide +kernel

/-- A name with an underscore is accepted and written, and its line is refused; white space behind the comment is not
read back; and a line break in the comment is written as it is. -/
theorem openssh_line_not_read_back :
    (PublicKey.fromBytes Rfc4251.wireCrates (Sample.otherBytes Sample.underscored)
        = .ok ⟨Sample.other Sample.underscored, []⟩ ∧
      (do let t ← PublicKey.toOpenssh Rfc4251.wireCrates Rfc4648.lineCrates ⟨Sample.other Sample.underscored, []⟩
          PublicKey.fromOpenssh Rfc4251.wireCrates Rfc4648.lineCrates t)
        = .error (.error (.encoding .characterEncoding))) ∧
    (do let t ← PublicKey.toOpenssh Rfc4251.wireCrates Rfc4648.lineCrates
          ⟨Sample.other Sample.name, Text.utf8 (Sample.comment ++ [' '])⟩
        PublicKey.fromOpenssh Rfc4251.wireCrates Rfc4648.lineCrates t)
      = .ok ⟨Sample.other Sample.name, Sample.comment.utf8⟩ ∧
    (do let t ← PublicKey.toOpenssh Rfc4251.wireCrates Rfc4648.lineCrates
          ⟨Sample.other Sample.name, Text.utf8 (Sample.comment ++ '\n' :: Sample.comment)⟩
        .ok (t.any isLineBreak)) = .ok true := by
  decide +kernel

end Ssh
end Wolf
