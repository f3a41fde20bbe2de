import WolfsslRs.SshAnnounce
/-!
# SshReencode — writing a decoded key again

Encoding what was decoded writes the normal form of its spelling: the RSA hash is dropped from identifiers and
certificate types, and an option whose value is the empty string gets an empty block (`writes_spelling`).  The normal
form is shorter than any other spelling (`shrinks_spelling`), so the bytes come back exactly when the spelling was
normal to begin with, and encoding panics when some certificate type has an empty name (`encodedLen_of_unnamed`).
-/
namespace Wolf
namespace Ssh

open Reader

/-! ## Normal spellings -/

def SpelledOptions.normalData : Option Text → Option Text
  | some [] => none
  | o => o

def SpelledOptions.normalize (o : SpelledOptions) : SpelledOptions where
  entries := o.entries.map (fun e => (e.1, normalData e.2))
  sorted := by
    rw [List.map_map]
    exact o.sorted

def Body.normalize (b : Body) : Body :=
  { b with criticalOptions := b.criticalOptions.normalize, extensions := b.extensions.normalize }

def Spelling.normalize : Spelling → Spelling
  | .plain label key => .plain (canonicalLabel label) key
  | .certificate type body signatureKey => .certificate (canonicalType type) body.normalize signatureKey.normalize

/-- No option's value is spelled as a block with an empty string in it. -/
def SpelledOptions.Plain (o : SpelledOptions) : Prop := ∀ e ∈ o.entries, e.2 ≠ some []

/-- No RSA hash in an identifier or a certificate type, no empty string in an option's block; signature keys
included. -/
def Spelling.Plain : Spelling → Prop
  | .plain label _ => label ≠ rsaSha2256 ∧ label ≠ rsaSha2512
  | .certificate type body signatureKey => (type ≠ certRsaSha2256 ∧ type ≠ certRsaSha2512) ∧
      body.criticalOptions.Plain ∧ body.extensions.Plain ∧ signatureKey.Plain

/-- No certificate type with nothing in front of `-cert-v01`; signature keys included. -/
def Spelling.Named : Spelling → Prop
  | .plain _ _ => True
  | .certificate type _ signatureKey => ¬ EmptyNamed type ∧ signatureKey.Named

theorem SpelledOptions.normalize_of_plain {o : SpelledOptions} (h : o.Plain) : o.normalize = o := by
  have hdata : ∀ e ∈ o.entries, (e.1, normalData e.2) = e := by
    rintro ⟨name, data⟩ he
    have := h _ he
    rcases data with _ | _ | ⟨c, t⟩
    · rfl
    · exact absurd rfl this
    · rfl
  obtain ⟨entries, sorted⟩ := o
  have : entries.map (fun e => (e.1, normalData e.2)) = entries := by
    conv_rhs => rw [← List.map_id entries]
    exact List.map_congr_left hdata
  simp only [SpelledOptions.normalize, this]

theorem Spelling.normalize_of_plain : ∀ {sp : Spelling}, sp.Plain → sp.normalize = sp
  | .plain label key, h => by
    rw [Spelling.normalize, canonicalLabel, if_neg (not_or.2 h)]
  | .certificate type body signatureKey, ⟨htype, hcrit, hext, hkey⟩ => by
    rw [Spelling.normalize, canonicalType, if_neg (not_or.2 htype), normalize_of_plain hkey, Body.normalize,
      SpelledOptions.normalize_of_plain hcrit, SpelledOptions.normalize_of_plain hext]

/-! ## The normal form is the shortest -/

/-- `p'` is written if `p` is, on no more bytes, and on as many only if `Q`. -/
def Shrinks (Q : Prop) (p' p : Except Exit Bytes) : Prop :=
  ∀ w, p = .ok w → ∃ w', p' = .ok w' ∧ w'.length ≤ w.length ∧ (w'.length = w.length → Q)

theorem shrinks_refl (p : Except Exit Bytes) : Shrinks True p p :=
  fun w hw => ⟨w, hw, Nat.le_refl _, fun _ => trivial⟩

theorem shrinks_imp {Q R : Prop} {p' p : Except Exit Bytes} (h : Shrinks Q p' p) (hQR : Q → R) : Shrinks R p' p := by
  intro w hw
  obtain ⟨w', hw', hle, heq⟩ := h w hw
  exact ⟨w', hw', hle, fun h => hQR (heq h)⟩

theorem shrinks_cons {Q R : Prop} {p' p : Except Exit Bytes} {ps' ps : List (Except Exit Bytes)} (h : Shrinks Q p' p)
    (hs : Shrinks R (cat ps') (cat ps)) : Shrinks (Q ∧ R) (cat (p' :: ps')) (cat (p :: ps)) := by
  intro w hw
  obtain ⟨u, hu, v, hv, rfl⟩ := cat_cons.1 hw
  obtain ⟨u', hu', hule, hueq⟩ := h u hu
  obtain ⟨v', hv', hvle, hveq⟩ := hs v hv
  refine ⟨u' ++ v', cat_ok hu' hv', ?_, ?_⟩
  · rw [List.length_append, List.length_append]
    omega
  · intro heq
    rw [List.length_append, List.length_append] at heq
    exact ⟨hueq (by omega), hveq (by omega)⟩

theorem shrinks_same {R : Prop} {p : Except Exit Bytes} {ps' ps : List (Except Exit Bytes)}
    (hs : Shrinks R (cat ps') (cat ps)) : Shrinks R (cat (p :: ps')) (cat (p :: ps)) :=
  shrinks_imp (shrinks_cons (shrinks_refl p) hs) And.right

section
variable {C : Crates} (hC : C.Lawful)
include hC

theorem shrinks_block {Q : Prop} {p' p : Except Exit Bytes} (h : Shrinks Q p' p) :
    Shrinks Q (block C p') (block C p) := by
  intro w hw
  obtain ⟨x, hx, hw⟩ := block_ok.1 hw
  obtain ⟨u, hu, rfl, hfour⟩ := hC.prefixed_ok hw
  obtain ⟨x', hx', hle, heq⟩ := h x hx
  obtain ⟨u', hu'⟩ := hC.usize_le _ _ _ hu hle
  have hfour' := hC.usize_length _ _ hu'
  refine ⟨u' ++ x', block_ok.2 ⟨x', hx', cat_pair.2 ⟨u', x', hu', rfl, rfl⟩⟩, ?_, ?_⟩
  · rw [List.length_append, List.length_append]
    omega
  · intro hlen
    rw [List.length_append, List.length_append] at hlen
    exact heq (by omega)

theorem shrinks_string {Q : Prop} {t' t : Text} (hle : t'.len ≤ t.len) (heq : t'.len = t.len → Q) :
    Shrinks Q (C.string.encode t') (C.string.encode t) := by
  intro w hw
  obtain ⟨w', hw'⟩ := hC.string_le hw hle
  have hlen := hC.string_length hw
  have hlen' := hC.string_length hw'
  exact ⟨w', hw', by omega, fun h => heq (by omega)⟩

omit hC in
theorem len_canonicalType (id : Text) : (canonicalType id).len ≤ id.len ∧
    ((canonicalType id).len = id.len → id ≠ certRsaSha2256 ∧ id ≠ certRsaSha2512) := by
  unfold canonicalType
  by_cases h : id = certRsaSha2256 ∨ id = certRsaSha2512
  · rw [if_pos h]
    rcases h with rfl | rfl <;> exact ⟨by decide, fun h => absurd h (by decide)⟩
  · rw [if_neg h]
    exact ⟨Nat.le_refl _, fun _ => not_or.1 h⟩

omit hC in
theorem len_canonicalLabel (id : Text) : (canonicalLabel id).len ≤ id.len ∧
    ((canonicalLabel id).len = id.len → id ≠ rsaSha2256 ∧ id ≠ rsaSha2512) := by
  unfold canonicalLabel
  by_cases h : id = rsaSha2256 ∨ id = rsaSha2512
  · rw [if_pos h]
    rcases h with rfl | rfl <;> exact ⟨by decide, fun h => absurd h (by decide)⟩
  · rw [if_neg h]
    exact ⟨Nat.le_refl _, fun _ => not_or.1 h⟩

theorem shrinks_data (o : Option Text) : Shrinks (o ≠ some [])
    (SpelledOptions.dataBytes C (SpelledOptions.normalData o)) (SpelledOptions.dataBytes C o) := by
  rcases o with _ | _ | ⟨c, t⟩
  · exact shrinks_imp (shrinks_refl _) (fun _ => nofun)
  · intro w hw
    have hlen := hC.string_length hw
    refine ⟨[], rfl, Nat.zero_le _, fun h => ?_⟩
    rw [List.length_nil] at h
    omega
  · exact shrinks_imp (shrinks_refl _) (fun _ => nofun)

theorem shrinks_entries : ∀ es : List (Text × Option Text), Shrinks (∀ e ∈ es, e.2 ≠ some [])
    (cat ((es.map (fun e => (e.1, SpelledOptions.normalData e.2))).map (SpelledOptions.entryBytes C)))
    (cat (es.map (SpelledOptions.entryBytes C)))
  | [] => shrinks_imp (shrinks_refl _) (fun _ => nofun)
  | e :: es => by
    have hentry : Shrinks (e.2 ≠ some []) (SpelledOptions.entryBytes C (e.1, SpelledOptions.normalData e.2))
        (SpelledOptions.entryBytes C e) :=
      shrinks_imp (shrinks_same (shrinks_cons (shrinks_block hC (shrinks_data hC e.2)) (shrinks_refl _))) And.left
    refine shrinks_imp (shrinks_cons hentry (shrinks_entries es)) ?_
    rintro ⟨he, hes⟩ e' he'
    rcases List.mem_cons.1 he' with rfl | he'
    · exact he
    · exact hes e' he'

theorem shrinks_options (o : SpelledOptions) : Shrinks o.Plain (o.normalize.bytes C) (o.bytes C) :=
  shrinks_block hC (shrinks_entries hC o.entries)

/-- **The normal form is the shortest spelling**, and shorter than every other. -/
theorem shrinks_spelling : ∀ sp : Spelling, Shrinks sp.Plain (sp.normalize.bytes C) (sp.bytes C)
  | .plain label key => by
    have hlabel := len_canonicalLabel label
    exact shrinks_imp (shrinks_cons (shrinks_string hC hlabel.1 hlabel.2) (shrinks_refl _)) And.left
  | .certificate type body signatureKey => by
    have htype := len_canonicalType type
    refine shrinks_imp (shrinks_cons (shrinks_string hC htype.1 htype.2)
      (shrinks_same (shrinks_same (shrinks_same (shrinks_same (shrinks_same (shrinks_same (shrinks_same (shrinks_same
        (shrinks_cons (shrinks_options hC body.criticalOptions) (shrinks_cons (shrinks_options hC body.extensions)
          (shrinks_same (shrinks_cons (shrinks_block hC (shrinks_spelling signatureKey)) (shrinks_refl _)))))))))))))) ?_
    rintro ⟨htype, hcrit, hext, hkey, -⟩
    exact ⟨htype, hcrit, hext, hkey⟩

end

/-! ## What is written is the normal form -/

/-- If `q` gives bytes that fit in memory, `p` gives the same and `l` announces their length. -/
def Writes (C : Crates) (l : Except Exit Nat) (p q : Except Exit Bytes) : Prop :=
  ∀ w, q = .ok w → w.length ≤ C.usizeMax → p = .ok w ∧ l = .ok w.length

section
variable {C : Crates}

theorem writes_of_announces {l : Except Exit Nat} {p : Except Exit Bytes} (h : Announces C.usizeMax l p) :
    Writes C l p p := fun w hw hmax => ⟨hw, h w hw hmax⟩

theorem writes_nil : Writes C (C.total []) (cat []) (cat []) := by
  intro w hw _
  rw [cat_nil] at hw
  subst hw
  exact ⟨rfl, rfl⟩

theorem writes_cons {l : Except Exit Nat} {p q : Except Exit Bytes} {ls : List (Except Exit Nat)}
    {ps qs : List (Except Exit Bytes)} (h : Writes C l p q) (hs : Writes C (C.total ls) (cat ps) (cat qs)) :
    Writes C (C.total (l :: ls)) (cat (p :: ps)) (cat (q :: qs)) := by
  intro w hw hmax
  obtain ⟨u, hu, v, hv, rfl⟩ := cat_cons.1 hw
  rw [List.length_append] at hmax ⊢
  obtain ⟨hp, hl⟩ := h u hu (by omega)
  obtain ⟨hps, hls⟩ := hs v hv (by omega)
  exact ⟨cat_ok hp hps, total_cons hl hls hmax⟩

end

section
variable {C : Crates} (hC : C.Lawful)
include hC

theorem writes_block {l : Except Exit Nat} {p q : Except Exit Bytes} (h : Writes C l p q) :
    Writes C (C.encodedLenPrefixed l) (C.encodePrefixed l p) (block C q) := by
  intro w hw hmax
  obtain ⟨inner, hinner, hw⟩ := block_ok.1 hw
  obtain ⟨u, hu, rfl, hfour⟩ := hC.prefixed_ok hw
  rw [List.length_append, hfour] at hmax ⊢
  obtain ⟨hp, hl⟩ := h inner hinner (by omega)
  refine ⟨?_, ?_⟩
  · rw [Crates.encodePrefixed, hl, hp]
    exact hw
  · exact total_cons rfl (total_one hl (by omega)) (by omega)

theorem writes_bytes (x : Bytes) : Writes C (C.bytes.encodedLen x) (C.bytes.encode x) (C.bytes.encode x) :=
  writes_of_announces (hC.bytes.announces x)

theorem writes_string (t : Text) : Writes C (C.string.encodedLen t) (C.string.encode t) (C.string.encode t) :=
  writes_of_announces (hC.string.announces t)

theorem writes_data (o : Option Text) :
    Writes C (if o.getD [] = [] then .ok 4 else C.encodedLenPrefixed (C.string.encodedLen (o.getD [])))
      (if o.getD [] = [] then C.usize.encode 0
        else C.encodePrefixed (C.string.encodedLen (o.getD [])) (C.string.encode (o.getD [])))
      (block C (SpelledOptions.dataBytes C (SpelledOptions.normalData o))) := by
  have hempty : Writes C (.ok 4) (C.usize.encode 0) (block C (.ok [])) := by
    intro w hw _
    obtain ⟨_, hx, hw⟩ := block_ok.1 hw
    cases hx
    obtain ⟨u, hu, rfl, hfour⟩ := hC.prefixed_ok hw
    rw [List.append_nil, hfour]
    exact ⟨hu, rfl⟩
  rcases o with _ | _ | ⟨c, t⟩
  · exact hempty
  · exact hempty
  · exact writes_block hC (writes_string hC (c :: t))

theorem writes_entries : ∀ (es : List (Text × Option Text)) (w : Bytes),
    cat ((es.map (fun e => (e.1, SpelledOptions.normalData e.2))).map (SpelledOptions.entryBytes C)) = .ok w →
    w.length ≤ C.usizeMax → cat ((es.map (fun e => (e.1, e.2.getD []))).map (OptionsMap.encodeEntry C)) = .ok w
  | [], _, hw, _ => hw
  | e :: es, w, hw, hmax => by
    obtain ⟨u, hu, v, hv, rfl⟩ := cat_cons.1 hw
    rw [List.length_append] at hmax
    obtain ⟨hentry, -⟩ := writes_cons (writes_string hC e.1) (writes_cons (writes_data hC e.2) writes_nil) u hu
      (by omega)
    exact cat_ok hentry (writes_entries es v hv (by omega))

theorem writes_options (o : SpelledOptions) :
    Writes C (o.toMap.encodedLen C) (o.toMap.encode C) (o.normalize.bytes C) := by
  intro w hw hmax
  obtain ⟨inner, hinner, hw⟩ := block_ok.1 hw
  obtain ⟨u, hu, rfl, hfour⟩ := hC.prefixed_ok hw
  rw [List.length_append, hfour] at hmax ⊢
  have hentries := writes_entries hC o.entries inner hinner (by omega)
  have hlen : o.toMap.encodedLen C = .ok (4 + inner.length) := announces_entries hC o.toMap.entries 4 inner hentries hmax
  refine ⟨?_, hlen⟩
  rw [OptionsMap.encode, hlen]
  show (if 4 + inner.length < 4 then _ else _) = _
  rw [if_neg (by omega), Nat.add_sub_cancel_left]
  exact cat_ok hu hentries

omit hC in
/-- The type that is written for a certificate, from the one it was spelled with. -/
theorem toCertificateType_of_valid {type : Text} {body : Body} {key : Spelling}
    (h : (Spelling.certificate type body key).Valid) (signatureKey : KeyData) :
    (body.cert signatureKey).algorithm.toCertificateType
      = if EmptyNamed type then .error (.panic "format checked in constructor") else .ok (canonicalType type) := by
  obtain ⟨⟨a, ha, halg⟩, -⟩ := h
  rw [Certificate.algorithm_eq]
  show body.publicKey.algorithm.toCertificateType = _
  rw [halg, toCertificateType_of_newCertificate ha]

/-- **Encoding a decoded key writes the normal form of its spelling**, and announces its length. -/
theorem writes_spelling : ∀ {sp : Spelling}, sp.Valid → sp.Named →
    Writes C (sp.value.encodedLen C) (sp.value.encode C) (sp.normalize.bytes C)
  | .plain label key, ⟨⟨a, ha, halg⟩, hcert⟩, _ => by
    have hlabel : key.algorithm.asStr = canonicalLabel label := by
      rw [halg, (asStr_of_fromStr ha).2]
    show Writes C (key.labelledLen C _) (key.labelled C _) _
    rw [KeyData.labelledLen, KeyData.labelled, hcert, hlabel]
    exact writes_cons (writes_string hC _) (writes_cons (writes_of_announces (announces_keyData hC hcert)) writes_nil)
  | .certificate type body signatureKey, hvalid, ⟨hname, hnamed⟩ => by
    have ih := writes_spelling hvalid.2.2 hnamed
    have hcert := hvalid.2.1
    show Writes C ((body.cert signatureKey.value).encodedLen C) ((body.cert signatureKey.value).encode C) _
    rw [Certificate.encodedLen_eq, Certificate.encode_eq, Certificate.encodeTbs, Certificate.tbsOf, cat_concat,
      Certificate.lenOf, toCertificateType_of_valid hvalid, if_neg hname]
    exact writes_cons (writes_string hC _) (writes_cons (writes_bytes hC _)
      (writes_cons (writes_of_announces (announces_keyData hC hcert))
      (writes_cons (writes_of_announces (hC.u64.announces _))
      (writes_cons (writes_of_announces (announces_certType hC _)) (writes_cons (writes_string hC _)
      (writes_cons (writes_of_announces (hC.strings.announces _))
      (writes_cons (writes_of_announces (hC.u64.announces _)) (writes_cons (writes_of_announces (hC.u64.announces _))
      (writes_cons (writes_options hC _) (writes_cons (writes_options hC _) (writes_cons (writes_bytes hC _)
      (writes_cons (writes_block hC ih) (writes_cons (writes_block hC (writes_of_announces (announces_signature hC _)))
        writes_nil)))))))))))))

/-! ## Empty names -/

omit hC in
theorem total_skip {l : Except Exit Nat} {ls : List (Except Exit Nat)} {e : Exit} (hl : ∃ k, l = .ok k)
    (hls : C.total ls = .error e) : C.total (l :: ls) = .error e := by
  obtain ⟨k, rfl⟩ := hl
  unfold Crates.total at hls ⊢
  simp [total, hls, bind, Except.bind]

omit hC in
theorem spells_signatureKey {type : Text} {body : Body} {key : Spelling} {w : Bytes}
    (hvalid : (Spelling.certificate type body key).Valid) (hw : (Spelling.certificate type body key).bytes C = .ok w) :
    ∃ v, Spells C key key.value v ∧ v.length ≤ w.length := by
  obtain ⟨u, hu, hle⟩ := cat_mem (p := block C (key.bytes C)) (by simp [Body.pieces]) hw
  obtain ⟨inner, hinner, hu⟩ := block_ok.1 hu
  obtain ⟨_, hx, hxle⟩ := cat_mem (p := .ok inner) (by simp) hu
  cases hx
  exact ⟨inner, ⟨hvalid.2.2, rfl, hinner⟩, by omega⟩

section
variable {type : Text} {body : Body} {signatureKey : Spelling} {w : Bytes}
  (hw : (Spelling.certificate type body signatureKey).bytes C = .ok w) (hmax : w.length ≤ C.usizeMax)
include hw hmax

omit hC in
theorem announced_piece {l : Except Exit Nat} {p : Except Exit Bytes} (hl : Announces C.usizeMax l p)
    (hp : p ∈ body.pieces C (signatureKey.bytes C)) : ∃ k, l = .ok k := by
  obtain ⟨u, hu, hle⟩ := cat_mem (List.mem_cons_of_mem _ hp) hw
  exact ⟨_, hl u hu (Nat.le_trans hle hmax)⟩

theorem announced_options {o : SpelledOptions} (ho : o.bytes C ∈ body.pieces C (signatureKey.bytes C)) :
    ∃ k, o.toMap.encodedLen C = .ok k := by
  obtain ⟨u, hu, hle⟩ := cat_mem (List.mem_cons_of_mem _ ho) hw
  obtain ⟨u', hu', hle', -⟩ := shrinks_options hC o u hu
  exact ⟨_, (writes_options hC o u' hu' (Nat.le_trans hle' (Nat.le_trans hle hmax))).2⟩

theorem announced_type : ∃ k, C.string.encodedLen (canonicalType type) = .ok k := by
  obtain ⟨u, hu, hle⟩ := cat_mem (List.mem_cons_self ..) hw
  obtain ⟨u', hu', hle', -⟩ := shrinks_string hC (Q := True) (len_canonicalType type).1 (fun _ => trivial) u hu
  exact ⟨_, hC.string.announces _ u' hu' (by omega)⟩

end

/-- **A certificate type with an empty name**, in the certificate or a signature key, makes encoding panic. -/
theorem encodedLen_of_unnamed : ∀ {sp : Spelling} {w : Bytes}, sp.Valid → ¬ sp.Named → sp.bytes C = .ok w →
    w.length ≤ C.usizeMax → sp.value.encodedLen C = .error (.panic "format checked in constructor")
  | .plain label key, _, _, hn, _, _ => absurd trivial hn
  | .certificate type body signatureKey, w, hvalid, hn, hw, hmax => by
    show (body.cert signatureKey.value).encodedLen C = _
    rw [Certificate.encodedLen_eq, Certificate.lenOf, toCertificateType_of_valid hvalid]
    by_cases hname : EmptyNamed type
    · rw [if_pos hname]
      rfl
    · -- the name is in a signature key: the lengths up to it are known, and its own panics
      obtain ⟨v, hkey, hle⟩ := spells_signatureKey hvalid hw
      have ih := encodedLen_of_unnamed hkey.1 (fun h => hn ⟨hname, h⟩) hkey.2.2 (Nat.le_trans hle hmax)
      have hlen {l : Except Exit Nat} {p : Except Exit Bytes} := announced_piece (l := l) (p := p) hw hmax
      rw [if_neg hname]
      refine total_skip (announced_type hC hw hmax) ?_
      refine total_skip (hlen (hC.bytes.announces _) (by simp [Body.pieces, Body.cert])) ?_
      refine total_skip (hlen (announces_keyData hC hvalid.2.1) (by simp [Body.pieces, Body.cert])) ?_
      refine total_skip (hlen (hC.u64.announces _) (by simp [Body.pieces, Body.cert])) (total_skip ⟨4, rfl⟩ ?_)
      refine total_skip (hlen (hC.string.announces _) (by simp [Body.pieces, Body.cert])) ?_
      refine total_skip (hlen (hC.strings.announces _) (by simp [Body.pieces, Body.cert])) ?_
      refine total_skip (hlen (hC.u64.announces _) (by simp [Body.pieces, Body.cert])) ?_
      refine total_skip (hlen (hC.u64.announces _) (by simp [Body.pieces, Body.cert])) ?_
      refine total_skip (announced_options hC hw hmax (by simp [Body.pieces])) ?_
      refine total_skip (announced_options hC hw hmax (by simp [Body.pieces])) ?_
      refine total_skip (hlen (hC.bytes.announces _) (by simp [Body.pieces, Body.cert])) ?_
      show C.total (C.encodedLenPrefixed (signatureKey.value.encodedLen C) :: _) = _
      rw [ih]
      rfl

/-- **The bytes come back exactly when the spelling is normal and every name is there.** -/
theorem toBytes_eq_iff {sp : Spelling} {key : KeyData} {b : Bytes} (hsp : Spells C sp key b)
    (hb : b.length ≤ C.usizeMax) : key.toBytes C = .ok b ↔ sp.Plain ∧ sp.Named := by
  obtain ⟨hvalid, rfl, hbytes⟩ := hsp
  obtain ⟨b', hb', hle, hplain⟩ := shrinks_spelling hC sp b hbytes
  rw [KeyData.toBytes]
  by_cases hnamed : sp.Named
  · obtain ⟨hw, hl⟩ := writes_spelling hC hvalid hnamed b' hb' (Nat.le_trans hle hb)
    rw [hl, hw]
    constructor
    · intro h
      cases h
      exact ⟨hplain rfl, hnamed⟩
    · rintro ⟨hp, -⟩
      rw [Spelling.normalize_of_plain hp, hbytes] at hb'
      exact hb'.symm
  · rw [encodedLen_of_unnamed hC hvalid hnamed hbytes hb]
    exact ⟨nofun, fun h => absurd h.2 hnamed⟩

end

/-! ## Exact certificates -/

/-- The certificate encodes to `b`, and what its signature is checked over is `b` up to the signature. -/
def Certificate.Exact (C : Crates) (cert : Certificate) (b : Bytes) : Prop :=
  cert.toBytes C = .ok b ∧ ∃ tbs signature, cert.encodeTbs C = .ok tbs ∧
    C.encodePrefixed (cert.signature.encodedLen C) (cert.signature.encode C) = .ok signature ∧ b = tbs ++ signature

theorem exact_iff_toBytes {C : Crates} {cert : Certificate} {b : Bytes} :
    cert.Exact C b ↔ cert.toBytes C = .ok b := by
  refine ⟨And.left, fun h => ⟨h, ?_⟩⟩
  unfold Certificate.toBytes at h
  obtain ⟨_, -, h⟩ := Program.bind_ok.1 h
  rw [Certificate.encode_eq] at h
  obtain ⟨tbs, signature, htbs, hsig, rfl⟩ := cat_pair.1 h
  exact ⟨tbs, signature, htbs, hsig, rfl⟩

/-- **When an accepted certificate is exact**: `b` spells it, and however it spells it, it is exact just when that
spelling has no RSA hash in a name, no empty string in an option's block and no certificate type with an empty name, in
the certificate and in the certificates that sign it. -/
theorem accepted_exact_iff (C : Crates) (hC : C.Lawful) (b : Bytes) (hb : b.length ≤ C.usizeMax) (cert : Certificate)
    (h : Certificate.fromBytes C b = .ok cert) :
    (∃ sp, Spells C sp (.certificate cert) b) ∧
      ∀ sp, Spells C sp (.certificate cert) b → (cert.Exact C b ↔ sp.Plain ∧ sp.Named) := by
  obtain ⟨type, body, sp, hsp⟩ := finish_ok (reads_certificate hC b.length) h
  refine ⟨⟨_, hsp⟩, fun sp hsp => ?_⟩
  rw [exact_iff_toBytes]
  exact toBytes_eq_iff hC hsp hb

namespace Sample

def str (x : Bytes) : Bytes := beBytes 4 x.length ++ x

def rsaKey : Bytes := str [3] ++ str [5]

/-- A user certificate of the given type and key and with one critical option, whose block is given, signed by an
Ed25519 key. -/
def bytes (type : Text) (key value : Bytes) : Bytes :=
  str type.utf8 ++ str [] ++ key ++ beBytes 8 0 ++ beBytes 4 1 ++ str [] ++ str [] ++ beBytes 8 0 ++ beBytes 8 0 ++
    str (str [120] ++ str value) ++ str [] ++ str [] ++ str (str sshEd25519.utf8 ++ str (List.replicate 32 7)) ++
    str (str sshEd25519.utf8 ++ str (List.replicate 64 7))

def signer : Ed25519PublicKey := ⟨List.replicate 32 7, by decide⟩

def cert : Certificate where
  nonce := []
  publicKey := .rsa ⟨[3], [5], 8⟩
  serial := 0
  certType := .user
  keyId := []
  validPrincipals := []
  validAfter := 0
  validBefore := 0
  criticalOptions := ⟨[(['x'], [])], by decide⟩
  extensions := OptionsMap.new
  reserved := []
  signatureKey := .ed25519 signer
  signature := ⟨.ed25519, List.replicate 64 7⟩
  comment := []

/-- The certificate under a certificate type of RSA. -/
def spelling (type : Text) : Spelling :=
  .certificate type { cert with criticalOptions := ⟨[(['x'], none)], by decide⟩, extensions := ⟨[], by decide⟩ }
    (.plain sshEd25519 (.ed25519 signer))

theorem spells_cert : Spells Rfc4251.crates (spelling certRsa) (.certificate cert) (bytes certRsa rsaKey []) :=
  ⟨⟨⟨.rsa none, rfl, rfl⟩, rfl, ⟨.ed25519, rfl, rfl⟩, rfl⟩, rfl, by decide +kernel⟩

theorem named_spelling : (spelling certRsa).Named := ⟨by decide, trivial⟩

theorem plain_spelling : (spelling certRsa).Plain := by
  refine ⟨by decide, ?_, ?_, by decide, by decide⟩
  · exact List.forall_mem_singleton.2 (Option.some_ne_none _).symm
  · exact List.forall_mem_nil _

end Sample

theorem accepted_exact_sample :
    Sample.cert.Exact Rfc4251.crates (Sample.bytes certRsa Sample.rsaKey []) ∧
      ¬ Sample.cert.Exact Rfc4251.crates (Sample.bytes certRsaSha2256 Sample.rsaKey []) := by
  have hexact := accepted_exact_iff Rfc4251.crates Rfc4251.crates_lawful (Sample.bytes certRsa Sample.rsaKey [])
    (by decide +kernel) Sample.cert (by decide +kernel)
  have hhash := accepted_exact_iff Rfc4251.crates Rfc4251.crates_lawful (Sample.bytes certRsaSha2256 Sample.rsaKey [])
    (by decide +kernel) Sample.cert (by decide +kernel)
  refine ⟨(hexact.2 _ Sample.spells_cert).2 ⟨Sample.plain_spelling, Sample.named_spelling⟩, fun h => ?_⟩
  have hspells : Spells Rfc4251.crates (Sample.spelling certRsaSha2256) (.certificate Sample.cert)
      (Sample.bytes certRsaSha2256 Sample.rsaKey []) :=
    ⟨⟨⟨.rsa (some .sha256), rfl, rfl⟩, rfl, ⟨.ed25519, rfl, rfl⟩, rfl⟩, rfl, by decide +kernel⟩
  exact ((hhash.2 _ hspells).1 h).1.1.1 rfl

/-- Three byte strings that are accepted as one certificate, of which encoding gives back one: the other two name an RSA
hash in the type, or put an empty string in the option's block. -/
theorem three_spellings_accepted :
    Certificate.fromBytes Rfc4251.crates (Sample.bytes certRsa Sample.rsaKey []) = .ok Sample.cert ∧
    Certificate.fromBytes Rfc4251.crates (Sample.bytes certRsaSha2256 Sample.rsaKey []) = .ok Sample.cert ∧
    Certificate.fromBytes Rfc4251.crates (Sample.bytes certRsa Sample.rsaKey [0, 0, 0, 0]) = .ok Sample.cert ∧
    Sample.cert.toBytes Rfc4251.crates = .ok (Sample.bytes certRsa Sample.rsaKey []) ∧
    Sample.bytes certRsaSha2256 Sample.rsaKey [] ≠ Sample.bytes certRsa Sample.rsaKey [] ∧
    Sample.bytes certRsa Sample.rsaKey [0, 0, 0, 0] ≠ Sample.bytes certRsa Sample.rsaKey [] := by
  decide +kernel

end Ssh
end Wolf
