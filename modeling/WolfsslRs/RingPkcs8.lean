import WolfsslRs.Der
import WolfsslRs.Program
import WolfsslRs.RingSpki
/-!
# RingPkcs8 — an Ed25519 private key as PKCS#8

`parse_ed25519_pkcs8_seed` of `evp_pkey.rs` finds the object identifier and the seed at fixed offsets after the length of
the outer SEQUENCE.  Against it stands the encoding of a OneAsymmetricKey, and the bytes the parser passes over.
-/
namespace Wolf
namespace Evp

open Der Program

variable {Other : Type}

/-- How a parse is left without a key: by `None`, or by a read outside the data. -/
inductive Stop where
  | none | outside
  deriving DecidableEq, Repr

abbrev Key32 := {bytes : Bytes // bytes.length = 32}

def readAt (d : Bytes) (pos : Nat) : Except Stop UInt8 :=
  match d[pos]? with
  | some b => .ok b
  | none => .error .outside

def readBytes (d : Bytes) (pos n : Nat) : Except Stop Bytes :=
  match load d pos n with
  | some bytes => .ok bytes
  | none => .error .outside

def expect (d : Bytes) (pos : Nat) (b : UInt8) : Except Stop Unit := do
  let c ← readAt d pos
  if c = b then .ok () else .error .none

def expectAll (d : Bytes) (pos : Nat) : Bytes → Except Stop Unit
  | [] => .ok ()
  | b :: bs => do
    expect d pos b
    expectAll d (pos + 1) bs

def readDerLength (d : Bytes) (pos limit : Nat) : Except Stop (Nat × Nat) :=
  if limit ≤ pos then .error .none
  else do
    let b ← readAt d pos
    if b < 0x80 then .ok (pos + 1, b.toNat)
    else if b = 0x81 then
      if limit ≤ pos + 1 then .error .none
      else do
        let len ← readAt d (pos + 1)
        .ok (pos + 2, len.toNat)
    else if b = 0x82 then
      if limit ≤ pos + 2 then .error .none
      else do
        let hi ← readAt d (pos + 1)
        let lo ← readAt d (pos + 2)
        .ok (pos + 3, hi.toNat <<< 8 ||| lo.toNat)
    else .error .none

def ed25519Oid : Bytes := [0x06, 0x03, 0x2b, 0x65, 0x70]

/-- The object identifier and the two OCTET STRINGs; the answer is `priv_off`. -/
def checkPrivateKey (d : Bytes) (oidOff total : Nat) : Except Stop Nat :=
  if total < oidOff + ed25519Oid.length then .error .none
  else do
    expectAll d oidOff ed25519Oid
    let privOff := oidOff + ed25519Oid.length
    if total < privOff + 4 + 32 then .error .none
    else do
      expect d privOff 0x04
      expect d (privOff + 2) 0x04
      expect d (privOff + 3) 0x20
      .ok privOff

def skipAttributes (d : Bytes) (pos total : Nat) : Except Stop Nat :=
  if pos < total then do
    let tag ← readAt d pos
    if tag = 0xa0 then do
      let (afterLen, attrLen) ← readDerLength d (pos + 1) total
      .ok (afterLen + attrLen)
    else .ok pos
  else .ok pos

/-- Where `embedded_pub` points. -/
def embeddedPub (d : Bytes) (pos total : Nat) : Except Stop (Option Nat) :=
  if pos < total then do
    let tag ← readAt d pos
    if tag = 0x81 then
      if pos + 35 ≠ total then .error .none
      else do
        expect d (pos + 1) 0x21
        expect d (pos + 2) 0x00
        .ok (some (pos + 3))
    else if tag = 0xa1 then
      if pos + 37 ≠ total then .error .none
      else do
        expect d (pos + 2) 0x03
        expect d (pos + 3) 0x21
        expect d (pos + 4) 0x00
        .ok (some (pos + 5))
    else .error .none
  else .ok none

/-- What wolfSSL answers: `makePublic` stands for the calls from `wc_ed25519_init` to `wc_ed25519_make_public`. -/
structure SeedEnv where
  makePublic : Bytes → Option Key32
  pkeyNew : Bool
  setRaw : Bool

def newRawPrivateKey (env : SeedEnv) (seed : Bytes) : Except Stop (Pkey Empty) :=
  match env.makePublic seed with
  | none => .error .none
  | some pub =>
    if env.pkeyNew then .ok (.raw .ed25519 (if env.setRaw then seed ++ pub.1 else [])) else .error .none

def getRawPublicKey : Pkey Other → Option Bytes
  | .raw _ bytes =>
    if bytes.length = 64 then some (slice bytes 32 32)
    else if bytes.length = 32 then some (slice bytes 0 32)
    else none
  | .other _ => none

def checkEmbedded (d : Bytes) (key : Pkey Empty) : Option Nat → Except Stop (Pkey Empty)
  | none => .ok key
  | some off =>
    match getRawPublicKey key with
    | none => .error .none
    | some derived => do
      let pub ← readBytes d off 32
      if derived = pub then .ok key else .error .none

def parseEd25519Pkcs8Seed (env : SeedEnv) (data : Bytes) : Except Stop (Pkey Empty) :=
  if data.length < 16 then .error .none
  else do
    expect data 0 0x30
    let (contentStart, seqLen) ← readDerLength data 1 data.length
    let total := contentStart + seqLen
    if data.length < total then .error .none
    else do
      let privOff ← checkPrivateKey data (contentStart + 3 + 2) total
      let pos ← skipAttributes data (privOff + 36) total
      let embedded ← embeddedPub data pos total
      let seed ← readBytes data (privOff + 4) 32
      let key ← newRawPrivateKey env seed
      checkEmbedded data key embedded

/-! ## The encoding -/

/-- The public key as RFC 5958 tags it, and as an explicit tag around the BIT STRING. -/
inductive PublicKeyForm where
  | implicit | explicit
  deriving DecidableEq, Repr

def PublicKeyForm.der (form : PublicKeyForm) (pub : Key32) : Bytes :=
  match form with
  | .implicit => element 0x81 (0x00 :: pub.1)
  | .explicit => element 0xa1 (element 0x03 (0x00 :: pub.1))

/-- A OneAsymmetricKey for Ed25519, as wide as the source takes it: the version may be any byte, where RFC 5958 has 0 and
1 and ties the public key to 1, and the public key may stand in an explicit tag.  What the attributes hold is left
open. -/
structure OneAsymmetricKey where
  version : UInt8
  seed : Key32
  attributes : Option Bytes
  publicKey : Option (PublicKeyForm × Key32)

def OneAsymmetricKey.tail (k : OneAsymmetricKey) : Bytes :=
  (k.attributes.map (element 0xa0)).getD [] ++ (k.publicKey.map fun p => p.1.der p.2).getD []

def OneAsymmetricKey.der (k : OneAsymmetricKey) : Bytes :=
  element 0x30 (element 0x02 [k.version] ++ element 0x30 ed25519Oid ++ element 0x04 (element 0x04 k.seed.1) ++ k.tail)

def WellFormed (env : SeedEnv) (data : Bytes) : Prop :=
  ∃ k : OneAsymmetricKey, data = k.der ∧ ∀ form pub, k.publicKey = some (form, pub) → env.makePublic k.seed.1 = some pub

/-- The length of an explicit tag. -/
def TailSound (rest : Bytes) : Prop := rest[0]? = some 0xa1 → rest[1]? = some 0x23

/-- Attributes have the shortest length, and end inside `rest`. -/
def AttributesSound (rest : Bytes) : Prop :=
  (rest[0]? = some 0xa0 → ∃ attributes after, rest = element 0xa0 attributes ++ after ∧ TailSound after) ∧
    (rest[0]? ≠ some 0xa0 → TailSound rest)

/-- What the parser passes over: the shortest length of the outer SEQUENCE and its end at the end of the data, the heads
of the version, of the algorithm and of the outer OCTET STRING, and the lengths behind the seed. -/
def Sound (data : Bytes) : Prop :=
  ∃ content, data = element 0x30 content ∧ content[0]? = some 0x02 ∧ content[1]? = some 0x01 ∧
    content[3]? = some 0x30 ∧ content[4]? = some 0x05 ∧ content[11]? = some 0x22 ∧ AttributesSound (content.drop 46)

/-! ## What an accepted key was checked for -/

section Reads

variable {d : Bytes} {pos limit : Nat}

theorem readAt_ends (h : pos < d.length) : Ends (· = .none) (fun b => d[pos]? = some b) (readAt d pos) := by
  have hget : d[pos]? = some d[pos] := List.getElem?_eq_getElem h
  unfold readAt
  rw [hget]
  rfl

theorem expect_ends {b : UInt8} (h : pos < d.length) :
    Ends (· = .none) (fun _ => d[pos]? = some b) (expect d pos b) := by
  refine ends_bind (readAt_ends h) fun c hc => ?_
  by_cases hcb : c = b
  · rw [if_pos hcb]
    exact hcb ▸ hc
  · rw [if_neg hcb]
    rfl

theorem expectAll_ends : ∀ (bs : Bytes) {pos : Nat}, pos + bs.length ≤ d.length →
    Ends (· = .none) (fun _ => ∀ i, i < bs.length → d[pos + i]? = bs[i]?) (expectAll d pos bs)
  | [], _, _ => fun i hi => absurd hi (Nat.not_lt_zero i)
  | b :: bs, pos, h => by
    rw [List.length_cons] at h
    refine ends_bind (expect_ends (by omega)) fun _ hb => ?_
    refine ends_mono (expectAll_ends bs (by omega)) fun _ hbs i hi => ?_
    match i with
    | 0 => exact hb
    | i + 1 =>
      have := hbs i (Nat.lt_of_succ_lt_succ hi)
      rwa [Nat.add_assoc, Nat.add_comm 1] at this

theorem readDerLength_ends (h : limit ≤ d.length) :
    Ends (· = .none) (fun _ => True) (readDerLength d pos limit) := by
  unfold readDerLength
  split
  · rfl
  refine ends_bind (readAt_ends (by omega)) fun b _ => ?_
  split
  · trivial
  split
  · split
    · rfl
    · exact ends_bind (readAt_ends (by omega)) fun _ _ => trivial
  split
  · split
    · rfl
    · exact ends_bind (readAt_ends (by omega)) fun _ _ => ends_bind (readAt_ends (by omega)) fun _ _ => trivial
  · rfl

end Reads

/-- What `parse_ed25519_pkcs8_seed` has found when it answers with a key. -/
structure Checked (env : SeedEnv) (data : Bytes) (start len pos : Nat) (embedded : Option Nat) : Prop where
  outerLength : readDerLength data 1 data.length = .ok (start, len)
  inside : start + len ≤ data.length
  room : 46 ≤ len
  oid : ∀ i, i < ed25519Oid.length → data[start + 5 + i]? = ed25519Oid[i]?
  outer : data[start + 10]? = some 0x04
  inner : data[start + 12]? = some 0x04
  innerLength : data[start + 13]? = some 0x20
  attributes : skipAttributes data (start + 46) (start + len) = .ok pos
  publicKey : embeddedPub data pos (start + len) = .ok embedded
  derived : ∀ off, embedded = some off →
    ∃ pub, env.makePublic (slice data (start + 14) 32) = some pub ∧ slice data off 32 = pub.1

section Stages

variable {d : Bytes} {total : Nat}

theorem checkPrivateKey_ends {oidOff : Nat} (h : total ≤ d.length) :
    Ends (· = .none)
      (fun privOff => privOff = oidOff + 5 ∧ privOff + 36 ≤ total ∧
        (∀ i, i < ed25519Oid.length → d[oidOff + i]? = ed25519Oid[i]?) ∧
        d[privOff]? = some 0x04 ∧ d[privOff + 2]? = some 0x04 ∧ d[privOff + 3]? = some 0x20)
      (checkPrivateKey d oidOff total) := by
  unfold checkPrivateKey
  split
  · rfl
  refine ends_bind (expectAll_ends ed25519Oid (by omega)) fun _ hoid => ?_
  dsimp only
  split
  · rfl
  rename_i hroom
  have hlen : ed25519Oid.length = 5 := rfl
  rw [hlen] at hroom ⊢
  refine ends_bind (expect_ends (by omega)) fun _ h0 => ?_
  refine ends_bind (expect_ends (by omega)) fun _ h2 => ?_
  refine ends_bind (expect_ends (by omega)) fun _ h3 => ?_
  exact ⟨rfl, by omega, hoid, h0, h2, h3⟩

theorem skipAttributes_ends {pos : Nat} (h : total ≤ d.length) :
    Ends (· = .none) (fun _ => True) (skipAttributes d pos total) := by
  unfold skipAttributes
  split
  · refine ends_bind (readAt_ends (by omega)) fun tag _ => ?_
    split
    · exact ends_bind (readDerLength_ends h) fun _ _ => trivial
    · trivial
  · trivial

/-- The three ways past the public key: there is none, or one of the two forms ends the SEQUENCE. -/
theorem embeddedPub_ends {pos : Nat} (h : total ≤ d.length) :
    Ends (· = .none)
      (fun embedded =>
        (embedded = none ∧ total ≤ pos) ∨
        (embedded = some (pos + 3) ∧ pos + 35 = total ∧ d[pos]? = some 0x81 ∧ d[pos + 1]? = some 0x21 ∧
          d[pos + 2]? = some 0x00) ∨
        (embedded = some (pos + 5) ∧ pos + 37 = total ∧ d[pos]? = some 0xa1 ∧ d[pos + 2]? = some 0x03 ∧
          d[pos + 3]? = some 0x21 ∧ d[pos + 4]? = some 0x00))
      (embeddedPub d pos total) := by
  unfold embeddedPub
  split
  swap
  · exact .inl ⟨rfl, by omega⟩
  refine ends_bind (readAt_ends (by omega)) fun tag htag => ?_
  split
  · rename_i h81
    subst h81
    split
    · rfl
    rename_i hend
    have hend : pos + 35 = total := not_not.1 hend
    refine ends_bind (expect_ends (by omega)) fun _ h1 => ?_
    refine ends_bind (expect_ends (by omega)) fun _ h2 => ?_
    exact .inr (.inl ⟨rfl, hend, htag, h1, h2⟩)
  split
  · rename_i ha1
    subst ha1
    split
    · rfl
    rename_i hend
    have hend : pos + 37 = total := not_not.1 hend
    refine ends_bind (expect_ends (by omega)) fun _ h2 => ?_
    refine ends_bind (expect_ends (by omega)) fun _ h3 => ?_
    refine ends_bind (expect_ends (by omega)) fun _ h4 => ?_
    exact .inr (.inr ⟨rfl, hend, htag, h2, h3, h4⟩)
  · rfl

theorem readBytes_ends {pos n : Nat} (h : pos + n ≤ d.length) :
    Ends (· = .none) (fun bytes => bytes = slice d pos n) (readBytes d pos n) := by
  unfold readBytes
  rw [load, if_pos h]
  rfl

theorem newRawPrivateKey_ends (env : SeedEnv) (seed : Bytes) :
    Ends (· = .none)
      (fun key => ∃ pub, env.makePublic seed = some pub ∧ key = .raw .ed25519 (if env.setRaw then seed ++ pub.1 else []))
      (newRawPrivateKey env seed) := by
  unfold newRawPrivateKey
  cases hpub : env.makePublic seed with
  | none => rfl
  | some pub =>
    by_cases hnew : env.pkeyNew = true
    · simp only [if_pos hnew]
      exact ⟨pub, rfl, rfl⟩
    · simp only [if_neg hnew]
      rfl

/-- The public key a seed's key holds is the derived one, or none where its bytes could not be stored. -/
theorem getRawPublicKey_seed {setRaw : Bool} {seed : Bytes} {pub : Key32} {derived : Bytes} (hseed : seed.length = 32)
    (h : getRawPublicKey (.raw .ed25519 (if setRaw then seed ++ pub.1 else []) : Pkey Empty) = some derived) :
    derived = pub.1 := by
  cases setRaw with
  | false => cases h
  | true =>
    have hlen : (seed ++ pub.1).length = 64 := by rw [List.length_append, hseed, pub.2]
    have hpub : slice (seed ++ pub.1) 32 32 = pub.1 := by
      rw [slice, List.drop_left' hseed, List.take_of_length_le (Nat.le_of_eq pub.2)]
    simp only [if_true, getRawPublicKey, if_pos hlen, hpub] at h
    exact (Option.some.inj h).symm

theorem checkEmbedded_ends {key : Pkey Empty} {embedded : Option Nat}
    (h : ∀ off, embedded = some off → off + 32 ≤ d.length) :
    Ends (· = .none) (fun _ => ∀ off, embedded = some off → getRawPublicKey key = some (slice d off 32))
      (checkEmbedded d key embedded) := by
  unfold checkEmbedded
  cases embedded with
  | none => exact fun off hoff => by cases hoff
  | some off =>
    cases hkey : getRawPublicKey key with
    | none => rfl
    | some derived =>
      refine ends_bind (readBytes_ends (h off rfl)) fun pub hpub => ?_
      split
      · rename_i heq
        intro off' hoff
        cases hoff
        rw [heq, hpub]
      · rfl

end Stages

/-- **The parser reads inside the data, and leaves with a key only after all its checks.** -/
theorem parse_checked (env : SeedEnv) (data : Bytes) :
    Ends (· = .none) (fun _ => ∃ start len pos embedded, Checked env data start len pos embedded)
      (parseEd25519Pkcs8Seed env data) := by
  unfold parseEd25519Pkcs8Seed
  split
  · rfl
  refine ends_bind (expect_ends (by omega)) fun _ _ => ?_
  refine ends_bind (ends_self (readDerLength_ends (Nat.le_refl _))) fun lengths hlengths => ?_
  obtain ⟨start, len⟩ := lengths
  dsimp only
  split
  · rfl
  rename_i hin
  have hin : start + len ≤ data.length := Nat.not_lt.1 hin
  refine ends_bind (checkPrivateKey_ends hin) fun privOff hpriv => ?_
  obtain ⟨rfl, hroom, hoid, h0, h2, h3⟩ := hpriv
  refine ends_bind (ends_self (skipAttributes_ends hin)) fun pos hpos => ?_
  refine ends_bind (ends_self (embeddedPub_ends hin)) fun embedded hembedded => ?_
  obtain ⟨hpub, hcases⟩ := hembedded
  refine ends_bind (readBytes_ends (by omega)) fun seed hseed => ?_
  refine ends_bind (newRawPrivateKey_ends env seed) fun key hkey => ?_
  obtain ⟨pub, hmake, rfl⟩ := hkey
  have hoff : ∀ off, embedded = some off → off + 32 ≤ data.length := by
    rintro off rfl
    rcases hcases with ⟨h, -⟩ | ⟨h, hend, -⟩ | ⟨h, hend, -⟩
    · cases h
    · cases h; omega
    · cases h; omega
  refine ends_mono (checkEmbedded_ends hoff) fun _ hsame => ?_
  refine ⟨start, len, pos, embedded, ?_⟩
  have hlen : seed.length = 32 := by rw [hseed]; exact length_slice_of_le (by omega)
  exact {
    outerLength := hlengths.1
    inside := hin
    room := by omega
    oid := hoid
    outer := h0
    inner := h2
    innerLength := h3
    attributes := hpos.1
    publicKey := hpub
    derived := fun off ho => ⟨pub, hseed ▸ hmake, getRawPublicKey_seed hlen (hsame off ho)⟩ }

theorem parse_inside (env : SeedEnv) (data : Bytes) : parseEd25519Pkcs8Seed env data ≠ .error .outside := by
  intro h
  have := parse_checked env data
  rw [h] at this
  cases this

/-! ## Lengths -/

theorem readAt_ok {d : Bytes} {pos : Nat} {b : UInt8} : readAt d pos = .ok b ↔ d[pos]? = some b := by
  unfold readAt
  cases d[pos]? with
  | none => exact ⟨nofun, nofun⟩
  | some c => exact ⟨fun h => congrArg some (Except.ok.inj h), fun h => congrArg Except.ok (Option.some.inj h)⟩

theorem readDerLength_ok {d : Bytes} {pos limit next len : Nat} (h : readDerLength d pos limit = .ok (next, len)) :
    (∃ b, d[pos]? = some b ∧ b < 0x80 ∧ next = pos + 1 ∧ len = b.toNat) ∨
    (∃ lo, d[pos]? = some 0x81 ∧ d[pos + 1]? = some lo ∧ next = pos + 2 ∧ len = beNat [lo]) ∨
    (∃ hi lo, d[pos]? = some 0x82 ∧ d[pos + 1]? = some hi ∧ d[pos + 2]? = some lo ∧ next = pos + 3 ∧
      len = beNat [hi, lo]) := by
  unfold readDerLength at h
  split at h
  · cases h
  obtain ⟨b, hb, h⟩ := bind_ok.1 h
  rw [readAt_ok] at hb
  split at h
  · cases h
    exact .inl ⟨b, hb, ‹_›, rfl, rfl⟩
  split at h
  · rename_i h81
    subst h81
    split at h
    · cases h
    obtain ⟨lo, hlo, h⟩ := bind_ok.1 h
    cases h
    exact .inr (.inl ⟨lo, hb, readAt_ok.1 hlo, rfl, by simp [beNat]⟩)
  split at h
  · rename_i h82
    subst h82
    split at h
    · cases h
    obtain ⟨hi, hhi, h⟩ := bind_ok.1 h
    obtain ⟨lo, hlo, h⟩ := bind_ok.1 h
    cases h
    refine .inr (.inr ⟨hi, lo, hb, readAt_ok.1 hhi, readAt_ok.1 hlo, rfl, ?_⟩)
    rw [← Nat.shiftLeft_add_eq_or_of_lt (UInt8.toNat_lt lo), Nat.shiftLeft_eq]
    simp [beNat]
  · cases h

/-- **Where the shortest length stands, `read_der_length` finds it or nothing.** -/
theorem readDerLength_lengthOctets {d rest : Bytes} {pos limit n next len : Nat} (hn : n < 2 ^ 63)
    (hd : d.drop pos = lengthOctets n ++ rest) (h : readDerLength d pos limit = .ok (next, len)) :
    next = pos + (lengthOctets n).length ∧ len = n := by
  have hget : ∀ i, d[pos + i]? = (lengthOctets n ++ rest)[i]? := fun i => by rw [← hd, List.getElem?_drop]
  have hwidth : width n ≤ 8 := width_le (by omega)
  by_cases hshort : n < 128
  · rw [lengthOctets_short hshort] at hget ⊢
    have hb : d[pos]? = some (UInt8.ofNat n) := hget 0
    have hnat : (UInt8.ofNat n).toNat = n := by simp; omega
    rcases readDerLength_ok h with ⟨b, hb', -, rfl, rfl⟩ | ⟨lo, hb', -⟩ | ⟨hi, lo, hb', -⟩
    · obtain rfl := Option.some.inj (hb.symm.trans hb')
      exact ⟨rfl, hnat⟩
    · have := congrArg UInt8.toNat (Option.some.inj (hb.symm.trans hb'))
      rw [hnat] at this
      exact absurd this (by change ¬ n = 129; omega)
    · have := congrArg UInt8.toNat (Option.some.inj (hb.symm.trans hb'))
      rw [hnat] at this
      exact absurd this (by change ¬ n = 130; omega)
  · have hocts : lengthOctets n = UInt8.ofNat (128 + width n) :: magnitude n := if_neg hshort
    have hlen : (magnitude n).length = width n := length_beBytes _ _
    rw [hocts] at hget ⊢
    have hb : d[pos]? = some (UInt8.ofNat (128 + width n)) := hget 0
    have hnat : (UInt8.ofNat (128 + width n)).toNat = 128 + width n := by simp; omega
    have hmag : ∀ i, i < width n → d[pos + (i + 1)]? = (magnitude n)[i]? := fun i hi => by
      rw [hget, List.cons_append, List.getElem?_cons_succ, List.getElem?_append_left (by omega)]
    rw [List.length_cons, hlen]
    rcases readDerLength_ok h with ⟨b, hb', hlt, -⟩ | ⟨lo, hb', hlo, rfl, rfl⟩ | ⟨hi, lo, hb', hhi, hlo, rfl, rfl⟩
    · obtain rfl := Option.some.inj (hb.symm.trans hb')
      have := UInt8.lt_iff_toNat_lt.1 hlt
      rw [hnat] at this
      exact absurd this (by change ¬ 128 + width n < 128; omega)
    · have hone : 128 + width n = 129 := by rw [← hnat, Option.some.inj (hb.symm.trans hb')]; rfl
      have hone : width n = 1 := by omega
      refine ⟨by omega, ?_⟩
      have hall : magnitude n = [lo] := eq_of_getElem? (hlen.trans hone) fun i hi => by
        match i, hi with
        | 0, _ => exact (hmag 0 (by omega)).symm.trans hlo
      rw [← hall, beNat_magnitude]
    · have htwo : 128 + width n = 130 := by rw [← hnat, Option.some.inj (hb.symm.trans hb')]; rfl
      have htwo : width n = 2 := by omega
      refine ⟨by omega, ?_⟩
      have hall : magnitude n = [hi, lo] := eq_of_getElem? (hlen.trans htwo) fun i hi => by
        match i, hi with
        | 0, _ => exact (hmag 0 (by omega)).symm.trans hhi
        | 1, _ => exact (hmag 1 (by omega)).symm.trans hlo
      rw [← hall, beNat_magnitude]

/-! ## Well-formed keys -/

/-- All in front of the seed. -/
def keyHeader (version : UInt8) : Bytes :=
  [0x02, 0x01, version, 0x30, 0x05, 0x06, 0x03, 0x2b, 0x65, 0x70, 0x04, 0x22, 0x04, 0x20]

theorem implicit_der (pub : Key32) : PublicKeyForm.implicit.der pub = [0x81, 0x21, 0x00] ++ pub.1 := by
  have hlen : (0x00 :: pub.1).length = 33 := by rw [List.length_cons, pub.2]
  rw [PublicKeyForm.der, element_short (by omega), hlen]
  rfl

theorem explicit_der (pub : Key32) : PublicKeyForm.explicit.der pub = [0xa1, 0x23, 0x03, 0x21, 0x00] ++ pub.1 := by
  have hlen : (0x00 :: pub.1).length = 33 := by rw [List.length_cons, pub.2]
  have hbits : element 0x03 (0x00 :: pub.1) = [0x03, 0x21, 0x00] ++ pub.1 := by
    rw [element_short (by omega), hlen]
    rfl
  have hlen' : ([0x03, 0x21, 0x00] ++ pub.1).length = 35 := by rw [List.length_append, pub.2]; rfl
  rw [PublicKeyForm.der, hbits, element_short (by omega), hlen']
  rfl

theorem OneAsymmetricKey.der_eq (k : OneAsymmetricKey) :
    k.der = element 0x30 (keyHeader k.version ++ (k.seed.1 ++ k.tail)) := by
  have hseed : element 0x04 k.seed.1 = [0x04, 0x20] ++ k.seed.1 := by
    rw [element_short (by rw [k.seed.2]; decide), k.seed.2]
    rfl
  have hlen : ([0x04, 0x20] ++ k.seed.1).length = 34 := by rw [List.length_append, k.seed.2]; rfl
  have hpriv : element 0x04 (element 0x04 k.seed.1) = [0x04, 0x22, 0x04, 0x20] ++ k.seed.1 := by
    rw [hseed, element_short (by omega), hlen]
    rfl
  rw [OneAsymmetricKey.der, hpriv]
  simp only [List.append_assoc]
  rfl

theorem tailSound_der (form : PublicKeyForm) (pub : Key32) : TailSound (form.der pub) := by
  intro h
  cases form with
  | implicit =>
    rw [implicit_der] at h
    cases h
  | explicit =>
    rw [explicit_der]
    rfl

theorem tailSound_publicKey (publicKey : Option (PublicKeyForm × Key32)) :
    TailSound ((publicKey.map fun p => p.1.der p.2).getD []) := by
  cases publicKey with
  | none => exact fun h => by cases h
  | some p => exact tailSound_der p.1 p.2

theorem head_der (form : PublicKeyForm) (pub : Key32) : (form.der pub)[0]? ≠ some 0xa0 := by
  intro h
  cases form with
  | implicit =>
    rw [implicit_der] at h
    cases h
  | explicit =>
    rw [explicit_der] at h
    cases h

theorem attributesSound_tail (k : OneAsymmetricKey) : AttributesSound k.tail := by
  unfold OneAsymmetricKey.tail
  cases k.attributes with
  | some attributes => exact ⟨fun _ => ⟨attributes, _, rfl, tailSound_publicKey _⟩, fun h => absurd rfl h⟩
  | none =>
    refine ⟨fun h => ?_, fun _ => tailSound_publicKey _⟩
    cases hpub : k.publicKey with
    | none =>
      rw [hpub] at h
      cases h
    | some p =>
      rw [hpub] at h
      exact absurd h (head_der p.1 p.2)

theorem sound_of_wellFormed {env : SeedEnv} {data : Bytes} (h : WellFormed env data) : Sound data := by
  obtain ⟨k, rfl, -⟩ := h
  refine ⟨_, k.der_eq, rfl, rfl, rfl, rfl, rfl, ?_⟩
  have hlen : (keyHeader k.version ++ k.seed.1).length = 46 := by rw [List.length_append, k.seed.2]; rfl
  rw [← List.append_assoc, List.drop_left' hlen]
  exact attributesSound_tail k

theorem skipAttributes_ok {d : Bytes} {pos next : Nat} (h : skipAttributes d pos d.length = .ok next) :
    (d[pos]? = some 0xa0 ∧ ∃ afterLen attrLen,
      readDerLength d (pos + 1) d.length = .ok (afterLen, attrLen) ∧ next = afterLen + attrLen) ∨
    (d[pos]? ≠ some 0xa0 ∧ next = pos) := by
  unfold skipAttributes at h
  split at h
  · obtain ⟨tag, htag, h⟩ := bind_ok.1 h
    rw [readAt_ok] at htag
    split at h
    · rename_i ha0
      obtain ⟨⟨afterLen, attrLen⟩, hlen, h⟩ := bind_ok.1 h
      exact .inl ⟨ha0 ▸ htag, afterLen, attrLen, hlen, (Except.ok.inj h).symm⟩
    · rename_i ha0
      exact .inr ⟨fun hbad => ha0 (Option.some.inj (htag.symm.trans hbad)), (Except.ok.inj h).symm⟩
  · rename_i hend
    refine .inr ⟨fun hbad => ?_, (Except.ok.inj h).symm⟩
    rw [List.getElem?_eq_none (Nat.not_lt.1 hend)] at hbad
    cases hbad

theorem publicKey_of_tailSound {d after : Bytes} {pos : Nat} {embedded : Option Nat} (hafter : d.drop pos = after)
    (hs : TailSound after) (h : embeddedPub d pos d.length = .ok embedded) :
    ∃ publicKey : Option (PublicKeyForm × Key32), after = (publicKey.map fun p => p.1.der p.2).getD [] ∧
      ∀ form pub, publicKey = some (form, pub) → ∃ off, embedded = some off ∧ slice d off 32 = pub.1 := by
  have hget : ∀ i, d[pos + i]? = after[i]? := fun i => by rw [← hafter, List.getElem?_drop]
  have hlen : after.length = d.length - pos := by rw [← hafter, List.length_drop]
  have hslice : ∀ k, slice d (pos + k) 32 = (after.drop k).take 32 := fun k => by
    rw [slice, ← hafter, List.drop_drop]
  rcases of_ends (embeddedPub_ends (Nat.le_refl _)) h with
    ⟨rfl, hend⟩ | ⟨rfl, hend, h0, h1, h2⟩ | ⟨rfl, hend, h0, h2, h3, h4⟩
  · refine ⟨none, ?_, fun _ _ hbad => by cases hbad⟩
    exact List.eq_nil_of_length_eq_zero (by omega)
  · have h32 : (after.drop 3).length = 32 := by rw [List.length_drop]; omega
    have hhead : after.take 3 = [0x81, 0x21, 0x00] := by
      refine take_eq_of_getElem? (l := [0x81, 0x21, 0x00]) fun i hi => ?_
      rcases i with _ | _ | _ | i
      · exact (hget 0).symm.trans h0
      · exact (hget 1).symm.trans h1
      · exact (hget 2).symm.trans h2
      · exact absurd hi (Nat.not_lt.2 (Nat.le_add_left 3 i))
    refine ⟨some (.implicit, ⟨after.drop 3, h32⟩), ?_, ?_⟩
    · change after = PublicKeyForm.implicit.der _
      rw [implicit_der, ← hhead, List.take_append_drop]
    · rintro form pub hpub
      cases hpub
      exact ⟨pos + 3, rfl, by rw [hslice, List.take_of_length_le (Nat.le_of_eq h32)]⟩
  · have h32 : (after.drop 5).length = 32 := by rw [List.length_drop]; omega
    have h0 : after[0]? = some 0xa1 := (hget 0).symm.trans h0
    have hhead : after.take 5 = [0xa1, 0x23, 0x03, 0x21, 0x00] := by
      refine take_eq_of_getElem? (l := [0xa1, 0x23, 0x03, 0x21, 0x00]) fun i hi => ?_
      rcases i with _ | _ | _ | _ | _ | i
      · exact h0
      · exact hs h0
      · exact (hget 2).symm.trans h2
      · exact (hget 3).symm.trans h3
      · exact (hget 4).symm.trans h4
      · exact absurd hi (Nat.not_lt.2 (Nat.le_add_left 5 i))
    refine ⟨some (.explicit, ⟨after.drop 5, h32⟩), ?_, ?_⟩
    · change after = PublicKeyForm.explicit.der _
      rw [explicit_der, ← hhead, List.take_append_drop]
    · rintro form pub hpub
      cases hpub
      exact ⟨pos + 5, rfl, by rw [hslice, List.take_of_length_le (Nat.le_of_eq h32)]⟩

theorem tail_of_attributesSound {d rest : Bytes} {p pos : Nat} {embedded : Option Nat} (hlen : d.length < 2 ^ 63)
    (hrest : d.drop p = rest) (hs : AttributesSound rest) (hskip : skipAttributes d p d.length = .ok pos)
    (hpub : embeddedPub d pos d.length = .ok embedded) :
    ∃ attributes : Option Bytes, ∃ publicKey : Option (PublicKeyForm × Key32),
      rest = (attributes.map (element 0xa0)).getD [] ++ (publicKey.map fun p => p.1.der p.2).getD [] ∧
      ∀ form pub, publicKey = some (form, pub) → ∃ off, embedded = some off ∧ slice d off 32 = pub.1 := by
  have hhead : d[p]? = rest[0]? := by rw [← hrest, List.getElem?_drop]; rfl
  rcases skipAttributes_ok hskip with ⟨ha0, afterLen, attrLen, hread, rfl⟩ | ⟨ha0, rfl⟩
  · obtain ⟨attributes, after, hel, hsound⟩ := hs.1 (hhead.symm.trans ha0)
    have hle : rest.length ≤ d.length := by rw [← hrest, List.length_drop]; omega
    have hattr : attributes.length < 2 ^ 63 := by
      rw [hel, List.length_append, length_element] at hle
      omega
    have hdrop : d.drop (p + 1) = lengthOctets attributes.length ++ (attributes ++ after) := by
      rw [← List.drop_drop, hrest, hel, element, List.cons_append, List.append_assoc]
      rfl
    obtain ⟨rfl, rfl⟩ := readDerLength_lengthOctets hattr hdrop hread
    have hafter : d.drop (p + 1 + (lengthOctets attributes.length).length + attributes.length) = after := by
      rw [← List.drop_drop, ← List.drop_drop, hdrop, List.drop_left, List.drop_left]
    obtain ⟨publicKey, rfl, hkey⟩ := publicKey_of_tailSound hafter hsound hpub
    exact ⟨some attributes, publicKey, hel, hkey⟩
  · obtain ⟨publicKey, hkey, hder⟩ := publicKey_of_tailSound hrest (hs.2 (hhead ▸ ha0)) hpub
    exact ⟨none, publicKey, hkey, hder⟩

/-- **An accepted key is well formed where the bytes that were passed over are sound.** -/
theorem wellFormed_of_checked {env : SeedEnv} {data : Bytes} {start len pos : Nat} {embedded : Option Nat}
    (hlen : data.length < 2 ^ 63) (hc : Checked env data start len pos embedded) (hs : Sound data) :
    WellFormed env data := by
  obtain ⟨content, hdata, h0, h1, h3, h4, h11, hattr⟩ := hs
  have hsize : data.length = 1 + (lengthOctets content.length).length + content.length := by
    rw [hdata, length_element]
  have hdrop : data.drop 1 = lengthOctets content.length ++ content := by rw [hdata]; rfl
  obtain ⟨rfl, rfl⟩ := readDerLength_lengthOctets (by omega) hdrop hc.outerLength
  generalize hstart : 1 + (lengthOctets content.length).length = start at *
  have hcontent : data.drop start = content := by rw [← hstart, ← List.drop_drop, hdrop, List.drop_left]
  have hget : ∀ i, data[start + i]? = content[i]? := fun i => by rw [← hcontent, List.getElem?_drop]
  have hroom := hc.room
  obtain ⟨v, hv⟩ : ∃ v, content[2]? = some v := ⟨content[2], List.getElem?_eq_getElem (by omega)⟩
  have hoid : ∀ i, i < 5 → content[5 + i]? = ed25519Oid[i]? := fun i hi => by
    rw [← hget, ← Nat.add_assoc]
    exact hc.oid i hi
  have hhead : content.take 14 = keyHeader v := take_eq_of_getElem? (l := keyHeader v) fun i hi => by
    match i, hi with
    | 0, _ => exact h0
    | 1, _ => exact h1
    | 2, _ => exact hv
    | 3, _ => exact h3
    | 4, _ => exact h4
    | 5, _ => exact hoid 0 (by decide)
    | 6, _ => exact hoid 1 (by decide)
    | 7, _ => exact hoid 2 (by decide)
    | 8, _ => exact hoid 3 (by decide)
    | 9, _ => exact hoid 4 (by decide)
    | 10, _ => exact (hget 10).symm.trans hc.outer
    | 11, _ => exact h11
    | 12, _ => exact (hget 12).symm.trans hc.inner
    | 13, _ => exact (hget 13).symm.trans hc.innerLength
  have hseed : slice data (start + 14) 32 = (content.drop 14).take 32 := by rw [slice, ← List.drop_drop, hcontent]
  have hseedLen : ((content.drop 14).take 32).length = 32 := by
    rw [List.length_take, List.length_drop]
    omega
  have hrest : data.drop (start + 46) = content.drop 46 := by rw [← List.drop_drop, hcontent]
  have hskip := hc.attributes
  have hpub := hc.publicKey
  rw [← hsize] at hskip hpub
  obtain ⟨attributes, publicKey, htail, hkey⟩ := tail_of_attributesSound hlen hrest hattr hskip hpub
  refine ⟨⟨v, ⟨_, hseedLen⟩, attributes, publicKey⟩, ?_, ?_⟩
  · rw [OneAsymmetricKey.der_eq, hdata, OneAsymmetricKey.tail]
    dsimp only
    rw [← htail, ← hhead, ← List.drop_drop (i := 32) (j := 14), List.take_append_drop, List.take_append_drop]
  · intro form pub hp
    obtain ⟨off, hoff, hslice⟩ := hkey form pub hp
    obtain ⟨pub', hmake, hsame⟩ := hc.derived off hoff
    rw [hseed] at hmake
    refine hmake.trans ?_
    exact congrArg some (Subtype.ext (hsame.symm.trans hslice))

/-- **The parser reads only inside the data, and what it accepts is a well-formed key exactly when the bytes it passes
over are sound.** -/
theorem pkcs8_well_formed_iff (env : SeedEnv) (data : Bytes) (hlen : data.length < 2 ^ 63) :
    parseEd25519Pkcs8Seed env data ≠ .error .outside ∧
      ∀ key, parseEd25519Pkcs8Seed env data = .ok key → (WellFormed env data ↔ Sound data) := by
  refine ⟨parse_inside env data, fun key hkey => ⟨sound_of_wellFormed, fun hs => ?_⟩⟩
  obtain ⟨start, len, pos, embedded, hc⟩ := of_ends (parse_checked env data) hkey
  exact wellFormed_of_checked hlen hc hs

def sampleSeed : Bytes :=
  [0xd4, 0xee, 0x72, 0xdb, 0xf9, 0x13, 0x58, 0x4a, 0xd5, 0xb6, 0xd8, 0xf1, 0xf7, 0x69, 0xf8, 0xad, 0x3a, 0xfe,
    0x7c, 0x28, 0xcb, 0xf1, 0xd4, 0xfb, 0xe0, 0x97, 0xa8, 0x8f, 0x44, 0x75, 0x58, 0x42]

def samplePub : Key32 :=
  ⟨[0x19, 0xbf, 0x44, 0x09, 0x69, 0x84, 0xcd, 0xfe, 0x85, 0x41, 0xba, 0xc1, 0x67, 0xdc, 0x3b, 0x96, 0xc8, 0x50,
    0x86, 0xaa, 0x30, 0xb6, 0xb6, 0xcb, 0x0c, 0x5c, 0x38, 0xad, 0x70, 0x31, 0x66, 0xe1], rfl⟩

def sampleAttributes : Bytes :=
  [0x30, 0x1d, 0x06, 0x0a, 0x2a, 0x86, 0x48, 0x86, 0xf7, 0x0d, 0x01, 0x09, 0x09, 0x14, 0x31, 0x0f, 0x0c, 0x0d,
    0x43, 0x75, 0x72, 0x64, 0x6c, 0x65, 0x20, 0x43, 0x68, 0x61, 0x69, 0x72, 0x73]

/-- The key of `sampleSeed`, with attributes and its public key. -/
def sampleContent : Bytes :=
  keyHeader 0x01 ++ (sampleSeed ++ (element 0xa0 sampleAttributes ++ PublicKeyForm.implicit.der samplePub))

def sampleEnv : SeedEnv where
  makePublic := fun seed => if seed = sampleSeed then some samplePub else none
  pkeyNew := true
  setRaw := true

theorem pkcs8_well_formed_iff_sample :
    parseEd25519Pkcs8Seed sampleEnv (element 0x30 sampleContent) = .ok (.raw .ed25519 (sampleSeed ++ samplePub.1)) ∧
      WellFormed sampleEnv (element 0x30 sampleContent) := by
  have hkey : parseEd25519Pkcs8Seed sampleEnv (element 0x30 sampleContent) =
      .ok (.raw .ed25519 (sampleSeed ++ samplePub.1)) := by decide +kernel
  refine ⟨hkey, ((pkcs8_well_formed_iff sampleEnv (element 0x30 sampleContent) (by decide +kernel)).2 _ hkey).2 ?_⟩
  refine ⟨sampleContent, rfl, rfl, rfl, rfl, rfl, rfl, ?_⟩
  exact ⟨fun _ => ⟨sampleAttributes, PublicKeyForm.implicit.der samplePub, by decide +kernel, tailSound_der _ _⟩,
    fun h => absurd (by decide +kernel) h⟩

/-- A byte after the SEQUENCE is passed over, and so is the version, here a NULL and a byte. -/
theorem pkcs8_accepts_more :
    let key : Pkey Empty := .raw .ed25519 (sampleSeed ++ samplePub.1)
    let longer := [0x30, 0x2e] ++ keyHeader 0x00 ++ sampleSeed ++ [0x00]
    let unversioned := [0x30, 0x2e, 0x05, 0x00] ++ (keyHeader 0x00).drop 2 ++ sampleSeed
    (parseEd25519Pkcs8Seed sampleEnv longer = .ok key ∧ ¬ WellFormed sampleEnv longer) ∧
      (parseEd25519Pkcs8Seed sampleEnv unversioned = .ok key ∧ ¬ WellFormed sampleEnv unversioned) := by
  refine ⟨⟨by decide +kernel, fun h => ?_⟩, ⟨by decide +kernel, fun h => ?_⟩⟩
  · obtain ⟨content, hdata, -⟩ := sound_of_wellFormed h
    obtain ⟨rfl, hbad⟩ := content_of_element hdata (by decide) (by decide)
    cases hbad
  · obtain ⟨content, hdata, h0, -⟩ := sound_of_wellFormed h
    obtain ⟨rfl, -⟩ := content_of_element hdata (by decide) (by decide)
    cases h0

end Evp
end Wolf
