import WolfsslRs.CMemory
import WolfsslRs.NonceCounter
/-!
# RingSpki — X25519 and Ed25519 public keys as SubjectPublicKeyInfo

`evp_parse_public_key` and `evp_marshal_public_key` of `evp_pkey.rs` write and recognise the two keys without wolfSSL,
by a header of twelve bytes.  Other keys go to wolfSSL, which is a parameter, and so is what its allocator answers.
-/
namespace Wolf
namespace Evp

open Aead (Unspecified)

inductive RawType where
  | x25519 | ed25519
  deriving DecidableEq, Repr

def RawType.oidByte : RawType → UInt8
  | .x25519 => 0x6e
  | .ed25519 => 0x70

/-- An `EVP_PKEY`: one of the two types with the bytes at `pkey_ptr` (a null pointer has none), or a key of wolfSSL's. -/
inductive Pkey (Other : Type) where
  | raw (type : RawType) (bytes : Bytes)
  | other (key : Other)
  deriving DecidableEq

/-- What wolfSSL answers during a call. -/
structure Env (Other : Type) where
  /-- `EVP_PKEY_new` -/
  pkeyNew : Bool
  /-- the allocation of `wolfcrypt_evp_pkey_set_raw`, whose failure its callers do not look at -/
  setRaw : Bool
  d2iPubkey : Bytes → Option (Pkey Other)
  /-- the EC and RSA paths of `evp_marshal_public_key` -/
  marshalOther : Other → Except Unspecified Bytes

variable {Other : Type}

def newRawPublicKey (env : Env Other) (type : RawType) (key : Bytes) : Option (Pkey Other) :=
  if key.length = 32 ∧ env.pkeyNew then some (.raw type (if env.setRaw then key else [])) else none

/-- The bytes both recognitions look at: all of the header but the one at 3 and the last three. -/
def Recognised (data : Bytes) (type : RawType) : Prop :=
  44 ≤ data.length ∧ data[0]? = some 0x30 ∧ data[1]? = some 0x2a ∧ data[2]? = some 0x30 ∧ data[4]? = some 0x06 ∧
    data[5]? = some 0x03 ∧ data[6]? = some 0x2b ∧ data[7]? = some 0x65 ∧ data[8]? = some type.oidByte

instance (data : Bytes) (type : RawType) : Decidable (Recognised data type) := inferInstanceAs (Decidable (_ ∧ _))

/-- The head of the BIT STRING, which only an X25519 key is asked for. -/
def BitString (data : Bytes) : Prop := data[9]? = some 0x03 ∧ data[10]? = some 0x21 ∧ data[11]? = some 0x00

instance (data : Bytes) : Decidable (BitString data) := inferInstanceAs (Decidable (_ ∧ _))

def evpParsePublicKey (env : Env Other) (data : Bytes) : Option (Pkey Other) :=
  if data.isEmpty then none
  else if Recognised data .x25519 then
    if ¬ BitString data then none else newRawPublicKey env .x25519 (slice data 12 32)
  else if Recognised data .ed25519 then newRawPublicKey env .ed25519 (slice data 12 32)
  else env.d2iPubkey data

def spki (type : RawType) : Bytes :=
  [0x30, 0x2a, 0x30, 0x05, 0x06, 0x03, 0x2b, 0x65, type.oidByte, 0x03, 0x21, 0x00]

/-- What is appended to the buffer. -/
def evpMarshalPublicKey (env : Env Other) : Option (Pkey Other) → Except Unspecified Bytes
  | none => .error .unspecified
  | some (.raw type bytes) =>
    if bytes.isEmpty then .error .unspecified
    else if bytes.length = 64 then .ok (spki type ++ slice bytes 32 32)
    else if bytes.length = 32 then .ok (spki type ++ slice bytes 0 32)
    else .error .unspecified
  | some (.other key) => env.marshalOther key

/-! ## The header -/

/-- The one byte of the header neither recognition looks at, and the three an Ed25519 key is not asked for. -/
def HeaderRest (data : Bytes) : Prop := data[3]? = some 0x05 ∧ BitString data

theorem take_header {data : Bytes} {type : RawType} (hrec : Recognised data type) (hrest : HeaderRest data) :
    data.take 12 = spki type := by
  obtain ⟨-, h0, h1, h2, h4, h5, h6, h7, h8⟩ := hrec
  obtain ⟨h3, h9, h10, h11⟩ := hrest
  refine take_eq_of_getElem? (l := spki type) fun i hi => ?_
  match i, hi with
  | 0, _ => exact h0
  | 1, _ => exact h1
  | 2, _ => exact h2
  | 3, _ => exact h3
  | 4, _ => exact h4
  | 5, _ => exact h5
  | 6, _ => exact h6
  | 7, _ => exact h7
  | 8, _ => exact h8
  | 9, _ => exact h9
  | 10, _ => exact h10
  | 11, _ => exact h11

theorem headerRest_spki (type : RawType) (pub : Bytes) : HeaderRest (spki type ++ pub) := ⟨rfl, rfl, rfl, rfl⟩

theorem recognised_spki (type : RawType) {pub : Bytes} (h : pub.length = 32) : Recognised (spki type ++ pub) type := by
  refine ⟨Nat.le_of_eq ?_, rfl, rfl, rfl, rfl, rfl, rfl, rfl, rfl⟩
  rw [List.length_append, h]
  rfl

theorem recognised_unique {data : Bytes} {t t' : RawType} (h : Recognised data t) (h' : Recognised data t') : t = t' := by
  have hoid : t.oidByte = t'.oidByte :=
    Option.some.inj (h.2.2.2.2.2.2.2.2.symm.trans h'.2.2.2.2.2.2.2.2)
  cases t <;> cases t' <;> first | rfl | cases hoid

/-! ## Parsing and writing -/

theorem parse_recognised (env : Env Other) {data : Bytes} {type : RawType} (hrec : Recognised data type) :
    evpParsePublicKey env data =
      if type = .x25519 ∧ ¬ BitString data then none else newRawPublicKey env type (slice data 12 32) := by
  have hne : ¬ data.isEmpty = true := by
    have := hrec.1
    intro h
    rw [List.isEmpty_iff.1 h] at this
    cases this
  unfold evpParsePublicKey
  rw [if_neg hne]
  cases type with
  | x25519 =>
    rw [if_pos hrec]
    by_cases hbits : BitString data
    · rw [if_neg (not_not.2 hbits), if_neg (fun h => h.2 hbits)]
    · rw [if_pos hbits, if_pos ⟨rfl, hbits⟩]
  | ed25519 =>
    have hnot : ¬ Recognised data .x25519 := fun h => by cases recognised_unique h hrec
    rw [if_neg hnot, if_pos hrec, if_neg (fun h => by cases h.1)]

theorem marshal_raw (env : Env Other) (type : RawType) {pub : Bytes} (h : pub.length = 32) :
    evpMarshalPublicKey env (some (.raw type pub)) = .ok (spki type ++ pub) := by
  have hne : ¬ pub.isEmpty = true := fun hnil => by rw [List.isEmpty_iff.1 hnil] at h; cases h
  have hall : slice pub 0 32 = pub := by rw [← h, slice_all]
  simp only [evpMarshalPublicKey]
  rw [if_neg hne, if_neg (by omega), if_pos h, hall]

/-- **What is written for a public key is parsed as that key.** -/
theorem parse_spki {env : Env Other} (type : RawType) {pub : Bytes} (h : pub.length = 32) :
    evpParsePublicKey env (spki type ++ pub) =
      if env.pkeyNew then some (.raw type (if env.setRaw then pub else [])) else none := by
  have hpub : slice (spki type ++ pub) 12 32 = pub := by
    change (pub.take 32) = pub
    rw [← h, List.take_length]
  rw [parse_recognised env (recognised_spki type h), if_neg (fun hbad => hbad.2 (headerRest_spki type pub).2), hpub,
    newRawPublicKey]
  by_cases hnew : env.pkeyNew = true
  · rw [if_pos ⟨h, hnew⟩, if_pos hnew]
  · rw [if_neg (fun hbad => hnew hbad.2), if_neg hnew]

/-- **A recognised and accepted key is written as the bytes it was parsed from, and these are parsed as the key again,
exactly when the rest of the header is right and nothing follows** (and the allocations succeed): neither recognition
looks at byte 3 or at the end of the data, and the one of Ed25519 not at the BIT STRING either. -/
theorem spki_round_trip_iff (env env' : Env Other) (data : Bytes) (type : RawType) (key : Pkey Other)
    (hrec : Recognised data type) (hkey : evpParsePublicKey env data = some key) :
    (evpMarshalPublicKey env (some key) = .ok data ∧
      ∀ der, evpMarshalPublicKey env (some key) = .ok der → evpParsePublicKey env' der = some key) ↔
    data.length = 44 ∧ HeaderRest data ∧ env.setRaw = true ∧ env'.pkeyNew = true ∧ env'.setRaw = true := by
  have hlen : (slice data 12 32).length = 32 := length_slice_of_le hrec.1
  rw [parse_recognised env hrec] at hkey
  split at hkey
  · cases hkey
  rename_i hbits
  unfold newRawPublicKey at hkey
  split at hkey
  swap
  · cases hkey
  rename_i hnew
  obtain rfl := Option.some.inj hkey
  by_cases hset : env.setRaw = true
  · rw [if_pos hset, marshal_raw env type hlen]
    constructor
    · rintro ⟨hdata, hback⟩
      have hdata : spki type ++ slice data 12 32 = data := Except.ok.inj hdata
      have hparse := hback _ rfl
      rw [parse_spki type hlen] at hparse
      refine ⟨?_, ?_, hset, ?_⟩
      · rw [← hdata, List.length_append, hlen]
        rfl
      · rw [← hdata]
        exact headerRest_spki _ _
      · by_cases hnew' : env'.pkeyNew = true
        · rw [if_pos hnew'] at hparse
          by_cases hset' : env'.setRaw = true
          · exact ⟨hnew', hset'⟩
          · rw [if_neg hset'] at hparse
            have hnil : [] = slice data 12 32 := (Pkey.raw.inj (Option.some.inj hparse)).2
            rw [← hnil] at hlen
            cases hlen
        · rw [if_neg hnew'] at hparse
          cases hparse
    · rintro ⟨h44, hrest, -, hnew', hset'⟩
      have hdata : spki type ++ slice data 12 32 = data := by
        have hall : (data.drop 12).take 32 = data.drop 12 :=
          List.take_of_length_le (by rw [List.length_drop]; omega)
        rw [← take_header hrec hrest, slice, hall, List.take_append_drop]
      refine ⟨congrArg Except.ok hdata, ?_⟩
      rintro der hder
      obtain rfl := Except.ok.inj hder
      rw [parse_spki type hlen, if_pos hnew', if_pos hset']
  · rw [if_neg hset]
    refine iff_of_false ?_ (fun h => hset h.2.2.1)
    rintro ⟨h, -⟩
    cases h

def wolfCalls : Env Unit where
  pkeyNew := true
  setRaw := true
  d2iPubkey := fun _ => none
  marshalOther := fun _ => .error .unspecified

theorem spki_round_trip_iff_x25519 :
    evpMarshalPublicKey wolfCalls (some (.raw .x25519 (List.replicate 32 9))) =
      .ok (spki .x25519 ++ List.replicate 32 9) :=
  ((spki_round_trip_iff wolfCalls wolfCalls (spki .x25519 ++ List.replicate 32 9) .x25519
    (.raw .x25519 (List.replicate 32 9)) (by decide) (by decide)).2
      ⟨by decide, headerRest_spki _ _, rfl, rfl, rfl⟩).1

/-- An Ed25519 key followed by a byte is accepted, and so is one whose BIT STRING is an OCTET STRING. -/
theorem spki_accepts_more :
    let key : Pkey Unit := .raw .ed25519 (List.replicate 32 9)
    let longer := spki .ed25519 ++ List.replicate 33 9
    let octets := (spki .ed25519).set 9 0x04 ++ List.replicate 32 9
    (Recognised longer .ed25519 ∧ evpParsePublicKey wolfCalls longer = some key ∧
      evpMarshalPublicKey wolfCalls (some key) ≠ .ok longer) ∧
    (Recognised octets .ed25519 ∧ evpParsePublicKey wolfCalls octets = some key ∧
      evpMarshalPublicKey wolfCalls (some key) ≠ .ok octets) := by
  decide

end Evp
end Wolf
