import WolfsslRs.AeadKey
import WolfsslRs.Rust
/-!
# OpensshAead — `chacha20-poly1305@openssh.com` of wolfcrypt-ring-compat

The first half of a key, `K_2`, encrypts the packet behind its length field and makes the key of the tag; the second,
`K_1`, encrypts the length field.  The tag covers the encrypted packet and is checked before anything is decrypted.
wolfCrypt takes lengths of 32 bits: from a slice of 4 GiB on, the cipher leaves bytes as they are and the tag covers a
part of the packet.  The state of an operation is the buffer it works in.
-/
namespace Wolf
namespace Aead
namespace Openssh

open Rust (Build asU32 orExit take_asU32_eq_iff debugAssert_of)

/-- wolfCrypt's ChaCha20, by its keystream for a key, a nonce and a first counter, and its Poly1305. -/
structure Primitives where
  keystream : (key : Vector UInt8 32) → (nonce : Nonce) → (counter : BitVec 32) → Nat → UInt8
  poly1305 : (key : Vector UInt8 32) → (msg : Bytes) → Vector UInt8 16

/-- How an operation is left without a result: by `error::Unspecified`, or at a slice out of range or an assertion. -/
inductive Stop where
  | unspecified | panicked
  deriving DecidableEq, Repr

/-- An operation on the buffer of a packet. -/
abbrev InPlace := EStateM Stop Bytes

def packetLengthLen : Nat := 4

/-! ## `cipher/chacha.rs` and `aead/poly1305.rs` -/

/-- `wc_Chacha_Process` from a buffer to itself. -/
def chachaProcess (keystream : Nat → UInt8) (inOut : Bytes) (msglen : Nat) : Bytes :=
  xorStream keystream (inOut.take msglen) ++ inOut.drop msglen

structure ChaCha20Key where
  bytes : Vector UInt8 32

/-- `Tag`, whose array has `MAX_TAG_LEN` bytes. -/
structure Tag where
  bytes : Vector UInt8 16
  len : Nat

variable (lib : Primitives)

/-- `encrypt_in_place_chacha20`. -/
def ChaCha20Key.encryptInPlace (key : ChaCha20Key) (nonce : Nonce) (inOut : Bytes) (ctr : BitVec 32) : Bytes :=
  chachaProcess (lib.keystream key.bytes nonce ctr) inOut (asU32 inOut.length)

theorem length_chachaProcess (keystream : Nat → UInt8) (inOut : Bytes) (msglen : Nat) :
    (chachaProcess keystream inOut msglen).length = inOut.length := by
  rw [chachaProcess, List.length_append, length_xorStream, ← List.length_append, List.take_append_drop]

@[simp] theorem length_encryptInPlace (key : ChaCha20Key) (nonce : Nonce) (inOut : Bytes) (ctr : BitVec 32) :
    (key.encryptInPlace lib nonce inOut ctr).length = inOut.length := length_chachaProcess ..

/-- `encrypt_in_place` on an array. -/
def ChaCha20Key.encryptArray {n : Nat} (key : ChaCha20Key) (nonce : Nonce) (inOut : Vector UInt8 n) (ctr : BitVec 32) :
    Vector UInt8 n :=
  ⟨(key.encryptInPlace lib nonce inOut.toList ctr).toArray, by simp⟩

/-- `poly1305::sign`. -/
def sign (key : Vector UInt8 32) (input : Bytes) : Tag := ⟨lib.poly1305 key (input.take (asU32 input.length)), tagLen⟩

/-! ## Keys -/

structure Key where
  k1 : ChaCha20Key
  k2 : ChaCha20Key

/-- `Key::new`: the first half becomes `K_2` and the second half becomes `K_1`. -/
def Key.new (keyMaterial : Vector UInt8 64) : Key := ⟨⟨keyMaterial.drop 32⟩, ⟨keyMaterial.take 32⟩⟩

structure SealingKey where
  key : Key

structure OpeningKey where
  key : Key

def SealingKey.new (keyMaterial : Vector UInt8 64) : SealingKey := ⟨.new keyMaterial⟩

def OpeningKey.new (keyMaterial : Vector UInt8 64) : OpeningKey := ⟨.new keyMaterial⟩

/-- `make_nonce`: two zero words and the sequence number, in network order. -/
def makeNonce (sequenceNumber : BitVec 32) : Nonce :=
  ⟨beBytes 4 0 ++ beBytes 4 0 ++ beBytes 4 sequenceNumber.toNat, by
    simp only [List.length_append, length_beBytes]; rfl⟩

def derivePoly1305Key (chachaKey : ChaCha20Key) (nonce : Nonce) : Vector UInt8 32 :=
  chachaKey.encryptArray lib nonce (.replicate 32 0) 0

/-- `constant_time::verify_slices_are_equal`. -/
def verifySlicesAreEqual (a b : Bytes) : Except Stop Unit :=
  if a.length ≠ b.length then .error .unspecified else if a = b then .ok () else .error .unspecified

def verify (key : Vector UInt8 32) (msg : Bytes) (tag : Vector UInt8 16) : Except Stop Unit :=
  verifySlicesAreEqual (sign lib key msg).bytes.toList tag.toList

/-! ## The operations -/

/-- `SealingKey::seal_in_place`, with the bytes that overwrite `tag_out`. -/
def SealingKey.sealInPlace (build : Build) (self : SealingKey) (sequenceNumber : BitVec 32) :
    InPlace (Vector UInt8 16) := do
  let nonce := makeNonce sequenceNumber
  let polyKey := derivePoly1305Key lib self.key.k2 nonce
  let inOut ← get
  -- `split_at_mut`
  if inOut.length < packetLengthLen then
    throw .panicked
  set (self.key.k1.encryptInPlace lib nonce (inOut.take packetLengthLen) 0 ++
    self.key.k2.encryptInPlace lib nonce (inOut.drop packetLengthLen) 1)
  let tag := sign lib polyKey (← get)
  MonadExcept.ofExcept (orExit .panicked (build.debugAssert (tagLen = tag.len)))
  return tag.bytes

/-- `OpeningKey::decrypt_packet_length`. -/
def OpeningKey.decryptPacketLength (self : OpeningKey) (sequenceNumber : BitVec 32)
    (encryptedPacketLength : Vector UInt8 4) : Vector UInt8 4 :=
  self.key.k1.encryptArray lib (makeNonce sequenceNumber) encryptedPacketLength 0

/-- `OpeningKey::open_in_place`. -/
def OpeningKey.openInPlace (self : OpeningKey) (sequenceNumber : BitVec 32) (tag : Vector UInt8 16) :
    InPlace Bytes := do
  let nonce := makeNonce sequenceNumber
  let polyKey := derivePoly1305Key lib self.key.k2 nonce
  let inOut ← get
  MonadExcept.ofExcept (verify lib polyKey inOut tag)
  if inOut.length < packetLengthLen then
    throw .panicked
  let plaintext := self.key.k2.encryptInPlace lib nonce (inOut.drop packetLengthLen) 1
  set (inOut.take packetLengthLen ++ plaintext)
  return plaintext

/-! ## What each function does -/

variable {lib}

/-- **Processing a buffer again undoes it**, whatever length is handed over. -/
theorem chachaProcess_chachaProcess (keystream : Nat → UInt8) (inOut : Bytes) (msglen : Nat) :
    chachaProcess keystream (chachaProcess keystream inOut msglen) msglen = inOut := by
  unfold chachaProcess
  by_cases hlen : msglen ≤ inOut.length
  · have htake : (xorStream keystream (inOut.take msglen)).length = msglen := by
      rw [length_xorStream, List.length_take, Nat.min_eq_left hlen]
    rw [List.take_left' htake, List.drop_left' htake, xorStream_xorStream, List.take_append_drop]
  · have hle : inOut.length ≤ msglen := by omega
    rw [List.take_of_length_le hle, List.drop_of_length_le hle, List.append_nil,
      List.take_of_length_le (by rwa [length_xorStream]), List.drop_of_length_le (by rwa [length_xorStream]),
      xorStream_xorStream, List.append_nil]

theorem encryptInPlace_encryptInPlace (key : ChaCha20Key) (nonce : Nonce) (inOut : Bytes) (ctr : BitVec 32) :
    key.encryptInPlace lib nonce (key.encryptInPlace lib nonce inOut ctr) ctr = inOut := by
  unfold ChaCha20Key.encryptInPlace
  rw [length_chachaProcess, chachaProcess_chachaProcess]

@[simp] theorem toList_encryptArray {n : Nat} (key : ChaCha20Key) (nonce : Nonce) (inOut : Vector UInt8 n)
    (ctr : BitVec 32) :
    (key.encryptArray lib nonce inOut ctr).toList = key.encryptInPlace lib nonce inOut.toList ctr := rfl

theorem verify_eq (key : Vector UInt8 32) (msg : Bytes) (tag : Vector UInt8 16) :
    verify lib key msg tag = if tag = (sign lib key msg).bytes then .ok () else .error .unspecified := by
  unfold verify verifySlicesAreEqual
  rw [Vector.length_toList, Vector.length_toList, if_neg (by decide)]
  by_cases heq : tag = (sign lib key msg).bytes
  · rw [if_pos heq, if_pos (congrArg Vector.toList heq.symm)]
  · rw [if_neg heq, if_neg fun h => heq (Vector.toList_inj.1 h.symm)]

/-- The tag `poly1305::sign` computes for a buffer. -/
def computedTag (lib : Primitives) (key : Key) (sequenceNumber : BitVec 32) (buffer : Bytes) : Vector UInt8 16 :=
  (sign lib (derivePoly1305Key lib key.k2 (makeNonce sequenceNumber)) buffer).bytes

/-- The encrypted packet. -/
def sealed (lib : Primitives) (key : Key) (sequenceNumber : BitVec 32) (packet : Bytes) : Bytes :=
  key.k1.encryptInPlace lib (makeNonce sequenceNumber) (packet.take packetLengthLen) 0 ++
    key.k2.encryptInPlace lib (makeNonce sequenceNumber) (packet.drop packetLengthLen) 1

theorem run_sealInPlace (build : Build) (self : SealingKey) (sequenceNumber : BitVec 32) {packet : Bytes}
    (hlen : packetLengthLen ≤ packet.length) :
    (self.sealInPlace lib build sequenceNumber).run packet =
      .ok (computedTag lib self.key sequenceNumber (sealed lib self.key sequenceNumber packet))
        (sealed lib self.key sequenceNumber packet) := by
  unfold SealingKey.sealInPlace
  simp only [EStateM.run_bind, EStateM.run_get, if_neg (Nat.not_lt.2 hlen)]
  have hassert : ∀ key input, build.debugAssert (tagLen = (sign lib key input).len) = some () :=
    fun _ _ => debugAssert_of rfl
  simp only [hassert]
  rfl

theorem run_openInPlace (self : OpeningKey) (sequenceNumber : BitVec 32) (tag : Vector UInt8 16) (buffer : Bytes) :
    (self.openInPlace lib sequenceNumber tag).run buffer =
      if tag = computedTag lib self.key sequenceNumber buffer then
        if buffer.length < packetLengthLen then .error .panicked buffer
        else
          let plaintext := self.key.k2.encryptInPlace lib (makeNonce sequenceNumber) (buffer.drop packetLengthLen) 1
          .ok plaintext (buffer.take packetLengthLen ++ plaintext)
      else .error .unspecified buffer := by
  unfold OpeningKey.openInPlace computedTag
  simp only [EStateM.run_bind, EStateM.run_get, verify_eq]
  by_cases htag : tag = (sign lib (derivePoly1305Key lib self.key.k2 (makeNonce sequenceNumber)) buffer).bytes
  · simp only [if_pos htag]
    by_cases hlen : buffer.length < packetLengthLen
    · simp only [if_pos hlen]
      rfl
    · simp only [if_neg hlen]
      rfl
  · simp only [if_neg htag]
    rfl

/-! ## A packet, sealed and opened -/

section Packet

variable {key : Key} {sequenceNumber : BitVec 32} {packet : Bytes}

theorem length_sealed : (sealed lib key sequenceNumber packet).length = packet.length := by
  rw [sealed, List.length_append, length_encryptInPlace, length_encryptInPlace, ← List.length_append,
    List.take_append_drop]

theorem take_sealed (hlen : packetLengthLen ≤ packet.length) :
    (sealed lib key sequenceNumber packet).take packetLengthLen =
      key.k1.encryptInPlace lib (makeNonce sequenceNumber) (packet.take packetLengthLen) 0 :=
  List.take_left' (by rw [length_encryptInPlace, List.length_take, Nat.min_eq_left hlen])

theorem drop_sealed (hlen : packetLengthLen ≤ packet.length) :
    (sealed lib key sequenceNumber packet).drop packetLengthLen =
      key.k2.encryptInPlace lib (makeNonce sequenceNumber) (packet.drop packetLengthLen) 1 :=
  List.drop_left' (by rw [length_encryptInPlace, List.length_take, Nat.min_eq_left hlen])

/-- **The length field comes back** from the first bytes of the sealed packet. -/
theorem decryptPacketLength_sealed (hlen : packetLengthLen ≤ packet.length) {first : Vector UInt8 4}
    (hfirst : first.toList = (sealed lib key sequenceNumber packet).take packetLengthLen) :
    (OpeningKey.decryptPacketLength lib ⟨key⟩ sequenceNumber first).toList = packet.take packetLengthLen := by
  rw [OpeningKey.decryptPacketLength, toList_encryptArray, hfirst, take_sealed hlen, encryptInPlace_encryptInPlace]

/-- **The packet opens** under the tag computed for it. -/
theorem openInPlace_sealed (hlen : packetLengthLen ≤ packet.length) :
    (OpeningKey.openInPlace lib ⟨key⟩ sequenceNumber
        (computedTag lib key sequenceNumber (sealed lib key sequenceNumber packet))).run
        (sealed lib key sequenceNumber packet) =
      .ok (packet.drop packetLengthLen)
        ((sealed lib key sequenceNumber packet).take packetLengthLen ++ packet.drop packetLengthLen) := by
  rw [run_openInPlace, if_pos rfl, if_neg (by rw [length_sealed]; omega), drop_sealed hlen,
    encryptInPlace_encryptInPlace]

/-- Of the bytes behind the length field, the cipher changes as many as the low 32 bits of their number say. -/
theorem sealed_end_clear (hlen : packetLengthLen ≤ packet.length) :
    (sealed lib key sequenceNumber packet).drop (packetLengthLen + asU32 (packet.length - packetLengthLen)) =
      packet.drop (packetLengthLen + asU32 (packet.length - packetLengthLen)) := by
  rw [← List.drop_drop, drop_sealed hlen, ← List.drop_drop, ChaCha20Key.encryptInPlace, chachaProcess, List.length_drop]
  refine List.drop_left' ?_
  have hle : asU32 (packet.length - packetLengthLen) ≤ packet.length - packetLengthLen := Nat.mod_le ..
  rw [length_xorStream, List.length_take, List.length_drop, Nat.min_eq_left hle]

/-- **A packet past 4 GiB is sealed with its end in the clear**, and without an error. -/
theorem sealInPlace_end_clear (build : Build) (self : SealingKey) (hlen : packetLengthLen ≤ packet.length) :
    ∃ tag out, (self.sealInPlace lib build sequenceNumber).run packet = .ok tag out ∧
      out.drop (packetLengthLen + asU32 (packet.length - packetLengthLen)) =
        packet.drop (packetLengthLen + asU32 (packet.length - packetLengthLen)) :=
  ⟨_, _, run_sealInPlace build self sequenceNumber hlen, sealed_end_clear hlen⟩

end Packet

/-- **The round trip of a packet**: it is sealed, the length field is read back, and the rest is what opening returns and
leaves behind the encrypted length field. -/
def RoundTrips (lib : Primitives) (build : Build) (keyMaterial : Vector UInt8 64) (sequenceNumber : BitVec 32)
    (packet : Bytes) : Prop :=
  ∃ tag out, ((SealingKey.new keyMaterial).sealInPlace lib build sequenceNumber).run packet = .ok tag out ∧
    (∀ first : Vector UInt8 4, first.toList = out.take packetLengthLen →
      ((OpeningKey.new keyMaterial).decryptPacketLength lib sequenceNumber first).toList = packet.take packetLengthLen) ∧
    ((OpeningKey.new keyMaterial).openInPlace lib sequenceNumber tag).run out =
      .ok (packet.drop packetLengthLen) (out.take packetLengthLen ++ packet.drop packetLengthLen)

theorem roundTrips (lib : Primitives) (build : Build) (keyMaterial : Vector UInt8 64) (sequenceNumber : BitVec 32)
    {packet : Bytes} (hlen : packetLengthLen ≤ packet.length) :
    RoundTrips lib build keyMaterial sequenceNumber packet :=
  ⟨_, _, run_sealInPlace build _ sequenceNumber hlen, fun _ hfirst => decryptPacketLength_sealed hlen hfirst,
    openInPlace_sealed hlen⟩

/-! ## A tag that does not match -/

/-- The Poly1305 tag of a whole buffer, under the key of a sequence number. -/
def matchingTag (lib : Primitives) (keyMaterial : Vector UInt8 64) (sequenceNumber : BitVec 32) (buffer : Bytes) :
    Vector UInt8 16 :=
  lib.poly1305 (derivePoly1305Key lib (Key.new keyMaterial).k2 (makeNonce sequenceNumber)) buffer

/-- **Opening refuses every tag but that of the buffer**, and leaves the buffer as it is. -/
def Refuses (lib : Primitives) (keyMaterial : Vector UInt8 64) (sequenceNumber : BitVec 32) (buffer : Bytes) : Prop :=
  ∀ tag, tag ≠ matchingTag lib keyMaterial sequenceNumber buffer →
    ((OpeningKey.new keyMaterial).openInPlace lib sequenceNumber tag).run buffer = .error .unspecified buffer

theorem openInPlace_refused_iff {self : OpeningKey} {sequenceNumber : BitVec 32} {tag : Vector UInt8 16}
    {buffer : Bytes} : (self.openInPlace lib sequenceNumber tag).run buffer = .error .unspecified buffer ↔
      tag ≠ computedTag lib self.key sequenceNumber buffer := by
  rw [run_openInPlace]
  by_cases htag : tag = computedTag lib self.key sequenceNumber buffer
  · rw [if_pos htag]
    refine iff_of_false ?_ (not_not.2 htag)
    split <;> nofun
  · rw [if_neg htag]
    exact iff_of_true rfl htag

theorem computedTag_eq (keyMaterial : Vector UInt8 64) (sequenceNumber : BitVec 32) (buffer : Bytes) :
    computedTag lib (Key.new keyMaterial) sequenceNumber buffer =
      matchingTag lib keyMaterial sequenceNumber (buffer.take (asU32 buffer.length)) := rfl

/-- For one Poly1305, all depends on whether the part of the buffer it is handed has the tag of the whole. -/
theorem refuses_iff {keyMaterial : Vector UInt8 64} {sequenceNumber : BitVec 32} {buffer : Bytes} :
    Refuses lib keyMaterial sequenceNumber buffer ↔
      matchingTag lib keyMaterial sequenceNumber (buffer.take (asU32 buffer.length)) =
        matchingTag lib keyMaterial sequenceNumber buffer := by
  rw [← computedTag_eq]
  constructor
  · intro h
    by_contra hne
    exact openInPlace_refused_iff.1 (h _ hne) rfl
  · intro heq tag htag
    exact openInPlace_refused_iff.2 (heq ▸ htag)

/-- A keystream of zeros, and tags that tell one message from the others. -/
def marking (marked : Bytes) : Primitives where
  keystream _ _ _ _ := 0
  poly1305 _ msg := .replicate 16 (if msg = marked then 1 else 0)

theorem matchingTag_marking (marked : Bytes) (keyMaterial : Vector UInt8 64) (sequenceNumber : BitVec 32)
    (buffer : Bytes) : matchingTag (marking marked) keyMaterial sequenceNumber buffer =
      .replicate 16 (if buffer = marked then 1 else 0) := rfl

/-- **Every packet with a length field makes the round trip, and opening refuses the tags that do not match, exactly for
buffers below 4 GiB**, whatever ChaCha20 and Poly1305 compute. -/
theorem packets_opened_iff (build : Build) (keyMaterial : Vector UInt8 64) (sequenceNumber : BitVec 32) :
    (∀ lib packet, packetLengthLen ≤ packet.length → RoundTrips lib build keyMaterial sequenceNumber packet) ∧
    ∀ buffer, (∀ lib, Refuses lib keyMaterial sequenceNumber buffer) ↔ buffer.length < 2 ^ 32 := by
  refine ⟨fun lib packet hlen => roundTrips lib build keyMaterial sequenceNumber hlen, fun buffer => ?_⟩
  rw [← take_asU32_eq_iff]
  constructor
  · intro h
    have htags := refuses_iff.1 (h (marking buffer))
    rw [matchingTag_marking, matchingTag_marking, if_pos rfl] at htags
    by_contra hne
    rw [if_neg hne] at htags
    exact absurd htags (by decide)
  · intro hwhole lib
    exact refuses_iff.2 (congrArg _ hwhole)

theorem encryptInPlace_marking (marked : Bytes) (key : ChaCha20Key) (nonce : Nonce) (inOut : Bytes) (ctr : BitVec 32) :
    key.encryptInPlace (marking marked) nonce inOut ctr = inOut := by
  show xorStream (fun _ => 0) (inOut.take _) ++ inOut.drop _ = inOut
  rw [xorStream_zero, List.take_append_drop]

theorem openInPlace_marking {keyMaterial : Vector UInt8 64} {sequenceNumber : BitVec 32} {buffer : Bytes}
    (hlen : packetLengthLen ≤ buffer.length) (hpart : buffer.take (asU32 buffer.length) = []) :
    ((OpeningKey.new keyMaterial).openInPlace (marking []) sequenceNumber (.replicate 16 1)).run buffer =
      .ok (buffer.drop packetLengthLen) buffer := by
  have htag : computedTag (marking []) (OpeningKey.new keyMaterial).key sequenceNumber buffer = .replicate 16 1 := by
    rw [OpeningKey.new, computedTag_eq, hpart, matchingTag_marking, if_pos rfl]
  rw [run_openInPlace, if_pos htag.symm, if_neg (Nat.not_lt.2 hlen), encryptInPlace_marking]
  exact congrArg (EStateM.Result.ok _) (List.take_append_drop ..)

/-- **4 GiB of zeros open under the tag of no bytes at all**, which is not theirs. -/
theorem long_buffer_opened :
    matchingTag (marking []) (.replicate 64 0) 0 (List.replicate (2 ^ 32) 0) = .replicate 16 0 ∧
    ((OpeningKey.new (.replicate 64 0)).openInPlace (marking []) 0 (.replicate 16 1)).run (List.replicate (2 ^ 32) 0) =
      .ok (List.replicate (2 ^ 32 - 4) 0) (List.replicate (2 ^ 32) 0) := by
  have hne : (List.replicate (2 ^ 32) 0 : Bytes) ≠ [] := List.ne_nil_of_length_pos (by
    rw [List.length_replicate]
    decide)
  constructor
  · rw [matchingTag_marking, if_neg hne]
  · rw [openInPlace_marking, List.drop_replicate, packetLengthLen]
    · rw [List.length_replicate]
      decide
    · rw [List.length_replicate]
      exact List.take_zero

/-- Of a packet with 4 GiB and a byte behind its length field, only the first of these bytes is changed. -/
theorem sealInPlace_end_clear_long : ∃ tag out,
    ((SealingKey.new (.replicate 64 0)).sealInPlace (marking []) .release 0).run (List.replicate (2 ^ 32 + 5) 7) = .ok tag out ∧
      out.drop 5 = (List.replicate (2 ^ 32 + 5) 7).drop 5 := by
  have hlen : packetLengthLen ≤ (List.replicate (2 ^ 32 + 5) (7 : UInt8)).length := by
    rw [List.length_replicate]
    decide
  have hfive : packetLengthLen + asU32 ((List.replicate (2 ^ 32 + 5) (7 : UInt8)).length - packetLengthLen) = 5 := by
    rw [List.length_replicate]
    decide
  have hclear := @sealInPlace_end_clear (marking []) 0 _ .release (.new (.replicate 64 0)) hlen
  rwa [hfive] at hclear

end Openssh
end Aead
end Wolf
