import Mathlib.Data.UInt
import WolfsslRs.NonceCounter
import WolfsslRs.Program
import WolfsslRs.Rust
/-!
# AeadKey — the AEAD keys of wolfcrypt-ring-compat

Six operations of a key seal or open a text by one call of a wolfCrypt primitive, in place, into a scratch buffer or into
the caller's.  Lengths are 64-bit in the API and 32-bit in the primitives; the algorithms admit every 64-bit length, so
that a longer text or longer associated data are handed over with their lengths cut.  The state of an operation is the
primitive calls it has made; buffers are values, an operation that fails giving none.
-/
namespace Wolf
namespace Aead

open Program Rust

def u64Max : Nat := 2 ^ 64 - 1

def tagLen : Nat := 16

/-! ## The primitives -/

structure Sealing where
  ret : Int
  out : Bytes
  tag : Bytes
  deriving DecidableEq, Repr

structure Opening where
  ret : Int
  out : Bytes
  deriving DecidableEq, Repr

/-- **The one-shot primitives of wolfCrypt**, by the bytes they read: whether an AES object can be allocated, what setting
its key returns, and what the four functions return and write. -/
structure WolfCrypt where
  aesNew : Bool
  aesGcmSetKey : Bytes → Int
  aesGcmEncrypt : (key nonce ad text : Bytes) → Sealing
  aesGcmDecrypt : (key nonce ad text tag : Bytes) → Opening
  chachaEncrypt : (key nonce ad text : Bytes) → Sealing
  chachaDecrypt : (key nonce ad text tag : Bytes) → Opening

inductive Primitive where
  | aesGcmEncrypt | aesGcmDecrypt | chachaEncrypt | chachaDecrypt
  deriving DecidableEq, Repr

/-- A call of a primitive: the slices whose pointers are handed over, and the lengths handed over with them. -/
structure PrimCall where
  primitive : Primitive
  nonce : Bytes
  nonceLen : Nat
  ad : Bytes
  adLen : Nat
  text : Bytes
  textLen : Nat
  deriving DecidableEq, Repr

/-- An operation: it ends or fails, having made calls. -/
abbrev Api := EStateM Unspecified (List PrimCall)

/-! ## Keys -/

inductive AlgorithmID where
  | aes128Gcm | aes192Gcm | aes256Gcm | chacha20Poly1305
  deriving DecidableEq, Repr

/-- `key` is an array of 32 bytes, of which `keyLen` are the key. -/
structure AeadKey where
  key : Bytes
  keyLen : Nat
  tagLen : Nat
  deriving DecidableEq, Repr

def AeadKey.new (keyBytes : Bytes) (tagLen : Nat) : AeadKey :=
  ⟨keyBytes ++ List.replicate (32 - keyBytes.length) 0, keyBytes.length, tagLen⟩

/-- `AeadCtx`: every variant holds a key. -/
structure AeadCtx where
  id : AlgorithmID
  key : AeadKey
  deriving DecidableEq, Repr

/-- The constructors of `AeadCtx`, which differ by the variant and the length of its keys. -/
def AeadCtx.init (id : AlgorithmID) (keyLen : Nat) (keyBytes : Bytes) (tagLen : Nat) : Except Unspecified AeadCtx :=
  if keyLen ≠ keyBytes.length ∨ 16 < tagLen then .error .unspecified else .ok ⟨id, .new keyBytes tagLen⟩

def AeadCtx.aes128Gcm : Bytes → Nat → Except Unspecified AeadCtx := AeadCtx.init .aes128Gcm 16
def AeadCtx.aes192Gcm : Bytes → Nat → Except Unspecified AeadCtx := AeadCtx.init .aes192Gcm 24
def AeadCtx.aes256Gcm : Bytes → Nat → Except Unspecified AeadCtx := AeadCtx.init .aes256Gcm 32
def AeadCtx.chacha20 : Bytes → Nat → Except Unspecified AeadCtx := AeadCtx.init .chacha20Poly1305 32

structure Algorithm where
  init : Bytes → Nat → Except Unspecified AeadCtx
  keyLen : Nat
  id : AlgorithmID
  maxInputLen : Nat

def Algorithm.tagLen (_ : Algorithm) : Nat := Aead.tagLen

@[simp] theorem Algorithm.tagLen_eq (a : Algorithm) : a.tagLen = Aead.tagLen := rfl

def aes128GcmAlgorithm : Algorithm := ⟨AeadCtx.aes128Gcm, 16, .aes128Gcm, u64Max⟩
def aes192GcmAlgorithm : Algorithm := ⟨AeadCtx.aes192Gcm, 24, .aes192Gcm, u64Max⟩
def aes256GcmAlgorithm : Algorithm := ⟨AeadCtx.aes256Gcm, 32, .aes256Gcm, u64Max⟩
def chacha20Poly1305Algorithm : Algorithm := ⟨AeadCtx.chacha20, 32, .chacha20Poly1305, u64Max⟩

/-- The four algorithms there are. -/
def AlgorithmID.algorithm : AlgorithmID → Algorithm
  | .aes128Gcm => aes128GcmAlgorithm
  | .aes192Gcm => aes192GcmAlgorithm
  | .aes256Gcm => aes256GcmAlgorithm
  | .chacha20Poly1305 => chacha20Poly1305Algorithm

structure UnboundKey where
  ctx : AeadCtx
  algorithm : Algorithm

def UnboundKey.new (algorithm : Algorithm) (keyBytes : Bytes) : Except Unspecified UnboundKey :=
  match algorithm.init keyBytes algorithm.tagLen with
  | .error e => .error e
  | .ok ctx => .ok ⟨ctx, algorithm⟩

/-! ## The context -/

section Context

variable (wc : WolfCrypt) (ctx : AeadCtx)

/-- `inOut` and `tagOut` after the call. -/
def AeadCtx.aesGcmSeal (nonce inOut : Bytes) (plaintextLen : Nat) (ad tagOut : Bytes) : Api (Bytes × Bytes) := do
  let key := ctx.key.key.take (asU32 ctx.key.keyLen)
  if wc.aesNew = false then throw .unspecified
  else if wc.aesGcmSetKey key ≠ 0 then throw .unspecified
  else
    modify (· ++ [⟨.aesGcmEncrypt, nonce, asU32 nonce.length, ad, asU32 ad.length, inOut, asU32 plaintextLen⟩])
    let r := wc.aesGcmEncrypt key (nonce.take (asU32 nonce.length)) (ad.take (asU32 ad.length))
      (inOut.take (asU32 plaintextLen))
    if r.ret ≠ 0 then throw .unspecified
    else
      let copyLen := min ctx.key.tagLen tagOut.length
      return (splice inOut 0 r.out, splice tagOut 0 (r.tag.take copyLen))

/-- `inOut` after the call. -/
def AeadCtx.aesGcmOpen (nonce inOut : Bytes) (ciphertextLen : Nat) (tag ad : Bytes) : Api Bytes := do
  let key := ctx.key.key.take (asU32 ctx.key.keyLen)
  if wc.aesNew = false then throw .unspecified
  else if wc.aesGcmSetKey key ≠ 0 then throw .unspecified
  else if tag.length ≠ 16 then throw .unspecified
  else
    modify (· ++ [⟨.aesGcmDecrypt, nonce, asU32 nonce.length, ad, asU32 ad.length, inOut, asU32 ciphertextLen⟩])
    let r := wc.aesGcmDecrypt key (nonce.take (asU32 nonce.length)) (ad.take (asU32 ad.length))
      (inOut.take (asU32 ciphertextLen)) tag
    if r.ret ≠ 0 then throw .unspecified else return splice inOut 0 r.out

/-- The primitive takes no length of the key, of the nonce or of the tag: it reads 32, 12 and 16 bytes. -/
def AeadCtx.chachaSeal (nonce inOut : Bytes) (plaintextLen : Nat) (ad tagOut : Bytes) : Api (Bytes × Bytes) := do
  modify (· ++ [⟨.chachaEncrypt, nonce, nonceLen, ad, asU32 ad.length, inOut, asU32 plaintextLen⟩])
  let r := wc.chachaEncrypt (ctx.key.key.take 32) (nonce.take nonceLen) (ad.take (asU32 ad.length))
    (inOut.take (asU32 plaintextLen))
  if r.ret ≠ 0 then throw .unspecified
  else
    let copyLen := min ctx.key.tagLen tagOut.length
    return (splice inOut 0 r.out, splice tagOut 0 (r.tag.take copyLen))

def AeadCtx.chachaOpen (nonce inOut : Bytes) (ciphertextLen : Nat) (tag ad : Bytes) : Api Bytes := do
  modify (· ++ [⟨.chachaDecrypt, nonce, nonceLen, ad, asU32 ad.length, inOut, asU32 ciphertextLen⟩])
  let r := wc.chachaDecrypt (ctx.key.key.take 32) (nonce.take nonceLen) (ad.take (asU32 ad.length))
    (inOut.take (asU32 ciphertextLen)) (tag.take 16)
  if r.ret ≠ 0 then throw .unspecified else return splice inOut 0 r.out

def AeadCtx.seal (nonce inOut : Bytes) (plaintextLen : Nat) (ad tagOut : Bytes) : Api (Bytes × Bytes) :=
  match ctx.id with
  | .aes128Gcm | .aes192Gcm | .aes256Gcm => ctx.aesGcmSeal wc nonce inOut plaintextLen ad tagOut
  | .chacha20Poly1305 => ctx.chachaSeal wc nonce inOut plaintextLen ad tagOut

/-- The source's `open`. -/
def AeadCtx.openCtx (nonce inOut : Bytes) (ciphertextLen : Nat) (tag ad : Bytes) : Api Bytes :=
  match ctx.id with
  | .aes128Gcm | .aes192Gcm | .aes256Gcm => ctx.aesGcmOpen wc nonce inOut ciphertextLen tag ad
  | .chacha20Poly1305 => ctx.chachaOpen wc nonce inOut ciphertextLen tag ad

/-- `inOut` and `extraOutAndTag` after the call. -/
def AeadCtx.sealScatter (nonce inOut extraIn extraOutAndTag ad : Bytes) : Api (Bytes × Bytes) := do
  let tagLen := ctx.key.tagLen
  if extraIn = [] then
    let (inOut, tag) ← ctx.seal wc nonce inOut inOut.length ad (extraOutAndTag.take tagLen)
    return (inOut, splice extraOutAndTag 0 tag)
  else
    let total := inOut.length + extraIn.length
    let (combined, tag) ← ctx.seal wc nonce (inOut ++ extraIn) total ad (List.replicate tagLen 0)
    return (combined.take inOut.length,
      splice (splice extraOutAndTag 0 (combined.drop inOut.length)) extraIn.length (tag.take tagLen))

/-- `outPlaintext` after the call; the ciphertext is copied there first. -/
def AeadCtx.openGather (nonce inCiphertext inTag outPlaintext ad : Bytes) : Api Bytes :=
  let outPlaintext := splice outPlaintext 0 inCiphertext
  ctx.openCtx wc nonce outPlaintext inCiphertext.length inTag ad

end Context

/-! ## The operations -/

section Operations

variable (wc : WolfCrypt) (key : UnboundKey)

def UnboundKey.checkPerNonceMaxBytes (inOutLen : Nat) : Api Unit :=
  if key.algorithm.maxInputLen < inOutLen % 2 ^ 64 then throw .unspecified else return ()

/-- **The check admits every length**: its bound is the largest 64-bit number. -/
theorem checkPerNonceMaxBytes_eq {key : UnboundKey} (h : key.algorithm.maxInputLen = u64Max) (n : Nat) :
    key.checkPerNonceMaxBytes n = pure () := by
  rw [UnboundKey.checkPerNonceMaxBytes, h, u64Max, if_neg (by omega)]

/-- `inOut` after the call, tag and all. -/
def UnboundKey.openCombined (nonce : Nonce) (aad inOut : Bytes) : Api Bytes := do
  let ciphertextLen := inOut.length - key.algorithm.tagLen
  let tag := inOut.drop ciphertextLen
  let text ← key.ctx.openCtx wc nonce.bytes (inOut.take ciphertextLen) ciphertextLen tag aad
  return splice inOut 0 text

/-- `inOut` after the call, with the tag at its end. -/
def UnboundKey.sealCombined (nonce : Nonce) (aad inOut : Bytes) : Api Bytes := do
  let plaintextLen := inOut.length
  let algTagLen := key.algorithm.tagLen
  let buf := inOut ++ List.replicate algTagLen 0
  let (text, tag) ← key.ctx.seal wc nonce.bytes (buf.take plaintextLen) plaintextLen aad (List.replicate algTagLen 0)
  return splice (splice buf 0 text) plaintextLen (tag.take algTagLen)

/-- `inOut` after the call, and the tag. -/
def UnboundKey.sealSeparate (nonce : Nonce) (aad inOut : Bytes) : Api (Bytes × Bytes) := do
  let tagLen := key.algorithm.tagLen
  let (text, tag) ← key.ctx.seal wc nonce.bytes inOut inOut.length aad (List.replicate tagLen 0)
  return (text, tag.take tagLen)

/-- The plaintext, shifted to the front of the buffer. -/
def UnboundKey.openWithin (nonce : Nonce) (aad inOut : Bytes) (start : Nat) : Api Bytes := do
  if inOut.length < start then throw .unspecified
  else if inOut.length - start < key.algorithm.tagLen then throw .unspecified
  else
    let ciphertextLen := inOut.length - start - key.algorithm.tagLen
    key.checkPerNonceMaxBytes ciphertextLen
    let opened ← key.openCombined wc nonce aad (inOut.drop start)
    let inOut := splice inOut start opened
    return (splice inOut 0 (slice inOut start ciphertextLen)).take ciphertextLen

def UnboundKey.openSeparateGather (nonce : Nonce) (aad inCiphertext inTag outPlaintext : Bytes) : Api Bytes := do
  key.checkPerNonceMaxBytes inCiphertext.length
  if inTag.length ≠ key.algorithm.tagLen then throw .unspecified
  else if inCiphertext.length ≠ outPlaintext.length then throw .unspecified
  else key.ctx.openGather wc nonce.bytes inCiphertext inTag outPlaintext aad

def UnboundKey.sealInPlaceAppendTag (nonce : Option Nonce) (aad inOut : Bytes) : Api Bytes := do
  key.checkPerNonceMaxBytes inOut.length
  match nonce with
  | some nonce => key.sealCombined wc nonce aad inOut
  | none => throw .unspecified

def UnboundKey.sealInPlaceSeparateTag (nonce : Option Nonce) (aad inOut : Bytes) : Api (Bytes × Bytes) := do
  key.checkPerNonceMaxBytes inOut.length
  match nonce with
  | some nonce => key.sealSeparate wc nonce aad inOut
  | none => throw .unspecified

def UnboundKey.sealInPlaceSeparateScatter (nonce : Nonce) (aad inOut extraIn extraOutAndTag : Bytes) :
    Api (Bytes × Bytes) := do
  key.checkPerNonceMaxBytes inOut.length
  if extraIn.length + key.algorithm.tagLen ≠ extraOutAndTag.length then throw .unspecified
  else key.ctx.sealScatter wc nonce.bytes inOut extraIn extraOutAndTag aad

end Operations

/-- A key used with nonces the caller gives: the operations of `UnboundKey`. -/
structure LessSafeKey where
  key : UnboundKey

section LessSafe

variable (wc : WolfCrypt) (k : LessSafeKey) (nonce : Nonce) (aad : Bytes)

def LessSafeKey.openWithin (inOut : Bytes) (start : Nat) : Api Bytes := k.key.openWithin wc nonce aad inOut start

def LessSafeKey.openInPlace (inOut : Bytes) : Api Bytes := k.openWithin wc nonce aad inOut 0

def LessSafeKey.openSeparateGather (inCiphertext inTag outPlaintext : Bytes) : Api Bytes :=
  k.key.openSeparateGather wc nonce aad inCiphertext inTag outPlaintext

def LessSafeKey.sealInPlaceAppendTag (inOut : Bytes) : Api Bytes := k.key.sealInPlaceAppendTag wc (some nonce) aad inOut

def LessSafeKey.sealInPlaceSeparateTag (inOut : Bytes) : Api (Bytes × Bytes) :=
  k.key.sealInPlaceSeparateTag wc (some nonce) aad inOut

def LessSafeKey.sealInPlaceScatter (inOut extraIn extraOutAndTag : Bytes) : Api (Bytes × Bytes) :=
  k.key.sealInPlaceSeparateScatter wc nonce aad inOut extraIn extraOutAndTag

end LessSafe

/-! ## What is handed to the primitives -/

/-- The operations of a key, with the buffers they are given. -/
inductive Op where
  | sealInPlaceAppendTag (inOut : Bytes)
  | sealInPlaceSeparateTag (inOut : Bytes)
  | sealInPlaceScatter (inOut extraIn extraOutAndTag : Bytes)
  | openWithin (inOut : Bytes) (start : Nat)
  | openSeparateGather (inCiphertext inTag outPlaintext : Bytes)
  deriving DecidableEq, Repr

def Op.run (wc : WolfCrypt) (k : LessSafeKey) (nonce : Nonce) (aad : Bytes) : Op → Api Unit
  | sealInPlaceAppendTag inOut => discard (k.sealInPlaceAppendTag wc nonce aad inOut)
  | sealInPlaceSeparateTag inOut => discard (k.sealInPlaceSeparateTag wc nonce aad inOut)
  | sealInPlaceScatter inOut extraIn extraOutAndTag =>
    discard (k.sealInPlaceScatter wc nonce aad inOut extraIn extraOutAndTag)
  | openWithin inOut start => discard (k.openWithin wc nonce aad inOut start)
  | openSeparateGather inCiphertext inTag outPlaintext =>
    discard (k.openSeparateGather wc nonce aad inCiphertext inTag outPlaintext)

/-- The calls of primitives an operation makes, whether it ends or fails. -/
def Op.calls (wc : WolfCrypt) (k : LessSafeKey) (nonce : Nonce) (aad : Bytes) (op : Op) : List PrimCall :=
  match (op.run wc k nonce aad).run [] with
  | .ok _ cs => cs
  | .error _ cs => cs

/-- **The text an operation is to encrypt or decrypt.** -/
def Op.text : Op → Bytes
  | sealInPlaceAppendTag inOut => inOut
  | sealInPlaceSeparateTag inOut => inOut
  | sealInPlaceScatter inOut extraIn _ => inOut ++ extraIn
  | openWithin inOut start => slice inOut start (inOut.length - start - tagLen)
  | openSeparateGather inCiphertext _ _ => inCiphertext

/-- **A call that hands the whole of everything over**: these slices, each with its own length. -/
def PrimCall.Whole (nonce ad text : Bytes) (c : PrimCall) : Prop :=
  (c.nonce = nonce ∧ c.nonceLen = nonce.length) ∧ (c.ad = ad ∧ c.adLen = ad.length) ∧
    c.text = text ∧ c.textLen = text.length

instance (nonce ad text : Bytes) (c : PrimCall) : Decidable (c.Whole nonce ad text) :=
  inferInstanceAs (Decidable (_ ∧ _))

/-- A call that hands these slices over with their lengths cut. -/
def PrimCall.Cut (nonce ad text : Bytes) (c : PrimCall) : Prop :=
  (c.nonce = nonce ∧ c.nonceLen = nonce.length) ∧ (c.ad = ad ∧ c.adLen = asU32 ad.length) ∧
    c.text = text ∧ c.textLen = asU32 text.length

/-- What an operation on `text` does to the calls made: nothing, or one more. -/
def Called (nonce ad text : Bytes) (cs cs' : List PrimCall) : Prop :=
  cs' = cs ∨ ∃ c, cs' = cs ++ [c] ∧ c.Cut nonce ad text

/-- However it comes out, the operation makes at most one call, for `text`. -/
def CallsFor {α : Type} (nonce ad text : Bytes) (p : Api α) : Prop :=
  ∀ cs, wp p (fun _ => Called nonce ad text cs) (fun _ => Called nonce ad text cs) cs

theorem PrimCall.Cut.whole_iff {nonce ad text : Bytes} {c : PrimCall} (h : c.Cut nonce ad text) :
    c.Whole nonce ad text ↔ text.length < 2 ^ 32 ∧ ad.length < 2 ^ 32 := by
  obtain ⟨hnonce, ⟨had, hadLen⟩, htext, htextLen⟩ := h
  simp only [PrimCall.Whole, hnonce, had, hadLen, htext, htextLen, asU32_eq_iff, true_and, and_true]
  exact And.comm

section CallsFor

variable {α β : Type} {nonce ad text : Bytes}

theorem callsFor_throw : CallsFor nonce ad text (throw .unspecified : Api α) := fun _ => .inl rfl

theorem CallsFor.bind_pure {p : Api α} {k : α → Api β} (hp : CallsFor nonce ad text p)
    (hk : ∀ a, ∃ b, k a = pure b) : CallsFor nonce ad text (p >>= k) := by
  intro cs
  rw [wp_bind]
  refine wp_mono (fun a cs' h => ?_) (fun _ _ h => h) (hp cs)
  obtain ⟨b, hb⟩ := hk a
  rw [hb]
  exact h

theorem CallsFor.discard {p : Api α} (hp : CallsFor nonce ad text p) : CallsFor nonce ad text (discard p) :=
  fun cs => wp_map.2 (hp cs)

/-- The call itself, and an answer that depends on what the primitive returned. -/
theorem CallsFor.call {c : PrimCall} {p : Api α} (hc : c.Cut nonce ad text) (hp : ∀ cs, wp p (fun _ cs' => cs' = cs)
    (fun _ cs' => cs' = cs) cs) : CallsFor nonce ad text (modify (· ++ [c]) >>= fun _ => p) := by
  intro cs
  rw [wp_bind, wp_modify]
  refine wp_mono (fun _ _ h => ?_) (fun _ _ h => ?_) (hp _) <;> exact .inr ⟨c, h, hc⟩

end CallsFor

section Calls

variable (wc : WolfCrypt) (ctx : AeadCtx) {nonce : Bytes} (ad inOut : Bytes)

theorem asU32_nonceLen (h : nonce.length = nonceLen) : asU32 nonce.length = nonce.length := by
  rw [h]; rfl

/-- What follows a primitive's return: a failure or an answer, and no call. -/
theorem wp_answer {α : Type} {ret : Int} {a : α} (cs : List PrimCall) :
    wp (if ret ≠ 0 then throw .unspecified else return a : Api α) (fun _ cs' => cs' = cs) (fun _ cs' => cs' = cs) cs := by
  split <;> rfl

theorem seal_callsFor (hnonce : nonce.length = nonceLen) (tagOut : Bytes) :
    CallsFor nonce ad inOut (ctx.seal wc nonce inOut inOut.length ad tagOut) := by
  have haes : CallsFor nonce ad inOut (ctx.aesGcmSeal wc nonce inOut inOut.length ad tagOut) := by
    unfold AeadCtx.aesGcmSeal
    dsimp only
    split
    · exact callsFor_throw
    split
    · exact callsFor_throw
    exact .call ⟨⟨rfl, asU32_nonceLen hnonce⟩, ⟨rfl, rfl⟩, rfl, rfl⟩ wp_answer
  have hchacha : CallsFor nonce ad inOut (ctx.chachaSeal wc nonce inOut inOut.length ad tagOut) :=
    .call ⟨⟨rfl, hnonce.symm⟩, ⟨rfl, rfl⟩, rfl, rfl⟩ wp_answer
  unfold AeadCtx.seal
  cases ctx.id with
  | aes128Gcm | aes192Gcm | aes256Gcm => exact haes
  | chacha20Poly1305 => exact hchacha

theorem openCtx_callsFor (hnonce : nonce.length = nonceLen) (tag : Bytes) :
    CallsFor nonce ad inOut (ctx.openCtx wc nonce inOut inOut.length tag ad) := by
  have haes : CallsFor nonce ad inOut (ctx.aesGcmOpen wc nonce inOut inOut.length tag ad) := by
    unfold AeadCtx.aesGcmOpen
    dsimp only
    split
    · exact callsFor_throw
    split
    · exact callsFor_throw
    split
    · exact callsFor_throw
    exact .call ⟨⟨rfl, asU32_nonceLen hnonce⟩, ⟨rfl, rfl⟩, rfl, rfl⟩ wp_answer
  have hchacha : CallsFor nonce ad inOut (ctx.chachaOpen wc nonce inOut inOut.length tag ad) :=
    .call ⟨⟨rfl, hnonce.symm⟩, ⟨rfl, rfl⟩, rfl, rfl⟩ wp_answer
  unfold AeadCtx.openCtx
  cases ctx.id with
  | aes128Gcm | aes192Gcm | aes256Gcm => exact haes
  | chacha20Poly1305 => exact hchacha

theorem sealScatter_callsFor (hnonce : nonce.length = nonceLen) (extraIn extraOutAndTag : Bytes) :
    CallsFor nonce ad (inOut ++ extraIn) (ctx.sealScatter wc nonce inOut extraIn extraOutAndTag ad) := by
  unfold AeadCtx.sealScatter
  by_cases hextra : extraIn = []
  · rw [if_pos hextra, hextra, List.append_nil]
    exact (seal_callsFor wc ctx ad inOut hnonce _).bind_pure fun _ => ⟨_, rfl⟩
  · rw [if_neg hextra]
    have hseal := seal_callsFor wc ctx ad (inOut ++ extraIn) hnonce (List.replicate ctx.key.tagLen 0)
    rw [List.length_append] at hseal
    exact hseal.bind_pure fun _ => ⟨_, rfl⟩

/-- The check admits every length or fails; it makes no call. -/
theorem CallsFor.check {α : Type} {ad text : Bytes} {key : UnboundKey} {n : Nat} {p : Api α} (hp : CallsFor nonce ad text p) :
    CallsFor nonce ad text (key.checkPerNonceMaxBytes n >>= fun _ => p) := by
  unfold UnboundKey.checkPerNonceMaxBytes
  split
  · exact callsFor_throw
  · exact hp

/-- **An operation makes at most one call**, with its whole text and associated data, and their lengths cut. -/
theorem run_callsFor (k : LessSafeKey) (nonce : Nonce) (aad : Bytes) (op : Op) :
    CallsFor nonce.bytes aad op.text (op.run wc k nonce aad) := by
  cases op with
  | sealInPlaceAppendTag inOut =>
    refine CallsFor.discard (CallsFor.check (CallsFor.bind_pure ?_ fun _ => ⟨_, rfl⟩))
    have htake : (inOut ++ List.replicate k.key.algorithm.tagLen 0).take inOut.length = inOut := List.take_left
    rw [htake]
    exact seal_callsFor wc k.key.ctx aad inOut nonce.len _
  | sealInPlaceSeparateTag inOut =>
    exact CallsFor.discard (CallsFor.check ((seal_callsFor wc k.key.ctx aad inOut nonce.len _).bind_pure fun _ => ⟨_, rfl⟩))
  | sealInPlaceScatter inOut extraIn extraOutAndTag =>
    refine CallsFor.discard (CallsFor.check ?_)
    split
    · exact callsFor_throw
    · exact sealScatter_callsFor wc k.key.ctx aad inOut nonce.len extraIn extraOutAndTag
  | openWithin inOut start =>
    refine CallsFor.discard ?_
    unfold LessSafeKey.openWithin UnboundKey.openWithin
    split
    · exact callsFor_throw
    split
    · exact callsFor_throw
    refine CallsFor.check (CallsFor.bind_pure (CallsFor.bind_pure ?_ fun _ => ⟨_, rfl⟩) fun _ => ⟨_, rfl⟩)
    have hlen : ((inOut.drop start).take ((inOut.drop start).length - tagLen)).length
        = (inOut.drop start).length - tagLen := by rw [List.length_take]; omega
    have hopen := openCtx_callsFor wc k.key.ctx aad ((inOut.drop start).take ((inOut.drop start).length - tagLen)) nonce.len
      ((inOut.drop start).drop ((inOut.drop start).length - tagLen))
    rw [hlen] at hopen
    rw [Op.text, slice, ← List.length_drop]
    exact hopen
  | openSeparateGather inCiphertext inTag outPlaintext =>
    refine CallsFor.discard (CallsFor.check ?_)
    split
    · exact callsFor_throw
    split
    · exact callsFor_throw
    rename_i _ hout
    rw [AeadCtx.openGather, splice_whole (by omega)]
    exact openCtx_callsFor wc k.key.ctx aad inCiphertext nonce.len inTag

end Calls

theorem calls_called (wc : WolfCrypt) (k : LessSafeKey) (nonce : Nonce) (aad : Bytes) (op : Op) :
    Called nonce.bytes aad op.text [] (op.calls wc k nonce aad) := by
  have h := run_callsFor wc k nonce aad op []
  unfold Op.calls
  cases hrun : (op.run wc k nonce aad).run [] with
  | ok u cs =>
    have hcs := wp_ok h hrun
    exact hcs
  | error e cs =>
    have hcs := wp_error h hrun
    exact hcs

/-- **A primitive is handed the whole text and the whole associated data exactly when both are shorter than 4 GiB**, in
every operation that comes to call one. -/
theorem handed_whole_iff (wc : WolfCrypt) (k : LessSafeKey) (nonce : Nonce) (aad : Bytes) (op : Op)
    (hcalls : op.calls wc k nonce aad ≠ []) :
    (∀ c ∈ op.calls wc k nonce aad, c.Whole nonce.bytes aad op.text) ↔
      op.text.length < 2 ^ 32 ∧ aad.length < 2 ^ 32 := by
  rcases calls_called wc k nonce aad op with hnone | ⟨c, hone, hcut⟩
  · exact absurd hnone hcalls
  · rw [hone, List.nil_append, List.forall_mem_singleton]
    exact hcut.whole_iff

/-- A stand-in for both ciphers: the text masked, and the tag the sum of the associated data and the masked text. -/
def maskSeal (_key _nonce ad text : Bytes) : Sealing :=
  ⟨0, text.map (· ^^^ 0xff), List.replicate 16 (ad.sum + (text.map (· ^^^ 0xff)).sum)⟩

def maskOpen (_key _nonce ad text tag : Bytes) : Opening :=
  if tag = List.replicate 16 (ad.sum + text.sum) then ⟨0, text.map (· ^^^ 0xff)⟩ else ⟨-180, text⟩

def maskCrypt : WolfCrypt where
  aesNew := true
  aesGcmSetKey key := if key.length = 16 ∨ key.length = 24 ∨ key.length = 32 then 0 else -173
  aesGcmEncrypt := maskSeal
  aesGcmDecrypt := maskOpen
  chachaEncrypt := maskSeal
  chachaDecrypt := maskOpen

/-- The key of `UnboundKey.new` for 32 zero bytes. -/
def zeroKey : LessSafeKey := ⟨⟨⟨.aes256Gcm, .new (List.replicate 32 0) tagLen⟩, aes256GcmAlgorithm⟩⟩

def zeroNonce : Nonce := ⟨List.replicate 12 0, rfl⟩

theorem handed_whole_iff_short :
    (Op.sealInPlaceSeparateTag [1, 2, 3]).calls maskCrypt zeroKey zeroNonce [9] ≠ [] ∧
    ∀ c ∈ (Op.sealInPlaceSeparateTag [1, 2, 3]).calls maskCrypt zeroKey zeroNonce [9],
      c.Whole zeroNonce.bytes [9] [1, 2, 3] :=
  ⟨by decide, (handed_whole_iff maskCrypt zeroKey zeroNonce [9] (.sealInPlaceSeparateTag [1, 2, 3]) (by decide)).2
    ⟨by decide, by decide⟩⟩

/-- 4 GiB of zeros. -/
def longText : Bytes := List.replicate (2 ^ 32) 0

theorem length_longText : longText.length = 2 ^ 32 := List.length_replicate

theorem asU32_length_longText : asU32 longText.length = 0 := by
  rw [length_longText]; rfl

theorem sealSeparateTag_zeroKey (aad text : Bytes) :
    (zeroKey.sealInPlaceSeparateTag maskCrypt zeroNonce aad text).run [] =
      .ok (splice text 0 ((text.take (asU32 text.length)).map (· ^^^ 0xff)),
          List.replicate 16 ((aad.take (asU32 aad.length)).sum +
            ((text.take (asU32 text.length)).map (· ^^^ 0xff)).sum))
        [⟨.aesGcmEncrypt, zeroNonce.bytes, 12, aad, asU32 aad.length, text, asU32 text.length⟩] := by
  rw [LessSafeKey.sealInPlaceSeparateTag, UnboundKey.sealInPlaceSeparateTag, checkPerNonceMaxBytes_eq rfl]
  rfl

/-- **4 GiB of plaintext leave the seal as they came, and 4 GiB of associated data are tagged as none**: with a key that
`UnboundKey.new` gives, both operations end well, having handed over a length of 0. -/
theorem long_text_left_plain :
    UnboundKey.new aes256GcmAlgorithm (List.replicate 32 0) = .ok zeroKey.key ∧
    (zeroKey.sealInPlaceSeparateTag maskCrypt zeroNonce [] longText).run [] =
      .ok (longText, List.replicate 16 0) [⟨.aesGcmEncrypt, zeroNonce.bytes, 12, [], 0, longText, 0⟩] ∧
    (zeroKey.sealInPlaceSeparateTag maskCrypt zeroNonce longText []).run [] =
      .ok ([], List.replicate 16 0) [⟨.aesGcmEncrypt, zeroNonce.bytes, 12, longText, 0, [], 0⟩] ∧
    (zeroKey.sealInPlaceSeparateTag maskCrypt zeroNonce [] [0, 0]).run [] =
      .ok ([0xff, 0xff], List.replicate 16 0xfe) [⟨.aesGcmEncrypt, zeroNonce.bytes, 12, [], 0, [0, 0], 2⟩] := by
  refine ⟨rfl, ?_, ?_, rfl⟩
  · rw [sealSeparateTag_zeroKey, asU32_length_longText]
    rfl
  · rw [sealSeparateTag_zeroKey, asU32_length_longText]
    rfl

end Aead
end Wolf
