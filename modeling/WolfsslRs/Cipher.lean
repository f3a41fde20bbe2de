import WolfsslRs.Rust
import WolfsslRs.Streaming
/-!
# Cipher — the AES keys of wolfcrypt-ring-compat

An `UnboundCipherKey` is made into an encrypting or a decrypting key of one operating mode.  A context goes with every
message: an initialization vector for CBC, CTR and CFB128, nothing for ECB.  The mode functions take the context apart
again and panic at `unreachable!` on one they do not expect; it is up to their callers that they never see one.  Making
a key is a program that writes down every key it hands to wolfCrypt.
-/
namespace Wolf
namespace Cipher

open Program Rust
open Streaming (AlgorithmId OperatingMode Algorithm UnboundCipherKey Stop)

/-! ## Algorithms and contexts -/

def aesBlockLen : Nat := 16

/-- `AES_128`, `AES_192` and `AES_256`. -/
def algorithmOf : AlgorithmId → Algorithm
  | .aes128 => Streaming.aes128
  | .aes192 => Streaming.aes192
  | .aes256 => Streaming.aes256

@[simp] theorem algorithmOf_blockLen (id : AlgorithmId) : (algorithmOf id).blockLen = 16 := by
  cases id <;> rfl

structure FixedLength (n : Nat) where
  bytes : Bytes
  length_eq : bytes.length = n
  deriving DecidableEq, Repr

inductive EncryptionContext where
  | iv128 (iv : FixedLength 16)
  | none
  deriving DecidableEq, Repr

inductive DecryptionContext where
  | iv128 (iv : FixedLength 16)
  | none
  deriving DecidableEq, Repr

def EncryptionContext.into : EncryptionContext → DecryptionContext
  | iv128 iv => .iv128 iv
  | none => .none

def DecryptionContext.into : DecryptionContext → EncryptionContext
  | iv128 iv => .iv128 iv
  | none => .none

/-- The `TryFrom` of a context for `&[u8]`. -/
def EncryptionContext.slice : EncryptionContext → Except Stop Bytes
  | iv128 iv => .ok iv.bytes
  | none => .error .unspecified

def DecryptionContext.slice : DecryptionContext → Except Stop Bytes
  | iv128 iv => .ok iv.bytes
  | none => .error .unspecified

/-- `new_encryption_context`, with what the random number generator answers. -/
def newEncryptionContext (rand : Option (FixedLength 16)) : OperatingMode → Except Stop EncryptionContext
  | .cbc | .ctr | .cfb128 => .iv128 <$> orExit .unspecified rand
  | .ecb => pure .none

def isValidEncryptionContext : OperatingMode → EncryptionContext → Bool
  | .cbc, .iv128 _ | .ctr, .iv128 _ | .cfb128, .iv128 _ => true
  | .ecb, .none => true
  | _, _ => false

def isValidDecryptionContext : OperatingMode → DecryptionContext → Bool
  | .cbc, .iv128 _ | .ctr, .iv128 _ | .cfb128, .iv128 _ => true
  | .ecb, .none => true
  | _, _ => false

/-! ## Keys -/

/-- wolfCrypt's AES, over key schedules of its own. -/
structure AesSsl (AesKey : Type) where
  setEncryptKey : Bytes → (bits : Nat) → Option AesKey
  setDecryptKey : Bytes → (bits : Nat) → Option AesKey
  ecbEncrypt : AesKey → Bytes → Bytes
  ecbDecrypt : AesKey → Bytes → Bytes
  cbcEncrypt : AesKey → (iv : Bytes) → Bytes → Bytes
  cbcDecrypt : AesKey → (iv : Bytes) → Bytes → Bytes
  ctrEncrypt : AesKey → (iv : Bytes) → Bytes → (len : Nat) → Bytes
  cfb128Encrypt : AesKey → (iv : Bytes) → Bytes → Bytes
  cfb128Decrypt : AesKey → (iv : Bytes) → Bytes → Bytes

inductive SymmetricCipherKey (AesKey : Type) where
  | aes128 (encKey decKey : AesKey)
  | aes192 (encKey decKey : AesKey)
  | aes256 (encKey decKey : AesKey)
  | chaCha20 (rawKey : FixedLength 32)
  deriving DecidableEq, Repr

/-- Making a key; the state is the keys handed to wolfCrypt so far. -/
abbrev Construct := EStateM Stop (List Bytes)

structure EncryptingKey (AesKey : Type) where
  algorithm : Algorithm
  key : SymmetricCipherKey AesKey
  mode : OperatingMode

structure DecryptingKey (AesKey : Type) where
  algorithm : Algorithm
  key : SymmetricCipherKey AesKey
  mode : OperatingMode

/-- `UnboundCipherKey::new`, whose documentation promises a check of the length. -/
def unboundCipherKeyNew (algorithm : Algorithm) (keyBytes : Bytes) : Construct UnboundCipherKey :=
  pure ⟨algorithm, keyBytes⟩

section Keys

variable {AesKey : Type} (ssl : AesSsl AesKey)

def handTo (set : Bytes → Nat → Option AesKey) (keyBytes : Bytes) : Construct AesKey := do
  modify (· ++ [keyBytes])
  match set keyBytes (asU32 (keyBytes.length * 8)) with
  | some key => pure key
  | none => throw .unspecified

/-- `SymmetricCipherKey::aes`. -/
def aes (keyBytes : Bytes) : Construct (AesKey × AesKey) := do
  let encKey ← handTo ssl.setEncryptKey keyBytes
  let decKey ← handTo ssl.setDecryptKey keyBytes
  pure (encKey, decKey)

/-- The three constructors: a check of the length, then the two key schedules. -/
def aesOfLen (keyLen : Nat) (make : AesKey → AesKey → SymmetricCipherKey AesKey) (keyBytes : Bytes) :
    Construct (SymmetricCipherKey AesKey) := do
  if keyBytes.length ≠ keyLen then throw .unspecified
  else
    let (encKey, decKey) ← aes ssl keyBytes
    pure (make encKey decKey)

def aes128 : Bytes → Construct (SymmetricCipherKey AesKey) := aesOfLen ssl 16 .aes128
def aes192 : Bytes → Construct (SymmetricCipherKey AesKey) := aesOfLen ssl 24 .aes192
def aes256 : Bytes → Construct (SymmetricCipherKey AesKey) := aesOfLen ssl 32 .aes256

/-- The `TryInto` of an `UnboundCipherKey`. -/
def tryInto (key : UnboundCipherKey) : Construct (SymmetricCipherKey AesKey) :=
  match key.algorithm.id with
  | .aes128 => aes128 ssl key.keyBytes
  | .aes192 => aes192 ssl key.keyBytes
  | .aes256 => aes256 ssl key.keyBytes

def EncryptingKey.new (key : UnboundCipherKey) (mode : OperatingMode) : Construct (EncryptingKey AesKey) := do
  let symmetric ← tryInto ssl key
  pure ⟨key.algorithm, symmetric, mode⟩

def DecryptingKey.new (key : UnboundCipherKey) (mode : OperatingMode) : Construct (DecryptingKey AesKey) := do
  let symmetric ← tryInto ssl key
  pure ⟨key.algorithm, symmetric, mode⟩

end Keys

/-! ## The mode functions -/

/-- The pattern `let (Aes128 { enc_key, .. } | ..) = key else unreachable!()`. -/
def SymmetricCipherKey.encKey {AesKey : Type} : SymmetricCipherKey AesKey → Except Stop AesKey
  | aes128 encKey _ | aes192 encKey _ | aes256 encKey _ => .ok encKey
  | chaCha20 _ => .error .panicked

def SymmetricCipherKey.decKey {AesKey : Type} : SymmetricCipherKey AesKey → Except Stop AesKey
  | aes128 _ decKey | aes192 _ decKey | aes256 _ decKey => .ok decKey
  | chaCha20 _ => .error .panicked

/-- The loop over `chunks_exact_mut(AES_BLOCK_LEN)`, for `n` chunks; what is behind them stays. -/
def chunksExactMut (f : Bytes → Bytes) : Nat → Bytes → Bytes
  | 0, inOut => inOut
  | n + 1, inOut => f (inOut.take aesBlockLen) ++ chunksExactMut f n (inOut.drop aesBlockLen)

section Modes

variable {AesKey : Type} (ssl : AesSsl AesKey) (build : Build)

def encryptCtrMode (key : SymmetricCipherKey AesKey) (context : EncryptionContext) (inOut : Bytes) :
    Except Stop (Bytes × DecryptionContext) := do
  let encKey ← key.encKey
  let iv ← context.slice
  pure (ssl.ctrEncrypt encKey iv inOut (asU32 inOut.length), context.into)

def decryptCtrMode (key : SymmetricCipherKey AesKey) (context : DecryptionContext) (inOut : Bytes) :
    Except Stop Bytes := do
  let (inOut, _) ← encryptCtrMode ssl key context.into inOut
  pure inOut

def encryptCbcMode (key : SymmetricCipherKey AesKey) (context : EncryptionContext) (inOut : Bytes) :
    Except Stop (Bytes × DecryptionContext) := do
  let encKey ← key.encKey
  let iv ← context.slice
  pure (ssl.cbcEncrypt encKey iv inOut, context.into)

def decryptCbcMode (key : SymmetricCipherKey AesKey) (context : DecryptionContext) (inOut : Bytes) :
    Except Stop Bytes := do
  let decKey ← key.decKey
  let iv ← context.slice
  pure (ssl.cbcDecrypt decKey iv inOut)

def encryptCfbMode (key : SymmetricCipherKey AesKey) (mode : OperatingMode) (context : EncryptionContext)
    (inOut : Bytes) : Except Stop (Bytes × DecryptionContext) := do
  let encKey ← key.encKey
  let iv ← context.slice
  match mode with
  | .cfb128 => pure (ssl.cfb128Encrypt encKey iv inOut, context.into)
  | _ => throw .panicked

def decryptCfbMode (key : SymmetricCipherKey AesKey) (mode : OperatingMode) (context : DecryptionContext)
    (inOut : Bytes) : Except Stop Bytes := do
  let encKey ← key.encKey
  let iv ← context.slice
  match mode with
  | .cfb128 => pure (ssl.cfb128Decrypt encKey iv inOut)
  | _ => throw .panicked

def encryptEcbMode (key : SymmetricCipherKey AesKey) (context : EncryptionContext) (inOut : Bytes) :
    Except Stop (Bytes × DecryptionContext) := do
  if context ≠ .none then throw .panicked
  else
    let encKey ← key.encKey
    let out := chunksExactMut (ssl.ecbEncrypt encKey) (inOut.length / aesBlockLen) inOut
    orExit .panicked (build.debugAssert (inOut.length % aesBlockLen = 0))
    pure (out, context.into)

def decryptEcbMode (key : SymmetricCipherKey AesKey) (context : DecryptionContext) (inOut : Bytes) :
    Except Stop Bytes := do
  if context ≠ .none then throw .panicked
  else
    let decKey ← key.decKey
    let out := chunksExactMut (ssl.ecbDecrypt decKey) (inOut.length / aesBlockLen) inOut
    orExit .panicked (build.debugAssert (inOut.length % aesBlockLen = 0))
    pure out

/-- `cipher::encrypt`: the bytes it leaves in place, and the context for decrypting them. -/
def encrypt (algorithm : Algorithm) (key : SymmetricCipherKey AesKey) (mode : OperatingMode) (inOut : Bytes)
    (context : EncryptionContext) : Except Stop (Bytes × DecryptionContext) :=
  if (mode = .cbc ∨ mode = .ecb) ∧ inOut.length % algorithm.blockLen ≠ 0 then .error .unspecified
  else
    match mode with
    | .cbc => encryptCbcMode ssl key context inOut
    | .ctr => encryptCtrMode ssl key context inOut
    | .cfb128 => encryptCfbMode ssl key mode context inOut
    | .ecb => encryptEcbMode ssl build key context inOut

/-- `cipher::decrypt`. -/
def decrypt (algorithm : Algorithm) (key : SymmetricCipherKey AesKey) (mode : OperatingMode) (inOut : Bytes)
    (context : DecryptionContext) : Except Stop Bytes :=
  if (mode = .cbc ∨ mode = .ecb) ∧ inOut.length % algorithm.blockLen ≠ 0 then .error .unspecified
  else
    match mode with
    | .cbc => decryptCbcMode ssl key context inOut
    | .ctr => decryptCtrMode ssl key context inOut
    | .cfb128 => decryptCfbMode ssl key mode context inOut
    | .ecb => decryptEcbMode ssl build key context inOut

def EncryptingKey.lessSafeEncrypt (k : EncryptingKey AesKey) (inOut : Bytes) (context : EncryptionContext) :
    Except Stop (Bytes × DecryptionContext) :=
  if !isValidEncryptionContext k.mode context then .error .unspecified
  else encrypt ssl build k.algorithm k.key k.mode inOut context

def EncryptingKey.encrypt (k : EncryptingKey AesKey) (rand : Option (FixedLength 16)) (inOut : Bytes) :
    Except Stop (Bytes × DecryptionContext) := do
  let context ← newEncryptionContext rand k.mode
  k.lessSafeEncrypt ssl build inOut context

/-- `DecryptingKey::decrypt` takes the context as it comes. -/
def DecryptingKey.decrypt (k : DecryptingKey AesKey) (inOut : Bytes) (context : DecryptionContext) : Except Stop Bytes :=
  Cipher.decrypt ssl build k.algorithm k.key k.mode inOut context

end Modes

/-! ## What making a key gives -/

section Made

variable {AesKey : Type} {ssl : AesSsl AesKey} {id : AlgorithmId} {keyBytes : Bytes} {handed handed' : List Bytes}

theorem run_handTo_ok {set : Bytes → Nat → Option AesKey} {key : AesKey}
    (h : (handTo set keyBytes).run handed = .ok key handed') :
    set keyBytes (asU32 (keyBytes.length * 8)) = some key := by
  simp only [handTo] at h
  obtain ⟨⟨⟩, t, -, h⟩ := run_bind_ok.1 h
  cases hset : set keyBytes (asU32 (keyBytes.length * 8)) with
  | none =>
    rw [hset] at h
    cases h
  | some key' =>
    rw [hset] at h
    cases h
    rfl

/-- **A key that was made is an AES key of the right length**, with the two schedules wolfCrypt set up for it. -/
structure Made (ssl : AesSsl AesKey) (id : AlgorithmId) (keyBytes : Bytes) (key : SymmetricCipherKey AesKey)
    (encKey decKey : AesKey) : Prop where
  length_eq : keyBytes.length = (algorithmOf id).keyLen
  encKey_eq : key.encKey = .ok encKey
  decKey_eq : key.decKey = .ok decKey
  setEncrypt : ssl.setEncryptKey keyBytes (asU32 (keyBytes.length * 8)) = some encKey
  setDecrypt : ssl.setDecryptKey keyBytes (asU32 (keyBytes.length * 8)) = some decKey

theorem run_aesOfLen_ok {keyLen : Nat} {make : AesKey → AesKey → SymmetricCipherKey AesKey}
    {key : SymmetricCipherKey AesKey} (h : (aesOfLen ssl keyLen make keyBytes).run handed = .ok key handed') :
    keyBytes.length = keyLen ∧ ∃ encKey decKey, key = make encKey decKey ∧
      ssl.setEncryptKey keyBytes (asU32 (keyBytes.length * 8)) = some encKey ∧
      ssl.setDecryptKey keyBytes (asU32 (keyBytes.length * 8)) = some decKey := by
  unfold aesOfLen at h
  by_cases hlen : keyBytes.length ≠ keyLen
  · rw [if_pos hlen] at h
    cases h
  · rw [if_neg hlen] at h
    obtain ⟨⟨encKey, decKey⟩, t, haes, h⟩ := run_bind_ok.1 h
    obtain ⟨e, t₁, henc, haes⟩ := run_bind_ok.1 haes
    obtain ⟨d, t₂, hdec, haes⟩ := run_bind_ok.1 haes
    cases haes
    cases h
    exact ⟨not_not.1 hlen, encKey, decKey, rfl, run_handTo_ok henc, run_handTo_ok hdec⟩

theorem run_tryInto_ok {key : SymmetricCipherKey AesKey}
    (h : (tryInto ssl ⟨algorithmOf id, keyBytes⟩).run handed = .ok key handed') :
    ∃ encKey decKey, Made ssl id keyBytes key encKey decKey := by
  cases id with
  | aes128 =>
    obtain ⟨hlen, encKey, decKey, rfl, henc, hdec⟩ := run_aesOfLen_ok h
    exact ⟨encKey, decKey, hlen, rfl, rfl, henc, hdec⟩
  | aes192 =>
    obtain ⟨hlen, encKey, decKey, rfl, henc, hdec⟩ := run_aesOfLen_ok h
    exact ⟨encKey, decKey, hlen, rfl, rfl, henc, hdec⟩
  | aes256 =>
    obtain ⟨hlen, encKey, decKey, rfl, henc, hdec⟩ := run_aesOfLen_ok h
    exact ⟨encKey, decKey, hlen, rfl, rfl, henc, hdec⟩

/-- A constructor that puts more around the key. -/
theorem run_around_ok {α : Type} {f : SymmetricCipherKey AesKey → α} {k : α}
    (h : (tryInto ssl ⟨algorithmOf id, keyBytes⟩ >>= fun key => pure (f key)).run handed = .ok k handed') :
    ∃ key encKey decKey, Made ssl id keyBytes key encKey decKey ∧ f key = k := by
  obtain ⟨key, t, hinto, h⟩ := run_bind_ok.1 h
  obtain ⟨encKey, decKey, hmade⟩ := run_tryInto_ok hinto
  cases h
  exact ⟨key, encKey, decKey, hmade, rfl⟩

/-- **A key of another length is refused before wolfCrypt sees it.** -/
theorem run_tryInto_of_length_ne (hlen : keyBytes.length ≠ (algorithmOf id).keyLen) :
    (tryInto ssl ⟨algorithmOf id, keyBytes⟩).run handed = .error .unspecified handed := by
  have hrefused {keyLen : Nat} (make : AesKey → AesKey → SymmetricCipherKey AesKey) (h : keyBytes.length ≠ keyLen) :
      (aesOfLen ssl keyLen make keyBytes).run handed = .error .unspecified handed := by
    unfold aesOfLen
    rw [if_pos h]
    rfl
  cases id with
  | aes128 => exact hrefused .aes128 hlen
  | aes192 => exact hrefused .aes192 hlen
  | aes256 => exact hrefused .aes256 hlen

end Made

/-! ## What the mode functions answer -/

section Outcomes

variable {AesKey : Type} {ssl : AesSsl AesKey} {build : Build} {id : AlgorithmId} {keyBytes : Bytes}
  {key : SymmetricCipherKey AesKey} {encKey decKey : AesKey}

theorem encryptCbcMode_iv128 (hkey : Made ssl id keyBytes key encKey decKey) (iv : FixedLength 16) (inOut : Bytes) :
    encryptCbcMode ssl key (.iv128 iv) inOut = .ok (ssl.cbcEncrypt encKey iv.bytes inOut, .iv128 iv) := by
  rw [encryptCbcMode, hkey.encKey_eq]
  rfl

theorem encryptCtrMode_iv128 (hkey : Made ssl id keyBytes key encKey decKey) (iv : FixedLength 16) (inOut : Bytes) :
    encryptCtrMode ssl key (.iv128 iv) inOut =
      .ok (ssl.ctrEncrypt encKey iv.bytes inOut (asU32 inOut.length), .iv128 iv) := by
  rw [encryptCtrMode, hkey.encKey_eq]
  rfl

theorem encryptCfbMode_iv128 (hkey : Made ssl id keyBytes key encKey decKey) (iv : FixedLength 16) (inOut : Bytes) :
    encryptCfbMode ssl key .cfb128 (.iv128 iv) inOut = .ok (ssl.cfb128Encrypt encKey iv.bytes inOut, .iv128 iv) := by
  rw [encryptCfbMode, hkey.encKey_eq]
  rfl

theorem encryptEcbMode_none (hkey : Made ssl id keyBytes key encKey decKey) {inOut : Bytes}
    (hrest : inOut.length % aesBlockLen = 0) : encryptEcbMode ssl build key .none inOut =
      .ok (chunksExactMut (ssl.ecbEncrypt encKey) (inOut.length / aesBlockLen) inOut, .none) := by
  rw [encryptEcbMode, if_neg (by simp), hkey.encKey_eq, debugAssert_of hrest]
  rfl

theorem decryptCbcMode_eq (hkey : Made ssl id keyBytes key encKey decKey) (context : DecryptionContext)
    (inOut : Bytes) : decryptCbcMode ssl key context inOut =
      context.slice.map fun iv => ssl.cbcDecrypt decKey iv inOut := by
  rw [decryptCbcMode, hkey.decKey_eq]
  rfl

theorem decryptCtrMode_eq (hkey : Made ssl id keyBytes key encKey decKey) (context : DecryptionContext)
    (inOut : Bytes) : decryptCtrMode ssl key context inOut =
      context.slice.map fun iv => ssl.ctrEncrypt encKey iv inOut (asU32 inOut.length) := by
  rw [decryptCtrMode, encryptCtrMode, hkey.encKey_eq]
  cases context <;> rfl

theorem decryptCfbMode_eq (hkey : Made ssl id keyBytes key encKey decKey) (context : DecryptionContext)
    (inOut : Bytes) : decryptCfbMode ssl key .cfb128 context inOut =
      context.slice.map fun iv => ssl.cfb128Decrypt encKey iv inOut := by
  rw [decryptCfbMode, hkey.encKey_eq]
  rfl

theorem decryptEcbMode_none (hkey : Made ssl id keyBytes key encKey decKey) {inOut : Bytes}
    (hrest : inOut.length % aesBlockLen = 0) : decryptEcbMode ssl build key .none inOut =
      .ok (chunksExactMut (ssl.ecbDecrypt decKey) (inOut.length / aesBlockLen) inOut) := by
  rw [decryptEcbMode, if_neg (by simp), hkey.decKey_eq, debugAssert_of hrest]
  rfl

/-- **Encrypting in a context that fits never panics.** -/
theorem encrypt_ne_panicked (hkey : Made ssl id keyBytes key encKey decKey) {mode : OperatingMode}
    {context : EncryptionContext} (hvalid : isValidEncryptionContext mode context = true) (inOut : Bytes) :
    encrypt ssl build (algorithmOf id) key mode inOut context ≠ .error .panicked := by
  unfold encrypt
  split
  · simp
  · rename_i hblocks
    cases mode <;> cases context <;> simp only [isValidEncryptionContext, Bool.false_eq_true] at hvalid
    · simp [encryptCbcMode_iv128 hkey]
    · simp [encryptCtrMode_iv128 hkey]
    · simp [encryptCfbMode_iv128 hkey]
    · have hrest : inOut.length % aesBlockLen = 0 := by
        by_contra hrest
        exact hblocks ⟨.inr rfl, by rwa [algorithmOf_blockLen]⟩
      simp [encryptEcbMode_none hkey hrest]

/-- Without an initialization vector where the mode needs one there is an error, and never a panic. -/
theorem map_slice_ne_panicked (context : DecryptionContext) (f : Bytes → Bytes) :
    context.slice.map f ≠ .error .panicked := by
  cases context <;> simp [DecryptionContext.slice, Except.map]

/-- **The one context that panics**: an initialization vector in ECB mode, on whole blocks. -/
theorem decrypt_panics_iff (build : Build) (hkey : Made ssl id keyBytes key encKey decKey) (mode : OperatingMode)
    (context : DecryptionContext) (inOut : Bytes) :
    decrypt ssl build (algorithmOf id) key mode inOut context = .error .panicked ↔
      mode = .ecb ∧ context ≠ .none ∧ inOut.length % aesBlockLen = 0 := by
  have hblock : (algorithmOf id).blockLen = aesBlockLen := algorithmOf_blockLen id
  unfold decrypt
  rw [hblock]
  by_cases hblocks : (mode = .cbc ∨ mode = .ecb) ∧ inOut.length % aesBlockLen ≠ 0
  · rw [if_pos hblocks]
    simp [hblocks.2]
  rw [if_neg hblocks]
  cases mode with
  | cbc => simp [decryptCbcMode_eq hkey, map_slice_ne_panicked]
  | ctr => simp [decryptCtrMode_eq hkey, map_slice_ne_panicked]
  | cfb128 => simp [decryptCfbMode_eq hkey, map_slice_ne_panicked]
  | ecb =>
    have hrest : inOut.length % aesBlockLen = 0 := by
      by_contra hrest
      exact hblocks ⟨.inr rfl, hrest⟩
    cases context with
    | none => simp [decryptEcbMode_none hkey hrest]
    | iv128 iv => exact iff_of_true rfl ⟨rfl, by simp, hrest⟩

/-- **A context that does not fit is an error elsewhere.** -/
theorem decrypt_of_invalid (hkey : Made ssl id keyBytes key encKey decKey) {mode : OperatingMode}
    {context : DecryptionContext} (hinvalid : isValidDecryptionContext mode context = false) (inOut : Bytes)
    (hpanic : decrypt ssl build (algorithmOf id) key mode inOut context ≠ .error .panicked) :
    decrypt ssl build (algorithmOf id) key mode inOut context = .error .unspecified := by
  unfold decrypt at hpanic ⊢
  split
  · rfl
  · rename_i hblocks
    rw [if_neg hblocks] at hpanic
    cases mode <;> cases context <;> simp only [isValidDecryptionContext, Bool.true_eq_false] at hinvalid
    · exact decryptCbcMode_eq hkey .none inOut
    · exact decryptCtrMode_eq hkey .none inOut
    · exact decryptCfbMode_eq hkey .none inOut
    · exact absurd rfl hpanic

end Outcomes

end Cipher
end Wolf
