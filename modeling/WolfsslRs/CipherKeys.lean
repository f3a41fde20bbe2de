import WolfsslRs.CipherPadded
/-!
# CipherKeys — every way from bytes to a cipher key

`UnboundCipherKey::new` takes a byte string of any length.  The keys that encrypt or decrypt in one call, padded or not,
go through `SymmetricCipherKey`, which looks at the length before anything else.  The streaming keys do not: they hand
the bytes to EVP behind a debug assertion.  What counts as refused is an error, no panic, and no key handed to wolfCrypt.
-/
namespace Wolf
namespace Cipher

open Program Rust
open Streaming (AlgorithmId OperatingMode Algorithm UnboundCipherKey Stop)

/-! ## Streaming keys -/

/-- The EVP layer as far as making a key goes; `none` is a null pointer, or a code that is not 1. -/
structure CipherEvp (κ : Type) where
  cipherCtxNew : Option κ
  /-- whether `EVP_aes_*` is there -/
  hasCipher : AlgorithmId → OperatingMode → Bool
  cipherKeyLength : AlgorithmId → OperatingMode → Int
  cipherIvLength : AlgorithmId → OperatingMode → Int
  encryptInit : κ → AlgorithmId → OperatingMode → (key : Bytes) → (iv : Option Bytes) → Option κ
  decryptInit : κ → AlgorithmId → OperatingMode → (key : Bytes) → (iv : Option Bytes) → Option κ

structure StreamingEncryptingKey (κ : Type) where
  algorithm : Algorithm
  mode : OperatingMode
  cipherCtx : κ
  context : EncryptionContext
  outputGenerated : Nat

def EncryptionContext.iv : EncryptionContext → Option Bytes
  | iv128 iv => some iv.bytes
  | none => Option.none

def DecryptionContext.iv : DecryptionContext → Option Bytes
  | iv128 iv => some iv.bytes
  | none => Option.none

section Streaming

variable {κ : Type} (evp : CipherEvp κ) (build : Build) (rand : Option (FixedLength 16))

/-- What the two `new` have in common, with the call that takes the key. -/
def initContext (init : κ → AlgorithmId → OperatingMode → Bytes → Option Bytes → Option κ) (key : UnboundCipherKey)
    (mode : OperatingMode) (iv : Option Bytes) : Construct κ := do
  let cipherCtx ← MonadExcept.ofExcept (orExit .unspecified evp.cipherCtxNew)
  if evp.hasCipher key.algorithm.id mode = false then throw .panicked
  else
    MonadExcept.ofExcept (orExit .panicked
      (build.debugAssert ((key.keyBytes.length : Int) = evp.cipherKeyLength key.algorithm.id mode)))
    match iv with
    | some iv =>
      MonadExcept.ofExcept (orExit .panicked
        (build.debugAssert ((iv.length : Int) = evp.cipherIvLength key.algorithm.id mode)))
    | none => pure ()
    modify (· ++ [key.keyBytes])
    MonadExcept.ofExcept (orExit .unspecified (init cipherCtx key.algorithm.id mode key.keyBytes iv))

namespace StreamingEncryptingKey

def new (key : UnboundCipherKey) (mode : OperatingMode) (context : EncryptionContext) :
    Construct (StreamingEncryptingKey κ) := do
  let cipherCtx ← initContext evp build evp.encryptInit key mode context.iv
  pure ⟨key.algorithm, mode, cipherCtx, context, 0⟩

def lessSafeCtr (key : UnboundCipherKey) (context : EncryptionContext) : Construct (StreamingEncryptingKey κ) :=
  new evp build key .ctr context

def lessSafeCbcPkcs7 (key : UnboundCipherKey) (context : EncryptionContext) : Construct (StreamingEncryptingKey κ) :=
  new evp build key .cbc context

def lessSafeCfb128 (key : UnboundCipherKey) (context : EncryptionContext) : Construct (StreamingEncryptingKey κ) :=
  new evp build key .cfb128 context

def ctr (key : UnboundCipherKey) : Construct (StreamingEncryptingKey κ) := do
  let context ← MonadExcept.ofExcept (newEncryptionContext rand .ctr)
  lessSafeCtr evp build key context

def cbcPkcs7 (key : UnboundCipherKey) : Construct (StreamingEncryptingKey κ) := do
  let context ← MonadExcept.ofExcept (newEncryptionContext rand .cbc)
  lessSafeCbcPkcs7 evp build key context

def cfb128 (key : UnboundCipherKey) : Construct (StreamingEncryptingKey κ) := do
  let context ← MonadExcept.ofExcept (newEncryptionContext rand .cfb128)
  lessSafeCfb128 evp build key context

def ecbPkcs7 (key : UnboundCipherKey) : Construct (StreamingEncryptingKey κ) := do
  let context ← MonadExcept.ofExcept (newEncryptionContext rand .ecb)
  new evp build key .ecb context

end StreamingEncryptingKey

/-- `StreamingDecryptingKey::new`; its `ctr`, `cbc_pkcs7`, `cfb128` and `ecb_pkcs7` are this with their mode. -/
def streamingDecryptingKeyNew (key : UnboundCipherKey) (mode : OperatingMode) (context : DecryptionContext) :
    Construct (Streaming.DecryptingKey κ) := do
  let cipherCtx ← initContext evp build evp.decryptInit key mode context.iv
  pure ⟨key.algorithm, mode, cipherCtx, 0, []⟩

end Streaming

theorem run_hand_ok {κ : Type} {keyBytes : Bytes} {r : Option κ} {c : κ} {s s' : List Bytes}
    (h : (do
      modify (· ++ [keyBytes])
      MonadExcept.ofExcept (orExit Stop.unspecified r) : Construct κ).run s = .ok c s') : r = some c := by
  cases r with
  | none => cases h
  | some c => cases h; rfl

/-- A context that was set up is one that EVP made and set up with the key. -/
theorem run_initContext_ok {κ : Type} {evp : CipherEvp κ} {build : Build}
    {init : κ → AlgorithmId → OperatingMode → Bytes → Option Bytes → Option κ} {key : UnboundCipherKey}
    {mode : OperatingMode} {iv : Option Bytes} {c : κ} {s s' : List Bytes}
    (h : (initContext evp build init key mode iv).run s = .ok c s') :
    ∃ c₀, evp.cipherCtxNew = some c₀ ∧ init c₀ key.algorithm.id mode key.keyBytes iv = some c := by
  unfold initContext at h
  obtain ⟨c₀, t, hc₀, h⟩ := run_bind_ok.1 h
  cases hnew : evp.cipherCtxNew with
  | none => rw [hnew] at hc₀; cases hc₀
  | some c₁ =>
    rw [hnew] at hc₀
    cases hc₀
    refine ⟨c₀, rfl, ?_⟩
    split at h
    · cases h
    · obtain ⟨-, t, -, h⟩ := run_bind_ok.1 h
      cases iv with
      | none => exact run_hand_ok h
      | some iv =>
        dsimp only at h
        obtain ⟨-, t, -, h⟩ := run_bind_ok.1 h
        exact run_hand_ok h

/-! ## Constructors -/

/-- The public constructors; a mode stands for the constructor of that name. -/
inductive Constructor where
  /-- `EncryptingKey::{ctr, cfb128, cbc, ecb}` -/
  | encrypting (mode : OperatingMode)
  /-- `DecryptingKey::{ctr, cfb128, cbc, ecb}` -/
  | decrypting (mode : OperatingMode)
  | paddedEncryptingCbcPkcs7
  | paddedEncryptingEcbPkcs7
  | paddedDecryptingCbcPkcs7
  | paddedDecryptingCbcIso10126
  | paddedDecryptingEcbPkcs7
  | streamingEncryptingCtr
  | streamingEncryptingCbcPkcs7
  | streamingEncryptingCfb128
  | streamingEncryptingEcbPkcs7
  | streamingEncryptingLessSafeCtr (context : EncryptionContext)
  | streamingEncryptingLessSafeCbcPkcs7 (context : EncryptionContext)
  | streamingEncryptingLessSafeCfb128 (context : EncryptionContext)
  /-- `StreamingDecryptingKey::{ctr, cbc_pkcs7, cfb128, ecb_pkcs7}` -/
  | streamingDecrypting (mode : OperatingMode) (context : DecryptionContext)
  deriving DecidableEq, Repr

inductive AnyKey (AesKey κ : Type) where
  | encrypting (k : EncryptingKey AesKey)
  | decrypting (k : DecryptingKey AesKey)
  | paddedEncrypting (k : PaddedBlockEncryptingKey AesKey)
  | paddedDecrypting (k : PaddedBlockDecryptingKey AesKey)
  | streamingEncrypting (k : StreamingEncryptingKey κ)
  | streamingDecrypting (k : Streaming.DecryptingKey κ)

section Obtain

variable {AesKey κ : Type} (ssl : AesSsl AesKey) (evp : CipherEvp κ) (build : Build) (rand : Option (FixedLength 16))

def Constructor.run (key : UnboundCipherKey) : Constructor → Construct (AnyKey AesKey κ)
  | encrypting mode => AnyKey.encrypting <$> EncryptingKey.new ssl key mode
  | decrypting mode => AnyKey.decrypting <$> DecryptingKey.new ssl key mode
  | paddedEncryptingCbcPkcs7 => AnyKey.paddedEncrypting <$> PaddedBlockEncryptingKey.new ssl key .cbc .pkcs7
  | paddedEncryptingEcbPkcs7 => AnyKey.paddedEncrypting <$> PaddedBlockEncryptingKey.new ssl key .ecb .pkcs7
  | paddedDecryptingCbcPkcs7 => AnyKey.paddedDecrypting <$> PaddedBlockDecryptingKey.new ssl key .cbc .pkcs7
  | paddedDecryptingCbcIso10126 => AnyKey.paddedDecrypting <$> PaddedBlockDecryptingKey.new ssl key .cbc .iso10126
  | paddedDecryptingEcbPkcs7 => AnyKey.paddedDecrypting <$> PaddedBlockDecryptingKey.new ssl key .ecb .pkcs7
  | streamingEncryptingCtr => AnyKey.streamingEncrypting <$> StreamingEncryptingKey.ctr evp build rand key
  | streamingEncryptingCbcPkcs7 => AnyKey.streamingEncrypting <$> StreamingEncryptingKey.cbcPkcs7 evp build rand key
  | streamingEncryptingCfb128 => AnyKey.streamingEncrypting <$> StreamingEncryptingKey.cfb128 evp build rand key
  | streamingEncryptingEcbPkcs7 => AnyKey.streamingEncrypting <$> StreamingEncryptingKey.ecbPkcs7 evp build rand key
  | streamingEncryptingLessSafeCtr context =>
    AnyKey.streamingEncrypting <$> StreamingEncryptingKey.lessSafeCtr evp build key context
  | streamingEncryptingLessSafeCbcPkcs7 context =>
    AnyKey.streamingEncrypting <$> StreamingEncryptingKey.lessSafeCbcPkcs7 evp build key context
  | streamingEncryptingLessSafeCfb128 context =>
    AnyKey.streamingEncrypting <$> StreamingEncryptingKey.lessSafeCfb128 evp build key context
  | streamingDecrypting mode context =>
    AnyKey.streamingDecrypting <$> streamingDecryptingKeyNew evp build key mode context

/-- `UnboundCipherKey::new` and then a constructor. -/
def keyFrom (algorithm : Algorithm) (keyBytes : Bytes) (c : Constructor) : Construct (AnyKey AesKey κ) := do
  let key ← unboundCipherKeyNew algorithm keyBytes
  c.run ssl evp build rand key

/-- **Refused**: an error, without a panic and with no key handed to wolfCrypt. -/
def Refused {α : Type} (p : Construct α) : Prop := p.run [] = .error .unspecified []

end Obtain

/-- The constructors of streaming keys. -/
def Constructor.streams : Constructor → Bool
  | encrypting _ | decrypting _ | paddedEncryptingCbcPkcs7 | paddedEncryptingEcbPkcs7 | paddedDecryptingCbcPkcs7
  | paddedDecryptingCbcIso10126 | paddedDecryptingEcbPkcs7 => false
  | _ => true

/-- The ones that draw an initialization vector first. -/
def Constructor.draws : Constructor → Bool
  | streamingEncryptingCtr | streamingEncryptingCbcPkcs7 | streamingEncryptingCfb128 => true
  | _ => false

/-! ## What is refused -/

section Refusals

variable {α β : Type}

theorem refused_map {p : Construct α} {f : α → β} : Refused (f <$> p) ↔ Refused p := by
  unfold Refused
  change EStateM.map f p [] = _ ↔ p [] = _
  unfold EStateM.map
  cases p [] with
  | ok a s => exact ⟨nofun, nofun⟩
  | error e s => simp

theorem refused_bind_pure {p : Construct α} {f : α → β} : Refused (p >>= fun a => pure (f a)) ↔ Refused p := by
  rw [bind_pure_comp]
  exact refused_map

theorem refused_draw {r : Except Stop α} {k : α → Construct β} (h : r ≠ .error .panicked) :
    Refused (MonadExcept.ofExcept r >>= k) ↔ r = .error .unspecified ∨ ∃ a, r = .ok a ∧ Refused (k a) := by
  unfold Refused
  cases r with
  | error e =>
    cases e with
    | unspecified => exact iff_of_true rfl (.inl rfl)
    | panicked => exact absurd rfl h
  | ok a => exact ⟨fun hk => .inr ⟨a, rfl, hk⟩, fun hk => by
      obtain h | ⟨b, hb, hk⟩ := hk
      · cases h
      · cases hb
        exact hk⟩

variable {κ : Type} {evp : CipherEvp κ} {build : Build}

/-- **Once there is a context, a streaming key is never refused**: there is a panic, or the key has been handed over. -/
theorem refused_initContext_iff {init : κ → AlgorithmId → OperatingMode → Bytes → Option Bytes → Option κ}
    {key : UnboundCipherKey} {mode : OperatingMode} {iv : Option Bytes} :
    Refused (initContext evp build init key mode iv) ↔ evp.cipherCtxNew = none := by
  have hassert {r : Option Unit} {k : Unit → Construct κ} (hk : ¬ Refused (k ())) :
      ¬ Refused (MonadExcept.ofExcept (orExit Stop.panicked r) >>= k) := by
    cases r with
    | none => exact nofun
    | some u => exact hk
  have hhand {c : κ} : ¬ Refused (do
      modify (· ++ [key.keyBytes])
      MonadExcept.ofExcept (orExit Stop.unspecified (init c key.algorithm.id mode key.keyBytes iv)) : Construct κ) := by
    unfold Refused
    rw [EStateM.run_bind]
    show EStateM.run (MonadExcept.ofExcept _) [key.keyBytes] ≠ _
    cases init c key.algorithm.id mode key.keyBytes iv <;> exact nofun
  cases hnew : evp.cipherCtxNew with
  | none =>
    refine iff_of_true ?_ rfl
    unfold initContext
    rw [hnew]
    rfl
  | some c =>
    refine iff_of_false ?_ (Option.some_ne_none c)
    unfold initContext
    rw [hnew]
    show ¬ Refused (if evp.hasCipher key.algorithm.id mode = false then throw Stop.panicked else _)
    split
    · exact nofun
    · refine hassert ?_
      cases iv with
      | none => exact hhand
      | some iv => exact hassert hhand

end Refusals

section Keys

variable {AesKey κ : Type} {ssl : AesSsl AesKey} {evp : CipherEvp κ} {build : Build} {rand : Option (FixedLength 16)}

theorem refused_tryInto {α : Type} {id : AlgorithmId} {keyBytes : Bytes}
    (hlen : keyBytes.length ≠ (algorithmOf id).keyLen) (f : SymmetricCipherKey AesKey → α) :
    Refused (tryInto ssl ⟨algorithmOf id, keyBytes⟩ >>= fun k => pure (f k)) :=
  refused_bind_pure.2 (run_tryInto_of_length_ne hlen)

theorem refused_streamingNew_iff {key : UnboundCipherKey} {mode : OperatingMode} {context : EncryptionContext} :
    Refused (StreamingEncryptingKey.new evp build key mode context) ↔ evp.cipherCtxNew = none :=
  refused_bind_pure.trans refused_initContext_iff

theorem refused_drawn_iff {key : UnboundCipherKey} {mode : OperatingMode} (hmode : mode ≠ .ecb) :
    Refused (do
      let context ← MonadExcept.ofExcept (newEncryptionContext rand mode)
      StreamingEncryptingKey.new evp build key mode context) ↔ evp.cipherCtxNew = none ∨ rand = none := by
  have hnew : newEncryptionContext rand mode = EncryptionContext.iv128 <$> orExit .unspecified rand := by
    cases mode <;> first | rfl | exact absurd rfl hmode
  rw [refused_draw (new_ne_panicked rand mode), hnew]
  cases rand with
  | none => exact iff_of_true (.inl rfl) (.inr rfl)
  | some iv =>
    constructor
    · rintro (h | ⟨context, -, h⟩)
      · cases h
      · exact .inl (refused_streamingNew_iff.1 h)
    · rintro (h | h)
      · exact .inr ⟨.iv128 iv, rfl, refused_streamingNew_iff.2 h⟩
      · cases h

/-- **Keys that work in one call come from `tryInto`**, whatever else the constructor does. -/
theorem refused_run_of_not_streams {id : AlgorithmId} {keyBytes : Bytes}
    (hlen : keyBytes.length ≠ (algorithmOf id).keyLen) {c : Constructor} (hc : c.streams = false) :
    Refused (c.run ssl evp build rand ⟨algorithmOf id, keyBytes⟩) := by
  cases c with
  | encrypting _ | decrypting _ | paddedEncryptingCbcPkcs7 | paddedEncryptingEcbPkcs7 | paddedDecryptingCbcPkcs7
  | paddedDecryptingCbcIso10126 | paddedDecryptingEcbPkcs7 => exact refused_map.2 (refused_tryInto hlen _)
  | _ => cases hc

theorem refused_run_drawn_iff {key : UnboundCipherKey} {c : Constructor} (hc : c.draws = true) :
    Refused (c.run ssl evp build rand key) ↔ evp.cipherCtxNew = none ∨ rand = none := by
  cases c with
  | streamingEncryptingCtr | streamingEncryptingCbcPkcs7 | streamingEncryptingCfb128 =>
    exact refused_map.trans (refused_drawn_iff (by decide))
  | _ => cases hc

theorem refused_run_given_iff {key : UnboundCipherKey} {c : Constructor} (hstreams : c.streams = true)
    (hdraws : c.draws = false) : Refused (c.run ssl evp build rand key) ↔ evp.cipherCtxNew = none := by
  cases c with
  | streamingEncryptingEcbPkcs7 | streamingEncryptingLessSafeCtr _ | streamingEncryptingLessSafeCbcPkcs7 _
  | streamingEncryptingLessSafeCfb128 _ => exact refused_map.trans refused_streamingNew_iff
  | streamingDecrypting _ _ => exact refused_map.trans (refused_bind_pure.trans refused_initContext_iff)
  | streamingEncryptingCtr | streamingEncryptingCbcPkcs7 | streamingEncryptingCfb128 => cases hdraws
  | _ => cases hstreams

end Keys

/-- **Which keys of another length are refused**: those that encrypt or decrypt in one call, always; a streaming key only
where EVP has no context left or the random number generator no vector. -/
theorem wrong_length_refused_iff {AesKey κ : Type} (ssl : AesSsl AesKey) (evp : CipherEvp κ) (build : Build)
    (rand : Option (FixedLength 16)) (id : AlgorithmId) (keyBytes : Bytes)
    (hlen : keyBytes.length ≠ (algorithmOf id).keyLen) (c : Constructor) :
    Refused (keyFrom ssl evp build rand (algorithmOf id) keyBytes c) ↔
      c.streams = false ∨ evp.cipherCtxNew = none ∨ c.draws = true ∧ rand = none := by
  show Refused (c.run ssl evp build rand ⟨algorithmOf id, keyBytes⟩) ↔ _
  cases hstreams : c.streams with
  | false => exact iff_of_true (refused_run_of_not_streams hlen hstreams) (.inl rfl)
  | true =>
    cases hdraws : c.draws with
    | false =>
      rw [refused_run_given_iff hstreams hdraws]
      simp
    | true =>
      rw [refused_run_drawn_iff hdraws]
      simp

/-- An EVP layer that takes every key, with the lengths of AES. -/
def openEvp : CipherEvp Bytes where
  cipherCtxNew := some []
  hasCipher _ _ := true
  cipherKeyLength id _ := (algorithmOf id).keyLen
  cipherIvLength _ mode := if mode = .ecb then 0 else 16
  encryptInit _ _ _ key _ := some key
  decryptInit _ _ _ key _ := some key

/-- Three bytes are no key for AES-128 in CBC mode. -/
theorem wrong_length_refused_short : Refused (keyFrom plainSsl openEvp .release (some zeroIv) (algorithmOf .aes128)
    [1, 2, 3] (.encrypting .cbc)) :=
  (wrong_length_refused_iff plainSsl openEvp .release (some zeroIv) .aes128 [1, 2, 3] (by decide)
    (.encrypting .cbc)).2 (.inl rfl)

/-- **Three bytes as a streaming key**: a release build hands them to wolfCrypt and answers with a key, a debug build
panics. -/
theorem short_streaming_key :
    (∃ k, (keyFrom plainSsl openEvp .release (some zeroIv) (algorithmOf .aes128) [1, 2, 3]
      .streamingEncryptingCtr).run [] = .ok k [[1, 2, 3]]) ∧
    (keyFrom plainSsl openEvp .debug (some zeroIv) (algorithmOf .aes128) [1, 2, 3]
      .streamingEncryptingCtr).run [] = .error .panicked [] :=
  ⟨⟨_, rfl⟩, rfl⟩

end Cipher
end Wolf
