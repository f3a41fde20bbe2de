import WolfsslRs.Cbc
import WolfsslRs.Cipher
/-!
# CipherPadded — block padding, and the keys that pad

`add_padding` fills up the last block with bytes that each say how many there are; `remove_padding` reads the last byte
and takes that many off, after looking at all of them for PKCS#7 and at none for ISO 10126.  A padded key pads and then
encrypts, or decrypts and then takes the padding off.
-/
namespace Wolf
namespace Cipher

open Program Rust
open Streaming (AlgorithmId OperatingMode Algorithm UnboundCipherKey Stop)

/-! ## Padding -/

inductive PaddingStrategy where
  | iso10126 | pkcs7
  deriving DecidableEq, Repr

def maxCipherBlockLen : Nat := aesBlockLen

/-- `PaddingStrategy::add_padding`; a remainder by zero panics, and so does a slice behind the padding buffer. -/
def addPadding (strategy : PaddingStrategy) (blockLen : Nat) (inOut : Bytes) : Except Stop Bytes :=
  match strategy with
  | .iso10126 | .pkcs7 =>
    if blockLen = 0 then .error .panicked
    else
      let remainder := inOut.length % blockLen
      let paddingSize := blockLen - remainder
      if 2 ^ 8 ≤ paddingSize then .error .unspecified
      else
        let paddingBuffer := List.replicate maxCipherBlockLen (UInt8.ofNat paddingSize)
        (orExit .panicked (upTo paddingBuffer paddingSize)).map (inOut ++ ·)

/-- `in_out[0..in_out.len() - padding]`. -/
def dropPadding (build : Build) (inOut : Bytes) (padding : UInt8) : Except Stop Bytes := do
  let finalLen ← orExit .panicked (build.sub inOut.length padding.toNat)
  orExit .panicked (upTo inOut finalLen)

/-- `PaddingStrategy::remove_padding`. -/
def removePadding (strategy : PaddingStrategy) (build : Build) (blockLen : Nat) (inOut : Bytes) : Except Stop Bytes := do
  if inOut = [] ∨ inOut.length < blockLen then throw .unspecified
  else
    match strategy with
    | .iso10126 =>
      let padding ← orExit .panicked inOut.getLast?
      if padding = 0 ∨ padding.toNat > blockLen then throw .unspecified
      else dropPadding build inOut padding
    | .pkcs7 =>
      if 2 ^ 8 ≤ blockLen then throw .unspecified
      else
        let blockSize := UInt8.ofNat blockLen
        let padding ← orExit .panicked inOut.getLast?
        if padding = 0 ∨ padding > blockSize then throw .unspecified
        else
          let skip ← orExit .panicked (build.sub inOut.length padding.toNat)
          if (inOut.drop skip).any (· != padding) then throw .unspecified
          else dropPadding build inOut padding

/-! ## Padded keys -/

structure PaddedBlockEncryptingKey (AesKey : Type) where
  algorithm : Algorithm
  key : SymmetricCipherKey AesKey
  mode : OperatingMode
  padding : PaddingStrategy

structure PaddedBlockDecryptingKey (AesKey : Type) where
  algorithm : Algorithm
  key : SymmetricCipherKey AesKey
  mode : OperatingMode
  padding : PaddingStrategy

section Keys

variable {AesKey : Type} (ssl : AesSsl AesKey) (build : Build)

def PaddedBlockEncryptingKey.new (key : UnboundCipherKey) (mode : OperatingMode) (padding : PaddingStrategy) :
    Construct (PaddedBlockEncryptingKey AesKey) := do
  let symmetric ← tryInto ssl key
  pure ⟨key.algorithm, symmetric, mode, padding⟩

def PaddedBlockDecryptingKey.new (key : UnboundCipherKey) (mode : OperatingMode) (padding : PaddingStrategy) :
    Construct (PaddedBlockDecryptingKey AesKey) := do
  let symmetric ← tryInto ssl key
  pure ⟨key.algorithm, symmetric, mode, padding⟩

def PaddedBlockEncryptingKey.lessSafeEncrypt (k : PaddedBlockEncryptingKey AesKey) (inOut : Bytes)
    (context : EncryptionContext) : Except Stop (Bytes × DecryptionContext) := do
  if !isValidEncryptionContext k.mode context then throw .unspecified
  else
    let inOut ← addPadding k.padding k.algorithm.blockLen inOut
    encrypt ssl build k.algorithm k.key k.mode inOut context

def PaddedBlockEncryptingKey.encrypt (k : PaddedBlockEncryptingKey AesKey) (rand : Option (FixedLength 16))
    (inOut : Bytes) : Except Stop (Bytes × DecryptionContext) := do
  let context ← newEncryptionContext rand k.mode
  k.lessSafeEncrypt ssl build inOut context

def PaddedBlockDecryptingKey.decrypt (k : PaddedBlockDecryptingKey AesKey) (inOut : Bytes)
    (context : DecryptionContext) : Except Stop Bytes := do
  if !isValidDecryptionContext k.mode context then throw .unspecified
  else
    let inOut ← Cipher.decrypt ssl build k.algorithm k.key k.mode inOut context
    removePadding k.padding build k.algorithm.blockLen inOut

end Keys

/-! ## What the padding says -/

/-- `p` bytes that each say `p`. -/
def paddingOf (p : Nat) : Bytes := List.replicate p (UInt8.ofNat p)

theorem toNat_ofNat_padding {p : Nat} (h : p < 2 ^ 8) : (UInt8.ofNat p).toNat = p := by
  rw [UInt8.toNat_ofNat', Nat.mod_eq_of_lt h]

theorem ofNat_padding_ne_zero {p : Nat} (hpos : 0 < p) (h : p < 2 ^ 8) : UInt8.ofNat p ≠ 0 := by
  intro hzero
  have := congrArg UInt8.toNat hzero
  rw [toNat_ofNat_padding h] at this
  exact absurd this (by simp; omega)

/-- **There is one amount of padding** that fills a block. -/
theorem paddingSize_eq {n p blockLen : Nat} (hpos : 0 < p) (hle : p ≤ blockLen) (hmod : (n + p) % blockLen = 0) :
    blockLen - n % blockLen = p := by
  have hlt := Nat.mod_lt n (show blockLen > 0 by omega)
  have hsum : (n % blockLen + p) % blockLen = 0 := by rw [Nat.mod_add_mod]; exact hmod
  by_cases hsmall : n % blockLen + p < blockLen
  · rw [Nat.mod_eq_of_lt hsmall] at hsum
    omega
  · rw [Nat.mod_eq_sub_mod (by omega), Nat.mod_eq_of_lt (by omega)] at hsum
    omega

section Padding

variable {build : Build} {blockLen : Nat} {message buffer : Bytes}

theorem addPadding_eq (strategy : PaddingStrategy) (hpos : 0 < blockLen) (hle : blockLen ≤ 16) (message : Bytes) :
    addPadding strategy blockLen message = .ok (message ++ paddingOf (blockLen - message.length % blockLen)) := by
  have hsize : blockLen - message.length % blockLen ≤ maxCipherBlockLen := by
    have hmax : maxCipherBlockLen = 16 := rfl
    omega
  have hbuffer : upTo (List.replicate maxCipherBlockLen (UInt8.ofNat (blockLen - message.length % blockLen)))
      (blockLen - message.length % blockLen) = some (paddingOf (blockLen - message.length % blockLen)) := by
    rw [upTo_of_le (by rwa [List.length_replicate]), List.take_replicate, Nat.min_eq_left hsize, paddingOf]
  cases strategy <;>
    simp only [addPadding, if_neg (show blockLen ≠ 0 by omega),
      if_neg (show ¬ 2 ^ 8 ≤ blockLen - message.length % blockLen by omega), hbuffer] <;> rfl

theorem length_padded_mod (hpos : 0 < blockLen) (message : Bytes) :
    (message ++ paddingOf (blockLen - message.length % blockLen)).length % blockLen = 0 := by
  have hlt := Nat.mod_lt message.length hpos
  rw [List.length_append, paddingOf, List.length_replicate, ← Nat.mod_add_mod,
    show message.length % blockLen + (blockLen - message.length % blockLen) = blockLen by omega, Nat.mod_self]

theorem getLast?_padded {p : Nat} (hpos : 0 < p) (message : Bytes) :
    (message ++ paddingOf p).getLast? = some (UInt8.ofNat p) := by
  rw [List.getLast?_append, paddingOf, List.getLast?_replicate, if_neg (by omega)]
  rfl

theorem dropPadding_eq {padding : UInt8} (h : padding.toNat ≤ buffer.length) :
    dropPadding build buffer padding = .ok (buffer.take (buffer.length - padding.toNat)) := by
  rw [dropPadding, sub_of_le h, orExit_some, ok_bind, upTo_of_le (by omega)]
  rfl

/-- **Padding that says how much it is comes off again**, by either strategy. -/
theorem removePadding_padded (strategy : PaddingStrategy) {p : Nat} (hpos : 0 < p) (hle : p ≤ blockLen)
    (hblock : blockLen < 2 ^ 8) (hlen : blockLen ≤ (message ++ paddingOf p).length) :
    removePadding strategy build blockLen (message ++ paddingOf p) = .ok message := by
  have hlength : (message ++ paddingOf p).length = message.length + p := by
    rw [List.length_append, paddingOf, List.length_replicate]
  have hnat := toNat_ofNat_padding (show p < 2 ^ 8 by omega)
  have hzero := ofNat_padding_ne_zero hpos (by omega)
  have hkeep : (message ++ paddingOf p).length - (UInt8.ofNat p).toNat = message.length := by omega
  have hdrop : dropPadding build (message ++ paddingOf p) (UInt8.ofNat p) = .ok message := by
    rw [dropPadding_eq (by omega), hkeep, List.take_left]
  have hsmall : ¬ ((message ++ paddingOf p) = [] ∨ (message ++ paddingOf p).length < blockLen) := by
    rintro (hnil | hshort)
    · rw [hnil, List.length_nil] at hlength
      omega
    · omega
  unfold removePadding
  rw [if_neg hsmall]
  cases strategy with
  | iso10126 =>
    simp only [getLast?_padded hpos, orExit_some, ok_bind]
    rw [if_neg (by rintro (h | h); exacts [hzero h, absurd h (by omega)]), hdrop]
  | pkcs7 =>
    have hsize : ¬ UInt8.ofNat p > UInt8.ofNat blockLen := by
      intro h
      have := UInt8.lt_iff_toNat_lt.1 h
      rw [hnat, toNat_ofNat_padding hblock] at this
      omega
    have hall : ((message ++ paddingOf p).drop message.length).any (· != UInt8.ofNat p) = false := by
      rw [List.drop_left, paddingOf]
      simp
    simp only [getLast?_padded hpos, orExit_some, ok_bind]
    rw [if_neg (by omega), if_neg (by rintro (h | h); exacts [hzero h, hsize h]), sub_of_le (by omega), hkeep]
    simp only [orExit_some, ok_bind, hall]
    exact hdrop

/-- **What PKCS#7 takes off is padding that says how much it is.** -/
theorem removePadding_pkcs7_ok (h : removePadding .pkcs7 build blockLen buffer = .ok message) :
    ∃ p, 0 < p ∧ p ≤ blockLen ∧ buffer = message ++ paddingOf p := by
  unfold removePadding at h
  by_cases hshort : buffer = [] ∨ buffer.length < blockLen
  · rw [if_pos hshort] at h
    cases h
  rw [if_neg hshort] at h
  by_cases hblock : 2 ^ 8 ≤ blockLen
  · simp only [if_pos hblock] at h
    cases h
  simp only [if_neg hblock] at h
  obtain ⟨padding, -, h⟩ := bind_ok.1 h
  by_cases hbad : padding = 0 ∨ padding > UInt8.ofNat blockLen
  · rw [if_pos hbad] at h
    cases h
  rw [if_neg hbad] at h
  obtain ⟨hzero, hsize⟩ := not_or.1 hbad
  have hle : padding.toNat ≤ blockLen := by
    rw [gt_iff_lt, UInt8.not_lt, UInt8.le_iff_toNat_le, toNat_ofNat_padding (by omega)] at hsize
    exact hsize
  have hlen : padding.toNat ≤ buffer.length := by omega
  rw [sub_of_le hlen, orExit_some, ok_bind, dropPadding_eq hlen] at h
  by_cases hany : (buffer.drop (buffer.length - padding.toNat)).any (· != padding) = true
  · rw [if_pos hany] at h
    cases h
  · rw [if_neg hany] at h
    cases h
    refine ⟨padding.toNat, ?_, hle, ?_⟩
    · exact Nat.pos_of_ne_zero fun h0 => hzero (UInt8.toNat.inj h0)
    · have htail : buffer.drop (buffer.length - padding.toNat) = paddingOf padding.toNat := by
        rw [paddingOf, UInt8.ofNat_toNat, List.eq_replicate_iff]
        refine ⟨by rw [List.length_drop]; omega, fun b hb => ?_⟩
        by_contra hne
        exact hany (List.any_eq_true.2 ⟨b, hb, by simpa using hne⟩)
      rw [← htail, List.take_append_drop]

theorem removePadding_ne_panicked (strategy : PaddingStrategy) :
    removePadding strategy build blockLen buffer ≠ .error .panicked := by
  unfold removePadding
  by_cases hshort : buffer = [] ∨ buffer.length < blockLen
  · rw [if_pos hshort]
    nofun
  rw [if_neg hshort]
  obtain ⟨hne, hlen⟩ := not_or.1 hshort
  rw [List.getLast?_eq_some_getLast hne]
  have hdrop {padding : UInt8} (hle : padding.toNat ≤ blockLen) :
      dropPadding build buffer padding ≠ .error .panicked := by
    rw [dropPadding_eq (by omega)]
    simp
  cases strategy with
  | iso10126 =>
    simp only [orExit_some, ok_bind]
    split
    · nofun
    · rename_i hgood
      exact hdrop (by omega)
  | pkcs7 =>
    by_cases hblock : 2 ^ 8 ≤ blockLen
    · simp only [if_pos hblock]
      nofun
    simp only [if_neg hblock, orExit_some, ok_bind]
    split
    · nofun
    · rename_i hgood
      have hle : (buffer.getLast hne).toNat ≤ blockLen := by
        have := (not_or.1 hgood).2
        rw [gt_iff_lt, UInt8.not_lt, UInt8.le_iff_toNat_le, toNat_ofNat_padding (by omega)] at this
        exact this
      rw [sub_of_le (by omega), orExit_some, ok_bind]
      split
      · nofun
      · exact hdrop hle

end Padding

/-- **On whole blocks PKCS#7 accepts exactly what `add_padding` writes.** -/
theorem removePadding_pkcs7_iff {build : Build} {blockLen : Nat} {message buffer : Bytes} (hpos : 0 < blockLen)
    (hle : blockLen ≤ 16) (hne : 0 < buffer.length) (hblocks : buffer.length % blockLen = 0) :
    removePadding .pkcs7 build blockLen buffer = .ok message ↔ addPadding .pkcs7 blockLen message = .ok buffer := by
  rw [addPadding_eq .pkcs7 hpos hle, Except.ok.injEq]
  constructor
  · intro h
    obtain ⟨p, hp, hpb, rfl⟩ := removePadding_pkcs7_ok h
    rw [List.length_append, paddingOf, List.length_replicate] at hblocks
    rw [paddingSize_eq hp hpb hblocks]
  · rintro rfl
    have hlt := Nat.mod_lt message.length hpos
    have hmultiple := Nat.le_of_dvd hne (Nat.dvd_of_mod_eq_zero hblocks)
    exact removePadding_padded .pkcs7 (by omega) (Nat.sub_le ..) (by omega) hmultiple

/-- **Padding comes off again**, whatever strategy put it on. -/
theorem remove_addPadding (build : Build) {blockLen : Nat} (hpos : 0 < blockLen) (hle : blockLen ≤ 16)
    (add remove : PaddingStrategy) (message : Bytes) :
    (addPadding add blockLen message >>= removePadding remove build blockLen) = .ok message := by
  have hlt := Nat.mod_lt message.length hpos
  have hblocks := length_padded_mod hpos message
  have hne : 0 < (message ++ paddingOf (blockLen - message.length % blockLen)).length := by
    rw [List.length_append, paddingOf, List.length_replicate]
    omega
  have hmultiple := Nat.le_of_dvd hne (Nat.dvd_of_mod_eq_zero hblocks)
  rw [addPadding_eq add hpos hle, ok_bind]
  exact removePadding_padded remove (by omega) (Nat.sub_le ..) (by omega) hmultiple

/-! ## Decrypting what was encrypted -/

/-- **The primitives are inverse on whole blocks**, for the two schedules of one key. -/
structure AesSsl.Inverse {AesKey : Type} (ssl : AesSsl AesKey) : Prop where
  length_ecb : ∀ k b, b.length = aesBlockLen → (ssl.ecbEncrypt k b).length = aesBlockLen
  ecb : ∀ keyBytes bits e d b, ssl.setEncryptKey keyBytes bits = some e → ssl.setDecryptKey keyBytes bits = some d →
    b.length = aesBlockLen → ssl.ecbDecrypt d (ssl.ecbEncrypt e b) = b
  length_cbc : ∀ k iv m, m.length % aesBlockLen = 0 → (ssl.cbcEncrypt k iv m).length = m.length
  cbc : ∀ keyBytes bits e d iv m, ssl.setEncryptKey keyBytes bits = some e → ssl.setDecryptKey keyBytes bits = some d →
    iv.length = aesBlockLen → m.length % aesBlockLen = 0 → ssl.cbcDecrypt d iv (ssl.cbcEncrypt e iv m) = m

section Blocks

variable {f g : Bytes → Bytes} (hf : ∀ b : Bytes, b.length = aesBlockLen → (f b).length = aesBlockLen)
include hf

theorem length_chunksExactMut : ∀ {n : Nat} {inOut : Bytes}, inOut.length = aesBlockLen * n →
    (chunksExactMut f n inOut).length = inOut.length
  | 0, _, _ => rfl
  | n + 1, inOut, h => by
    have htake := Cbc.length_take_block h
    have hdrop := Cbc.length_drop_block h
    rw [chunksExactMut, List.length_append, hf _ htake, length_chunksExactMut hdrop, hdrop, h, Nat.mul_succ]
    exact Nat.add_comm _ _

/-- **Block by block back again.** -/
theorem chunksExactMut_inverse (hgf : ∀ b : Bytes, b.length = aesBlockLen → g (f b) = b) :
    ∀ {n : Nat} {inOut : Bytes}, inOut.length = aesBlockLen * n →
      chunksExactMut g n (chunksExactMut f n inOut) = inOut
  | 0, _, _ => rfl
  | n + 1, inOut, h => by
    have htake := Cbc.length_take_block h
    have hdrop := Cbc.length_drop_block h
    rw [chunksExactMut, chunksExactMut, List.take_left' (hf _ htake), List.drop_left' (hf _ htake), hgf _ htake,
      chunksExactMut_inverse hgf hdrop, List.take_append_drop]

end Blocks

section Trip

variable {AesKey : Type} {ssl : AesSsl AesKey} {build : Build} {id : AlgorithmId} {keyBytes : Bytes}
  {encKey decKey : AesKey} {key key' : SymmetricCipherKey AesKey}

theorem Made.decKey_of_made {encKey' decKey' : AesKey} (h : Made ssl id keyBytes key encKey decKey)
    (h' : Made ssl id keyBytes key' encKey' decKey') : Made ssl id keyBytes key' encKey decKey := by
  have henc := h'.setEncrypt
  have hdec := h'.setDecrypt
  rw [h.setEncrypt, Option.some.injEq] at henc
  rw [h.setDecrypt, Option.some.injEq] at hdec
  exact ⟨h'.length_eq, henc ▸ h'.encKey_eq, hdec ▸ h'.decKey_eq, h.setEncrypt, h.setDecrypt⟩

/-- **Whole blocks come back**, in CBC and in ECB. -/
theorem decrypt_encrypt (build : Build) (hssl : ssl.Inverse) (hkey : Made ssl id keyBytes key encKey decKey)
    (hkey' : Made ssl id keyBytes key' encKey decKey) {mode : OperatingMode} (hmode : mode = .cbc ∨ mode = .ecb)
    {context : EncryptionContext} (hvalid : isValidEncryptionContext mode context = true) {inOut : Bytes}
    (hblocks : inOut.length % aesBlockLen = 0) :
    ∃ out, encrypt ssl build (algorithmOf id) key mode inOut context = .ok (out, context.into) ∧
      decrypt ssl build (algorithmOf id) key' mode out context.into = .ok inOut := by
  have hblock : (algorithmOf id).blockLen = aesBlockLen := algorithmOf_blockLen id
  have hdiv : inOut.length = aesBlockLen * (inOut.length / aesBlockLen) := by
    have := Nat.div_add_mod inOut.length aesBlockLen
    omega
  unfold encrypt decrypt
  rw [hblock, if_neg fun h => h.2 hblocks]
  rcases hmode with rfl | rfl
  · cases context with
    | none => cases hvalid
    | iv128 iv =>
      have hlen := hssl.length_cbc encKey iv.bytes inOut hblocks
      refine ⟨_, encryptCbcMode_iv128 hkey iv inOut, ?_⟩
      rw [if_neg fun h => h.2 (by rw [hlen]; exact hblocks)]
      show decryptCbcMode ssl key' (.iv128 iv) _ = _
      rw [decryptCbcMode_eq hkey']
      exact congrArg Except.ok (hssl.cbc _ _ _ _ _ _ hkey.setEncrypt hkey.setDecrypt iv.length_eq hblocks)
  · cases context with
    | iv128 iv => cases hvalid
    | none =>
      have hlen : (chunksExactMut (ssl.ecbEncrypt encKey) (inOut.length / aesBlockLen) inOut).length = inOut.length :=
        length_chunksExactMut (hssl.length_ecb encKey) hdiv
      have hrest : (chunksExactMut (ssl.ecbEncrypt encKey) (inOut.length / aesBlockLen) inOut).length %
          aesBlockLen = 0 := by rw [hlen]; exact hblocks
      refine ⟨_, encryptEcbMode_none hkey hblocks, ?_⟩
      rw [if_neg fun h => h.2 hrest]
      show decryptEcbMode ssl build key' .none _ = _
      rw [decryptEcbMode_none hkey' hrest, hlen, chunksExactMut_inverse (hssl.length_ecb encKey) ?_ hdiv]
      intro b hb
      exact hssl.ecb _ _ _ _ b hkey.setEncrypt hkey.setDecrypt hb

end Trip

/-- **Padding and padded encryption are taken back.**  What either strategy puts on either strategy takes off; on whole
blocks PKCS#7 accepts exactly the messages that `add_padding` filled up, and gives them back; and a decrypting key gives
back what an encrypting key of the same bytes and mode encrypted in any context that fits. -/
theorem padded_roundtrip {AesKey : Type} (ssl : AesSsl AesKey) (hssl : ssl.Inverse) (build : Build) :
    (∀ add remove blockLen message, 1 ≤ blockLen → blockLen ≤ 16 →
      (addPadding add blockLen message >>= removePadding remove build blockLen) = .ok message) ∧
    (∀ blockLen buffer message, 1 ≤ blockLen → blockLen ≤ 16 → 0 < buffer.length → buffer.length % blockLen = 0 →
      (removePadding .pkcs7 build blockLen buffer = .ok message ↔ addPadding .pkcs7 blockLen message = .ok buffer)) ∧
    (∀ id keyBytes mode add remove s s' t t' enc dec, mode = .cbc ∨ mode = .ecb →
      (PaddedBlockEncryptingKey.new ssl ⟨algorithmOf id, keyBytes⟩ mode add).run s = .ok enc s' →
      (PaddedBlockDecryptingKey.new ssl ⟨algorithmOf id, keyBytes⟩ mode remove).run t = .ok dec t' →
      ∀ message context, (isValidEncryptionContext mode context = true →
          ∃ out, enc.lessSafeEncrypt ssl build message context = .ok (out, context.into)) ∧
        ∀ out context', enc.lessSafeEncrypt ssl build message context = .ok (out, context') →
          dec.decrypt ssl build out context' = .ok message) := by
  refine ⟨fun add remove blockLen message hpos hle => remove_addPadding build hpos hle add remove message,
    fun blockLen buffer message hpos hle hne hblocks => removePadding_pkcs7_iff hpos hle hne hblocks, ?_⟩
  intro id keyBytes mode add remove s s' t t' enc dec hmode henc hdec message context
  obtain ⟨key, encKey, decKey, hmade, rfl⟩ := run_around_ok henc
  obtain ⟨key', _, _, hmade', rfl⟩ := run_around_ok hdec
  simp only [PaddedBlockEncryptingKey.lessSafeEncrypt, PaddedBlockDecryptingKey.decrypt, algorithmOf_blockLen]
  by_cases hvalid : isValidEncryptionContext mode context = true
  · have hpadded := addPadding_eq add (by decide : 0 < 16) (by decide) message
    have hblocks := length_padded_mod (by decide : 0 < 16) message
    obtain ⟨out, hout, hback⟩ := decrypt_encrypt build hssl hmade (hmade.decKey_of_made hmade') hmode hvalid
      hblocks
    have hinto : isValidDecryptionContext mode context.into = true := by
      cases mode <;> cases context <;> first | rfl | cases hvalid
    simp only [hvalid, Bool.not_true, Bool.false_eq_true, if_false, hpadded, ok_bind, hout]
    refine ⟨fun _ => ⟨out, rfl⟩, ?_⟩
    intro out' context' h
    cases h
    simp only [hinto, Bool.not_true, Bool.false_eq_true, if_false, hback, ok_bind]
    have := remove_addPadding build (by decide : 0 < 16) (by decide) add remove message
    rwa [hpadded, ok_bind] at this
  · rw [Bool.not_eq_true] at hvalid
    simp only [hvalid, Bool.false_eq_true, Bool.not_false, if_true]
    exact ⟨False.elim, fun _ _ h => nomatch h⟩

/-- AES with the identity as its block function. -/
def plainSsl : AesSsl Bytes where
  setEncryptKey keyBytes _ := some keyBytes
  setDecryptKey keyBytes _ := some keyBytes
  ecbEncrypt _ b := b
  ecbDecrypt _ b := b
  cbcEncrypt _ _ m := m
  cbcDecrypt _ _ m := m
  ctrEncrypt _ _ m _ := m
  cfb128Encrypt _ _ m := m
  cfb128Decrypt _ _ m := m

theorem plainSsl_inverse : plainSsl.Inverse where
  length_ecb _ _ h := h
  ecb _ _ _ _ _ _ _ _ := rfl
  length_cbc _ _ _ _ := rfl
  cbc _ _ _ _ _ _ _ _ _ _ := rfl

def zeroKey : Bytes := List.replicate 16 0

def zeroIv : FixedLength 16 := ⟨List.replicate 16 0, List.length_replicate⟩

/-- A message of one byte, padded and encrypted and back. -/
theorem padded_roundtrip_plain :
    (addPadding .pkcs7 16 [7] >>= removePadding .iso10126 .debug 16) = .ok [7] ∧
    ∀ out context', PaddedBlockEncryptingKey.lessSafeEncrypt plainSsl .debug
        ⟨algorithmOf .aes128, .aes128 zeroKey zeroKey, .cbc, .pkcs7⟩ [7] (.iv128 zeroIv) = .ok (out, context') →
      PaddedBlockDecryptingKey.decrypt plainSsl .debug
        ⟨algorithmOf .aes128, .aes128 zeroKey zeroKey, .cbc, .iso10126⟩ out context' = .ok [7] :=
  have htrip := padded_roundtrip plainSsl plainSsl_inverse .debug
  ⟨htrip.1 .pkcs7 .iso10126 16 [7] (by decide) (by decide),
    (htrip.2.2 .aes128 zeroKey .cbc .pkcs7 .iso10126 [] _ [] _ _ _ (.inl rfl) rfl rfl [7] (.iv128 zeroIv)).2⟩

/-! ## Contexts -/

/-- **A call reports its context**: it returns, and a context that does not fit is an error. -/
def Reports {α : Type} (answer : Except Stop α) (fits : Bool) : Prop :=
  answer ≠ .error .panicked ∧ (fits = false → answer = .error .unspecified)

section Contexts

variable {AesKey : Type} {ssl : AesSsl AesKey} {build : Build} {id : AlgorithmId} {keyBytes : Bytes}
  {mode : OperatingMode} {encKey decKey : AesKey}

theorem valid_of_new {rand : Option (FixedLength 16)} {context : EncryptionContext}
    (h : newEncryptionContext rand mode = .ok context) : isValidEncryptionContext mode context = true := by
  cases mode <;> cases rand <;> cases h <;> rfl

theorem new_ne_panicked (rand : Option (FixedLength 16)) (mode : OperatingMode) :
    newEncryptionContext rand mode ≠ .error .panicked := by
  cases mode <;> cases rand <;> exact fun h => nomatch h

/-- A call with a random context, from the one that is given it. -/
theorem encrypt_random_ne_panicked {α : Type} {rand : Option (FixedLength 16)} {f : EncryptionContext → Except Stop α}
    (h : ∀ context, isValidEncryptionContext mode context = true → f context ≠ .error .panicked) :
    (newEncryptionContext rand mode >>= f) ≠ .error .panicked := by
  cases hnew : newEncryptionContext rand mode with
  | error e =>
    intro he
    cases he
    exact new_ne_panicked rand mode hnew
  | ok context => exact h context (valid_of_new hnew)

theorem reports_lessSafeEncrypt {k : EncryptingKey AesKey} (halg : k.algorithm = algorithmOf id) (hmode : k.mode = mode)
    (hkey : Made ssl id keyBytes k.key encKey decKey) (inOut : Bytes) (context : EncryptionContext) :
    Reports (k.lessSafeEncrypt ssl build inOut context) (isValidEncryptionContext mode context) := by
  unfold EncryptingKey.lessSafeEncrypt
  rw [halg, hmode]
  cases hvalid : isValidEncryptionContext mode context with
  | false => exact ⟨by simp, fun _ => rfl⟩
  | true => exact ⟨encrypt_ne_panicked hkey hvalid inOut, fun h => nomatch h⟩

theorem reports_paddedEncrypt {k : PaddedBlockEncryptingKey AesKey} (halg : k.algorithm = algorithmOf id)
    (hmode : k.mode = mode) (hkey : Made ssl id keyBytes k.key encKey decKey) (inOut : Bytes)
    (context : EncryptionContext) :
    Reports (k.lessSafeEncrypt ssl build inOut context) (isValidEncryptionContext mode context) := by
  unfold PaddedBlockEncryptingKey.lessSafeEncrypt
  rw [halg, hmode, algorithmOf_blockLen, addPadding_eq k.padding (by decide) (by decide)]
  cases hvalid : isValidEncryptionContext mode context with
  | false => exact ⟨nofun, fun _ => rfl⟩
  | true => exact ⟨encrypt_ne_panicked hkey hvalid _, fun h => nomatch h⟩

theorem reports_paddedDecrypt {k : PaddedBlockDecryptingKey AesKey} (halg : k.algorithm = algorithmOf id)
    (hmode : k.mode = mode) (hkey : Made ssl id keyBytes k.key encKey decKey) (inOut : Bytes)
    (context : DecryptionContext) :
    Reports (k.decrypt ssl build inOut context) (isValidDecryptionContext mode context) := by
  unfold PaddedBlockDecryptingKey.decrypt
  rw [halg, hmode]
  cases hvalid : isValidDecryptionContext mode context with
  | false => exact ⟨nofun, fun _ => rfl⟩
  | true =>
    refine ⟨?_, fun h => nomatch h⟩
    have hdecrypt : decrypt ssl build (algorithmOf id) k.key mode inOut context ≠ .error .panicked := by
      rw [ne_eq, decrypt_panics_iff build hkey]
      rintro ⟨rfl, hcontext, -⟩
      cases context with
      | none => exact hcontext rfl
      | iv128 iv => cases hvalid
    show (decrypt ssl build (algorithmOf id) k.key mode inOut context >>= _) ≠ _
    cases hanswer : decrypt ssl build (algorithmOf id) k.key mode inOut context with
    | error e =>
      intro he
      cases he
      exact hdecrypt hanswer
    | ok out => exact removePadding_ne_panicked k.padding

theorem reports_decrypt_iff {k : DecryptingKey AesKey} (halg : k.algorithm = algorithmOf id) (hmode : k.mode = mode)
    (hkey : Made ssl id keyBytes k.key encKey decKey) (inOut : Bytes) (context : DecryptionContext) :
    Reports (k.decrypt ssl build inOut context) (isValidDecryptionContext mode context) ↔
      ¬ (mode = .ecb ∧ context ≠ .none ∧ inOut.length % aesBlockLen = 0) := by
  unfold DecryptingKey.decrypt
  rw [halg, hmode, ← decrypt_panics_iff build hkey]
  exact ⟨fun h => h.1, fun h => ⟨h, fun hinvalid => decrypt_of_invalid hkey hinvalid inOut h⟩⟩

end Contexts

/-- **Every call but one reports its context.**  Keys that encrypt and keys that pad check the context before they use
it; `DecryptingKey::decrypt` does not, and reports everything but an initialization vector in ECB mode for whole blocks,
on which it reaches `unreachable!`. -/
theorem contexts_reported_iff {AesKey : Type} (ssl : AesSsl AesKey) (build : Build) (id : AlgorithmId) (keyBytes : Bytes)
    (mode : OperatingMode) (padding : PaddingStrategy) (enc : EncryptingKey AesKey) (dec : DecryptingKey AesKey)
    (penc : PaddedBlockEncryptingKey AesKey) (pdec : PaddedBlockDecryptingKey AesKey) (s₁ s₂ s₃ s₄ : List Bytes)
    (henc : (EncryptingKey.new ssl ⟨algorithmOf id, keyBytes⟩ mode).run [] = .ok enc s₁)
    (hdec : (DecryptingKey.new ssl ⟨algorithmOf id, keyBytes⟩ mode).run [] = .ok dec s₂)
    (hpenc : (PaddedBlockEncryptingKey.new ssl ⟨algorithmOf id, keyBytes⟩ mode padding).run [] = .ok penc s₃)
    (hpdec : (PaddedBlockDecryptingKey.new ssl ⟨algorithmOf id, keyBytes⟩ mode padding).run [] = .ok pdec s₄)
    (rand : Option (FixedLength 16)) (ec : EncryptionContext) (dc : DecryptionContext) (inOut : Bytes) :
    Reports (enc.lessSafeEncrypt ssl build inOut ec) (isValidEncryptionContext mode ec) ∧
    enc.encrypt ssl build rand inOut ≠ .error .panicked ∧
    Reports (penc.lessSafeEncrypt ssl build inOut ec) (isValidEncryptionContext mode ec) ∧
    penc.encrypt ssl build rand inOut ≠ .error .panicked ∧
    Reports (pdec.decrypt ssl build inOut dc) (isValidDecryptionContext mode dc) ∧
    (Reports (dec.decrypt ssl build inOut dc) (isValidDecryptionContext mode dc) ↔
      ¬ (mode = .ecb ∧ dc ≠ .none ∧ inOut.length % aesBlockLen = 0)) := by
  obtain ⟨_, _, _, ekey, rfl⟩ := run_around_ok henc
  obtain ⟨_, _, _, dkey, rfl⟩ := run_around_ok hdec
  obtain ⟨_, _, _, pkey, rfl⟩ := run_around_ok hpenc
  obtain ⟨_, _, _, qkey, rfl⟩ := run_around_ok hpdec
  refine ⟨reports_lessSafeEncrypt rfl rfl ekey inOut ec, ?_, reports_paddedEncrypt rfl rfl pkey inOut ec, ?_,
    reports_paddedDecrypt rfl rfl qkey inOut dc, reports_decrypt_iff rfl rfl dkey inOut dc⟩
  · exact encrypt_random_ne_panicked fun context _ => (reports_lessSafeEncrypt rfl rfl ekey inOut context).1
  · exact encrypt_random_ne_panicked fun context _ => (reports_paddedEncrypt rfl rfl pkey inOut context).1

/-- An initialization vector is reported on half a block. -/
theorem contexts_reported_iff_plain :
    Reports (DecryptingKey.decrypt plainSsl .debug ⟨algorithmOf .aes128, .aes128 zeroKey zeroKey, .ecb⟩ [1, 2, 3]
      (.iv128 zeroIv)) false :=
  (contexts_reported_iff plainSsl .debug .aes128 zeroKey .ecb .pkcs7 _ _ _ _ _ _ _ _ rfl rfl rfl rfl none .none
    (.iv128 zeroIv) [1, 2, 3]).2.2.2.2.2.2 (by decide)

/-- **An initialization vector in ECB mode reaches `unreachable!`**, on a block and on no bytes at all. -/
theorem ecb_iv_unreachable :
    DecryptingKey.decrypt plainSsl .release ⟨algorithmOf .aes128, .aes128 zeroKey zeroKey, .ecb⟩ (List.replicate 16 0)
      (.iv128 zeroIv) = .error .panicked ∧
    DecryptingKey.decrypt plainSsl .release ⟨algorithmOf .aes128, .aes128 zeroKey zeroKey, .ecb⟩ []
      (.iv128 zeroIv) = .error .panicked :=
  ⟨rfl, rfl⟩

end Cipher
end Wolf
