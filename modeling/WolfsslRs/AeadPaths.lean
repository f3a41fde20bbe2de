import WolfsslRs.AeadKey
/-!
# AeadPaths — sealing and opening by every path

The operations move a text differently: the tag behind it, beside it, or behind the part of it that has a buffer of its
own; the plaintext shifted to the front, or read from another buffer.  Over primitives that form a correct AEAD, all of
them come to one ciphertext and one tag, which every way of opening turns back.
-/
namespace Wolf
namespace Aead

open Program Rust

/-- **A correct AEAD**, at the lengths a primitive can be handed: sealing succeeds with a ciphertext as long as the text
and a full tag, and opening these gives the text. -/
structure CorrectAead (enc : (key nonce ad text : Bytes) → Sealing) (dec : (key nonce ad text tag : Bytes) → Opening)
    (keyLens : List Nat) : Prop where
  seals {key nonce ad text : Bytes} : key.length ∈ keyLens → nonce.length = nonceLen → ad.length < 2 ^ 32 →
    text.length < 2 ^ 32 → (enc key nonce ad text).ret = 0
  out_length {key nonce ad text : Bytes} : (enc key nonce ad text).out.length = text.length
  tag_length {key nonce ad text : Bytes} : (enc key nonce ad text).tag.length = 16
  opens {key nonce ad text : Bytes} : key.length ∈ keyLens → nonce.length = nonceLen → ad.length < 2 ^ 32 →
    text.length < 2 ^ 32 → dec key nonce ad (enc key nonce ad text).out (enc key nonce ad text).tag = ⟨0, text⟩

/-- wolfCrypt with memory for an AES object, which takes the keys AES has, and with both AEADs correct. -/
structure WolfCrypt.Correct (wc : WolfCrypt) : Prop where
  aesNew : wc.aesNew = true
  setKey {key : Bytes} : key.length ∈ [16, 24, 32] → wc.aesGcmSetKey key = 0
  aesGcm : CorrectAead wc.aesGcmEncrypt wc.aesGcmDecrypt [16, 24, 32]
  chacha : CorrectAead wc.chachaEncrypt wc.chachaDecrypt [32]

/-- **The operation ends with `a`**, whatever calls were made before it. -/
def Returns {α : Type} (p : Api α) (a : α) : Prop := ∀ cs, wp p (fun b _ => b = a) (fun _ _ => False) cs

theorem returns_pure {α : Type} (a : α) : Returns (pure a) a := fun _ => rfl

theorem Returns.bind {α β : Type} {p : Api α} {a : α} {k : α → Api β} {b : β} (hp : Returns p a)
    (hk : Returns (k a) b) : Returns (p >>= k) b := by
  intro cs
  rw [wp_bind]
  refine wp_mono (fun a' cs' h => ?_) (fun _ _ h => h) (hp cs)
  rw [h]
  exact hk cs'

/-- What follows a call whose primitive returned 0. -/
theorem returns_call {α : Type} {c : PrimCall} {ret : Int} {a : α} (hret : ret = 0) :
    Returns (do modify (· ++ [c]); if ret ≠ 0 then throw .unspecified else return a) a := by
  intro cs
  rw [hret, if_neg (by decide)]
  exact wp_bind.2 rfl

/-! ## Keys the crate makes -/

/-- The bytes of the key a primitive reads. -/
def AeadCtx.keyBytes (ctx : AeadCtx) : Bytes :=
  match ctx.id with
  | .aes128Gcm | .aes192Gcm | .aes256Gcm => ctx.key.key.take (asU32 ctx.key.keyLen)
  | .chacha20Poly1305 => ctx.key.key.take 32

/-- The lengths of keys the primitives behind an algorithm take. -/
def AlgorithmID.keyLens : AlgorithmID → List Nat
  | .aes128Gcm | .aes192Gcm | .aes256Gcm => [16, 24, 32]
  | .chacha20Poly1305 => [32]

/-- What `UnboundKey.new` makes sure of. -/
structure UnboundKey.Made (key : UnboundKey) : Prop where
  tagLen : key.ctx.key.tagLen = Aead.tagLen
  maxInputLen : key.algorithm.maxInputLen = u64Max
  keyBytes : key.ctx.keyBytes.length ∈ key.ctx.id.keyLens

theorem init_eq_ok {id : AlgorithmID} {keyLen n : Nat} {keyBytes : Bytes} {ctx : AeadCtx}
    (h : AeadCtx.init id keyLen keyBytes n = .ok ctx) : keyBytes.length = keyLen ∧ ctx = ⟨id, .new keyBytes n⟩ := by
  unfold AeadCtx.init at h
  split at h
  · cases h
  · rename_i hok
    cases h
    exact ⟨by omega, rfl⟩

theorem AeadKey.take_new (keyBytes : Bytes) (n : Nat) : (AeadKey.new keyBytes n).key.take keyBytes.length = keyBytes :=
  List.take_left

theorem new_made {id : AlgorithmID} {keyBytes : Bytes} {key : UnboundKey}
    (h : UnboundKey.new id.algorithm keyBytes = .ok key) : key.Made := by
  unfold UnboundKey.new at h
  split at h
  · cases h
  · rename_i ctx hinit
    cases h
    cases id with
    | aes128Gcm | aes192Gcm | aes256Gcm =>
      obtain ⟨hlen, rfl⟩ := init_eq_ok hinit
      refine ⟨rfl, rfl, ?_⟩
      have hcast : asU32 keyBytes.length = keyBytes.length := asU32_eq_iff.2 (by omega)
      show ((AeadKey.new keyBytes _).key.take (asU32 keyBytes.length)).length ∈ [16, 24, 32]
      rw [hcast, AeadKey.take_new, hlen]
      decide
    | chacha20Poly1305 =>
      obtain ⟨hlen, rfl⟩ := init_eq_ok hinit
      refine ⟨rfl, rfl, ?_⟩
      show ((AeadKey.new keyBytes _).key.take 32).length ∈ [32]
      rw [← hlen, AeadKey.take_new, hlen]
      decide

/-! ## What one call comes to -/

/-- The primitive behind a key. -/
def AeadCtx.oneShot (wc : WolfCrypt) (ctx : AeadCtx) (nonce ad text : Bytes) : Sealing :=
  match ctx.id with
  | .aes128Gcm | .aes192Gcm | .aes256Gcm => wc.aesGcmEncrypt ctx.keyBytes nonce ad text
  | .chacha20Poly1305 => wc.chachaEncrypt ctx.keyBytes nonce ad text

/-- The part of a text or of associated data that a primitive reads. -/
def reached (b : Bytes) : Bytes := b.take (asU32 b.length)

/-- **What sealing makes of a text**: the part of it that the primitive reads is encrypted, the rest stays. -/
def AeadCtx.ciphertext (wc : WolfCrypt) (ctx : AeadCtx) (nonce ad text : Bytes) : Bytes :=
  (ctx.oneShot wc nonce (reached ad) (reached text)).out ++ text.drop (asU32 text.length)

def AeadCtx.sealTag (wc : WolfCrypt) (ctx : AeadCtx) (nonce ad text : Bytes) : Bytes :=
  (ctx.oneShot wc nonce (reached ad) (reached text)).tag

theorem length_reached (b : Bytes) : (reached b).length = asU32 b.length := by
  rw [reached, List.length_take]
  exact Nat.min_eq_left (asU32_le _)

theorem length_reached_lt (b : Bytes) : (reached b).length < 2 ^ 32 := by
  rw [length_reached]
  exact Nat.mod_lt _ (by decide)

theorem reached_nonce {nonce : Bytes} (h : nonce.length = nonceLen) : reached nonce = nonce := by
  rw [reached, asU32_nonceLen h, List.take_length]

theorem take_nonceLen {nonce : Bytes} (h : nonce.length = nonceLen) : nonce.take nonceLen = nonce := by
  rw [← h, List.take_length]

/-- The buffers after a call that sealed what it reached. -/
theorem sealed_buffers {r : Sealing} {text tagOut : Bytes} {n : Nat} (hout : r.out.length = (reached text).length)
    (htag : r.tag.length = tagLen) (hn : n = tagLen) (htagOut : tagOut.length = tagLen) :
    (splice text 0 r.out, splice tagOut 0 (r.tag.take (min n tagOut.length)))
      = (r.out ++ text.drop (asU32 text.length), r.tag) := by
  have hcopy : r.tag.take (min n tagOut.length) = r.tag := List.take_of_length_le (by omega)
  have hrest : tagOut.drop r.tag.length = [] := List.drop_eq_nil_of_le (by omega)
  rw [hcopy, splice_zero, splice_zero, hrest, hout, length_reached, List.append_nil]

/-- An opening call that gave back what sealing reached. -/
theorem returns_opened {c : PrimCall} {r : Opening} {buf text : Bytes} (hr : r = ⟨0, reached text⟩)
    (hbuf : splice buf 0 (reached text) = text) :
    Returns (do modify (· ++ [c]); if r.ret ≠ 0 then throw .unspecified else return splice buf 0 r.out) text := by
  rw [hr, hbuf]
  exact returns_call rfl

section Call

variable {wc : WolfCrypt} (ctx : AeadCtx) {nonce : Bytes} (hwc : wc.Correct) (hkey : ctx.keyBytes.length ∈ ctx.id.keyLens)
  (hnonce : nonce.length = nonceLen) (ad text : Bytes)
include hwc

omit hkey hnonce in
theorem length_oneShot (nonce ad text : Bytes) : (ctx.oneShot wc nonce ad text).out.length = text.length := by
  unfold AeadCtx.oneShot
  split
  · exact hwc.aesGcm.out_length
  · exact hwc.aesGcm.out_length
  · exact hwc.aesGcm.out_length
  · exact hwc.chacha.out_length

theorem length_ciphertext : (ctx.ciphertext wc nonce ad text).length = text.length := by
  have hle := asU32_le text.length
  rw [AeadCtx.ciphertext, List.length_append, length_oneShot ctx hwc, length_reached, List.length_drop]
  omega

theorem length_sealTag : (ctx.sealTag wc nonce ad text).length = tagLen := by
  unfold AeadCtx.sealTag AeadCtx.oneShot
  split
  · exact hwc.aesGcm.tag_length
  · exact hwc.aesGcm.tag_length
  · exact hwc.aesGcm.tag_length
  · exact hwc.chacha.tag_length

/-- The part of the ciphertext a primitive reads back is what it wrote. -/
theorem reached_ciphertext (nonce : Bytes) : reached (ctx.ciphertext wc nonce ad text)
    = (ctx.oneShot wc nonce (reached ad) (reached text)).out := by
  rw [reached, length_ciphertext ctx hwc, AeadCtx.ciphertext, ← length_reached text, ← length_oneShot ctx hwc nonce
    (reached ad) (reached text), List.take_left]

theorem opened_buffer (nonce : Bytes) : splice (ctx.ciphertext wc nonce ad text) 0 (reached text) = text := by
  have hdrop : (ctx.ciphertext wc nonce ad text).drop (reached text).length = text.drop (asU32 text.length) := by
    rw [AeadCtx.ciphertext, ← length_oneShot ctx hwc nonce (reached ad) (reached text), List.drop_left]
  rw [splice_zero, hdrop]
  exact List.take_append_drop _ _

include hkey hnonce

theorem seal_returns (htagLen : ctx.key.tagLen = tagLen) {tagOut : Bytes} (htagOut : tagOut.length = tagLen) :
    Returns (ctx.seal wc nonce text text.length ad tagOut)
      (ctx.ciphertext wc nonce ad text, ctx.sealTag wc nonce ad text) := by
  have hbuf := sealed_buffers (length_oneShot ctx hwc nonce (reached ad) (reached text))
    (length_sealTag ctx hwc ad text) htagLen htagOut
  rw [AeadCtx.ciphertext, AeadCtx.sealTag, ← hbuf]
  obtain ⟨id, key⟩ := ctx
  cases id with
  | aes128Gcm | aes192Gcm | aes256Gcm =>
    have hret := hwc.aesGcm.seals hkey hnonce (length_reached_lt ad) (length_reached_lt text)
    show Returns (AeadCtx.aesGcmSeal wc _ nonce text text.length ad tagOut) _
    unfold AeadCtx.aesGcmSeal
    dsimp only
    have hset : wc.aesGcmSetKey (key.key.take (asU32 key.keyLen)) = 0 := hwc.setKey hkey
    have hread : nonce.take (asU32 nonce.length) = nonce := reached_nonce hnonce
    rw [if_neg (by rw [hwc.aesNew]; decide), if_neg (not_not.2 hset), hread]
    exact returns_call hret
  | chacha20Poly1305 =>
    have hret := hwc.chacha.seals hkey hnonce (length_reached_lt ad) (length_reached_lt text)
    show Returns (AeadCtx.chachaSeal wc _ nonce text text.length ad tagOut) _
    unfold AeadCtx.chachaSeal
    rw [take_nonceLen hnonce]
    exact returns_call hret

theorem openCtx_returns : Returns (ctx.openCtx wc nonce (ctx.ciphertext wc nonce ad text)
    (ctx.ciphertext wc nonce ad text).length (ctx.sealTag wc nonce ad text) ad) text := by
  have hreached := reached_ciphertext ctx hwc ad text nonce
  have hbuf := opened_buffer ctx hwc ad text nonce
  have htag : (ctx.sealTag wc nonce ad text).length = 16 := length_sealTag ctx hwc ad text
  generalize AeadCtx.ciphertext wc ctx nonce ad text = ciphertext at hreached hbuf ⊢
  obtain ⟨id, key⟩ := ctx
  cases id with
  | aes128Gcm | aes192Gcm | aes256Gcm =>
    have hset : wc.aesGcmSetKey (key.key.take (asU32 key.keyLen)) = 0 := hwc.setKey hkey
    have hread : nonce.take (asU32 nonce.length) = nonce := reached_nonce hnonce
    show Returns (AeadCtx.aesGcmOpen wc _ nonce ciphertext ciphertext.length _ ad) _
    unfold AeadCtx.aesGcmOpen
    dsimp only
    rw [if_neg (by rw [hwc.aesNew]; decide), if_neg (not_not.2 hset), if_neg (not_not.2 htag), hread]
    refine returns_opened ?_ hbuf
    rw [← reached, ← reached, hreached]
    exact hwc.aesGcm.opens hkey hnonce (length_reached_lt ad) (length_reached_lt text)
  | chacha20Poly1305 =>
    have htake : (AeadCtx.sealTag wc ⟨.chacha20Poly1305, key⟩ nonce ad text).take 16
        = AeadCtx.sealTag wc ⟨.chacha20Poly1305, key⟩ nonce ad text := List.take_of_length_le (Nat.le_of_eq htag)
    show Returns (AeadCtx.chachaOpen wc _ nonce ciphertext ciphertext.length _ ad) _
    unfold AeadCtx.chachaOpen
    rw [take_nonceLen hnonce, htake]
    refine returns_opened ?_ hbuf
    rw [← reached, ← reached, hreached]
    exact hwc.chacha.opens hkey hnonce (length_reached_lt ad) (length_reached_lt text)

end Call

/-! ## The paths -/

/-- **`ciphertext` and `tag` are what a text comes to**: a context seals it to them and opens them to it. -/
structure Seals (wc : WolfCrypt) (ctx : AeadCtx) (nonce ad text ciphertext tag : Bytes) : Prop where
  length_ciphertext : ciphertext.length = text.length
  length_tag : tag.length = tagLen
  seals {tagOut : Bytes} : tagOut.length = tagLen →
    Returns (ctx.seal wc nonce text text.length ad tagOut) (ciphertext, tag)
  opens : Returns (ctx.openCtx wc nonce ciphertext ciphertext.length tag ad) text

theorem made_seals {wc : WolfCrypt} (hwc : wc.Correct) {key : UnboundKey} (hmade : key.Made) (nonce : Nonce)
    (aad text : Bytes) : Seals wc key.ctx nonce.bytes aad text (key.ctx.ciphertext wc nonce.bytes aad text)
      (key.ctx.sealTag wc nonce.bytes aad text) where
  length_ciphertext := length_ciphertext key.ctx hwc aad text
  length_tag := length_sealTag key.ctx hwc aad text
  seals := seal_returns key.ctx hwc hmade.keyBytes nonce.len aad text hmade.tagLen
  opens := openCtx_returns key.ctx hwc hmade.keyBytes nonce.len aad text

theorem returns_check {α : Type} {key : UnboundKey} {n : Nat} {p : Api α} {a : α} (hmade : key.Made)
    (hp : Returns p a) : Returns (key.checkPerNonceMaxBytes n >>= fun _ => p) a := by
  rw [checkPerNonceMaxBytes_eq hmade.maxInputLen]
  exact (returns_pure ()).bind hp

theorem take_tag {tag : Bytes} (h : tag.length = tagLen) : tag.take tagLen = tag :=
  List.take_of_length_le (Nat.le_of_eq h)

section Paths

variable {wc : WolfCrypt} {key : UnboundKey} (hmade : key.Made) {nonce : Nonce} {aad text ciphertext tag : Bytes}
  (h : Seals wc key.ctx nonce.bytes aad text ciphertext tag)
include hmade h

/-- The tag lands on the zeros the buffer was extended by. -/
theorem sealAppendTag_returns : Returns ((LessSafeKey.mk key).sealInPlaceAppendTag wc nonce aad text) (ciphertext ++ tag) := by
  have hzeros : (List.replicate tagLen (0 : UInt8)).length = tagLen := List.length_replicate
  have htext : splice (text ++ List.replicate tagLen 0) 0 ciphertext = ciphertext ++ List.replicate tagLen 0 := by
    rw [splice_zero, h.length_ciphertext, List.drop_left]
  have hbuf : splice (ciphertext ++ List.replicate tagLen 0) text.length (tag.take tagLen) = ciphertext ++ tag := by
    rw [take_tag h.length_tag, ← h.length_ciphertext, splice_append_right,
      splice_whole (hzeros.trans h.length_tag.symm)]
  refine returns_check hmade (Returns.bind (a := (ciphertext, tag)) ?_ ?_)
  · rw [List.take_left]
    exact h.seals hzeros
  · rw [← hbuf, ← htext]
    exact returns_pure _

theorem sealSeparateTag_returns :
    Returns ((LessSafeKey.mk key).sealInPlaceSeparateTag wc nonce aad text) (ciphertext, tag) := by
  refine returns_check hmade (Returns.bind (h.seals List.length_replicate) ?_)
  show Returns (pure (ciphertext, tag.take tagLen)) _
  rw [take_tag h.length_tag]
  exact returns_pure _

/-- The extra part of the ciphertext and the tag lie side by side in the extra buffer. -/
theorem sealScatter_returns {inOut extraIn extraOutAndTag : Bytes} (htext : inOut ++ extraIn = text)
    (hextra : extraOutAndTag.length = extraIn.length + tagLen) :
    Returns ((LessSafeKey.mk key).sealInPlaceScatter wc nonce aad inOut extraIn extraOutAndTag)
      (ciphertext.take inOut.length, ciphertext.drop inOut.length ++ tag) := by
  have hlen := h.length_ciphertext
  rw [← htext, List.length_append] at hlen
  refine returns_check hmade ?_
  rw [Algorithm.tagLen_eq, if_neg (not_not.2 hextra.symm), AeadCtx.sealScatter]
  by_cases hempty : extraIn = []
  · -- all of the ciphertext is in place, and the extra buffer is as long as a tag
    rw [hempty, List.append_nil] at htext
    rw [hempty, List.length_nil] at hextra hlen
    have htagOut : (extraOutAndTag.take tagLen).length = tagLen := by rw [List.length_take]; omega
    have hwhole : splice extraOutAndTag 0 tag = tag := splice_whole (by rw [hextra, h.length_tag, Nat.zero_add])
    have hall : ciphertext.take inOut.length = ciphertext := List.take_of_length_le (by omega)
    have hnone : ciphertext.drop inOut.length = [] := List.drop_eq_nil_of_le (by omega)
    rw [if_pos hempty, hmade.tagLen, hall, hnone, List.nil_append, htext]
    refine (h.seals htagOut).bind ?_
    show Returns (pure (ciphertext, splice extraOutAndTag 0 tag)) _
    rw [hwhole]
    exact returns_pure _
  · have hdrop : (ciphertext.drop inOut.length).length = extraIn.length := by rw [List.length_drop]; omega
    have hboth : splice (splice extraOutAndTag 0 (ciphertext.drop inOut.length)) extraIn.length (tag.take tagLen)
        = ciphertext.drop inOut.length ++ tag := by
      have hbeside := splice_beside (b := extraOutAndTag) (x := ciphertext.drop inOut.length) (y := tag)
        (show 0 + _ ≤ _ by omega)
      rw [Nat.zero_add, hdrop] at hbeside
      rw [take_tag h.length_tag, hbeside, splice_whole]
      rw [List.length_append, hdrop, hextra, h.length_tag]
    rw [if_neg hempty, htext, hmade.tagLen, ← List.length_append, htext]
    refine Returns.bind (h.seals List.length_replicate) ?_
    rw [← hboth]
    exact returns_pure _

omit hmade in
theorem openCombined_returns : Returns (key.openCombined wc nonce aad (ciphertext ++ tag)) (text ++ tag) := by
  have hlen : (ciphertext ++ tag).length - tagLen = ciphertext.length := by
    rw [List.length_append, h.length_tag, Nat.add_sub_cancel]
  have hbuf : splice (ciphertext ++ tag) 0 text = text ++ tag := by
    rw [splice_zero, ← h.length_ciphertext, List.drop_left]
  unfold UnboundKey.openCombined
  dsimp only
  rw [Algorithm.tagLen_eq, hlen, List.take_left, List.drop_left, ← hbuf]
  exact h.opens.bind (returns_pure _)

/-- The plaintext replaces the ciphertext behind `front` and is then moved over `front`. -/
theorem openWithin_returns (front : Bytes) :
    Returns ((LessSafeKey.mk key).openWithin wc nonce aad (front ++ (ciphertext ++ tag)) front.length) text := by
  have hlen : (front ++ (ciphertext ++ tag)).length - front.length = ciphertext.length + tagLen := by
    rw [List.length_append, List.length_append, h.length_tag, Nat.add_sub_cancel_left]
  have hsame : (ciphertext ++ tag).length = (text ++ tag).length := by
    rw [List.length_append, List.length_append, h.length_ciphertext]
  have hopened : splice (front ++ (ciphertext ++ tag)) front.length (text ++ tag) = front ++ (text ++ tag) := by
    rw [splice_append_right, splice_whole hsame]
  have hslice : slice (front ++ (text ++ tag)) front.length text.length = text := by
    rw [slice, List.drop_left, List.take_left]
  unfold LessSafeKey.openWithin UnboundKey.openWithin
  dsimp only
  rw [if_neg (by rw [List.length_append]; omega), Algorithm.tagLen_eq, hlen, if_neg (by omega), Nat.add_sub_cancel]
  refine returns_check hmade ?_
  rw [List.drop_left]
  refine (openCombined_returns h).bind ?_
  rw [hopened, h.length_ciphertext, hslice, take_splice_zero]
  exact returns_pure _

theorem openSeparateGather_returns {outPlaintext : Bytes} (hout : outPlaintext.length = text.length) :
    Returns ((LessSafeKey.mk key).openSeparateGather wc nonce aad ciphertext tag outPlaintext) text := by
  have hsame : ciphertext.length = outPlaintext.length := h.length_ciphertext.trans hout.symm
  refine returns_check hmade ?_
  rw [Algorithm.tagLen_eq, if_neg (not_not.2 h.length_tag), if_neg (not_not.2 hsame), AeadCtx.openGather, splice_whole hsame.symm]
  exact h.opens

end Paths

/-- **Every way of sealing comes to one ciphertext and one tag, and every way of opening turns them back**: whichever part
of the plaintext is sealed in place and whichever beside it, and whatever stands before the ciphertext. -/
theorem paths_agree (wc : WolfCrypt) (hwc : wc.Correct) (id : AlgorithmID) (keyBytes : Bytes) (key : UnboundKey)
    (hkey : UnboundKey.new id.algorithm keyBytes = .ok key) (nonce : Nonce) (aad plaintext : Bytes) :
    ∃ ciphertext tag : Bytes, ciphertext.length = plaintext.length ∧ tag.length = tagLen ∧
      Returns ((LessSafeKey.mk key).sealInPlaceAppendTag wc nonce aad plaintext) (ciphertext ++ tag) ∧
      Returns ((LessSafeKey.mk key).sealInPlaceSeparateTag wc nonce aad plaintext) (ciphertext, tag) ∧
      (∀ inOut extraIn extraOutAndTag : Bytes, inOut ++ extraIn = plaintext →
        extraOutAndTag.length = extraIn.length + tagLen →
        Returns ((LessSafeKey.mk key).sealInPlaceScatter wc nonce aad inOut extraIn extraOutAndTag)
          (ciphertext.take inOut.length, ciphertext.drop inOut.length ++ tag)) ∧
      Returns ((LessSafeKey.mk key).openInPlace wc nonce aad (ciphertext ++ tag)) plaintext ∧
      (∀ front : Bytes,
        Returns ((LessSafeKey.mk key).openWithin wc nonce aad (front ++ (ciphertext ++ tag)) front.length) plaintext) ∧
      (∀ outPlaintext : Bytes, outPlaintext.length = plaintext.length →
        Returns ((LessSafeKey.mk key).openSeparateGather wc nonce aad ciphertext tag outPlaintext) plaintext) := by
  have hmade := new_made hkey
  have h := made_seals hwc hmade nonce aad plaintext
  exact ⟨_, _, h.length_ciphertext, h.length_tag, sealAppendTag_returns hmade h, sealSeparateTag_returns hmade h,
    fun _ _ _ => sealScatter_returns hmade h, openWithin_returns hmade h [], openWithin_returns hmade h,
    fun _ => openSeparateGather_returns hmade h⟩

theorem maskAead_correct (keyLens : List Nat) : CorrectAead maskSeal maskOpen keyLens where
  seals _ _ _ _ := rfl
  out_length := List.length_map _
  tag_length := List.length_replicate
  opens {key nonce ad text} _ _ _ _ := by
    have htwice : ∀ b : UInt8, (b ^^^ 0xff) ^^^ 0xff = b := by
      intro b
      rw [UInt8.xor_assoc, UInt8.xor_self, UInt8.xor_zero]
    have hmask : (text.map (· ^^^ 0xff)).map (· ^^^ 0xff) = text := by
      rw [List.map_map]
      exact (List.map_congr_left fun b _ => htwice b).trans (List.map_id' text)
    rw [maskOpen, maskSeal, if_pos rfl, hmask]

theorem maskCrypt_correct : maskCrypt.Correct where
  aesNew := rfl
  setKey {key} h := if_pos (by simpa using h)
  aesGcm := maskAead_correct _
  chacha := maskAead_correct _

theorem paths_agree_masked : ∃ ciphertext tag : Bytes,
    UnboundKey.new aes256GcmAlgorithm (List.replicate 32 0) = .ok zeroKey.key ∧
    Returns (zeroKey.sealInPlaceAppendTag maskCrypt zeroNonce [9] [1, 2, 3]) (ciphertext ++ tag) ∧
    Returns (zeroKey.openWithin maskCrypt zeroNonce [9] ([7, 7] ++ (ciphertext ++ tag)) 2) [1, 2, 3] := by
  obtain ⟨ciphertext, tag, _, _, hseal, _, _, _, hopen, _⟩ := paths_agree maskCrypt maskCrypt_correct .aes256Gcm
    (List.replicate 32 0) zeroKey.key rfl zeroNonce [9] [1, 2, 3]
  exact ⟨ciphertext, tag, rfl, hseal, hopen [7, 7]⟩

end Aead
end Wolf
