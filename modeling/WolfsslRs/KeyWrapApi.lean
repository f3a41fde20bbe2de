import WolfsslRs.KeyWrapBounds
import WolfsslRs.Program
import WolfsslRs.Rust
/-!
# KeyWrapApi — the key wrap of wolfcrypt-ring-compat

The four operations of `key_wrap.rs` over the wolfSSL calls and the shim of `compat_shim.c`, on a target of 64 bits.  Rust
arithmetic panics or wraps around by the build, and a `debug_assert_eq!` is there or not, so a `Build` is an argument of
every operation.  What wolfSSL does is a parameter; the results assume that its two RFC 3394 primitives keep to the RFC lengths
(`WolfSsl.ByRfcLength`).  `key_wrap_answers_iff` says when all four come back with `Ok` or `Err`.
-/
namespace Wolf
namespace KeyWrap

open Program (Ends ends_bind ends_of_eq)
open Rust

variable {Key : Type}

/-- How a call is left without a result: by `Err(Unspecified)`, by a panic, or at an operation C leaves undefined. -/
inductive Exit where
  | unspecified | panicked | undefined
  deriving DecidableEq, Repr

/-- The two ciphers there are; the fields of `AesBlockCipher` are private. -/
inductive AesBlockCipher where
  | aes128 | aes256
  deriving DecidableEq, Repr

def AesBlockCipher.keyLen : AesBlockCipher → Nat
  | .aes128 => 16
  | .aes256 => 32

structure KeyEncryptionKey where
  cipher : AesBlockCipher
  key : Bytes
  length_key : key.length = cipher.keyLen

def KeyEncryptionKey.new (cipher : AesBlockCipher) (key : Bytes) : Except Exit KeyEncryptionKey :=
  if h : key.length = cipher.keyLen then .ok ⟨cipher, key, h⟩ else .error .unspecified

/-- wolfSSL as `key_wrap.rs` calls it.  Setting a key returns no key where the C function returns an error; a null `iv`
is `none`; a wrap or unwrap returns its `int` and the bytes it stored. -/
structure WolfSsl (Key : Type) where
  aes : Aes Key
  setEncryptKey : Bytes → Nat → Option Key
  setDecryptKey : Bytes → Nat → Option Key
  wrapKey : Key → Option Bytes → Bytes → Int × Bytes
  unwrapKey : Key → Option Bytes → Bytes → Int × Bytes

/-- **The primitives return n + 8 and n - 8 on success, and nothing positive on failure**; what they store is no longer
than that. -/
structure WolfSsl.ByRfcLength (ssl : WolfSsl Key) : Prop where
  wrap_stored : ∀ k iv p, (ssl.wrapKey k iv p).2.length ≤ p.length + 8
  wrap_ret : ∀ k iv p, 0 < (ssl.wrapKey k iv p).1 → (ssl.wrapKey k iv p).1 = (p.length : Int) + 8
  unwrap_stored : ∀ k iv c, (ssl.unwrapKey k iv c).2.length ≤ c.length - 8
  unwrap_ret : ∀ k iv c, 0 < (ssl.unwrapKey k iv c).1 → (ssl.unwrapKey k iv c).1 = (c.length : Int) - 8

/-! ## Slices and calls -/

/-- `Ok(&mut output[..n])`. -/
def sliceTo (output : Bytes) (stored : Bytes) (n : Nat) : Except Exit Bytes :=
  if n ≤ output.length then .ok (stored.take n) else .error .panicked

/-- `output` after a C function has stored `written` from its start. -/
def stored (output written : Bytes) : Except Exit Bytes :=
  match memcpy output 0 written 0 written.length with
  | none => .error .undefined
  | some out => .ok out

/-- A key set with `(self.key.len() * 8).try_into()` bits. -/
def setKey (b : Build) (set : Bytes → Nat → Option Key) (kek : KeyEncryptionKey) : Except Exit Key := do
  let bits ← orExit .panicked (b.mul kek.key.length 8)
  if bits < 2 ^ 32 then
    match set kek.key bits with
    | none => .error .unspecified
    | some key => .ok key
  else .error .unspecified

/-! ## The operations -/

/-- What `wrap` and `unwrap` make of the primitive's return value: an `int` above zero is a `usize`.  The length it is
compared with is computed inside the assertion. -/
def returned (b : Build) (output : Bytes) (ret : Int × Bytes) (expected : Option Nat) : Except Exit Bytes := do
  let out ← stored output ret.2
  if ret.1 ≤ 0 then .error .unspecified
  else do
    orExit .panicked (b.debugAssert (expected = some ret.1.toNat))
    sliceTo output out ret.1.toNat

def KeyEncryptionKey.wrap (kek : KeyEncryptionKey) (b : Build) (ssl : WolfSsl Key) (plaintext output : Bytes) :
    Except Exit Bytes := do
  let need ← orExit .panicked (b.add plaintext.length 8)
  if output.length < need then .error .unspecified
  else do
    let key ← setKey b ssl.setEncryptKey kek
    returned b output (ssl.wrapKey key none plaintext) (b.add plaintext.length 8)

def KeyEncryptionKey.unwrap (kek : KeyEncryptionKey) (b : Build) (ssl : WolfSsl Key) (ciphertext output : Bytes) :
    Except Exit Bytes := do
  let need ← orExit .panicked (b.sub ciphertext.length 8)
  if output.length < need then .error .unspecified
  else do
    let key ← setKey b ssl.setDecryptKey kek
    returned b output (ssl.unwrapKey key none ciphertext) (b.sub ciphertext.length 8)

/-- What the padded operations make of the shim's result, with `*out_len` in it. -/
def finished (output : Bytes) : Option Ret → Except Exit Bytes
  | none => .error .undefined
  | some r => if r.ret ≠ 1 then .error .unspecified else sliceTo output r.out r.outLen

def KeyEncryptionKey.wrapWithPadding (kek : KeyEncryptionKey) (b : Build) (ssl : WolfSsl Key) (plaintext output : Bytes) :
    Except Exit Bytes := do
  let key ← setKey b ssl.setEncryptKey kek
  let n ← orExit .panicked (b.add plaintext.length 7)
  if 256 < (n &&& 0xFFFFFFFFFFFFFFF8) then .error .unspecified
  else
    finished output (wolfcryptAesWrapKeyPadded ssl.aes (fun k iv => ssl.wrapKey k (some iv)) (some key) (some output)
      (some 0) output.length (some plaintext) plaintext.length)

def KeyEncryptionKey.unwrapWithPadding (kek : KeyEncryptionKey) (b : Build) (ssl : WolfSsl Key) (ciphertext output : Bytes) :
    Except Exit Bytes := do
  let key ← setKey b ssl.setDecryptKey kek
  finished output (wolfcryptAesUnwrapKeyPadded ssl.aes (some key) (some output) (some 0) output.length
    (some ciphertext) ciphertext.length)

/-! ## Calls that come back -/

/-- `Err(Unspecified)`, or `Ok` of a value with the property. -/
abbrev Settles {α : Type} (P : α → Prop) (r : Except Exit α) : Prop := Ends (· = Exit.unspecified) P r

/-- `Ok` or `Err`, the slice returned no longer than the output. -/
def Answers (output : Bytes) (r : Except Exit Bytes) : Prop := Settles (fun s => s.length ≤ output.length) r

theorem answers_sliceTo {output stored : Bytes} {n : Nat} (h : n ≤ output.length) :
    Answers output (sliceTo output stored n) := by
  refine ends_of_eq (if_pos h) ?_
  rw [List.length_take]
  omega

theorem setKey_eq (b : Build) (set : Bytes → Nat → Option Key) (kek : KeyEncryptionKey) :
    setKey b set kek = match set kek.key (kek.key.length * 8) with
      | none => .error .unspecified
      | some key => .ok key := by
  have hlen : kek.key.length ≤ 32 := by rw [kek.length_key]; cases kek.cipher <;> decide
  have hsize := two_pow_31_le b
  have hlt : kek.key.length * 8 < b.usizeSize := (isizeMax_lt b).trans_le' (by omega)
  rw [setKey, mul_of_lt hlt]
  change (if kek.key.length * 8 < 2 ^ 32 then _ else _) = _
  rw [if_pos (by omega)]

theorem settles_setKey (b : Build) (set : Bytes → Nat → Option Key) (kek : KeyEncryptionKey) :
    Settles (fun key => set kek.key (kek.key.length * 8) = some key) (setKey b set kek) := by
  rw [setKey_eq]
  cases set kek.key (kek.key.length * 8) with
  | none => rfl
  | some key => rfl

/-- `wrap` and `unwrap` behind their checks: `n` is the RFC length, and the output has room for it. -/
theorem answers_returned (b : Build) {output : Bytes} {ret : Int × Bytes} {expected : Option Nat} {n : Nat}
    (hstored : ret.2.length ≤ n) (hret : 0 < ret.1 → ret.1 = (n : Int)) (hexp : expected = some n)
    (hroom : n ≤ output.length) : Answers output (returned b output ret expected) := by
  have hmem : stored output ret.2 = .ok (splice output 0 ret.2) := by
    rw [stored, memcpy_eq (by omega) (by omega), slice_all]
  unfold returned
  refine ends_bind (ends_of_eq hmem trivial : Settles (fun _ => True) _) fun out _ => ?_
  split
  · rfl
  · rename_i hpos
    have hn : ret.1.toNat = n := by have := hret (by omega); omega
    rw [hn, debugAssert_of hexp]
    exact answers_sliceTo hroom

theorem answers_finished {output : Bytes} {r : Ret} (h : r.Fits output.length) :
    Answers output (finished output (some r)) := by
  change Answers output (if r.ret ≠ 1 then .error .unspecified else sliceTo output r.out r.outLen)
  rcases h with h0 | ⟨h1, hlen⟩
  · rw [if_pos (by rw [h0]; decide)]
    rfl
  · rw [if_neg (not_not.2 h1)]
    exact answers_sliceTo hlen

/-! ## The four operations -/

section Operations

variable (b : Build) {ssl : WolfSsl Key} (kek : KeyEncryptionKey)

theorem add_few {b : Build} (hb : b.usizeBits = 64) {x y : Nat} (hx : x < 2 ^ 63) (hy : y ≤ 8) :
    b.add x y = some (x + y) := by
  refine add_of_lt ?_
  rw [Build.usizeSize, hb]
  omega

theorem answers_wrap (hb : b.usizeBits = 64) (hssl : ssl.ByRfcLength) {plaintext : Bytes} (output : Bytes)
    (hin : plaintext.length < 2 ^ 63) : Answers output (kek.wrap b ssl plaintext output) := by
  have hadd := add_few hb hin (y := 8) le_rfl
  rw [KeyEncryptionKey.wrap, hadd]
  change Answers output (if output.length < plaintext.length + 8 then _ else _)
  split
  · rfl
  · rename_i hroom
    refine ends_bind (settles_setKey b ssl.setEncryptKey kek) fun key _ => ?_
    exact answers_returned b (hssl.wrap_stored _ _ _) (fun h => by rw [hssl.wrap_ret _ _ _ h]; omega) rfl (by omega)

theorem answers_unwrap (hssl : ssl.ByRfcLength) {ciphertext : Bytes} (output : Bytes) (h8 : 8 ≤ ciphertext.length) :
    Answers output (kek.unwrap b ssl ciphertext output) := by
  have hsub : b.sub ciphertext.length 8 = some (ciphertext.length - 8) := sub_of_le h8
  rw [KeyEncryptionKey.unwrap, hsub]
  change Answers output (if output.length < ciphertext.length - 8 then _ else _)
  split
  · rfl
  · rename_i hroom
    refine ends_bind (settles_setKey b ssl.setDecryptKey kek) fun key _ => ?_
    exact answers_returned b (hssl.unwrap_stored _ _ _) (fun h => by rw [hssl.unwrap_ret _ _ _ h]; omega) rfl
      (by omega)

theorem unwrap_short {ciphertext : Bytes} (output : Bytes) (ssl : WolfSsl Key) (h : ciphertext.length < 8)
    (hb : b.overflowChecks = true) : kek.unwrap b ssl ciphertext output = .error .panicked := by
  have hsub : b.sub ciphertext.length 8 = none := by
    rw [Build.sub, if_neg (by omega), if_pos hb]
  rw [KeyEncryptionKey.unwrap, hsub]
  rfl

theorem answers_wrapWithPadding (hb : b.usizeBits = 64) (hssl : ssl.ByRfcLength) {plaintext : Bytes} (output : Bytes)
    (hin : plaintext.length < 2 ^ 63) : Answers output (kek.wrapWithPadding b ssl plaintext output) := by
  refine ends_bind (settles_setKey b ssl.setEncryptKey kek) fun key _ => ?_
  rw [add_few hb hin (y := 7) (by omega)]
  change Answers output (if 256 < (plaintext.length + 7 &&& 0xFFFFFFFFFFFFFFF8) then _ else _)
  split
  · rfl
  · rename_i hsmall
    rw [show (0xFFFFFFFFFFFFFFF8 : Nat) = (2 ^ 61 - 1) <<< 3 by decide, and_mask (by omega)] at hsmall
    have hwk : WrapsByRfcLength (fun k iv => ssl.wrapKey k (some iv)) := fun k iv p _ _ _ _ =>
      ⟨hssl.wrap_stored _ _ _, fun h => hssl.wrap_ret _ _ _ h⟩
    have hsafe : ¬ Overruns plaintext.length output.length := by
      rintro ⟨hbig, -⟩
      omega
    obtain ⟨r, hr, hfit⟩ := wrap_of_not_overrun ssl.aes hwk key 0 hsafe
    rw [hr]
    exact answers_finished (hfit.imp_right fun ⟨h1, _, hlen⟩ => ⟨h1, hlen⟩)

theorem answers_unwrapWithPadding_iff (ssl : WolfSsl Key) (ciphertext output : Bytes) :
    Answers output (kek.unwrapWithPadding b ssl ciphertext output) ↔
      ((ssl.setDecryptKey kek.key (kek.key.length * 8)).isSome →
        ¬ IndexOverflows ciphertext.length output.length) := by
  rw [KeyEncryptionKey.unwrapWithPadding, setKey_eq]
  cases ssl.setDecryptKey kek.key (kek.key.length * 8) with
  | none => exact iff_of_true rfl (fun h => by cases h)
  | some key =>
    change Answers output (finished output _) ↔ _
    constructor
    · rintro h - hover
      rw [unwrap_overflows ssl.aes key 0 hover] at h
      cases h
    · intro h
      obtain ⟨r, hr, hfit⟩ := unwrap_fits ssl.aes key 0 (h rfl)
      rw [hr]
      exact answers_finished hfit

end Operations

def defaultIv : Bytes := List.replicate 8 0xA6

def swapOpen (c : Bytes) : Rfc3394.State := Rfc3394.unwrapLoop swapBlocks (c.length / 8 - 1) ⟨c.take 8, c.drop 8⟩

/-- wolfSSL with the cipher that agrees with AES on one block, and its RFC 3394 primitives over that cipher. -/
def swapSsl : WolfSsl Unit where
  aes := swapAes
  setEncryptKey := fun _ bits => if bits = 128 ∨ bits = 192 ∨ bits = 256 then some () else none
  setDecryptKey := fun _ bits => if bits = 128 ∨ bits = 192 ∨ bits = 256 then some () else none
  wrapKey := fun _ iv p =>
    if p.length % 8 = 0 ∧ 16 ≤ p.length ∧ (iv.getD defaultIv).length = 8 then
      (Int.ofNat (p.length + 8), Rfc3394.wrap swapBlocks (iv.getD defaultIv) p)
    else (0, [])
  unwrapKey := fun _ iv c =>
    if c.length % 8 = 0 ∧ 24 ≤ c.length ∧ (swapOpen c).a = iv.getD defaultIv then
      (Int.ofNat (c.length - 8), (swapOpen c).r)
    else (0, [])

theorem swapSsl_byRfcLength : swapSsl.ByRfcLength where
  wrap_stored := fun _ iv p => by
    simp only [swapSsl]
    split
    · rename_i h
      have hs : Rfc3394.Sized (p.length / 8) ⟨iv.getD defaultIv, p⟩ :=
        ⟨h.2.2, show p.length = 8 * (p.length / 8) by omega⟩
      have hs' := Rfc3394.sized_wrapLoop length_swapBlocks hs
      simp only [Rfc3394.wrap, List.length_append, hs'.1, hs'.2]
      omega
    · exact Nat.zero_le _
  wrap_ret := fun _ iv p h => by
    simp only [swapSsl] at h ⊢
    split at h
    · rename_i hp
      rw [if_pos hp]
      rfl
    · exact absurd h (by decide)
  unwrap_stored := fun _ iv c => by
    simp only [swapSsl]
    split
    · rename_i h
      have hs : Rfc3394.Sized (c.length / 8 - 1) ⟨c.take 8, c.drop 8⟩ :=
        ⟨by rw [List.length_take]; omega, by rw [List.length_drop]; omega⟩
      have hs' := Rfc3394.sized_unwrapLoop length_swapBlocks hs
      simp only [swapOpen, hs'.2]
      omega
    · exact Nat.zero_le _
  unwrap_ret := fun _ iv c h => by
    simp only [swapSsl] at h ⊢
    split at h
    · rename_i hc
      rw [if_pos hc]
      simp only [Int.ofNat_eq_natCast]
      omega
    · exact absurd h (by decide)

/-- **All four operations answer in every build for 64 bits exactly when the input has eight bytes and the unwrap loop can index
it**: `unwrap` subtracts eight from the length before anything else, and `unwrap_with_padding` passes the shim any
length. -/
theorem key_wrap_answers_iff (ssl : WolfSsl Key) (hssl : ssl.ByRfcLength) (kek : KeyEncryptionKey)
    (input output : Bytes) (hin : input.length < 2 ^ 63) :
    (∀ b : Build, b.usizeBits = 64 → Answers output (kek.wrap b ssl input output) ∧
        Answers output (kek.unwrap b ssl input output) ∧
        Answers output (kek.wrapWithPadding b ssl input output) ∧
        Answers output (kek.unwrapWithPadding b ssl input output)) ↔
      8 ≤ input.length ∧ ((ssl.setDecryptKey kek.key (kek.key.length * 8)).isSome →
        ¬ IndexOverflows input.length output.length) := by
  constructor
  · intro h
    obtain ⟨-, hun, -, hpad⟩ := h Build.debug rfl
    refine ⟨Nat.le_of_not_lt fun hshort => ?_, (answers_unwrapWithPadding_iff _ kek ssl input output).1 hpad⟩
    rw [unwrap_short _ kek output ssl hshort rfl] at hun
    cases hun
  · rintro ⟨h8, hindex⟩ b hb
    exact ⟨answers_wrap b kek hb hssl output hin, answers_unwrap b kek hssl output h8,
      answers_wrapWithPadding b kek hb hssl output hin, (answers_unwrapWithPadding_iff b kek ssl input output).2 hindex⟩

def zeroKek : KeyEncryptionKey := ⟨.aes128, List.replicate 16 0, rfl⟩

theorem key_wrap_answers_cipherBlock :
    cipherBlock.length < 2 ^ 63 ∧ ∀ b : Build, b.usizeBits = 64 →
      Answers plainBlock (zeroKek.wrap b swapSsl cipherBlock plainBlock) ∧
      Answers plainBlock (zeroKek.unwrap b swapSsl cipherBlock plainBlock) ∧
      Answers plainBlock (zeroKek.wrapWithPadding b swapSsl cipherBlock plainBlock) ∧
      Answers plainBlock (zeroKek.unwrapWithPadding b swapSsl cipherBlock plainBlock) :=
  ⟨by decide, (key_wrap_answers_iff swapSsl swapSsl_byRfcLength zeroKek cipherBlock plainBlock (by decide)).2
    ⟨by decide, fun _ => by decide⟩⟩

/-- **An empty ciphertext is a panic in a build with overflow checks**: its length minus eight. -/
theorem unwrap_empty_panics : zeroKek.unwrap Build.debug swapSsl [] [] = .error .panicked := by decide

end KeyWrap
end Wolf
