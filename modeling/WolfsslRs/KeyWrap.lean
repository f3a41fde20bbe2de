import WolfsslRs.Rfc3394
/-!
# KeyWrap — the padded key wrap of `compat_shim.c`

`wolfcrypt_AES_wrap_key_padded` and its inverse, statement by statement, over C buffers: a `none` is an access outside
an object, and a result holds the return value, the output buffer and `*out_len` after the call.  Lengths are `size_t`
or `unsigned int` as in the source, so the conversions between 64 and 32 bits are written out.

wolfSSL's AES and its RFC 3394 wrap are not in the repository.  They are the parameters `Aes`, whose two functions are
inverse on blocks, and `WrapKey`, of which the results below assume `IsRfc3394`.
-/
namespace Wolf
namespace KeyWrap

open Rfc3394 (State Sized paddedAiv aiv pad roundUp)

/-- `wolfSSL_AES_ecb_encrypt` under one key, in its two directions. -/
structure Aes (Key : Type) where
  encrypt : Key → Bytes → Bytes
  decrypt : Key → Bytes → Bytes
  length_encrypt : ∀ (k : Key) (b : Bytes), b.length = 16 → (encrypt k b).length = 16
  length_decrypt : ∀ (k : Key) (b : Bytes), b.length = 16 → (decrypt k b).length = 16
  decrypt_encrypt : ∀ (k : Key) (b : Bytes), b.length = 16 → decrypt k (encrypt k b) = b
  encrypt_decrypt : ∀ (k : Key) (b : Bytes), b.length = 16 → encrypt k (decrypt k b) = b

/-- `wolfSSL_AES_wrap_key(key, iv, out, in, inlen)`: the return value, and the bytes stored at `out`. -/
abbrev WrapKey (Key : Type) := Key → Bytes → Bytes → Int × Bytes

variable {Key : Type}

/-- **`wolfSSL_AES_wrap_key` is the RFC 3394 wrap** of the inputs this file passes: whole blocks, at least two, at most
256 bytes. -/
def IsRfc3394 (aes : Aes Key) (wk : WrapKey Key) : Prop :=
  ∀ (key : Key) (iv p : Bytes), iv.length = 8 → p.length % 8 = 0 → 16 ≤ p.length → p.length ≤ 256 →
    wk key iv p = (Int.ofNat (p.length + 8), Rfc3394.wrap (aes.encrypt key) iv p)

structure Ret where
  ret : Int
  out : Bytes
  outLen : Nat
deriving DecidableEq

def failed (out : Bytes) (outLen : Nat) : Option Ret := some ⟨0, out, outLen⟩

/-! ## Wrapping -/

/-- `unsigned int padded_len = (in_len + 7u) & ~7u`: the mask is 32 bits wide. -/
def paddedLen (inLen : Nat) : Nat := ((inLen + 7) % 2 ^ 64 &&& 0xFFFFFFF8) % 2 ^ 32

def needed (inLen : Nat) : Nat := if paddedLen inLen ≤ 8 then 16 else (paddedLen inLen + 8) % 2 ^ 32

/-- The AES-ECB call: one block read at `inp`, one written at `out`. -/
def aesEcb (f : Bytes → Bytes) (inp out : Bytes) : Option Bytes := do
  let block ← load inp 0 16
  memcpy out 0 (f block) 0 16

/-- The zero padding behind `in_len` copied bytes, up to `padded` bytes from `base` on. -/
def clearRest (buf : Bytes) (base inLen padded : Nat) : Option Bytes :=
  if inLen < padded then memset buf (base + inLen) 0 (padded - inLen) else some buf

def wrapSingle (aes : Aes Key) (key : Key) (out inp : Bytes) (inLen : Nat) : Option Ret := do
  -- `block[16]` is written before it is read, so its first contents do not matter
  let block ← memcpy (List.replicate 16 0) 0 (aiv inLen) 0 8
  let block ← memcpy block 8 inp 0 inLen
  let block ← clearRest block 8 inLen 8
  let out ← aesEcb (aes.encrypt key) block out
  some ⟨1, out, 16⟩

def wrapMulti (wk : WrapKey Key) (key : Key) (out : Bytes) (outLen : Nat) (inp : Bytes) (inLen : Nat) :
    Option Ret :=
  if 256 < paddedLen inLen then failed out outLen
  else do
    let padded ← memcpy (List.replicate 256 0) 0 inp 0 inLen
    let padded ← clearRest padded 0 inLen (paddedLen inLen)
    let p ← load padded 0 (paddedLen inLen)
    let out ← memcpy out 0 (wk key (aiv inLen) p).2 0 (wk key (aiv inLen) p).2.length
    if (wk key (aiv inLen) p).1 ≤ 0 then failed out outLen
    else some ⟨1, out, (wk key (aiv inLen) p).1.toNat⟩

def wolfcryptAesWrapKeyPadded (aes : Aes Key) (wk : WrapKey Key) (key : Option Key) (out : Option Bytes)
    (outLen : Option Nat) (maxOut : Nat) (inp : Option Bytes) (inLen : Nat) : Option Ret :=
  match key, out, outLen, inp with
  | some key, some out, some outLen, some inp =>
    if inLen = 0 then failed out outLen
    else if maxOut < needed inLen then failed out outLen
    else if paddedLen inLen ≤ 8 then wrapSingle aes key out inp inLen
    else wrapMulti wk key out outLen inp inLen
  | _, _, _, _ => failed (out.getD []) (outLen.getD 0)

/-! ## Unwrapping -/

/-- `for (i = mli; i < padded_len; i++) if (out[i] != 0) return 0;` over the `k` bytes from `i` on. -/
def paddingClear (out : Bytes) : Nat → Nat → Option Bool
  | _, 0 => some true
  | i, k + 1 =>
    match out[i]? with
    | none => none
    | some b => if b ≠ 0 then some false else paddingClear out (i + 1) k

/-- The end of both paths: a zero padding, and then `*out_len = mli`. -/
def acceptPadding (out : Bytes) (outLen mli padded : Nat) : Option Ret :=
  match paddingClear out mli (padded - mli) with
  | none => none
  | some false => failed out outLen
  | some true => some ⟨1, out, mli⟩

def unwrapSingle (aes : Aes Key) (key : Key) (out : Bytes) (outLen maxOut : Nat) (inp : Bytes) : Option Ret := do
  let block ← aesEcb (aes.decrypt key) inp (List.replicate 16 0)
  let a := block.take 8
  let mli := beNat (slice a 4 4)
  if maxOut < 8 then failed out outLen
  else do
    let out ← memcpy out 0 block 8 8
    if a.take 4 ≠ paddedAiv then failed out outLen
    else if mli = 0 ∨ 8 < mli then failed out outLen
    else acceptPadding out outLen mli 8

/-- A product of two `int`s, which must stay in 31 bits. -/
def intMul (x y : Nat) : Option Nat := if x * y < 2 ^ 31 then some (x * y) else none

/-- The body of the unwrap loop: `A ^= t`, `B = AES-1(A ‖ R[i])`, and `B` split into `A` and `R[i]`. -/
def unwrapBody (aes : Aes Key) (key : Key) (n j i : Nat) (s : State) : Option State := do
  let a := xorBytes s.a (beBytes 8 ((n * j + i) % 2 ^ 64))
  let off ← intMul (i - 1) 8
  let r ← load s.r off 8
  let b := aes.decrypt key (a ++ r)
  let out ← memcpy s.r off b 8 8
  some ⟨b.take 8, out⟩

/-- `for (int i = (int)n; i >= 1; i--)`. -/
def unwrapInner (aes : Aes Key) (key : Key) (n j : Nat) : Nat → State → Option State
  | 0, s => some s
  | i + 1, s => do
    let s ← unwrapBody aes key n j (i + 1) s
    unwrapInner aes key n j i s

/-- `for (int j = 5; j >= 0; j--)`, with `j + 1` rounds left. -/
def unwrapOuter (aes : Aes Key) (key : Key) (n : Nat) : Nat → State → Option State
  | 0, s => some s
  | j + 1, s => do
    -- `(int)n` is negative from `2 ^ 31` on, and the inner loop then runs no round
    let s ← unwrapInner aes key n j (if n < 2 ^ 31 then n else 0) s
    unwrapOuter aes key n j s

def wolfcryptAesUnwrapKeyPaddedMultiblock (aes : Aes Key) (key : Key) (out : Bytes) (outLen maxOut : Nat) (inp : Bytes)
    (inLen : Nat) : Option Ret :=
  let n := (inLen / 8 - 1) % 2 ^ 32
  let padded := n * 8 % 2 ^ 32
  if n = 0 then failed out outLen
  else if maxOut < padded then failed out outLen
  else do
    let a ← load inp 0 8
    let out ← memcpy out 0 inp 8 padded
    let s ← unwrapOuter aes key n 6 ⟨a, out⟩
    let mli := beNat (slice s.a 4 4)
    if s.a.take 4 ≠ paddedAiv then failed s.r outLen
    else if mli = 0 ∨ padded < mli then failed s.r outLen
    -- `padded_len - 8` in `unsigned int`
    else if mli ≤ (padded + 2 ^ 32 - 8) % 2 ^ 32 then failed s.r outLen
    else acceptPadding s.r outLen mli padded

def wolfcryptAesUnwrapKeyPadded (aes : Aes Key) (key : Option Key) (out : Option Bytes) (outLen : Option Nat)
    (maxOut : Nat) (inp : Option Bytes) (inLen : Nat) : Option Ret :=
  match key, out, outLen, inp with
  | some key, some out, some outLen, some inp =>
    if inLen < 16 ∨ inLen % 8 ≠ 0 then failed out outLen
    else if inLen = 16 then unwrapSingle aes key out outLen maxOut inp
    else wolfcryptAesUnwrapKeyPaddedMultiblock aes key out outLen maxOut inp inLen
  | _, _, _, _ => failed (out.getD []) (outLen.getD 0)

end KeyWrap
end Wolf
