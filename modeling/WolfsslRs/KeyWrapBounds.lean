import WolfsslRs.KeyWrapTrip
/-!
# KeyWrapBounds — the padded key wrap at every length

`wolfcrypt_AES_wrap_key_padded` rounds a 64-bit length up in 32 bits and sizes everything but the copy by the rounded
length.  `wrap_contained_iff` says for which lengths the copy stays in its stack buffer and the reported length is the
one of RFC 5649.
-/
namespace Wolf
namespace KeyWrap

open Rfc3394

variable {Key : Type}

/-- **`wolfSSL_AES_wrap_key` reports the RFC length on success**, and writes no more than that in any case, for the
inputs of `IsRfc3394`. -/
def WrapsByRfcLength (wk : WrapKey Key) : Prop :=
  ∀ (key : Key) (iv p : Bytes), iv.length = 8 → p.length % 8 = 0 → 16 ≤ p.length → p.length ≤ 256 →
    (wk key iv p).2.length ≤ p.length + 8 ∧ (0 < (wk key iv p).1 → (wk key iv p).1 = Int.ofNat (p.length + 8))

theorem IsRfc3394.wrapsByRfcLength {aes : Aes Key} {wk : WrapKey Key} (h : IsRfc3394 aes wk) : WrapsByRfcLength wk := by
  intro key iv p hiv hmod hlo hhi
  rw [h key iv p hiv hmod hlo hhi]
  have hs : Sized (p.length / 8) ⟨iv, p⟩ := ⟨hiv, show p.length = 8 * (p.length / 8) by omega⟩
  have hs' := sized_wrapLoop (aes.length_encrypt key) hs
  refine ⟨?_, fun _ => rfl⟩
  simp only [wrap, List.length_append, hs'.1, hs'.2]
  omega

/-- The call stays in its buffers, and it fails or reports the rounded length and eight more, within `max_out`. -/
def Contained (aes : Aes Key) (wk : WrapKey Key) (key : Option Key) (out : Option Bytes) (outLen : Option Nat)
    (maxOut : Nat) (inp : Option Bytes) (inLen : Nat) : Prop :=
  ∃ r, wolfcryptAesWrapKeyPadded aes wk key out outLen maxOut inp inLen = some r ∧
    (r.ret = 0 ∨ r.ret = 1 ∧ r.outLen = roundUp inLen + 8 ∧ r.outLen ≤ maxOut)

/-- Rounded up, `in_len` needs more than 32 bits, and the bits that are left are those of a small length that both the
stack buffer and `max_out` have room for. -/
def Overruns (inLen maxOut : Nat) : Prop :=
  2 ^ 32 - 8 < inLen ∧ (inLen + 7) % 2 ^ 32 < 264 ∧ 16 ≤ maxOut ∧ (inLen + 7) % 2 ^ 32 / 8 * 8 + 8 ≤ maxOut

instance (inLen maxOut : Nat) : Decidable (Overruns inLen maxOut) :=
  inferInstanceAs (Decidable (_ ∧ _))

theorem maxOut_lt_needed_iff {inLen maxOut : Nat} (h : (inLen + 7) % 2 ^ 32 < 264) :
    maxOut < needed inLen ↔ ¬ (16 ≤ maxOut ∧ (inLen + 7) % 2 ^ 32 / 8 * 8 + 8 ≤ maxOut) := by
  rw [needed, paddedLen_low]
  split
  · omega
  · rw [Nat.mod_eq_of_lt (by omega)]
    omega

theorem wrapMulti_contained {wk : WrapKey Key} (hwk : WrapsByRfcLength wk) (key : Key) {out p : Bytes} (outLen : Nat)
    (h8 : 8 < p.length) (h256 : p.length ≤ 256) (hout : roundUp p.length + 8 ≤ out.length) :
    ∃ r, wrapMulti wk key out outLen p p.length = some r ∧
      (r.ret = 0 ∨ r.ret = 1 ∧ r.outLen = roundUp p.length + 8) := by
  have hr := le_roundUp p.length
  have hm := roundUp_mod p.length
  have hlp := length_pad p
  obtain ⟨hlen, hret⟩ := hwk key (aiv p.length) (pad p) (length_aiv _) (by omega) (by omega) (by omega)
  rw [hlp] at hlen hret
  rw [wrapMulti_pad wk key out outLen h256, memcpy_eq (by omega) (by omega)]
  simp only [Option.bind_eq_bind, Option.bind_some]
  split
  · exact ⟨_, rfl, .inl rfl⟩
  · rename_i hpos
    refine ⟨_, rfl, .inr ⟨rfl, ?_⟩⟩
    rw [hret (by omega)]
    rfl

/-- A copy of more than the stack buffer holds: eight bytes behind the initial value, 256 on the multi-block path. -/
theorem wrap_overrun (aes : Aes Key) (wk : WrapKey Key) (key : Key) (out p : Bytes) (outLen : Nat) {inLen maxOut : Nat}
    (h : Overruns inLen maxOut) :
    wolfcryptAesWrapKeyPadded aes wk (some key) (some out) (some outLen) maxOut (some p) inLen = none := by
  obtain ⟨hbig, hlow, hroom⟩ := h
  simp only [wolfcryptAesWrapKeyPadded]
  rw [if_neg (by omega), if_neg (by rw [maxOut_lt_needed_iff hlow]; exact not_not.2 hroom)]
  split
  · have hcopy : ∀ block : Bytes, block.length = 16 → memcpy block 8 p 0 inLen = none := fun block hb =>
      if_neg (by omega)
    have haiv : memcpy (List.replicate 16 0) 0 (aiv inLen) 0 8 = some (splice (List.replicate 16 0) 0 (aiv inLen)) := by
      rw [memcpy_eq (by simp) (by simp), ← length_aiv inLen, slice_all]
    simp only [wrapSingle, haiv, Option.bind_eq_bind, Option.bind_some]
    rw [hcopy _ (by rw [length_splice (by simp)]; simp)]
    rfl
  · have hcopy : memcpy (List.replicate 256 0) 0 p 0 inLen = none := if_neg (by rw [List.length_replicate]; omega)
    unfold wrapMulti
    rw [paddedLen_low, if_neg (by omega), hcopy]
    rfl

theorem wrap_of_not_overrun (aes : Aes Key) {wk : WrapKey Key} (hwk : WrapsByRfcLength wk) (key : Key) {out p : Bytes}
    (outLen : Nat) (h : ¬ Overruns p.length out.length) :
    Contained aes wk (some key) (some out) (some outLen) out.length (some p) p.length := by
  have hr := le_roundUp p.length
  have hm := roundUp_mod p.length
  unfold Contained wolfcryptAesWrapKeyPadded
  simp only
  split
  · exact ⟨_, rfl, .inl rfl⟩
  split
  · exact ⟨_, rfl, .inl rfl⟩
  rename_i hne hroom
  by_cases hlow : (p.length + 7) % 2 ^ 32 < 264
  · rw [maxOut_lt_needed_iff hlow, not_not] at hroom
    have hfit : p.length ≤ 256 := by
      have : p.length ≤ 2 ^ 32 - 8 := Nat.le_of_not_lt fun hbig => h ⟨hbig, hlow, hroom⟩
      omega
    have hround : (p.length + 7) % 2 ^ 32 / 8 * 8 = roundUp p.length := by
      rw [Nat.mod_eq_of_lt (by omega), roundUp]
    rw [hround] at hroom
    rw [paddedLen_low, hround]
    split
    · have h8 : roundUp p.length = 8 := by omega
      rw [wrapSingle_eq aes key (List.length_pos_iff.1 (by omega)) (by omega) hroom.1]
      exact ⟨_, rfl, .inr ⟨rfl, by rw [h8], hroom.1⟩⟩
    · obtain ⟨r, hr, hout⟩ := wrapMulti_contained hwk key outLen (by omega) hfit hroom.2
      rcases hout with hfailed | ⟨h1, hlen⟩
      · exact ⟨r, hr, .inl hfailed⟩
      · exact ⟨r, hr, .inr ⟨h1, hlen, by rw [hlen]; exact hroom.2⟩⟩
  · -- a padded length above 256 is refused before anything is copied
    rw [paddedLen_low, if_neg (by omega), wrapMulti, paddedLen_low, if_pos (by omega)]
    exact ⟨_, rfl, .inl rfl⟩

/-- **The wrapper stays in its buffers and reports the RFC 5649 length unless the rounded length wraps around** to a
small one, for all lengths and all pointers. -/
theorem wrap_contained_iff (aes : Aes Key) (wk : WrapKey Key) (hwk : WrapsByRfcLength wk) (key : Option Key)
    (out : Option Bytes) (outLen : Option Nat) (inp : Option Bytes) (maxOut inLen : Nat)
    (hout : ∀ o, out = some o → o.length = maxOut) (hinp : ∀ p, inp = some p → p.length = inLen) :
    Contained aes wk key out outLen maxOut inp inLen ↔
      key = none ∨ out = none ∨ outLen = none ∨ inp = none ∨ ¬ Overruns inLen maxOut := by
  cases key with
  | none => exact iff_of_true ⟨_, rfl, .inl rfl⟩ (.inl rfl)
  | some key =>
    cases out with
    | none => exact iff_of_true ⟨_, rfl, .inl rfl⟩ (.inr (.inl rfl))
    | some out =>
      cases outLen with
      | none => exact iff_of_true ⟨_, rfl, .inl rfl⟩ (.inr (.inr (.inl rfl)))
      | some outLen =>
        cases inp with
        | none => exact iff_of_true ⟨_, rfl, .inl rfl⟩ (.inr (.inr (.inr (.inl rfl))))
        | some p =>
          obtain rfl := hout out rfl
          obtain rfl := hinp p rfl
          simp only [reduceCtorEq, false_or]
          constructor
          · rintro ⟨r, hr, -⟩ hover
            rw [wrap_overrun aes wk key out p outLen hover] at hr
            cases hr
          · exact wrap_of_not_overrun aes hwk key outLen

theorem wrap_contained_iff_seven :
    Contained swapAes swapWrapKey (some ()) (some (List.replicate 16 0)) (some 0) 16 (some sevenBytes) 7 ↔
      some () = none ∨ some (List.replicate 16 (0 : UInt8)) = none ∨ some 0 = none ∨ some sevenBytes = none ∨
        ¬ Overruns 7 16 :=
  wrap_contained_iff swapAes swapWrapKey swapWrapKey_isRfc3394.wrapsByRfcLength (some ())
    (some (List.replicate 16 0)) (some 0) (some sevenBytes) 16 7 (by rintro o ⟨⟩; rfl) (by rintro p ⟨⟩; rfl)

/-- **`in_len = 2^32` is taken for the length 0 rounded up**: 2^32 bytes are copied behind the initial value. -/
theorem wrap_two_pow_32 :
    ¬ Contained swapAes swapWrapKey (some ()) (some (List.replicate 16 0)) (some 0) 16
      (some (List.replicate (2 ^ 32) 0)) (2 ^ 32) := by
  rintro ⟨r, hr, -⟩
  rw [wrap_overrun swapAes swapWrapKey () _ _ 0 (by decide)] at hr
  cases hr

/-! ## Unwrapping -/

/-- The number of blocks, as `unsigned int n = (unsigned int)((in_len / 8) - 1)`. -/
def blocks (inLen : Nat) : Nat := (inLen / 8 - 1) % 2 ^ 32

/-- **The index `(i - 1) * 8` of the unwrap loop is no `int`**: there are more than 2^28 blocks, as an `int` still, and
`max_out` has room for what is left of their length in 32 bits. -/
def IndexOverflows (inLen maxOut : Nat) : Prop :=
  inLen % 8 = 0 ∧ 16 < inLen ∧ 2 ^ 28 < blocks inLen ∧ blocks inLen < 2 ^ 31 ∧ blocks inLen * 8 % 2 ^ 32 ≤ maxOut

instance (inLen maxOut : Nat) : Decidable (IndexOverflows inLen maxOut) := inferInstanceAs (Decidable (_ ∧ _))

/-- A result that fails, or reports a length within the output. -/
def Ret.Fits (r : Ret) (maxOut : Nat) : Prop := r.ret = 0 ∨ r.ret = 1 ∧ r.outLen ≤ maxOut

theorem failed_fits (out : Bytes) (outLen maxOut : Nat) : ∃ r, failed out outLen = some r ∧ r.Fits maxOut :=
  ⟨_, rfl, .inl rfl⟩

theorem verdict_fits {s : State} {t : Bytes} {outLen maxOut : Nat} (h : s.r.length ≤ maxOut) :
    ∃ r, verdict s t outLen = some r ∧ r.Fits maxOut := by
  unfold verdict
  split
  · rename_i hacc
    exact ⟨_, rfl, .inr ⟨rfl, Nat.le_trans hacc.2.2.2.1 h⟩⟩
  · exact failed_fits _ _ _

theorem acceptPadding_fits {out : Bytes} {outLen m padded : Nat} (hm : m ≤ padded) (hp : padded ≤ out.length) :
    ∃ r, acceptPadding out outLen m padded = some r ∧ r.Fits out.length := by
  rw [acceptPadding, paddingClear_eq out _ _ (by omega)]
  cases decide (slice out m (padded - m) = List.replicate (padded - m) 0) with
  | true => exact ⟨_, rfl, .inr ⟨rfl, Nat.le_trans hm hp⟩⟩
  | false => exact failed_fits _ _ _

theorem unwrapOuter_idle (aes : Aes Key) (key : Key) {n : Nat} (hn : 2 ^ 31 ≤ n) : ∀ (j : Nat) (s : State),
    unwrapOuter aes key n j s = some s
  | 0, _ => rfl
  | j + 1, s => by
    rw [unwrapOuter, if_neg (by omega), unwrapInner]
    exact unwrapOuter_idle aes key hn j s

section Multiblock

variable (aes : Aes Key) (key : Key) {out c : Bytes} (outLen : Nat) {n padded : Nat}

/-- What the multi-block path does before its checks, for `n` blocks of `padded` bytes as the 32-bit sizes have it. -/
theorem unwrapMulti_copied (hn : blocks c.length = n) (hp : n * 8 % 2 ^ 32 = padded) (h0 : n ≠ 0)
    (hmax : padded ≤ out.length) (hc : padded + 8 ≤ c.length) :
    wolfcryptAesUnwrapKeyPaddedMultiblock aes key out outLen out.length c c.length =
      (do
        let s ← unwrapOuter aes key n 6 ⟨c.take 8, splice out 0 (slice c 8 padded)⟩
        if s.a.take 4 ≠ paddedAiv then failed s.r outLen
        else if beNat (slice s.a 4 4) = 0 ∨ padded < beNat (slice s.a 4 4) then failed s.r outLen
        else if beNat (slice s.a 4 4) ≤ (padded + 2 ^ 32 - 8) % 2 ^ 32 then failed s.r outLen
        else acceptPadding s.r outLen (beNat (slice s.a 4 4)) padded) := by
  unfold blocks at hn
  simp only [wolfcryptAesUnwrapKeyPaddedMultiblock, hn, hp]
  rw [if_neg h0, if_neg (by omega), load_eq (by omega), slice_zero, memcpy_eq (by omega) (by omega)]
  rfl

theorem unwrapMulti_refused (hn : blocks c.length = n) (h : n = 0 ∨ out.length < n * 8 % 2 ^ 32) :
    wolfcryptAesUnwrapKeyPaddedMultiblock aes key out outLen out.length c c.length = failed out outLen := by
  unfold blocks at hn
  simp only [wolfcryptAesUnwrapKeyPaddedMultiblock, hn]
  by_cases h0 : n = 0
  · rw [if_pos h0]
  · rw [if_neg h0, if_pos (h.resolve_left h0)]

theorem unwrapMulti_fits (h8 : c.length % 8 = 0) (h16 : 16 < c.length) (h : ¬ IndexOverflows c.length out.length) :
    ∃ r, wolfcryptAesUnwrapKeyPaddedMultiblock aes key out outLen out.length c c.length = some r ∧
      r.Fits out.length := by
  obtain ⟨n, hn⟩ : ∃ n, blocks c.length = n := ⟨_, rfl⟩
  obtain ⟨padded, hp⟩ : ∃ padded, n * 8 % 2 ^ 32 = padded := ⟨_, rfl⟩
  have hc : 8 * n + 8 ≤ c.length := by unfold blocks at hn; omega
  by_cases hbad : n = 0 ∨ out.length < n * 8 % 2 ^ 32
  · rw [unwrapMulti_refused aes key outLen hn hbad]
    exact failed_fits _ _ _
  rw [hp] at hbad
  by_cases hsmall : n ≤ 2 ^ 28
  · have hs : Sized n ⟨c.take 8, slice c 8 (8 * n)⟩ :=
      ⟨by rw [List.length_take]; omega, length_slice_of_le (by omega)⟩
    rw [unwrapMulti_low aes key outLen hn (by omega) (by omega) hsmall (by omega) (Nat.le_refl _)]
    refine verdict_fits ?_
    rw [(sized_unwrapLoop (aes.length_decrypt key) hs).2]
    omega
  · -- from 2^31 blocks on `(int)n` is negative, no round runs, and the checks see the ciphertext itself
    have hbig : 2 ^ 31 ≤ n :=
      Nat.le_of_not_lt fun hlt => h ⟨h8, h16, by omega, by omega, by rw [hn, hp]; omega⟩
    have hout : (splice out 0 (slice c 8 padded)).length = out.length :=
      length_splice (by rw [length_slice_of_le (by omega)]; omega)
    rw [unwrapMulti_copied aes key outLen hn hp (by omega) (by omega) (by omega), unwrapOuter_idle aes key hbig]
    simp only [Option.bind_eq_bind, Option.bind_some]
    split
    · exact failed_fits _ _ _
    split
    · exact failed_fits _ _ _
    split
    · exact failed_fits _ _ _
    rename_i hmli _
    rw [← hout]
    exact acceptPadding_fits (by omega) (by omega)

theorem unwrapMulti_overflows (h : IndexOverflows c.length out.length) :
    wolfcryptAesUnwrapKeyPaddedMultiblock aes key out outLen out.length c c.length = none := by
  obtain ⟨h8, h16, hlo, hhi, hroom⟩ := h
  obtain ⟨n, hn⟩ : ∃ n, blocks c.length = n + 1 := ⟨blocks c.length - 1, by omega⟩
  rw [hn] at hlo hhi hroom
  have hc : 8 * (n + 1) + 8 ≤ c.length := by unfold blocks at hn; omega
  have hbody : ∀ s : State, unwrapBody aes key (n + 1) 5 (n + 1) s = none := fun s => by
    have hoff : intMul (n + 1 - 1) 8 = none := if_neg (by omega)
    rw [unwrapBody, hoff]
    rfl
  rw [unwrapMulti_copied aes key outLen hn rfl (by omega) hroom (by omega), unwrapOuter, if_pos hhi, unwrapInner, hbody]
  rfl

end Multiblock

theorem unwrap_overflows (aes : Aes Key) (key : Key) {out c : Bytes} (outLen : Nat)
    (h : IndexOverflows c.length out.length) :
    wolfcryptAesUnwrapKeyPadded aes (some key) (some out) (some outLen) out.length (some c) c.length = none := by
  obtain ⟨h8, h16, -⟩ := id h
  simp only [wolfcryptAesUnwrapKeyPadded]
  rw [if_neg (by omega), if_neg (by omega)]
  exact unwrapMulti_overflows aes key outLen h

/-- **The unwrapper answers within its output unless the index of its loop overflows.** -/
theorem unwrap_fits (aes : Aes Key) (key : Key) {out c : Bytes} (outLen : Nat)
    (h : ¬ IndexOverflows c.length out.length) :
    ∃ r, wolfcryptAesUnwrapKeyPadded aes (some key) (some out) (some outLen) out.length (some c) c.length = some r ∧
      r.Fits out.length := by
  simp only [wolfcryptAesUnwrapKeyPadded]
  by_cases hsize : c.length < 16 ∨ c.length % 8 ≠ 0
  · rw [if_pos hsize]
    exact failed_fits _ _ _
  rw [if_neg hsize]
  by_cases h16 : c.length = 16
  · rw [if_pos h16]
    by_cases hmax : 8 ≤ out.length
    · rw [unwrapSingle_eq aes key outLen h16 hmax (Nat.le_refl _)]
      refine verdict_fits ?_
      rw [(sized_opened aes key (n := 1) (by omega)).2]
      omega
    · have hB := aes.length_decrypt key c h16
      rw [unwrapSingle, aesEcb_eq h16 hB (by rw [List.length_replicate])]
      simp only [Option.bind_eq_bind, Option.bind_some]
      rw [if_pos (by omega)]
      exact failed_fits _ _ _
  · rw [if_neg h16]
    exact unwrapMulti_fits aes key outLen (by omega) (by omega) h

end KeyWrap
end Wolf
