import WolfsslRs.KeyWrap
import Mathlib.Tactic
/-!
# KeyWrapTrip — the unwrapper accepts exactly the image of the wrapper

`wrap_eq` says the C wrapper computes the RFC 5649 wrap; `unwrap_eq` says the C unwrapper opens the ciphertext
(`opened`) and accepts exactly when what it finds is the padding of a plaintext.  Opening is inverse to wrapping, so
the round trip and its converse follow from two implications (`accepts_wrapPadded`, `wrapPadded_of_accepts`).
-/
namespace Wolf
namespace KeyWrap

open Rfc3394

variable {Key : Type}

/-! ## Lengths -/

/-- Masking the three low bits off a number of `w + 3` bits. -/
theorem and_mask {w x : Nat} (h : x < 2 ^ (w + 3)) : x &&& (2 ^ w - 1) <<< 3 = x / 8 * 8 := by
  have hround : x / 8 * 8 = (x >>> 3) <<< 3 := by
    rw [Nat.shiftLeft_eq, Nat.shiftRight_eq_div_pow]
  rw [hround]
  apply Nat.eq_of_testBit_eq
  intro i
  rw [Nat.testBit_and, Nat.testBit_shiftLeft, Nat.testBit_shiftLeft, Nat.testBit_two_pow_sub_one,
    Nat.testBit_shiftRight]
  by_cases hi : 3 ≤ i
  · rw [show 3 + (i - 3) = i by omega]
    by_cases hx : i - 3 < w
    · simp [hi, hx]
    · have : x.testBit i = false :=
        Nat.testBit_lt_two_pow (Nat.lt_of_lt_of_le h (Nat.pow_le_pow_right (by decide) (by omega)))
      simp [this]
  · simp [hi]

theorem paddedLen_low (inLen : Nat) : paddedLen inLen = (inLen + 7) % 2 ^ 32 / 8 * 8 := by
  have hmod : (inLen + 7) % 2 ^ 64 % 2 ^ 32 = (inLen + 7) % 2 ^ 32 := by omega
  rw [paddedLen, Nat.and_mod_two_pow, hmod, Nat.mod_eq_of_lt (show 0xFFFFFFF8 < 2 ^ 32 by decide)]
  exact and_mask (w := 29) (Nat.mod_lt _ (by decide))

theorem paddedLen_eq {inLen : Nat} (h : inLen + 7 < 2 ^ 32) : paddedLen inLen = roundUp inLen := by
  rw [paddedLen_low, Nat.mod_eq_of_lt h, roundUp]

theorem needed_eq {inLen : Nat} (h0 : 0 < inLen) (h : inLen ≤ 256) : needed inLen = roundUp inLen + 8 := by
  have hr := le_roundUp inLen
  have hm := roundUp_mod inLen
  rw [needed, paddedLen_eq (by omega)]
  split
  · omega
  · exact Nat.mod_eq_of_lt (by omega)

/-! ## The wrapper -/

theorem aesEcb_eq {f : Bytes → Bytes} {inp out : Bytes} (hin : inp.length = 16) (hf : (f inp).length = 16)
    (hout : 16 ≤ out.length) : aesEcb f inp out = some (splice out 0 (f inp)) := by
  have hload : load inp 0 16 = some inp := by rw [load_eq (by omega), ← hin, slice_all]
  have hsl : slice (f inp) 0 16 = f inp := by rw [← hf, slice_all]
  unfold aesEcb
  rw [hload]
  simp only [Option.bind_eq_bind, Option.bind_some]
  rw [memcpy_eq (by omega) (by omega), hsl]

theorem clearRest_eq (x p z : Bytes) (padded : Nat) (h : padded - p.length ≤ z.length) :
    clearRest (x ++ p ++ z) x.length p.length padded =
      some (x ++ p ++ (List.replicate (padded - p.length) 0 ++ z.drop (padded - p.length))) := by
  unfold clearRest
  split
  · have hle : x.length + p.length + (padded - p.length) ≤ (x ++ p ++ z).length := by
      rw [List.length_append, List.length_append]; omega
    rw [memset_eq hle, ← List.length_append, splice_append_right, splice_zero, List.length_replicate]
  · rw [show padded - p.length = 0 by omega]
    rfl

theorem wrapSingle_eq (aes : Aes Key) (key : Key) {out p : Bytes} (hne : p ≠ []) (h8 : p.length ≤ 8)
    (hout : 16 ≤ out.length) :
    wrapSingle aes key out p p.length =
      some ⟨1, splice out 0 (aes.encrypt key (aiv p.length ++ pad p)), 16⟩ := by
  have hpos : 0 < p.length := List.length_pos_iff.2 hne
  have hround : roundUp p.length = 8 := by unfold roundUp; omega
  have h1 : memcpy (List.replicate 16 0) 0 (aiv p.length) 0 8 = some (aiv p.length ++ List.replicate 8 0) := by
    rw [memcpy_eq (by simp) (by simp), splice_zero, show slice (aiv p.length) 0 8 = aiv p.length from by
      rw [← length_aiv p.length, slice_all], length_aiv, List.drop_replicate]
  have h2 : memcpy (aiv p.length ++ List.replicate 8 0) 8 p 0 p.length =
      some (aiv p.length ++ p ++ List.replicate (8 - p.length) 0) := by
    have hle : 8 + p.length ≤ (aiv p.length ++ List.replicate 8 0).length := by
      rw [List.length_append, length_aiv, List.length_replicate]; omega
    have hcopy := splice_append_right (aiv p.length) (List.replicate 8 0) p
    rw [length_aiv, splice_zero, List.drop_replicate] at hcopy
    rw [memcpy_eq hle (by omega), slice_all, hcopy, List.append_assoc]
  have h3 : clearRest (aiv p.length ++ p ++ List.replicate (8 - p.length) 0) 8 p.length 8 =
      some (aiv p.length ++ pad p) := by
    have h := clearRest_eq (aiv p.length) p (List.replicate (8 - p.length) 0) 8
      (by rw [List.length_replicate])
    rw [length_aiv, List.drop_replicate, Nat.sub_self, List.replicate_zero, List.append_nil] at h
    rw [h, pad, hround, List.append_assoc]
  have hlen : (aiv p.length ++ pad p).length = 16 := by
    rw [List.length_append, length_aiv, length_pad, hround]
  simp only [wrapSingle, h1, h2, h3, aesEcb_eq hlen (aes.length_encrypt key _ hlen) hout, Option.bind_eq_bind,
    Option.bind_some]

/-- The multi-block path hands `wolfSSL_AES_wrap_key` the padded plaintext. -/
theorem wrapMulti_pad (wk : WrapKey Key) (key : Key) (out : Bytes) {p : Bytes} (outLen : Nat) (h256 : p.length ≤ 256) :
    wrapMulti wk key out outLen p p.length =
      (do
        let out ← memcpy out 0 (wk key (aiv p.length) (pad p)).2 0 (wk key (aiv p.length) (pad p)).2.length
        if (wk key (aiv p.length) (pad p)).1 ≤ 0 then failed out outLen
        else some ⟨1, out, (wk key (aiv p.length) (pad p)).1.toNat⟩) := by
  have hr := le_roundUp p.length
  have hlp := length_pad p
  have hfit : roundUp p.length ≤ 256 := by unfold roundUp; omega
  have hpl : paddedLen p.length = roundUp p.length := paddedLen_eq (by omega)
  have h1 : memcpy (List.replicate 256 0) 0 p 0 p.length = some (p ++ List.replicate (256 - p.length) 0) := by
    rw [memcpy_eq (by rw [List.length_replicate]; omega) (by omega), slice_all, splice_zero, List.drop_replicate]
  have h2 : clearRest (p ++ List.replicate (256 - p.length) 0) 0 p.length (roundUp p.length) =
      some (pad p ++ List.replicate (256 - roundUp p.length) 0) := by
    have h := clearRest_eq [] p (List.replicate (256 - p.length) 0) (roundUp p.length)
      (by rw [List.length_replicate]; omega)
    rw [List.drop_replicate, show 256 - p.length - (roundUp p.length - p.length) = 256 - roundUp p.length by omega] at h
    rw [pad, List.append_assoc]
    exact h
  have h3 : load (pad p ++ List.replicate (256 - roundUp p.length) 0) 0 (roundUp p.length) = some (pad p) := by
    have hle : 0 + roundUp p.length ≤ (pad p ++ List.replicate (256 - roundUp p.length) 0).length := by
      rw [List.length_append, hlp]; omega
    rw [load_eq hle, ← hlp, slice_append_left (by omega), slice_all]
  unfold wrapMulti
  rw [hpl, if_neg (by omega)]
  simp only [h1, h2, h3, Option.bind_eq_bind, Option.bind_some]

theorem wrapMulti_eq {aes : Aes Key} {wk : WrapKey Key} (hwk : IsRfc3394 aes wk) (key : Key) {out p : Bytes}
    (outLen : Nat) (h8 : 8 < p.length) (h256 : p.length ≤ 256) (hout : roundUp p.length + 8 ≤ out.length) :
    wrapMulti wk key out outLen p p.length =
      some ⟨1, splice out 0 (wrap (aes.encrypt key) (aiv p.length) (pad p)), roundUp p.length + 8⟩ := by
  have hr := le_roundUp p.length
  have hm := roundUp_mod p.length
  have hlp := length_pad p
  have hfit : roundUp p.length ≤ 256 := by unfold roundUp; omega
  have hret : wk key (aiv p.length) (pad p) =
      (Int.ofNat (roundUp p.length + 8), wrap (aes.encrypt key) (aiv p.length) (pad p)) := by
    rw [hwk key _ _ (length_aiv _) (by omega) (by omega) (by omega), hlp]
  have hs := sized_wrapLoop (aes.length_encrypt key) (sized_pad p)
  have hct : (wrap (aes.encrypt key) (aiv p.length) (pad p)).length = roundUp p.length + 8 := by
    rw [wrap, List.length_append, hs.1, hs.2, hlp]; omega
  have h4 : memcpy out 0 (wrap (aes.encrypt key) (aiv p.length) (pad p)) 0 (roundUp p.length + 8) =
      some (splice out 0 (wrap (aes.encrypt key) (aiv p.length) (pad p))) := by
    rw [← hct, memcpy_eq (by omega) (by omega), slice_all]
  rw [wrapMulti_pad wk key out outLen h256]
  simp only [hret, hct, h4, Option.bind_eq_bind, Option.bind_some]
  rw [if_neg (by simp only [Int.ofNat_eq_natCast]; omega)]
  rfl

/-- **The wrapper computes the padded wrap of RFC 5649**, on one block and on more. -/
theorem wrap_eq {aes : Aes Key} {wk : WrapKey Key} (hwk : IsRfc3394 aes wk) (key : Key) {out p : Bytes}
    (outLen : Nat) {maxOut : Nat} (hne : p ≠ []) (h256 : p.length ≤ 256) (hmax : roundUp p.length + 8 ≤ maxOut)
    (hout : maxOut ≤ out.length) :
    wolfcryptAesWrapKeyPadded aes wk (some key) (some out) (some outLen) maxOut (some p) p.length =
      some ⟨1, splice out 0 (wrapPadded (aes.encrypt key) p), (wrapPadded (aes.encrypt key) p).length⟩ := by
  have hpos : 0 < p.length := List.length_pos_iff.2 hne
  have hr := le_roundUp p.length
  have hlen := length_wrapPadded (aes.length_encrypt key) hne
  unfold wolfcryptAesWrapKeyPadded
  simp only
  rw [if_neg (by omega), needed_eq hpos h256, if_neg (by omega), paddedLen_eq (by omega), hlen]
  unfold wrapPadded
  split
  · rename_i h8
    have hround : roundUp p.length = 8 := by have := roundUp_mod p.length; omega
    rw [wrapSingle_eq aes key hne (by omega) (by omega), hround]
  · rename_i h8
    exact wrapMulti_eq hwk key outLen (by unfold roundUp at h8; omega) h256 (by omega)

/-! ## The unwrap loop -/

/-- The loop works on the front of the output buffer and leaves the rest alone. -/
theorem unwrapBody_eq (aes : Aes Key) (key : Key) {n : Nat} (hn : n ≤ 2 ^ 28) {s : State} (hs : Sized n s)
    {j i : Nat} (h : (j, i) ∈ steps n) (t : Bytes) :
    unwrapBody aes key n j i ⟨s.a, s.r ++ t⟩ =
      some ⟨(unwrapStep (aes.decrypt key) n s (j, i)).a, (unwrapStep (aes.decrypt key) n s (j, i)).r ++ t⟩ := by
  have hle := block_le hs h
  have hin := length_masked hs h
  obtain ⟨h1, h2, h3⟩ := mem_steps h
  simp only at hle hin h1 h2 h3
  have hb := aes.length_decrypt key _ hin
  have ht : (n * j + i) % 2 ^ 64 = n * j + i := by
    have : n * j ≤ n * 5 := Nat.mul_le_mul_left n (by omega)
    exact Nat.mod_eq_of_lt (by omega)
  have hoff : intMul (i - 1) 8 = some ((i - 1) * 8) := if_pos (by omega)
  have hle' : (i - 1) * 8 + 8 ≤ (s.r ++ t).length := by rw [List.length_append]; omega
  generalize hB : aes.decrypt key (xorBytes s.a (beBytes 8 (n * j + i)) ++ slice s.r ((i - 1) * 8) 8) = B at hb
  have hdrop : slice B 8 8 = B.drop 8 := by
    rw [slice, List.take_of_length_le (by rw [List.length_drop]; omega)]
  have hcopy : memcpy (s.r ++ t) ((i - 1) * 8) B 8 8 = some (splice s.r ((i - 1) * 8) (B.drop 8) ++ t) := by
    rw [memcpy_eq hle' (by omega), hdrop, splice_append_left (by rw [List.length_drop]; omega)]
  unfold unwrapBody
  simp only [ht, hoff, load_eq hle', slice_append_left hle, hB, hcopy, Option.bind_eq_bind, Option.bind_some]
  simp only [unwrapStep, hB]

theorem unwrapInner_eq (aes : Aes Key) (key : Key) {n j : Nat} (hn : n ≤ 2 ^ 28) (hj : j < 6) (t : Bytes) :
    ∀ (i : Nat) (s : State), i ≤ n → Sized n s →
      let s' := ((List.range i).map (fun k => (j, k + 1))).reverse.foldl (unwrapStep (aes.decrypt key) n) s
      Sized n s' ∧ unwrapInner aes key n j i ⟨s.a, s.r ++ t⟩ = some ⟨s'.a, s'.r ++ t⟩
  | 0, s, _, hs => ⟨hs, rfl⟩
  | i + 1, s, hi, hs => by
    have hmem : (j, i + 1) ∈ steps n := by
      simp only [steps, List.mem_flatMap, List.mem_map, List.mem_range]
      exact ⟨j, hj, i, by omega, rfl⟩
    have ih := unwrapInner_eq aes key hn hj t i _ (by omega) (sized_unwrapStep (aes.length_decrypt key) hs hmem)
    rw [List.range_succ, List.map_append, List.reverse_append, List.map_singleton, List.reverse_singleton,
      List.singleton_append, List.foldl_cons, unwrapInner, unwrapBody_eq aes key hn hs hmem t]
    exact ih

theorem unwrapOuter_eq (aes : Aes Key) (key : Key) {n : Nat} (hn : n ≤ 2 ^ 28) (t : Bytes) :
    ∀ (j : Nat) (s : State), j ≤ 6 → Sized n s →
      let l := (List.range j).flatMap (fun j => (List.range n).map (fun i => (j, i + 1)))
      let s' := l.reverse.foldl (unwrapStep (aes.decrypt key) n) s
      Sized n s' ∧ unwrapOuter aes key n j ⟨s.a, s.r ++ t⟩ = some ⟨s'.a, s'.r ++ t⟩
  | 0, s, _, hs => ⟨hs, rfl⟩
  | j + 1, s, hj, hs => by
    obtain ⟨hs', hin⟩ := unwrapInner_eq aes key hn (show j < 6 by omega) t n s (Nat.le_refl n) hs
    have ih := unwrapOuter_eq aes key hn t j _ (by omega) hs'
    dsimp only at ih ⊢
    rw [List.range_succ, List.flatMap_append, List.flatMap_singleton, List.reverse_append, List.foldl_append,
      unwrapOuter, if_pos (by omega), hin]
    exact ih

/-- **The two nested C loops are the inverse steps, backwards.** -/
theorem unwrapLoops_eq (aes : Aes Key) (key : Key) {n : Nat} (hn : n ≤ 2 ^ 28) {s : State} (hs : Sized n s)
    (t : Bytes) :
    unwrapOuter aes key n 6 ⟨s.a, s.r ++ t⟩ =
      some ⟨(unwrapLoop (aes.decrypt key) n s).a, (unwrapLoop (aes.decrypt key) n s).r ++ t⟩ :=
  (unwrapOuter_eq aes key hn t 6 s (Nat.le_refl 6) hs).2

/-! ## The unwrapper -/

/-- What the unwrapper recovers: the register and the blocks, before any check. -/
def opened (aes : Aes Key) (key : Key) (c : Bytes) : State :=
  if c.length = 16 then ⟨(aes.decrypt key c).take 8, (aes.decrypt key c).drop 8⟩
  else unwrapLoop (aes.decrypt key) (c.length / 8 - 1) ⟨c.take 8, c.drop 8⟩

theorem paddingClear_eq (out : Bytes) : ∀ (k i : Nat), i + k ≤ out.length →
    paddingClear out i k = some (decide (slice out i k = List.replicate k 0))
  | 0, i, _ => by simp [paddingClear, slice]
  | k + 1, i, h => by
    have hi : i < out.length := by omega
    have hs : slice out i (k + 1) = out[i] :: slice out (i + 1) k := by
      rw [slice, slice, List.drop_eq_getElem_cons hi, List.take_succ_cons]
    rw [paddingClear, List.getElem?_eq_getElem hi, paddingClear_eq out k (i + 1) (by omega), hs,
      List.replicate_succ]
    by_cases hb : out[i] = 0
    · simp [hb]
    · simp [hb]

/-- The checks pass on the register `a` and the blocks `r`, of which the length field is `m`. -/
def Accepted (s : State) (m : Nat) : Prop :=
  s.a.take 4 = paddedAiv ∧ 0 < m ∧ s.r.length < m + 8 ∧ m ≤ s.r.length ∧
    s.r.drop m = List.replicate (s.r.length - m) 0

instance (s : State) (m : Nat) : Decidable (Accepted s m) :=
  inferInstanceAs (Decidable (s.a.take 4 = paddedAiv ∧ 0 < m ∧ s.r.length < m + 8 ∧ m ≤ s.r.length ∧
    s.r.drop m = List.replicate (s.r.length - m) 0))

theorem acceptPadding_eq {r t : Bytes} {outLen m : Nat} (hm : m ≤ r.length) :
    acceptPadding (r ++ t) outLen m r.length =
      if r.drop m = List.replicate (r.length - m) 0 then some ⟨1, r ++ t, m⟩ else failed (r ++ t) outLen := by
  have hs : slice (r ++ t) m (r.length - m) = r.drop m := by
    rw [slice_append_left (by omega), slice, List.take_of_length_le (by rw [List.length_drop])]
  rw [acceptPadding, paddingClear_eq _ _ _ (by rw [List.length_append]; omega), hs]
  by_cases hz : r.drop m = List.replicate (r.length - m) 0
  · rw [if_pos hz, decide_eq_true hz]
  · rw [if_neg hz, decide_eq_false hz]

/-- What the unwrapper answers once it has recovered `s`, with `t` behind the blocks in the output buffer. -/
def verdict (s : State) (t : Bytes) (outLen : Nat) : Option Ret :=
  if Accepted s (beNat (slice s.a 4 4)) then some ⟨1, s.r ++ t, beNat (slice s.a 4 4)⟩ else failed (s.r ++ t) outLen

/-- **The C checks of the multi-block path are `Accepted`.** -/
theorem checks_eq {s : State} (t : Bytes) (outLen : Nat) {n : Nat} (h1 : 1 ≤ n) (hn : n ≤ 2 ^ 28) (hs : Sized n s) :
    (if s.a.take 4 ≠ paddedAiv then failed (s.r ++ t) outLen
      else if beNat (slice s.a 4 4) = 0 ∨ s.r.length < beNat (slice s.a 4 4) then failed (s.r ++ t) outLen
      else if beNat (slice s.a 4 4) ≤ (s.r.length + 2 ^ 32 - 8) % 2 ^ 32 then failed (s.r ++ t) outLen
      else acceptPadding (s.r ++ t) outLen (beNat (slice s.a 4 4)) s.r.length) = verdict s t outLen := by
  generalize hm : beNat (slice s.a 4 4) = m
  have hsub : (s.r.length + 2 ^ 32 - 8) % 2 ^ 32 = s.r.length - 8 := by
    have := hs.2
    rw [show s.r.length + 2 ^ 32 - 8 = s.r.length - 8 + 2 ^ 32 by omega, Nat.add_mod_right,
      Nat.mod_eq_of_lt (by omega)]
  unfold verdict
  rw [hm, hsub]
  by_cases ha : s.a.take 4 = paddedAiv
  · rw [if_neg (not_not.2 ha)]
    split
    · rw [if_neg (by rintro ⟨-, h2, -, h4, -⟩; omega)]
    · split
      · rw [if_neg (by rintro ⟨-, -, h3, -, -⟩; omega)]
      · rename_i hlo hhi
        rw [acceptPadding_eq (by omega)]
        by_cases hz : s.r.drop m = List.replicate (s.r.length - m) 0
        · rw [if_pos hz, if_pos ⟨ha, by omega, by have := hs.2; omega, by omega, hz⟩]
        · rw [if_neg hz, if_neg (fun h => hz h.2.2.2.2)]
  · rw [if_pos ha, if_neg (fun h => ha h.1)]

theorem unwrapSingle_eq (aes : Aes Key) (key : Key) {out c : Bytes} (outLen : Nat) {maxOut : Nat} (hc : c.length = 16)
    (hmax : 8 ≤ maxOut) (hout : maxOut ≤ out.length) :
    unwrapSingle aes key out outLen maxOut c = verdict (opened aes key c) (out.drop 8) outLen := by
  have hB := aes.length_decrypt key c hc
  have hop : opened aes key c = ⟨(aes.decrypt key c).take 8, (aes.decrypt key c).drop 8⟩ := if_pos hc
  have hecb : aesEcb (aes.decrypt key) c (List.replicate 16 0) = some (aes.decrypt key c) := by
    rw [aesEcb_eq hc hB (by rw [List.length_replicate]), splice_zero, hB, List.drop_replicate, Nat.sub_self,
      List.replicate_zero, List.append_nil]
  generalize aes.decrypt key c = B at hB hop hecb
  have hr : (B.drop 8).length = 8 := by rw [List.length_drop, hB]
  have hs : Sized 1 ⟨B.take 8, B.drop 8⟩ := ⟨by rw [List.length_take, hB]; rfl, hr⟩
  have hcopy : memcpy out 0 B 8 8 = some (B.drop 8 ++ out.drop 8) := by
    rw [memcpy_eq (by omega) (by omega), slice, List.take_of_length_le (by omega), splice_zero, hr]
  have hchecks := checks_eq (out.drop 8) outLen (Nat.le_refl 1) (by decide) hs
  rw [hop, ← hchecks]
  simp only [unwrapSingle, hecb, hcopy, Option.bind_eq_bind, Option.bind_some, if_neg (Nat.not_lt.2 hmax), hr]
  -- the single block has no third test: with eight bytes of data it repeats the first half of the second
  split
  · rfl
  · split
    · rfl
    · rename_i hlen
      rw [if_neg (by omega)]

/-- The multi-block path reads the register and `n` blocks, `n` being a 32-bit number, and nothing behind them. -/
theorem unwrapMulti_low (aes : Aes Key) (key : Key) {out c : Bytes} (outLen : Nat) {maxOut inLen n : Nat}
    (hlow : (inLen / 8 - 1) % 2 ^ 32 = n) (hc : 8 * (n + 1) ≤ c.length) (h1 : 1 ≤ n) (hn : n ≤ 2 ^ 28)
    (hmax : 8 * n ≤ maxOut) (hout : maxOut ≤ out.length) :
    wolfcryptAesUnwrapKeyPaddedMultiblock aes key out outLen maxOut c inLen =
      verdict (unwrapLoop (aes.decrypt key) n ⟨c.take 8, slice c 8 (8 * n)⟩) (out.drop (8 * n)) outLen := by
  have hpad : n * 8 % 2 ^ 32 = 8 * n := by rw [Nat.mul_comm, Nat.mod_eq_of_lt (by omega)]
  have hr : (slice c 8 (8 * n)).length = 8 * n := length_slice_of_le (by omega)
  have hs : Sized n ⟨c.take 8, slice c 8 (8 * n)⟩ := ⟨by rw [List.length_take]; omega, hr⟩
  have hs' := sized_unwrapLoop (aes.length_decrypt key) hs
  have hload : load c 0 8 = some (c.take 8) := by rw [load_eq (by omega), slice_zero]
  have hcopy : memcpy out 0 c 8 (8 * n) = some (slice c 8 (8 * n) ++ out.drop (8 * n)) := by
    rw [memcpy_eq (by omega) (by omega), splice_zero, hr]
  have hloop := unwrapLoops_eq aes key hn hs (out.drop (8 * n))
  have hchecks := checks_eq (out.drop (8 * n)) outLen h1 hn hs'
  simp only [hs'.2] at hchecks
  simp only [wolfcryptAesUnwrapKeyPaddedMultiblock, hlow, hpad]
  rw [if_neg (by omega), if_neg (by omega), ← hchecks]
  simp only [hload, hcopy, hloop, Option.bind_eq_bind, Option.bind_some]

theorem unwrapMulti_eq (aes : Aes Key) (key : Key) {out c : Bytes} (outLen : Nat) {maxOut n : Nat}
    (hc : c.length = 8 * (n + 1)) (h1 : 1 < n) (hn : n ≤ 2 ^ 28) (hmax : 8 * n ≤ maxOut) (hout : maxOut ≤ out.length) :
    wolfcryptAesUnwrapKeyPaddedMultiblock aes key out outLen maxOut c c.length =
      verdict (opened aes key c) (out.drop (8 * n)) outLen := by
  have hdiv : c.length / 8 - 1 = n := by omega
  have hop : opened aes key c = unwrapLoop (aes.decrypt key) n ⟨c.take 8, c.drop 8⟩ := by
    rw [opened, if_neg (by omega), hdiv]
  have hrest : slice c 8 (8 * n) = c.drop 8 := List.take_of_length_le (by rw [List.length_drop]; omega)
  rw [unwrapMulti_low aes key outLen (by rw [hdiv, Nat.mod_eq_of_lt (by omega)]) (by omega) (by omega) hn hmax hout,
    hrest, hop]

/-- **The unwrapper opens the ciphertext and answers its verdict**, on one block and on more. -/
theorem unwrap_eq (aes : Aes Key) (key : Key) (out : Bytes) {c : Bytes} (outLen maxOut : Nat) {n : Nat}
    (hc : c.length = 8 * (n + 1)) (h1 : 1 ≤ n) (hn : n ≤ 2 ^ 28) (hmax : 8 * n ≤ maxOut) (hout : maxOut ≤ out.length) :
    wolfcryptAesUnwrapKeyPadded aes (some key) (some out) (some outLen) maxOut (some c) c.length =
      verdict (opened aes key c) (out.drop (8 * n)) outLen := by
  simp only [wolfcryptAesUnwrapKeyPadded]
  rw [if_neg (by omega)]
  split
  · rename_i h16
    obtain rfl : n = 1 := by omega
    exact unwrapSingle_eq aes key outLen h16 hmax hout
  · exact unwrapMulti_eq aes key outLen hc (by omega) hn hmax hout

/-! ## Opening is inverse to wrapping -/

theorem sized_opened (aes : Aes Key) (key : Key) {c : Bytes} {n : Nat} (hc : c.length = 8 * (n + 1)) :
    Sized n (opened aes key c) := by
  unfold opened
  split
  · rename_i h16
    have hB := aes.length_decrypt key c h16
    exact ⟨by rw [List.length_take, hB]; rfl, by rw [List.length_drop, hB]; omega⟩
  · rw [show c.length / 8 - 1 = n by omega]
    exact sized_unwrapLoop (aes.length_decrypt key)
      ⟨by rw [List.length_take]; omega, by rw [List.length_drop]; omega⟩

theorem opened_wrapPadded (aes : Aes Key) (key : Key) {p : Bytes} (hne : p ≠ []) :
    opened aes key (wrapPadded (aes.encrypt key) p) = ⟨aiv p.length, pad p⟩ := by
  have hpos : 0 < p.length := List.length_pos_iff.2 hne
  have hr := le_roundUp p.length
  have hm := roundUp_mod p.length
  have hlen := length_wrapPadded (aes.length_encrypt key) hne
  unfold opened
  rw [hlen]
  unfold wrapPadded
  split
  · rename_i h8
    have hblock : (aiv p.length ++ pad p).length = 16 := by rw [List.length_append, length_aiv, length_pad]; omega
    rw [if_pos (by omega), aes.decrypt_encrypt key _ hblock, List.take_left' (length_aiv _),
      List.drop_left' (length_aiv _)]
  · rename_i h8
    have hs := sized_pad p
    have hs' := sized_wrapLoop (aes.length_encrypt key) hs
    rw [if_neg (by omega), wrap, List.take_left' hs'.1, List.drop_left' hs'.1,
      show (roundUp p.length + 8) / 8 - 1 = (pad p).length / 8 by rw [length_pad]; omega]
    exact unwrapLoop_wrapLoop (aes.length_encrypt key) (aes.decrypt_encrypt key) hs

theorem wrapPadded_of_opened (aes : Aes Key) (key : Key) {c p : Bytes} {n : Nat} (hc : c.length = 8 * (n + 1))
    (h1 : 1 ≤ n) (h : opened aes key c = ⟨aiv p.length, pad p⟩) : wrapPadded (aes.encrypt key) p = c := by
  have hround : roundUp p.length = 8 * n := by
    have := (sized_opened aes key hc).2
    rw [h, length_pad] at this
    exact this
  unfold opened at h
  unfold wrapPadded
  split at h
  · rename_i h16
    rw [if_pos (by omega)]
    obtain ⟨ha, hr⟩ := State.mk.injEq .. ▸ h
    rw [← ha, ← hr, List.take_append_drop, aes.encrypt_decrypt key c h16]
  · rename_i h16
    have hs : Sized n ⟨c.take 8, c.drop 8⟩ :=
      ⟨by rw [List.length_take]; omega, by rw [List.length_drop]; omega⟩
    rw [show c.length / 8 - 1 = n by omega] at h
    have hw := wrapLoop_unwrapLoop (aes.length_decrypt key) (aes.encrypt_decrypt key) hs
    rw [if_neg (by omega), wrap, ← h, length_pad, hround, show 8 * n / 8 = n by omega, hw, List.take_append_drop]

/-- **The unwrapper accepts what the wrapper makes of a plaintext**, and returns the plaintext. -/
theorem accepts_wrapPadded (aes : Aes Key) (key : Key) {out p : Bytes} (outLen : Nat) {maxOut : Nat} (hne : p ≠ [])
    (h256 : p.length ≤ 256) (hmax : roundUp p.length ≤ maxOut) (hout : maxOut ≤ out.length) :
    ∃ r, wolfcryptAesUnwrapKeyPadded aes (some key) (some out) (some outLen) maxOut
        (some (wrapPadded (aes.encrypt key) p)) (wrapPadded (aes.encrypt key) p).length = some r ∧
      r.ret = 1 ∧ r.outLen = p.length ∧ r.out.take r.outLen = p := by
  have hpos : 0 < p.length := List.length_pos_iff.2 hne
  have hr := le_roundUp p.length
  have hm := roundUp_mod p.length
  have hlen := length_wrapPadded (aes.length_encrypt key) hne
  obtain ⟨n, hn⟩ : ∃ n, (wrapPadded (aes.encrypt key) p).length = 8 * (n + 1) := ⟨roundUp p.length / 8, by omega⟩
  have hs := sized_opened aes key hn
  rw [opened_wrapPadded aes key hne] at hs
  have hmli : beNat (slice (aiv p.length) 4 4) = p.length := by
    rw [show slice (aiv p.length) 4 4 = beBytes 4 p.length from rfl, beNat_beBytes, Nat.mod_eq_of_lt (by omega)]
  have htake : (pad p).take p.length = p := by rw [pad, List.take_left]
  have hacc : Accepted ⟨aiv p.length, pad p⟩ p.length := by
    have hiff := opened_iff hs.1 hs.2 p.length hmli.symm
    rw [htake] at hiff
    have := hiff.2 ⟨hne, rfl, rfl, rfl⟩
    rwa [← hs.2] at this
  rw [unwrap_eq aes key out outLen maxOut hn (by omega) (by omega) (by omega) hout, opened_wrapPadded aes key hne]
  simp only [verdict, hmli, if_pos hacc]
  refine ⟨_, rfl, rfl, rfl, ?_⟩
  rw [List.take_append_of_le_length hacc.2.2.2.1, htake]

/-- **What the unwrapper accepts is in the image of the wrapper**, with the plaintext it returned. -/
theorem wrapPadded_of_accepts (aes : Aes Key) (key : Key) {out c : Bytes} {outLen maxOut : Nat} (hc : c.length ≤ 264)
    (hmax : c.length ≤ maxOut + 8) (hout : maxOut ≤ out.length) {r : Ret}
    (hr : wolfcryptAesUnwrapKeyPadded aes (some key) (some out) (some outLen) maxOut (some c) c.length = some r)
    (hret : r.ret = 1) :
    ∃ p, r.out.take r.outLen = p ∧ r.outLen = p.length ∧ p ≠ [] ∧ p.length ≤ 256 ∧
      c = wrapPadded (aes.encrypt key) p := by
  by_cases hsize : c.length < 16 ∨ c.length % 8 ≠ 0
  · simp only [wolfcryptAesUnwrapKeyPadded, if_pos hsize, failed, Option.some.injEq] at hr
    rw [← hr] at hret
    simp at hret
  obtain ⟨n, hn⟩ : ∃ n, c.length = 8 * (n + 1) := ⟨c.length / 8 - 1, by omega⟩
  rw [unwrap_eq aes key out outLen maxOut hn (by omega) (by omega) (by omega) hout] at hr
  have hs := sized_opened aes key hn
  generalize hop : opened aes key c = s at hs hr
  unfold verdict at hr
  split at hr
  · rename_i hacc
    obtain ⟨h1, h2, h3, h4, h5⟩ := hacc
    obtain ⟨hne, hm, ha, hpad⟩ := (opened_iff hs.1 hs.2 _ rfl).1 (by rw [← hs.2]; exact ⟨h1, h2, h3, h4, h5⟩)
    obtain rfl := Option.some.inj hr
    refine ⟨_, List.take_append_of_le_length h4, hm.symm, hne, ?_, ?_⟩
    · rw [hm]; have := hs.2; omega
    · refine (wrapPadded_of_opened aes key hn (by omega) ?_).symm
      rw [hop, ← ha, ← hpad]
  · obtain rfl := Option.some.inj hr
    simp at hret

/-! ## A cipher that agrees with AES on one block, and one that mixes all -/

/-- The block of the seven bytes `466f7250617369`, and what AES-192 makes of it under the key of RFC 5649, section 6. -/
def plainBlock : Bytes := aiv 7 ++ [0x46, 0x6f, 0x72, 0x50, 0x61, 0x73, 0x69, 0x00]

def cipherBlock : Bytes :=
  [0xaf, 0xbe, 0xb0, 0xf0, 0x7d, 0xfb, 0xf5, 0x41, 0x92, 0x00, 0xf2, 0xcc, 0xb5, 0x0b, 0xb2, 0x4f]

def swapBlocks (b : Bytes) : Bytes :=
  if b = plainBlock then cipherBlock else if b = cipherBlock then plainBlock else b

theorem length_swapBlocks (b : Bytes) (h : b.length = 16) : (swapBlocks b).length = 16 := by
  unfold swapBlocks
  split
  · rfl
  · split
    · rfl
    · exact h

theorem swapBlocks_swapBlocks (b : Bytes) : swapBlocks (swapBlocks b) = b := by
  unfold swapBlocks
  by_cases h1 : b = plainBlock
  · subst h1; decide
  · by_cases h2 : b = cipherBlock
    · subst h2; decide
    · simp [h1, h2]

/-- The cipher that exchanges the two blocks and fixes all others. -/
def swapAes : Aes Unit where
  encrypt := fun _ => swapBlocks
  decrypt := fun _ => swapBlocks
  length_encrypt := fun _ => length_swapBlocks
  length_decrypt := fun _ => length_swapBlocks
  decrypt_encrypt := fun _ b _ => swapBlocks_swapBlocks b
  encrypt_decrypt := fun _ b _ => swapBlocks_swapBlocks b

def swapWrapKey : WrapKey Unit := fun _ iv p => (Int.ofNat (p.length + 8), wrap swapBlocks iv p)

def sevenBytes : Bytes := [0x46, 0x6f, 0x72, 0x50, 0x61, 0x73, 0x69]

theorem swapWrapKey_isRfc3394 : IsRfc3394 swapAes swapWrapKey := fun _ _ _ _ _ _ _ => rfl

/-- A cipher that turns every block round. -/
def mirrorBlock (b : Bytes) : Bytes := (b.map (· ^^^ 0x5a)).reverse

theorem mirrorBlock_mirrorBlock (b : Bytes) : mirrorBlock (mirrorBlock b) = b := by
  unfold mirrorBlock
  rw [← List.map_reverse, List.reverse_reverse, List.map_map]
  have hid : (fun x : UInt8 => x ^^^ 0x5a) ∘ (· ^^^ 0x5a) = id := by
    funext x
    show x ^^^ 0x5a ^^^ 0x5a = x
    rw [UInt8.xor_assoc, UInt8.xor_self, UInt8.xor_zero]
  rw [hid, List.map_id]

theorem length_mirrorBlock (b : Bytes) (h : b.length = 16) : (mirrorBlock b).length = 16 := by
  rw [mirrorBlock, List.length_reverse, List.length_map, h]

def mirrorAes : Aes Unit where
  encrypt := fun _ => mirrorBlock
  decrypt := fun _ => mirrorBlock
  length_encrypt := fun _ => length_mirrorBlock
  length_decrypt := fun _ => length_mirrorBlock
  decrypt_encrypt := fun _ b _ => mirrorBlock_mirrorBlock b
  encrypt_decrypt := fun _ b _ => mirrorBlock_mirrorBlock b

def mirrorWrapKey : WrapKey Unit := fun _ iv p => (Int.ofNat (p.length + 8), wrap mirrorBlock iv p)

theorem mirrorWrapKey_isRfc3394 : IsRfc3394 mirrorAes mirrorWrapKey := fun _ _ _ _ _ _ _ => rfl

/-- The twenty bytes of RFC 5649, section 6, and what they are wrapped as under this cipher. -/
def twentyBytes : Bytes :=
  [0xc3, 0x7b, 0x7e, 0x64, 0x92, 0x58, 0x43, 0x40, 0xbe, 0xd1, 0x22, 0x07, 0x80, 0x89, 0x41, 0x15, 0x50, 0x68, 0xf7, 0x38]

def mirrorCipher : Bytes :=
  [79, 27, 211, 218, 93, 120, 139, 246, 80, 104, 247, 56, 0, 0, 0, 0, 94, 90, 90, 90, 252, 3, 3, 252, 210, 123, 126, 100,
    146, 88, 67, 64]

/-! ## The round trip and its converse -/

/-- **Wrapping succeeds, and unwrapping its output returns the plaintext.** -/
theorem unwrap_wrap_padded (aes : Aes Key) (wk : WrapKey Key) (hwk : IsRfc3394 aes wk) (key : Key) (p : Bytes)
    (h1 : 1 ≤ p.length) (h256 : p.length ≤ 256) (out out' : Bytes) (outLen outLen' maxOut maxOut' : Nat)
    (hmax : roundUp p.length + 8 ≤ maxOut) (hout : maxOut ≤ out.length) (hmax' : roundUp p.length + 8 ≤ maxOut')
    (hout' : maxOut' ≤ out'.length) :
    ∃ r, wolfcryptAesWrapKeyPadded aes wk (some key) (some out) (some outLen) maxOut (some p) p.length = some r ∧
      r.ret = 1 ∧
      ∃ r', wolfcryptAesUnwrapKeyPadded aes (some key) (some out') (some outLen') maxOut' (some (r.out.take r.outLen))
          r.outLen = some r' ∧ r'.ret = 1 ∧ r'.outLen = p.length ∧ r'.out.take r'.outLen = p := by
  have hne : p ≠ [] := List.length_pos_iff.1 h1
  refine ⟨_, wrap_eq hwk key outLen hne h256 hmax hout, rfl, ?_⟩
  simp only [take_splice_zero]
  exact accepts_wrapPadded aes key outLen' hne h256 (by omega) hout'

/-- Seven bytes are wrapped as one block, twenty as three behind the check value. -/
theorem unwrap_wrap_padded_both :
    (∃ r, wolfcryptAesWrapKeyPadded swapAes swapWrapKey (some ()) (some (List.replicate 16 0)) (some 0) 16
        (some sevenBytes) 7 = some r ∧ r.ret = 1 ∧
      ∃ r', wolfcryptAesUnwrapKeyPadded swapAes (some ()) (some (List.replicate 16 0)) (some 0) 16
          (some (r.out.take r.outLen)) r.outLen = some r' ∧
        r'.ret = 1 ∧ r'.outLen = 7 ∧ r'.out.take r'.outLen = sevenBytes) ∧
    ∃ r, wolfcryptAesWrapKeyPadded mirrorAes mirrorWrapKey (some ()) (some (List.replicate 32 0)) (some 0) 32
        (some twentyBytes) 20 = some r ∧ r.ret = 1 ∧
      ∃ r', wolfcryptAesUnwrapKeyPadded mirrorAes (some ()) (some (List.replicate 33 1)) (some 0) 33
          (some (r.out.take r.outLen)) r.outLen = some r' ∧
        r'.ret = 1 ∧ r'.outLen = 20 ∧ r'.out.take r'.outLen = twentyBytes :=
  ⟨unwrap_wrap_padded swapAes swapWrapKey swapWrapKey_isRfc3394 () sevenBytes (by decide) (by decide)
    (List.replicate 16 0) (List.replicate 16 0) 0 0 16 16 (by decide) (by decide) (by decide) (by decide),
  unwrap_wrap_padded mirrorAes mirrorWrapKey mirrorWrapKey_isRfc3394 () twentyBytes (by decide) (by decide)
    (List.replicate 32 0) (List.replicate 33 1) 0 0 32 33 (by decide) (by decide) (by decide) (by decide)⟩

/-- **What the unwrapper accepts is what the wrapper makes of the plaintext it returned.** -/
theorem wrap_unwrap_padded (aes : Aes Key) (wk : WrapKey Key) (hwk : IsRfc3394 aes wk) (key : Key) (c : Bytes)
    (hc : c.length ≤ 264) (out out' : Bytes) (outLen outLen' maxOut maxOut' : Nat) (hmax : c.length ≤ maxOut)
    (hout : maxOut ≤ out.length) (hmax' : c.length ≤ maxOut') (hout' : maxOut' ≤ out'.length) (r : Ret)
    (hr : wolfcryptAesUnwrapKeyPadded aes (some key) (some out) (some outLen) maxOut (some c) c.length = some r)
    (hret : r.ret = 1) :
    ∃ r', wolfcryptAesWrapKeyPadded aes wk (some key) (some out') (some outLen') maxOut'
        (some (r.out.take r.outLen)) r.outLen = some r' ∧
      r'.ret = 1 ∧ r'.outLen = c.length ∧ r'.out.take r'.outLen = c := by
  obtain ⟨p, hp, hlen, hne, h256, rfl⟩ := wrapPadded_of_accepts aes key hc (by omega) hout hr hret
  have hct := length_wrapPadded (aes.length_encrypt key) hne
  rw [hp, hlen, wrap_eq hwk key outLen' hne h256 (by omega) hout']
  exact ⟨_, rfl, rfl, rfl, take_splice_zero⟩

theorem wrap_unwrap_padded_both :
    (∃ r', wolfcryptAesWrapKeyPadded swapAes swapWrapKey (some ()) (some (List.replicate 16 0)) (some 0) 16
        (some ((sevenBytes ++ List.replicate 9 0).take 7)) 7 = some r' ∧
      r'.ret = 1 ∧ r'.outLen = 16 ∧ r'.out.take r'.outLen = cipherBlock) ∧
    ∃ r', wolfcryptAesWrapKeyPadded mirrorAes mirrorWrapKey (some ()) (some (List.replicate 32 2)) (some 0) 32
        (some ((twentyBytes ++ List.replicate 12 0).take 20)) 20 = some r' ∧
      r'.ret = 1 ∧ r'.outLen = 32 ∧ r'.out.take r'.outLen = mirrorCipher :=
  ⟨wrap_unwrap_padded swapAes swapWrapKey swapWrapKey_isRfc3394 () cipherBlock (by decide) (List.replicate 16 0)
    (List.replicate 16 0) 0 0 16 16 (by decide) (by decide) (by decide) (by decide)
    ⟨1, sevenBytes ++ List.replicate 9 0, 7⟩ (by decide) rfl,
  wrap_unwrap_padded mirrorAes mirrorWrapKey mirrorWrapKey_isRfc3394 () mirrorCipher (by decide) (List.replicate 32 0)
    (List.replicate 32 2) 0 0 32 32 (by decide) (by decide) (by decide) (by decide)
    ⟨1, twentyBytes ++ List.replicate 12 0, 20⟩ (by decide +kernel) rfl⟩

end KeyWrap
end Wolf
