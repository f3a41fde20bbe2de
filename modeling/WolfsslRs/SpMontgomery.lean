import Mathlib.Data.Int.ModEq
import WolfsslRs.SpDivide
/-!
# SpMontgomery — products and Montgomery reduction modulo the order (wolfssl-src, patches/sp_c64.c)

`sp_256_mont_reduce_order_5` and its copies for the other curves clear the low digits of a product one after another: each
time the multiple of the modulus is added that makes the lowest digit zero, and the digit is dropped.  The last digit holds
fewer bits, so that the rest is shifted down.  If a bit is over at the top the modulus is subtracted.
-/
namespace Wolf
namespace Sp

open Words Limbs

variable {w b : Nat}

/-! ## The code -/

def mul (f : Format) (a c : f.Digits) : f.Digits := carryOut f.b (columns a c)

/-- The columns of a square: the products of two different digits are taken once and doubled. -/
def sqrColumns : List (BitVec w) → List (BitVec (2 * w))
  | [] => []
  | [a] => [wide a * wide a]
  | a :: c :: as =>
    addColumns ((wide a * wide a) :: (c :: as).map (fun d => wide a * wide d * 2#(2 * w)))
      (0#(2 * w) :: 0#(2 * w) :: sqrColumns (c :: as))

def sqr (f : Format) (a : f.Digits) : f.Digits := carryOut f.b (sqrColumns a)

/-- The carry of the lowest digit into the next one. -/
def carryFirst (b : Nat) : List (BitVec w) → List (BitVec w)
  | x :: y :: ts => x :: (y + x.sshiftRight b) :: ts
  | ts => ts

/-- One digit of the reduction: `mul_add` of the modulus with the digit that clears the low `k` bits, and the carry. -/
def reduceDigit (b k : Nat) (m : List (BitVec w)) (mp : BitVec w) (t : List (BitVec w)) : List (BitVec w) :=
  carryFirst b (addColumns t (mulWord b m ((t.headD 0#w * mp) &&& mask w k)))

/-- The digits below the last one: what is cleared is dropped. -/
def reduceDigits (b : Nat) (m : List (BitVec w)) (mp : BitVec w) : Nat → List (BitVec w) → List (BitVec w)
  | 0, t => t
  | i + 1, t => reduceDigits b m mp i (reduceDigit b b m mp t).tail

/-- `mont_shift`, on unsigned words: the digits `s` bits up, after what the digit below them leaves. -/
def montShift (b s : Nat) (n : BitVec w) : List (BitVec w) → List (BitVec w)
  | [] => []
  | [d] => [n + (d <<< s)]
  | d :: e :: ds => ((n + (d <<< s)) &&& mask w b) :: montShift b s ((n + (d <<< s)) >>> b) (e :: ds)

def montReduceOrder (f : Format) (a m : f.Digits) (mp : BitVec f.w) : f.Digits :=
  let t := reduceDigits f.b m mp (f.n - 1) (a.take f.n ++ norm f.b (a.drop f.n))
  match reduceDigit f.b (f.b - f.s) m mp t with
  | [] => []
  | x :: hi =>
    let r := montShift f.b f.s ((x &&& mask f.w f.b).sshiftRight (f.b - f.s)) hi
    norm f.b (condSub r m (overMask ((top r).sshiftRight (f.b - f.s))))

def montMulOrder (f : Format) (m : f.Digits) (mp : BitVec f.w) (a c : f.Digits) : f.Digits :=
  montReduceOrder f (mul f a c) m mp

def montSqrOrder (f : Format) (m : f.Digits) (mp : BitVec f.w) (a : f.Digits) : f.Digits :=
  montReduceOrder f (sqr f a) m mp

/-- The number squared `k` times, at least once. -/
def montSqrNOrder (f : Format) (m : f.Digits) (mp : BitVec f.w) (a : f.Digits) : Nat → f.Digits
  | 0 => montSqrOrder f m mp a
  | 1 => montSqrOrder f m mp a
  | k + 2 => montSqrOrder f m mp (montSqrNOrder f m mp a (k + 1))

/-! ## Products -/

section Products

variable {f : Format}

theorem digit_mul_le {x y : BitVec w} (hx : 0 ≤ x.toInt ∧ x.toInt ≤ 2 ^ b - 1) (hy : 0 ≤ y.toInt ∧ y.toInt ≤ 2 ^ b - 1) :
    0 ≤ x.toInt * y.toInt ∧ x.toInt * y.toInt ≤ 2 ^ (2 * b) := by
  refine ⟨mul_nonneg hx.1 hy.1, ?_⟩
  have hle := mul_le_mul (by omega : x.toInt ≤ 2 ^ b) (by omega : y.toInt ≤ 2 ^ b) hy.1 (two_pow_pos b).le
  rwa [← pow_add, ← Nat.two_mul] at hle

/-- Thirty-two products of digits fit a word of double width. -/
theorem products_fit (hbw : b + 6 ≤ w) : 32 * (2 : Int) ^ (2 * b) ≤ 2 ^ (2 * w - 1) := by
  calc (32 : Int) * 2 ^ (2 * b) = 2 ^ (2 * b + 5) := by ring
    _ ≤ 2 ^ (2 * w - 1) := pow_le_pow_right₀ (by decide) (by omega)

theorem doubled_row_spec (hbw : b + 6 ≤ w) {x : BitVec w} (hx : 0 ≤ x.toInt ∧ x.toInt ≤ 2 ^ b - 1) :
    ∀ {cs : List (BitVec w)}, Canon b cs →
      value b (cs.map (fun d => wide x * wide d * 2#(2 * w))) = 2 * x.toInt * value b cs ∧
        Between 0 (2 * 2 ^ (2 * b)) (cs.map (fun d => wide x * wide d * 2#(2 * w)))
  | [], _ => ⟨by simp, between_nil⟩
  | d :: cs, hcs => by
    obtain ⟨hd, hcs⟩ := between_cons.1 hcs
    obtain ⟨hval, hbetween⟩ := doubled_row_spec hbw hx hcs
    have hfit := products_fit hbw
    have hpos := two_pow_pos (2 * b)
    have hle := digit_mul_le hx hd
    have hmul := toInt_wide_mul (by omega : 0 < w) x d
    have htwo : (2#(2 * w)).toInt = 2 := by
      have hlt : 2 * 2 < 2 ^ (2 * w) := by
        calc 2 * 2 = 2 ^ 2 := rfl
          _ < 2 ^ (2 * w) := Nat.pow_lt_pow_right (by decide) (by omega)
      exact toInt_of_toNat hlt (by rw [BitVec.toNat_ofNat, Nat.mod_eq_of_lt (by omega)])
    have hdouble : (wide x * wide d * 2#(2 * w)).toInt = x.toInt * d.toInt * 2 := by
      rw [toInt_mul_of_fits (by omega) (by rw [hmul, htwo]; exact ⟨by omega, by omega⟩), hmul, htwo]
    rw [List.map_cons]
    refine ⟨?_, between_cons.2 ⟨by rw [hdouble]; omega, hbetween⟩⟩
    rw [value_cons, hval, hdouble, value_cons]
    ring

/-- **The columns of a square.** -/
theorem sqrColumns_spec (hbw : b + 6 ≤ w) : ∀ {a : List (BitVec w)}, a ≠ [] → a.length ≤ 9 → Canon b a →
    value b (sqrColumns a) = value b a * value b a ∧
      Between 0 (2 * a.length * 2 ^ (2 * b)) (sqrColumns a) ∧ (sqrColumns a).length + 1 = 2 * a.length
  | [], hne, _, _ => absurd rfl hne
  | [x], _, _, ha => by
    obtain ⟨hx, -⟩ := between_cons.1 ha
    have hmul := toInt_wide_mul (by omega : 0 < w) x x
    have hle := digit_mul_le hx hx
    rw [sqrColumns]
    refine ⟨by simp [hmul], between_cons.2 ⟨by rw [hmul, List.length_singleton]; push_cast; omega, between_nil⟩, rfl⟩
  | x :: y :: as, _, hlen, ha => by
    obtain ⟨hx, has⟩ := between_cons.1 ha
    obtain ⟨hval, hbetween, hlength⟩ := sqrColumns_spec hbw (List.cons_ne_nil y as) (Nat.le_of_succ_le hlen) has
    have hmul := toInt_wide_mul (by omega : 0 < w) x x
    have hle := digit_mul_le hx hx
    have hpos := two_pow_pos (2 * b)
    have hfit := products_fit hbw
    obtain ⟨hrow, hrowb⟩ := doubled_row_spec hbw hx has
    have hterms : 2 * (((y :: as).length : Nat) : Int) * 2 ^ (2 * b) ≤ 18 * 2 ^ (2 * b) := by
      refine mul_le_mul_of_nonneg_right ?_ hpos.le
      have : (y :: as).length ≤ 9 := Nat.le_of_succ_le hlen
      omega
    have hterms0 : 0 ≤ 2 * (((y :: as).length : Nat) : Int) * 2 ^ (2 * b) := by positivity
    have hshift : Between 0 (2 * (y :: as).length * 2 ^ (2 * b)) (0#(2 * w) :: 0#(2 * w) :: sqrColumns (y :: as)) :=
      between_cons.2 ⟨by rw [BitVec.toInt_zero]; omega, between_cons.2 ⟨by rw [BitVec.toInt_zero]; omega, hbetween⟩⟩
    obtain ⟨hsum, hsumb⟩ := addColumns_spec (b := b) (l := 0) (u := 2 * 2 ^ (2 * b)) (by omega) ⟨le_rfl, le_rfl⟩
      ⟨by omega, hterms0⟩ ⟨by omega, by omega⟩ (between_cons.2 ⟨by rw [hmul]; omega, hrowb⟩) hshift
    rw [sqrColumns]
    refine ⟨?_, hsumb.mono (by omega) (le_of_eq ?_), ?_⟩
    · rw [hsum, value_cons, value_cons, value_cons (0#(2 * w)), hrow, hval, hmul, BitVec.toInt_zero, value_cons x]
      ring
    · have hcount : (((x :: y :: as).length : Nat) : Int) = (y :: as).length + 1 := Nat.cast_succ _
      rw [hcount]
      ring
    · rw [length_addColumns]
      simp only [List.length_cons, List.length_map] at hlength ⊢
      omega

theorem carryOut_spec {ts : List (BitVec (2 * f.w))} (hlen : ts.length + 1 = 2 * f.n)
    (hts : Between (-(18 * 2 ^ (2 * f.b))) (18 * 2 ^ (2 * f.b)) ts) {v : Int} (hv : value f.b ts = v) (h0 : 0 ≤ v)
    (h1 : v < f.radix * f.radix) :
    (carryOut f.b ts).length = 2 * f.n ∧ Canon f.b (carryOut f.b ts) ∧ value f.b (carryOut f.b ts) = v := by
  have hfit := products_fit f.spare_bits
  have hdigits := f.digits_fit
  have hpos := two_pow_pos (2 * f.b)
  have hb := f.digit_large
  have hsq : (2 : Int) ^ (2 * f.b) = 2 ^ f.b * 2 ^ f.b := by rw [← pow_add]; congr 1; omega
  have hlength : (carryOut f.b ts).length = 2 * f.n := by rw [carryOut, length_carryOutFrom, hlen]
  obtain ⟨hnormal, hval⟩ := carryOutFrom_spec (m := 18 * 2 ^ (2 * f.b)) (k := 20 * 2 ^ f.b) (c := 0#(2 * f.w)) f.b_lt_w
    (by omega) (by nlinarith) (by nlinarith) (by omega) hts (by rw [BitVec.toInt_zero]; omega)
  rw [BitVec.toInt_zero, zero_add, hv] at hval
  have hradix : f.radix * f.radix = 2 ^ (f.b * (carryOut f.b ts).length) := by
    rw [Format.radix, ← pow_add, hlength]
    congr 1
    ring
  exact ⟨hlength, hnormal.canon (hval.symm ▸ h0) (by rw [← carryOut, ← hradix]; exact hval.symm ▸ h1), hval⟩

variable {a c : f.Digits}

theorem mul_lt_radix (ha : f.Below f.radix a) (hc : f.Below f.radix c) :
    0 ≤ value f.b a * value f.b c ∧ value f.b a * value f.b c < f.radix * f.radix :=
  ⟨mul_nonneg ha.nonneg hc.nonneg, mul_lt_mul'' ha.lt hc.lt ha.nonneg hc.nonneg⟩

/-- **The product** of two numbers, of which one may have digits with a bit too many. -/
theorem mul_loose_spec (hal : a.length = f.n) (ha : Between 0 (2 * 2 ^ f.b) a) (halt : value f.b a < f.radix)
    (hc : f.Below f.radix c) :
    (mul f a c).length = 2 * f.n ∧ Canon f.b (mul f a c) ∧ value f.b (mul f a c) = value f.b a * value f.b c := by
  have hfit := products_fit f.spare_bits
  have hpos := two_pow_pos (2 * f.b)
  have hcl := hc.length
  have hn := f.n_le
  have ha0 := ha.value_nonneg (b := f.b)
  have hterms : (a.length : Int) * (2 * 2 ^ (2 * f.b)) ≤ 9 * (2 * 2 ^ (2 * f.b)) :=
    mul_le_mul_of_nonneg_right (by omega) (by omega)
  have hdigits : ∀ x ∈ a, ∀ y ∈ c, 0 ≤ x.toInt * y.toInt ∧ x.toInt * y.toInt ≤ 2 * 2 ^ (2 * f.b) := by
    intro x hx y hy
    have hxb := ha x hx
    have hyb := hc.canon y hy
    refine ⟨mul_nonneg hxb.1 hyb.1, ?_⟩
    have hle := mul_le_mul hxb.2 (by omega : y.toInt ≤ 2 ^ f.b) hyb.1 (by have := two_pow_pos f.b; omega)
    rwa [mul_assoc, ← pow_add, ← Nat.two_mul] at hle
  obtain ⟨hval, hbetween⟩ := columns_spec (b := f.b) (m := 2 * 2 ^ (2 * f.b)) (a := a) (by have := f.b_lt_w; omega) (by omega)
    (by omega) (fun x hx y hy => by have := hdigits x hx y hy; omega)
  have hlen := length_columns a c (ne_nil_of_length hal) (ne_nil_of_length hcl)
  exact carryOut_spec (by omega) (hbetween.mono (by omega) (by omega)) hval (mul_nonneg ha0 hc.nonneg)
    (mul_lt_mul'' halt hc.lt ha0 hc.nonneg)

theorem mul_spec (ha : f.Below f.radix a) (hc : f.Below f.radix c) :
    (mul f a c).length = 2 * f.n ∧ Canon f.b (mul f a c) ∧ value f.b (mul f a c) = value f.b a * value f.b c :=
  mul_loose_spec ha.length (Between.mono ha.canon le_rfl (by have := two_pow_pos f.b; omega)) ha.lt hc

/-- **Squaring is multiplying by itself.** -/
theorem sqr_eq_mul (ha : f.Below f.radix a) : sqr f a = mul f a a := by
  have hpos := two_pow_pos (2 * f.b)
  have hal := ha.length
  have hn := f.n_le
  obtain ⟨hval, hbetween, hlen⟩ := sqrColumns_spec f.spare_bits (ne_nil_of_length hal) (by omega) ha.canon
  have hterms : 2 * (a.length : Int) * 2 ^ (2 * f.b) ≤ 18 * 2 ^ (2 * f.b) :=
    mul_le_mul_of_nonneg_right (by omega) hpos.le
  obtain ⟨h0, h1⟩ := mul_lt_radix ha ha
  obtain ⟨hl, hc, hv⟩ := carryOut_spec (by omega) (hbetween.mono (by omega) (by omega)) hval h0 h1
  obtain ⟨hl', hc', hv'⟩ := mul_spec ha ha
  exact Canon.eq_of_value_eq hc hc' (hl.trans hl'.symm) (hv.trans hv'.symm)

end Products

/-! ## Reduction -/

section Reduction

variable {f : Format}

/-- A modulus and the negative inverse of its lowest digit. -/
structure Modulus (f : Format) (m : f.Digits) (mp : BitVec f.w) : Prop extends f.Below (2 ^ f.bits) m where
  inverse : (value f.b m * mp.toInt + 1) % 2 ^ f.b = 0

variable {m : f.Digits} {mp : BitVec f.w}

/-- The multiple of the modulus that is added clears the low bits. -/
theorem cleared {x v p k r : Int} (hk : k ∣ r) (hinv : (v * p + 1) % r = 0) : x + x * p % k * v ≡ 0 [ZMOD k] := by
  have hdvd : k ∣ v * p + 1 := hk.trans (Int.dvd_of_emod_eq_zero hinv)
  have hmod : x + x * p % k * v ≡ x + x * p * v [ZMOD k] := ((Int.mod_modEq (x * p) k).mul_right v).add_left x
  have hzero : x + x * p * v ≡ 0 [ZMOD k] := Int.modEq_zero_iff_dvd.2 ⟨x * ((v * p + 1) / k), by
    rw [mul_left_comm, Int.mul_ediv_cancel' hdvd]
    ring⟩
  exact hmod.trans hzero

/-- **One digit of the reduction**: a multiple of the modulus is added, the low bits are cleared, nothing is lost. -/
theorem reduceDigit_spec (hm : Modulus f m mp) {k : Nat} (hk : k ≤ f.b) {B : Int} (hB : 0 ≤ B ∧ B + 3 * 2 ^ f.b ≤ 30 * 2 ^ f.b)
    {t : f.Digits} (hlen : f.n + 1 ≤ t.length) (ht : Between 0 B t) :
    ∃ x hi q, reduceDigit f.b k m mp t = x :: hi ∧ hi.length + 1 = t.length ∧ Between 0 (B + 3 * 2 ^ f.b) hi ∧
      0 ≤ x.toInt ∧ x.toInt % 2 ^ k = 0 ∧ (0 ≤ q ∧ q < 2 ^ k) ∧
      x.toInt % 2 ^ f.b + 2 ^ f.b * value f.b hi = value f.b t + q * value f.b m := by
  have hfit := f.digits_fit
  have hw := f.b_lt_w
  have hpos := two_pow_pos f.b
  have hn := f.two_le_n
  have hb := f.digit_large
  rcases t with _ | ⟨x₀, t⟩
  · simp at hlen
  -- the digit that clears the low bits
  have hq := toInt_mul_and_mask (x := x₀) (y := mp) (by omega : k < f.w)
  have hqb := emod_digit (b := k) (x₀.toInt * mp.toInt)
  have hkb : (2 : Int) ^ k ≤ 2 ^ f.b := pow_le_pow_right₀ (by decide) hk
  obtain ⟨hmul, hmulb⟩ := mulWord_spec (x := x₀ * mp &&& mask f.w k) (l := 0) (u := 2 ^ f.b) (a := m) hw
    (by have := two_pow_pos (f.w - 1); omega) le_rfl hpos.le (by omega) (fun d hd => by
      have hdb := hm.canon d hd
      rw [hq]
      exact ⟨by rw [zero_mul]; exact mul_nonneg hqb.1 hdb.1,
        mul_le_mul (by omega) (by omega) hdb.1 hpos.le⟩)
  rw [hq] at hmul
  obtain ⟨hsum, hsumb⟩ := addColumns_spec (b := f.b) (by omega) ⟨le_rfl, le_rfl⟩ ⟨hB.1, by omega⟩ ⟨by omega, by omega⟩
    ht hmulb
  have hlength := length_addColumns (x₀ :: t) (mulWord f.b m (x₀ * mp &&& mask f.w k))
  rw [length_mulWord, hm.length, Nat.max_eq_left hlen] at hlength
  rw [hmul] at hsum
  rw [reduceDigit, List.headD_cons]
  generalize addColumns (x₀ :: t) (mulWord f.b m (x₀ * mp &&& mask f.w k)) = u at hsum hsumb hlength ⊢
  rcases u with _ | ⟨x, _ | ⟨y, ts⟩⟩
  · simp at hlength
  · simp only [List.length_cons, List.length_nil] at hlength hlen
    omega
  obtain ⟨hx, hrest⟩ := between_cons.1 hsumb
  obtain ⟨hy, hts⟩ := between_cons.1 hrest
  have hcarry := toInt_sshiftRight_div x f.b
  have hc : 0 ≤ x.toInt / 2 ^ f.b ∧ x.toInt / 2 ^ f.b ≤ 30 := ediv_between ⟨by omega, by omega⟩
  have hyc : (y + x.sshiftRight f.b).toInt = y.toInt + x.toInt / 2 ^ f.b := by
    rw [toInt_add_of_fits (by omega) (by rw [hcarry]; exact ⟨by omega, by omega⟩), hcarry]
  have hdiv := Int.emod_add_mul_ediv x.toInt (2 ^ f.b)
  rw [value_cons, value_cons y] at hsum
  refine ⟨x, (y + x.sshiftRight f.b) :: ts, x₀.toInt * mp.toInt % 2 ^ k, rfl, ?_, ?_, by omega, ?_, ⟨hqb.1, by omega⟩, ?_⟩
  · simpa using hlength
  · exact between_cons.2 ⟨by rw [hyc]; omega, hts.mono (by omega) (by omega)⟩
  · have hx₀ : x.toInt ≡ x₀.toInt + x₀.toInt * mp.toInt % 2 ^ k * value f.b m [ZMOD 2 ^ k] :=
      Int.modEq_iff_dvd.2 ((pow_dvd_pow 2 hk).trans ⟨y.toInt + 2 ^ f.b * value f.b ts - value f.b t, by
        rw [value_cons] at hsum
        linear_combination -hsum⟩)
    exact Int.emod_eq_zero_of_dvd (Int.modEq_zero_iff_dvd.1 (hx₀.trans (cleared (pow_dvd_pow 2 hk) hm.inverse)))
  · rw [value_cons (y + x.sshiftRight f.b), hyc]
    linear_combination hdiv + hsum

/-- **The digits below the last one.** -/
theorem reduceDigits_spec (hm : Modulus f m mp) : ∀ (i : Nat) {B : Int} {t : f.Digits}, 0 ≤ B →
    B + 3 * i * 2 ^ f.b ≤ 30 * 2 ^ f.b → f.n + i ≤ t.length → Between 0 B t →
    ∃ q, (reduceDigits f.b m mp i t).length + i = t.length ∧
      Between 0 (B + 3 * i * 2 ^ f.b) (reduceDigits f.b m mp i t) ∧ (0 ≤ q ∧ q < 2 ^ (f.b * i)) ∧
      2 ^ (f.b * i) * value f.b (reduceDigits f.b m mp i t) = value f.b t + q * value f.b m
  | 0, B, t, hB, _, _, ht => ⟨0, rfl, ht.mono le_rfl (by simp), by simp, by simp [reduceDigits]⟩
  | i + 1, B, t, hB, hBi, hlen, ht => by
    have hpos := two_pow_pos f.b
    have hi : 0 ≤ 3 * (i : Int) * 2 ^ f.b := by positivity
    push_cast at hBi ⊢
    have hsplit : B + 3 * ((i : Int) + 1) * 2 ^ f.b = B + 3 * 2 ^ f.b + 3 * i * 2 ^ f.b := by ring
    rw [hsplit] at hBi ⊢
    obtain ⟨x, hi', q, heq, hl, hb, hx, hclear, hq, hval⟩ :=
      reduceDigit_spec hm (k := f.b) le_rfl ⟨hB, by omega⟩ (by omega) ht
    rw [hclear, zero_add] at hval
    obtain ⟨q', hl', hb', hq', hval'⟩ := reduceDigits_spec hm i (by omega) hBi (by omega) hb
    rw [reduceDigits, heq, List.tail_cons]
    have hpow : (2 : Int) ^ (f.b * (i + 1)) = 2 ^ f.b * 2 ^ (f.b * i) := by rw [Nat.mul_succ, pow_add, mul_comm]
    refine ⟨q + 2 ^ f.b * q', by omega, hb', ⟨add_nonneg hq.1 (mul_nonneg hpos.le hq'.1), ?_⟩, ?_⟩
    · have := mul_le_mul_of_nonneg_left (Int.add_one_le_of_lt hq'.2) hpos.le
      rw [hpow]
      linarith [hq.2]
    · rw [hpow]
      linear_combination 2 ^ f.b * hval' + hval

theorem toNat_add_shiftLeft {w s B C : Nat} (hfit : C + B * 2 ^ s < 2 ^ w) {d n : BitVec w}
    (hd : 0 ≤ d.toInt ∧ d.toInt ≤ B) (hn : n.toNat ≤ C) :
    (n + (d <<< s)).toNat = n.toNat + d.toNat * 2 ^ s ∧ n.toNat + d.toNat * 2 ^ s ≤ C + B * 2 ^ s := by
  have hdn := toNat_of_nonneg hd.1
  have hle : d.toNat * 2 ^ s ≤ B * 2 ^ s := Nat.mul_le_mul_right _ (by omega)
  refine ⟨?_, by omega⟩
  rw [BitVec.toNat_add, BitVec.toNat_shiftLeft, Nat.shiftLeft_eq, Nat.mod_eq_of_lt (by omega : d.toNat * 2 ^ s < 2 ^ w),
    Nat.mod_eq_of_lt (by omega)]

/-- **The shift down**: with nothing lost on the way, the digits are those of the number `s` bits up. -/
theorem montShift_spec {w b s B C : Nat} (hbw : b < w) (hfit : C + B * 2 ^ s < 2 ^ w) (hC : C + B * 2 ^ s ≤ C * 2 ^ b) :
    ∀ {ds : List (BitVec w)} {n : BitVec w}, ds ≠ [] → Between 0 B ds → n.toNat ≤ C →
      n.toNat + 2 ^ s * value b ds < 2 ^ (b * (ds.length - 1)) * 2 ^ (w - 1) →
      Normal b (montShift b s n ds) ∧ value b (montShift b s n ds) = n.toNat + 2 ^ s * value b ds ∧
        (montShift b s n ds).length = ds.length
  | [], _, hne, _, _, _ => absurd rfl hne
  | [d], n, _, hds, hn, hlt => by
    obtain ⟨hd, -⟩ := between_cons.1 hds
    obtain ⟨hsum, -⟩ := toNat_add_shiftLeft hfit hd hn
    have hdn := toNat_of_nonneg hd.1
    simp only [value_cons, value_nil, List.length_singleton, Nat.sub_self, pow_zero, one_mul, mul_zero,
      add_zero, ← hdn] at hlt ⊢
    have hhalf : 2 * 2 ^ (w - 1) = 2 ^ w := by rw [← Nat.pow_succ']; congr 1; omega
    have hnat : n.toNat + d.toNat * 2 ^ s < 2 ^ (w - 1) := by rw [mul_comm]; exact_mod_cast hlt
    have hint := toInt_of_toNat (by omega) hsum
    rw [montShift]
    refine ⟨⟨[], _, rfl, between_nil⟩, ?_, rfl⟩
    rw [value_cons, hint, value_nil]
    push_cast
    ring
  | d :: e :: ds, n, _, hds, hn, hlt => by
    obtain ⟨hd, hds⟩ := between_cons.1 hds
    obtain ⟨hsum, hle⟩ := toNat_add_shiftLeft hfit hd hn
    have hdn := toNat_of_nonneg hd.1
    have hpos := two_pow_pos b
    have hmask : ((n + (d <<< s)) &&& mask w b).toInt = ((n.toNat + d.toNat * 2 ^ s : Nat) : Int) % 2 ^ b := by
      rw [toInt_and_mask hbw, ← toNat_emod (Nat.le_of_lt hbw), hsum]
    have hnext : ((n + (d <<< s)) >>> b).toNat = (n.toNat + d.toNat * 2 ^ s) / 2 ^ b := by
      rw [BitVec.toNat_ushiftRight, Nat.shiftRight_eq_div_pow, hsum]
    have hdiv := Int.emod_add_mul_ediv ((n.toNat + d.toNat * 2 ^ s : Nat) : Int) (2 ^ b)
    have hnext' : (((n + (d <<< s)) >>> b).toNat : Int) = ((n.toNat + d.toNat * 2 ^ s : Nat) : Int) / 2 ^ b := by
      rw [hnext]
      push_cast
      rfl
    have hmod := emod_digit (b := b) ((n.toNat + d.toNat * 2 ^ s : Nat) : Int)
    have htotal : 2 ^ b * ((((n + (d <<< s)) >>> b).toNat : Int) + 2 ^ s * value b (e :: ds)) +
        ((n.toNat + d.toNat * 2 ^ s : Nat) : Int) % 2 ^ b = n.toNat + 2 ^ s * value b (d :: e :: ds) := by
      rw [hnext', value_cons d, ← hdn]
      push_cast at hdiv ⊢
      linear_combination hdiv
    obtain ⟨hnormal, hval, hlen⟩ := montShift_spec hbw hfit hC (List.cons_ne_nil e ds) hds
      (by rw [hnext]; exact Nat.div_le_of_le_mul ((hle.trans hC).trans_eq (Nat.mul_comm _ _))) (by
        refine lt_of_mul_lt_mul_left ?_ hpos.le
        have hpow : (2 : Int) ^ (b * ((d :: e :: ds).length - 1)) = 2 ^ b * 2 ^ (b * ((e :: ds).length - 1)) := by
          have hlen : (d :: e :: ds).length - 1 = (e :: ds).length - 1 + 1 := rfl
          rw [hlen, Nat.mul_succ, pow_add, mul_comm]
        rw [hpow] at hlt
        linarith)
    rw [montShift]
    refine ⟨hnormal.cons (by rw [hmask]; exact hmod), ?_, congrArg (· + 1) hlen⟩
    rw [value_cons, hval, hmask]
    linarith

/-- The bits of a number: those of the digits below the top one, and those of the top one. -/
theorem Format.two_pow_bits (f : Format) : (2 : Int) ^ f.bits = 2 ^ (f.b * (f.n - 1)) * 2 ^ (f.b - f.s) := by
  have hs := f.s_lt_b
  obtain ⟨k, hk⟩ : ∃ k, f.n = k + 1 := ⟨f.n - 1, by have := f.two_le_n; omega⟩
  have hbits : f.bits = f.b * (f.n - 1) + (f.b - f.s) := by
    rw [Format.bits, hk, Nat.add_sub_cancel, Nat.mul_succ]
    omega
  rw [hbits, pow_add]

/-- What one bit more than a number has still fits its digits. -/
theorem Format.two_mul_bits_le (f : Format) : 2 * (2 : Int) ^ f.bits ≤ f.radix := by
  have hs := f.one_le_s
  have hadd := f.bits_add
  rw [← pow_succ', Format.radix]
  exact pow_le_pow_right₀ (by decide) (by omega)

theorem Format.bits_le_radix (f : Format) : (2 : Int) ^ f.bits ≤ f.radix := by
  have := f.two_mul_bits_le
  have := two_pow_pos f.bits
  omega

/-- The shift down has room in an unsigned word. -/
theorem Format.shift_fit (f : Format) : 32 * 2 ^ f.s + 28 * 2 ^ f.b * 2 ^ f.s < 2 ^ f.w ∧
    32 * 2 ^ f.s + 28 * 2 ^ f.b * 2 ^ f.s ≤ 32 * 2 ^ f.s * 2 ^ f.b := by
  have hb : 32 ≤ 2 ^ f.b := by exact_mod_cast f.digit_large
  have hpos := Nat.two_pow_pos f.s
  have hle : 32 * 2 ^ f.s * 2 ^ f.b ≤ 2 ^ f.w := by
    calc 32 * 2 ^ f.s * 2 ^ f.b = 2 ^ (f.b + f.s + 5) := by ring
      _ ≤ 2 ^ f.w := Nat.pow_le_pow_right (by decide) f.spare
  have hmul := Nat.mul_le_mul_right (2 ^ f.s) hb
  have hassoc : 28 * 2 ^ f.b * 2 ^ f.s = 28 * (2 ^ f.b * 2 ^ f.s) := Nat.mul_assoc _ _ _
  have hassoc' : 32 * 2 ^ f.s * 2 ^ f.b = 32 * (2 ^ f.b * 2 ^ f.s) := by ring
  omega

/-- The top digit of a number, without the bits it may have, says what is over. -/
theorem top_over {r : f.Digits} (hlen : r.length = f.n) (hr : Canon f.b r) :
    ((top r).sshiftRight (f.b - f.s)).toInt = value f.b r / 2 ^ f.bits := by
  have hn := f.two_le_n
  obtain ⟨l, u, rfl⟩ : ∃ l u, r = l ++ [u] :=
    ⟨_, _, (List.dropLast_concat_getLast (by rintro rfl; simp at hlen; omega)).symm⟩
  have hl : l.length = f.n - 1 := by
    simp only [List.length_append, List.length_singleton] at hlen
    omega
  rw [toInt_sshiftRight_div, top, List.getLastD_concat, last_eq_ediv (between_append.1 hr).1, hl, f.two_pow_bits,
    Int.ediv_ediv_of_nonneg (two_pow_pos _).le]

/-- **The last subtraction**: what has a bit over loses the modulus once. -/
theorem subOver_spec (hm : Modulus f m mp) {C : Int} (hC : 2 ^ f.bits ≤ C ∧ C ≤ f.radix) {r : f.Digits}
    (hr : f.Below (C + value f.b m) r) :
    let u := norm f.b (condSub r m (overMask ((top r).sshiftRight (f.b - f.s))))
    f.Below C u ∧ value f.b u ≡ value f.b r [ZMOD value f.b m] := by
  have hfit := f.digits_fit
  have hw := f.spare_bits
  have hpos := two_pow_pos f.b
  have hK := two_pow_pos f.bits
  have hover := top_over hr.length hr.canon
  have hr0 := hr.nonneg
  have hsame : r.length = m.length := hr.length.trans hm.length.symm
  have hm0 := hm.nonneg
  have hrlt := hr.lt
  simp only
  rw [overMask_eq (by omega) (by rw [hover]; exact Int.ediv_nonneg hr0 hK.le), hover]
  split
  · rename_i h0
    have hlt : value f.b r < 2 ^ f.bits := by
      have hdiv := Int.emod_add_mul_ediv (value f.b r) (2 ^ f.bits)
      have hmod := Int.emod_lt_of_pos (value f.b r) hK
      rw [h0, mul_zero, add_zero] at hdiv
      omega
    rw [condSub_zero hsame, norm_of_canon hr.length hr.canon]
    exact ⟨⟨hr.length, hr.canon, hlt.trans_le hC.1⟩, rfl⟩
  · rename_i h1
    have hge : 2 ^ f.bits ≤ value f.b r := by
      by_contra hcon
      exact h1 (Int.ediv_eq_zero_of_lt hr0 (by omega))
    have hmlt := hm.lt
    rw [condSub_ones]
    obtain ⟨hbelow, hval⟩ := norm_sub_spec hC.2 hr.below_radix hm.below_radix (by omega) (by omega)
    refine ⟨hbelow, ?_⟩
    rw [hval]
    exact Int.modEq_iff_dvd.2 ⟨1, by ring⟩

/-- **All digits cleared**: what is left above them, and the bits of the last digit that were not to be cleared. -/
theorem reduced_spec (hm : Modulus f m mp) {a : f.Digits} (hlen : a.length = 2 * f.n) (ha : Canon f.b a) :
    ∃ x hi q, reduceDigit f.b (f.b - f.s) m mp
        (reduceDigits f.b m mp (f.n - 1) (a.take f.n ++ norm f.b (a.drop f.n))) = x :: hi ∧
      hi.length = f.n ∧ Between 0 (28 * 2 ^ f.b) hi ∧ (0 ≤ q ∧ q < 2 ^ f.bits) ∧
      x.toInt % 2 ^ f.b % 2 ^ (f.b - f.s) = 0 ∧
      2 ^ (f.b * (f.n - 1)) * (x.toInt % 2 ^ f.b + 2 ^ f.b * value f.b hi) = value f.b a + q * value f.b m := by
  have hpos := two_pow_pos f.b
  have hn := f.two_le_n
  have hn9 := f.n_le
  have hnorm : a.take f.n ++ norm f.b (a.drop f.n) = a := by
    rw [norm_of_canon (by rw [List.length_drop]; omega) (ha.drop _), List.take_append_drop]
  have hterms : 3 * ((f.n - 1 : Nat) : Int) * 2 ^ f.b ≤ 24 * 2 ^ f.b :=
    mul_le_mul_of_nonneg_right (by omega) hpos.le
  have hterms0 : 0 ≤ 3 * ((f.n - 1 : Nat) : Int) * 2 ^ f.b := by positivity
  obtain ⟨q, hl, hb, hq, hval⟩ := reduceDigits_spec hm (f.n - 1) (by omega) (by omega) (by omega) ha
  rw [hnorm]
  obtain ⟨x, hi, q', heq, hl', hb', hx, hclear, hq', hval'⟩ := reduceDigit_spec hm (k := f.b - f.s) (Nat.sub_le _ _)
    ⟨by omega, by omega⟩ (by omega) hb
  refine ⟨x, hi, q + 2 ^ (f.b * (f.n - 1)) * q', heq, by omega, hb'.mono le_rfl (by omega), ⟨?_, ?_⟩, ?_, ?_⟩
  · exact add_nonneg hq.1 (mul_nonneg (two_pow_pos _).le hq'.1)
  · have := mul_le_mul_of_nonneg_left (Int.add_one_le_of_lt hq'.2) (two_pow_pos (f.b * (f.n - 1))).le
    rw [f.two_pow_bits]
    linarith [hq.2]
  · rw [Int.emod_emod_of_dvd _ (pow_dvd_pow 2 (Nat.sub_le _ _)), hclear]
  · linear_combination 2 ^ (f.b * (f.n - 1)) * hval' + hval

/-- **Montgomery reduction** of a number of twice the bits, or not much more: `C` is what the result stays below. -/
theorem montReduceOrder_spec (hm : Modulus f m mp) {C : Int} (hC : 2 ^ f.bits ≤ C ∧ C + value f.b m ≤ 2 * 2 ^ f.bits)
    {a : f.Digits} (hlen : a.length = 2 * f.n) (ha : Canon f.b a) (hlt : value f.b a < 2 ^ f.bits * C) :
    f.Below C (montReduceOrder f a m mp) ∧
      2 ^ f.bits * value f.b (montReduceOrder f a m mp) ≡ value f.b a [ZMOD value f.b m] := by
  have hpos := two_pow_pos f.b
  have hK := two_pow_pos f.bits
  have hw := f.spare_bits
  have hsb := f.s_lt_b
  have hlarge := f.digit_large
  have hspare := f.spare
  obtain ⟨x, hi, q, heq, hl, hb, hq, hclear, hval⟩ := reduced_spec hm hlen ha
  -- the bits of the last digit that stay, as an unsigned word
  have hmask := toInt_and_mask (x := x) f.b_lt_w
  have hrest := emod_digit (b := f.b) x.toInt
  have hn := toInt_sshiftRight_div (x &&& mask f.w f.b) (f.b - f.s)
  rw [hmask] at hn
  have hexact : 2 ^ (f.b - f.s) * (x.toInt % 2 ^ f.b / 2 ^ (f.b - f.s)) = x.toInt % 2 ^ f.b :=
    Int.mul_ediv_cancel' (Int.dvd_of_emod_eq_zero hclear)
  have hsplit : (2 : Int) ^ f.b = 2 ^ (f.b - f.s) * 2 ^ f.s := by rw [← pow_add]; congr 1; omega
  have hn0 : 0 ≤ x.toInt % 2 ^ f.b / 2 ^ (f.b - f.s) := Int.ediv_nonneg hrest.1 (two_pow_pos _).le
  have hn1 : x.toInt % 2 ^ f.b / 2 ^ (f.b - f.s) < 2 ^ f.s := by
    rw [Int.ediv_lt_iff_lt_mul (two_pow_pos _), mul_comm, ← hsplit]
    omega
  have hnat := toNat_of_nonneg (x := (x &&& mask f.w f.b).sshiftRight (f.b - f.s)) (by rw [hn]; exact hn0)
  rw [hn] at hnat
  -- the number itself
  have hR : 2 ^ f.bits * (x.toInt % 2 ^ f.b / 2 ^ (f.b - f.s) + 2 ^ f.s * value f.b hi) =
      value f.b a + q * value f.b m := by
    rw [f.two_pow_bits]
    linear_combination hval + 2 ^ (f.b * (f.n - 1)) * hexact - 2 ^ (f.b * (f.n - 1)) * value f.b hi * hsplit
  have hRlt : x.toInt % 2 ^ f.b / 2 ^ (f.b - f.s) + 2 ^ f.s * value f.b hi < C + value f.b m := by
    refine lt_of_mul_lt_mul_left ?_ hK.le
    have := mul_le_mul_of_nonneg_right hq.2.le hm.canon.value_bounds.1
    rw [hR, mul_add]
    linarith
  have hR0 : 0 ≤ x.toInt % 2 ^ f.b / 2 ^ (f.b - f.s) + 2 ^ f.s * value f.b hi :=
    add_nonneg hn0 (mul_nonneg (two_pow_pos _).le hb.value_nonneg)
  have hbits := f.two_mul_bits_le
  have hmlt := hm.lt
  have hne : hi ≠ [] := by
    rintro rfl
    have := f.two_le_n
    simp at hl
    omega
  obtain ⟨hfit, hshift⟩ := f.shift_fit
  have hnC : ((x &&& mask f.w f.b).sshiftRight (f.b - f.s)).toNat ≤ 32 * 2 ^ f.s := by
    have hlt' : (((x &&& mask f.w f.b).sshiftRight (f.b - f.s)).toNat : Int) < ((2 ^ f.s : Nat) : Int) := by
      rw [hnat]
      push_cast
      exact hn1
    omega
  obtain ⟨hnormal, hvalue, hlength⟩ := montShift_spec f.b_lt_w hfit hshift hne (by push_cast; exact hb) hnC (by
    have hpow : (2 : Int) ^ (f.b * (f.n - 1)) * (2 * 2 ^ (f.b - f.s)) ≤ 2 ^ (f.b * (f.n - 1)) * 2 ^ (f.w - 1) := by
      refine mul_le_mul_of_nonneg_left ?_ (two_pow_pos _).le
      rw [← pow_succ']
      exact pow_le_pow_right₀ (by decide) (by omega)
    have := f.two_pow_bits
    rw [hnat, hl]
    linarith)
  rw [hnat] at hvalue
  rw [hl] at hlength
  have hcanon := hnormal.canon (by rw [hvalue]; exact hR0) (by
    rw [hvalue, hlength, ← Format.radix]
    linarith)
  have hmn := hm.nonneg
  obtain ⟨hu, humod⟩ := subOver_spec hm ⟨hC.1, by omega⟩ ⟨hlength, hcanon, by rw [hvalue]; exact hRlt⟩
  have hdef : montReduceOrder f a m mp = norm f.b (condSub
      (montShift f.b f.s ((x &&& mask f.w f.b).sshiftRight (f.b - f.s)) hi) m
      (overMask ((top (montShift f.b f.s ((x &&& mask f.w f.b).sshiftRight (f.b - f.s)) hi)).sshiftRight (f.b - f.s)))) := by
    rw [montReduceOrder, heq]
  rw [hdef]
  refine ⟨hu, (humod.mul_left _).trans ?_⟩
  rw [hvalue, hR]
  exact Int.modEq_iff_dvd.2 ⟨-q, by ring⟩

variable {a c : f.Digits}

/-- **The Montgomery product.** -/
theorem montMulOrder_spec (hm : Modulus f m mp) {C : Int} (hC : 2 ^ f.bits ≤ C ∧ C + value f.b m ≤ 2 * 2 ^ f.bits)
    (ha : f.Below C a) (hc : f.Below (2 ^ f.bits) c) :
    f.Below C (montMulOrder f m mp a c) ∧
      2 ^ f.bits * value f.b (montMulOrder f m mp a c) ≡ value f.b a * value f.b c [ZMOD value f.b m] := by
  have hbits := f.two_mul_bits_le
  have hmn := hm.nonneg
  obtain ⟨hl, hcanon, hval⟩ := mul_spec (ha.mono (by omega)) (hc.mono f.bits_le_radix)
  rw [← hval]
  refine montReduceOrder_spec hm hC hl hcanon ?_
  rw [hval, mul_comm]
  exact mul_lt_mul'' hc.lt ha.lt hc.nonneg ha.nonneg

theorem montSqrOrder_eq (ha : f.Below (2 ^ f.bits) a) : montSqrOrder f m mp a = montMulOrder f m mp a a := by
  rw [montSqrOrder, montMulOrder, sqr_eq_mul (ha.mono f.bits_le_radix)]

end Reduction

end Sp
end Wolf
