import Mathlib.Data.Int.ModEq
import WolfsslRs.SpDigits
/-!
# SpDivide — remainders by a divisor with a large top word (wolfssl-src, patches/sp_c64.c)

`sp_256_div_5`, `sp_384_div_7` and `sp_521_div_9` are one algorithm.  Divisor and dividend are shifted until the divisor
fills its top word; a window of one more digit than the divisor then moves down the dividend.  The top digit of the window
is taken for the quotient digit, once or twice, which leaves at most one divisor too much: that one is subtracted if the
top digit says so.  The carry of the lowest digit of a window is passed on only in the next window.

For a divisor that is not too close below the radix the remainder is right (`div_spec`).
-/
namespace Wolf
namespace Sp

open Words Limbs

variable {w b : Nat}

/-- The carries are passed on from the second word on. -/
def skipNorm (b : Nat) : List (BitVec w) → List (BitVec w)
  | [] => []
  | d :: ds => d :: norm b ds

def top (t : List (BitVec w)) : BitVec w := t.getLastD 0#w

/-- The window less its top digit times the divisor. -/
def pass (b : Nat) (sd t : List (BitVec w)) : List (BitVec w) := skipNorm b (sub t (mulWord b sd (top t)))

def passes (b : Nat) (sd : List (BitVec w)) : Nat → List (BitVec w) → List (BitVec w)
  | 0, t => t
  | k + 1, t => passes b sd k (pass b sd t)

/-- One turn of the loop: the digits `hi` the turn before left, below them the next digit of the dividend.  What the turn
leaves in the top word is not read again. -/
def window (b k : Nat) (sd : List (BitVec w)) (x : BitVec w) (hi : List (BitVec w)) : List (BitVec w) :=
  let t := passes b sd k (x :: hi)
  (skipNorm b (condSub (t.take sd.length) sd (overMask (top t)) ++ [top t])).take sd.length

/-- A number that went below zero gets the divisor back: the correction `sp_521_div_9` alone has. -/
def addBack (b : Nat) (sd t : List (BitVec w)) : List (BitVec w) :=
  norm b (condAdd t sd ((top t).sshiftRight (w - 1)))

/-- The division with `k` passes in each window.  The shift leaves digits already, so that the mask the source puts on the
top one changes nothing; the word above it is not read. -/
def div (f : Format) (k : Nat) (fix : f.Digits → f.Digits → f.Digits) (a d : f.Digits) : f.Digits :=
  let sd := (mulWord f.b d (1#f.w <<< f.s)).take f.n
  let t1 := lshift f.b f.s a
  let r := (t1.take f.n).foldr (window f.b k sd) ((t1.drop f.n).take f.n)
  rshift f.b f.s (fix sd (norm f.b r))

/-! ## The divisors it is made for -/

/-- A bound for the top digit after some passes, for a divisor `e` below the radix. -/
def topBound (f : Format) (e : Int) : Nat → Int
  | 0 => 2 ^ f.b - 1
  | k + 1 => 1 + ((topBound f e k + 1) * e + 8 * 2 ^ f.b) / f.radix

/-- A shifted divisor for which `k` passes will do. -/
structure Shifted (f : Format) (k : Nat) (sd : f.Digits) : Prop where
  length : sd.length = f.n
  between : Between 0 (2 * 2 ^ f.b - 1) sd
  /-- It is far enough below the radix for the digits that are borrowed from. -/
  gap : 8 * 2 ^ (2 * f.b) ≤ f.radix - value f.b sd
  one_le : 1 ≤ k
  le_two : k ≤ 2
  first_le : topBound f (f.radix - value f.b sd) 1 ≤ 2 ^ f.b - 1
  top_le : topBound f (f.radix - value f.b sd) k ≤ 1

/-- A window: its lowest digit `x`, the digits `l` above it and the top digit `t`.  The lowest digit has been borrowed from
`c` times; `τ` bounds the top one. -/
structure Window (f : Format) (c lo τ : Int) (x : BitVec f.w) (l : f.Digits) (t : BitVec f.w) : Prop where
  length : l.length + 1 = f.n
  head : -(c * 2 ^ f.b) ≤ x.toInt ∧ x.toInt ≤ 2 ^ f.b - 1
  limbs : Between lo (2 ^ f.b - 1) l
  top : 0 ≤ t.toInt ∧ t.toInt ≤ τ
  low : -(8 * 2 ^ (2 * f.b)) ≤ value f.b (x :: l)
  nonneg : 0 ≤ value f.b (x :: (l ++ [t]))

section Steps

variable {f : Format} {k : Nat} {sd : f.Digits}

theorem top_concat (x : BitVec w) (l : List (BitVec w)) (t : BitVec w) : top (x :: (l ++ [t])) = t := by
  rw [top, ← List.cons_append, List.getLastD_concat]

theorem window_value {x t : BitVec f.w} {l : f.Digits} (hlen : l.length + 1 = f.n) :
    value f.b (x :: (l ++ [t])) = value f.b (x :: l) + f.radix * t.toInt := by
  rw [← List.cons_append, value_concat, List.length_cons, hlen, Format.radix]

theorem low_lt_radix {lo : Int} {x : BitVec f.w} {l : f.Digits} (hlen : l.length + 1 = f.n)
    (hx : x.toInt ≤ 2 ^ f.b - 1) (hl : Between lo (2 ^ f.b - 1) l) : value f.b (x :: l) < f.radix := by
  have hlt := mul_le_mul_of_nonneg_left (Int.add_one_le_of_lt hl.value_lt) (two_pow_pos f.b).le
  have hradix : f.radix = 2 ^ f.b * 2 ^ (f.b * l.length) := by
    rw [Format.radix, ← hlen, Nat.mul_succ, pow_add, mul_comm]
  rw [value_cons, hradix]
  linarith

theorem mulDigit_spec (hs : Shifted f k sd) {t : BitVec f.w} (ht : 0 ≤ t.toInt ∧ t.toInt ≤ 2 ^ f.b - 1) :
    value f.b (mulWord f.b sd t) = t.toInt * value f.b sd ∧ Between 0 (3 * 2 ^ f.b - 1) (mulWord f.b sd t) := by
  have hfit := f.digits_fit
  have hpos := two_pow_pos f.b
  obtain ⟨hval, hbetween⟩ := mulWord_spec (x := t) (l := 0) (u := 2 * 2 ^ f.b) (a := sd) f.b_lt_w
    (by have := two_pow_pos (f.w - 1); omega) le_rfl (by omega) (by omega) (fun d hd => by
      have hdb := hs.between d hd
      refine ⟨by rw [zero_mul]; exact mul_nonneg ht.1 hdb.1, ?_⟩
      nlinarith [mul_nonneg ht.1 hdb.1, ht.2, hdb.2])
  exact ⟨hval, hbetween.mono le_rfl (by omega)⟩

/-- The lowest digit, the digits and the top of a window whose carries were passed on above the lowest digit. -/
theorem skipNorm_spec {x : BitVec f.w} {t : f.Digits} (hlen : t.length = f.n)
    (ht : Between (-(12 * 2 ^ f.b)) (12 * 2 ^ f.b) t) :
    ∃ l u, skipNorm f.b (x :: t) = x :: (l ++ [u]) ∧ l.length + 1 = f.n ∧ Canon f.b l ∧
      value f.b (x :: (l ++ [u])) = value f.b (x :: t) := by
  have hfit := f.digits_fit
  have hpos := two_pow_pos f.b
  have hne : t ≠ [] := by
    rintro rfl
    have := f.two_le_n
    simp at hlen
    omega
  obtain ⟨⟨l, u, heq, hl⟩, hval⟩ := norm_spec (m := 12 * 2 ^ f.b) f.one_le_b f.b_lt_w (by omega) hne ht
  refine ⟨l, u, by rw [skipNorm, heq], ?_, hl, by rw [value_cons, ← heq, hval, value_cons]⟩
  have := length_norm (b := f.b) t
  rw [heq] at this
  simpa [hlen] using this

theorem top_bounds {low v t : Int} {τ : Int} (heq : v = low + f.radix * t) (h0 : 0 ≤ v) (hlt : low < f.radix)
    (hle : v < low + f.radix * (τ + 1)) : 0 ≤ t ∧ t ≤ τ := by
  have hpos := f.radix_pos
  constructor
  · by_contra hneg
    have := mul_le_mul_of_nonneg_left (by omega : t ≤ -1) hpos.le
    linarith
  · have : f.radix * t < f.radix * (τ + 1) := by linarith
    exact Int.le_of_lt_add_one (lt_of_mul_lt_mul_left this hpos.le)

/-- What a pass computes: the window less its top digit times the divisor, with one more borrow in the lowest digit. -/
theorem pass_value (hs : Shifted f k sd) {c lo τ : Int} {x t : BitVec f.w} {l : f.Digits} (h : Window f c lo τ x l t)
    (hc : c ≤ 5) (hlo : -(8 * 2 ^ f.b) ≤ lo) (hτ : τ ≤ 2 ^ f.b - 1) :
    ∃ x' l' t', pass f.b sd (x :: (l ++ [t])) = x' :: (l' ++ [t']) ∧ l'.length + 1 = f.n ∧ Canon f.b l' ∧
      (-((c + 3) * 2 ^ f.b) ≤ x'.toInt ∧ x'.toInt ≤ 2 ^ f.b - 1) ∧
      value f.b (x' :: (l' ++ [t'])) = value f.b (x :: (l ++ [t])) - t.toInt * value f.b sd := by
  have hfit := f.digits_fit
  have hw := f.b_lt_w
  have hpos := two_pow_pos f.b
  have hx := h.head
  have hc5 := mul_le_mul_of_nonneg_right hc hpos.le
  obtain ⟨hmul, hbetween⟩ := mulDigit_spec hs (t := t) ⟨h.top.1, h.top.2.trans hτ⟩
  have hlen : (mulWord f.b sd t).length = f.n + 1 := by rw [length_mulWord, hs.length]
  have hwin : Between (-(8 * 2 ^ f.b)) (2 ^ f.b - 1) (x :: (l ++ [t])) := by
    have ht := h.top
    exact between_cons.2 ⟨⟨by omega, hx.2⟩, between_append.2 ⟨h.limbs.mono hlo le_rfl,
      between_cons.2 ⟨⟨by omega, by omega⟩, between_nil⟩⟩⟩
  have hpass : pass f.b sd (x :: (l ++ [t])) = skipNorm f.b (sub (x :: (l ++ [t])) (mulWord f.b sd t)) := by
    rw [pass, top_concat]
  rcases hprod : mulWord f.b sd t with _ | ⟨y, ys⟩
  · rw [hprod] at hlen
    cases hlen
  rw [hprod] at hlen hbetween hmul hpass
  have hlen' : (x :: (l ++ [t])).length = (y :: ys).length := by
    rw [hlen, ← h.length]
    simp
  obtain ⟨hval, hdiff⟩ := zipWith_sub (b := f.b) (by omega) (by omega) (by omega) hlen' hwin hbetween
  rw [List.zipWith_cons_cons] at hval hdiff
  have hhead : (x - y).toInt = x.toInt - y.toInt :=
    toInt_sub_of_fits (by omega) (by have := (between_cons.1 hbetween).1; exact ⟨by omega, by omega⟩)
  have hzip : (List.zipWith (· - ·) (l ++ [t]) ys).length = f.n := by
    have hys := Nat.succ.inj hlen
    have hl := h.length
    simp only [List.length_zipWith, List.length_append, List.length_singleton]
    omega
  obtain ⟨l', t', heq, hl', hcanon, hval'⟩ :=
    skipNorm_spec (x := x - y) hzip ((between_cons.1 hdiff).2.mono (by omega) (by omega))
  refine ⟨x - y, l', t', hpass.trans heq, hl', hcanon, ?_, by rw [hval', hval, hmul]⟩
  have hy := (between_cons.1 hbetween).1
  rw [hhead, add_mul]
  exact ⟨by omega, by omega⟩

/-- **One pass** takes away a multiple of the divisor and brings the top digit down. -/
theorem pass_spec (hs : Shifted f k sd) {c lo τ τ' : Int} {x t : BitVec f.w} {l : f.Digits}
    (h : Window f c lo τ x l t) (hc : c ≤ 5) (hlo : -(8 * 2 ^ f.b) ≤ lo) (hτ : τ ≤ 2 ^ f.b - 1)
    (hτ' : (τ + 1) * (f.radix - value f.b sd) + 8 * 2 ^ f.b < τ' * f.radix) :
    ∃ x' l' t', pass f.b sd (x :: (l ++ [t])) = x' :: (l' ++ [t']) ∧ Window f (c + 3) 0 τ' x' l' t' ∧
      value f.b (x' :: (l' ++ [t'])) ≡ value f.b (x :: (l ++ [t])) [ZMOD value f.b sd] ∧
      value f.b (x' :: (l' ++ [t'])) < f.radix + τ * (f.radix - value f.b sd) := by
  obtain ⟨x', l', t', hpass, hlen, hcanon, hhead, hval⟩ := pass_value hs h hc hlo hτ
  have hpos := two_pow_pos f.b
  have hgap := hs.gap
  have hsq : (2 : Int) ^ f.b ≤ 2 ^ (2 * f.b) := pow_le_pow_right₀ (by decide) (by omega)
  have hgap0 : 0 ≤ f.radix - value f.b sd := by omega
  -- the top digit times the radix goes, the same digit times the gap stays
  have hval' : value f.b (x' :: (l' ++ [t'])) = value f.b (x :: l) + t.toInt * (f.radix - value f.b sd) := by
    rw [hval, window_value h.length]
    ring
  have hnonneg : 0 ≤ value f.b (x' :: (l' ++ [t'])) := by
    rcases h.top.1.eq_or_lt with ht | ht
    · rw [hval, ← ht, zero_mul, sub_zero]
      exact h.nonneg
    · have := mul_le_mul_of_nonneg_right (Int.add_one_le_of_lt ht) hgap0
      have := h.low
      rw [hval']
      linarith
  have hlt : value f.b (x' :: (l' ++ [t'])) < f.radix + τ * (f.radix - value f.b sd) := by
    have := mul_le_mul_of_nonneg_right h.top.2 hgap0
    have := low_lt_radix h.length h.head.2 h.limbs
    rw [hval']
    linarith
  have hlow : -((c + 3) * 2 ^ f.b) ≤ value f.b (x' :: l') := by
    have := mul_nonneg hpos.le hcanon.value_bounds.1
    rw [value_cons]
    linarith [hhead.1]
  have hc8 := mul_le_mul_of_nonneg_right (by omega : c + 3 ≤ 8) hpos.le
  have htop : 0 ≤ t'.toInt ∧ t'.toInt ≤ τ' :=
    top_bounds (window_value hlen) hnonneg (low_lt_radix hlen hhead.2 hcanon) (by linarith)
  have hwin : Window f (c + 3) 0 τ' x' l' t' := ⟨hlen, hhead, hcanon, htop, by linarith, hnonneg⟩
  refine ⟨x', l', t', hpass, hwin, ?_, hlt⟩
  rw [hval]
  exact (Int.modEq_iff_dvd.2 ⟨t.toInt, by ring⟩)

theorem topBound_succ (f : Format) (e : Int) (i : Nat) :
    (topBound f e i + 1) * e + 8 * 2 ^ f.b < topBound f e (i + 1) * f.radix := by
  have hlt := Int.lt_ediv_add_one_mul_self ((topBound f e i + 1) * e + 8 * 2 ^ f.b) f.radix_pos
  rw [topBound]
  linarith

theorem Shifted.topBound_le (hs : Shifted f k sd) {i : Nat} (hi : i < k) :
    topBound f (f.radix - value f.b sd) i ≤ 2 ^ f.b - 1 := by
  have := hs.le_two
  rcases i with _ | _ | i
  · exact le_rfl
  · exact hs.first_le
  · omega

theorem Window.mono {c c' lo τ τ' : Int} {x t : BitVec f.w} {l : f.Digits} (h : Window f c lo τ x l t) (hc : c ≤ c')
    (hτ : τ ≤ τ') : Window f c' lo τ' x l t :=
  { h with
    head := ⟨by have := mul_le_mul_of_nonneg_right hc (two_pow_pos f.b).le; linarith [h.head.1], h.head.2⟩
    top := ⟨h.top.1, h.top.2.trans hτ⟩ }

/-- **The passes of one window**, after the first `i` of them: at most one divisor is left too much. -/
theorem passes_spec (hs : Shifted f k sd) : ∀ (j : Nat) {i : Nat} {lo : Int} {x t : BitVec f.w} {l : f.Digits},
    i + (j + 1) = k → -(8 * 2 ^ f.b) ≤ lo →
    Window f (3 * i) lo (topBound f (f.radix - value f.b sd) i) x l t →
    ∃ x' l' t', passes f.b sd (j + 1) (x :: (l ++ [t])) = x' :: (l' ++ [t']) ∧ Window f 6 0 1 x' l' t' ∧
      value f.b (x' :: (l' ++ [t'])) ≡ value f.b (x :: (l ++ [t])) [ZMOD value f.b sd] ∧
      value f.b (x' :: (l' ++ [t'])) + (f.radix - value f.b sd) + 8 * 2 ^ f.b < 2 * f.radix
  | 0, i, lo, x, t, l, hi, hlo, h => by
    subst hi
    have hk := hs.le_two
    have hstep := topBound_succ f (f.radix - value f.b sd) i
    obtain ⟨x', l', t', hpass, hwin, hmod, hlt⟩ :=
      pass_spec hs h (by omega) hlo (hs.topBound_le (by omega)) hstep
    have hone := mul_le_mul_of_nonneg_right hs.top_le f.radix_pos.le
    exact ⟨x', l', t', hpass, hwin.mono (by omega) hs.top_le, hmod, by linarith⟩
  | j + 1, i, lo, x, t, l, hi, hlo, h => by
    have hk := hs.le_two
    have hpos := two_pow_pos f.b
    obtain ⟨x', l', t', hpass, hwin, hmod, -⟩ :=
      pass_spec hs h (by omega) hlo (hs.topBound_le (by omega)) (topBound_succ f (f.radix - value f.b sd) i)
    obtain ⟨x₂, l₂, t₂, hpasses, hwin₂, hmod₂, hlt₂⟩ :=
      passes_spec hs j (i := i + 1) (by omega) (by omega) (hwin.mono (by push_cast; omega) le_rfl)
    exact ⟨x₂, l₂, t₂, by rw [passes, hpass, hpasses], hwin₂, hmod₂.trans hmod, hlt₂⟩

end Steps

/-! ## The windows -/

section Windows

variable {f : Format} {k : Nat} {sd : f.Digits}

/-- What a window leaves to the next one: digits, but for the lowest one, that stand for a number. -/
structure Left (f : Format) (x : BitVec f.w) (l : f.Digits) : Prop where
  length : l.length + 1 = f.n
  head : -(8 * 2 ^ f.b) ≤ x.toInt ∧ x.toInt ≤ 2 ^ f.b - 1
  canon : Canon f.b l
  nonneg : 0 ≤ value f.b (x :: l)

theorem Left.window {y x : BitVec f.w} {l : f.Digits} (h : Left f x l) (hy : 0 ≤ y.toInt ∧ y.toInt ≤ 2 ^ f.b - 1) :
    ∃ m t, l = m ++ [t] ∧ Window f 0 (-(8 * 2 ^ f.b)) (2 ^ f.b - 1) y (x :: m) t := by
  have hpos := two_pow_pos f.b
  have hne : l ≠ [] := by
    rintro rfl
    have := h.length
    have := f.two_le_n
    simp at *
    omega
  obtain ⟨m, t, rfl⟩ : ∃ m t, l = m ++ [t] := ⟨_, _, (List.dropLast_concat_getLast hne).symm⟩
  obtain ⟨hm, ht⟩ := between_append.1 h.canon
  refine ⟨m, t, rfl, ⟨by simpa using h.length, by omega, ?_, (between_cons.1 ht).1, ?_, ?_⟩⟩
  · exact between_cons.2 ⟨h.head, hm.mono (by omega) le_rfl⟩
  · have hm0 := mul_nonneg hpos.le (hm.value_nonneg (b := f.b))
    have hsq : (2 : Int) ^ (2 * f.b) = 2 ^ f.b * 2 ^ f.b := by rw [← pow_add]; congr 1; omega
    have hxm := mul_le_mul_of_nonneg_left (by linarith [h.head.1] : -(8 * 2 ^ f.b) ≤ x.toInt + 2 ^ f.b * value f.b m) hpos.le
    rw [value_cons, value_cons, hsq]
    linarith [hy.1]
  · have := mul_nonneg hpos.le h.nonneg
    rw [value_cons, List.cons_append]
    omega

/-- **The end of a turn**: once nothing is left for the top word, it can be dropped. -/
theorem close_spec {x : BitVec f.w} {t : f.Digits} (hlen : t.length = f.n)
    (ht : Between (-(12 * 2 ^ f.b)) (12 * 2 ^ f.b) t) (hx : -(8 * 2 ^ f.b) ≤ x.toInt ∧ x.toInt ≤ 2 ^ f.b - 1)
    (h0 : 0 ≤ value f.b (x :: t)) (h1 : value f.b (x :: t) - x.toInt < f.radix) :
    ∃ l, (skipNorm f.b (x :: t)).take f.n = x :: l ∧ Left f x l ∧ value f.b (x :: l) = value f.b (x :: t) := by
  obtain ⟨l, u, heq, hl, hcanon, hval⟩ := skipNorm_spec (x := x) hlen ht
  have hpos := two_pow_pos f.b
  have hradix : f.radix = 2 ^ f.b * 2 ^ (f.b * l.length) := by
    rw [Format.radix, ← hl, Nat.mul_succ, pow_add, mul_comm]
  have hquot : 2 ^ f.b * value f.b (l ++ [u]) = value f.b (x :: t) - x.toInt := by
    rw [← hval, value_cons]
    ring
  have hlo : 0 ≤ value f.b (l ++ [u]) := by
    by_contra hneg
    have := mul_le_mul_of_nonneg_left (by omega : value f.b (l ++ [u]) ≤ -1) hpos.le
    omega
  have hhi : value f.b (l ++ [u]) < 2 ^ (f.b * l.length) := by
    refine lt_of_mul_lt_mul_left ?_ hpos.le
    rwa [hquot, ← hradix]
  obtain ⟨-, hlast⟩ := last_eq_zero hcanon hlo hhi
  have hvalue : value f.b (x :: l) = value f.b (x :: t) := by
    rw [value_cons, hlast, hquot]
    ring
  refine ⟨l, ?_, ⟨hl, hx, hcanon, by rwa [hvalue]⟩, hvalue⟩
  rw [heq, ← List.cons_append, List.take_left' (by rw [List.length_cons, hl])]

/-- **The top digit decides**: the divisor is subtracted once more if it is not zero. -/
theorem decide_spec (hs : Shifted f k sd) {x t : BitVec f.w} {l : f.Digits} (h : Window f 6 0 1 x l t)
    (hlt : value f.b (x :: (l ++ [t])) + (f.radix - value f.b sd) + 8 * 2 ^ f.b < 2 * f.radix) :
    ∃ y m, (skipNorm f.b (condSub (x :: l) sd (overMask t) ++ [t])).take f.n = y :: m ∧ Left f y m ∧
      value f.b (y :: m) ≡ value f.b (x :: (l ++ [t])) [ZMOD value f.b sd] := by
  have hfit := f.digits_fit
  have hw := f.b_lt_w
  have hb := f.one_le_b
  have hpos := two_pow_pos f.b
  have hsq : (2 : Int) ^ f.b ≤ 2 ^ (2 * f.b) := pow_le_pow_right₀ (by decide) (by omega)
  have hx := h.head
  have ht := h.top
  have hlen : (x :: l).length = sd.length := by rw [hs.length, ← h.length, List.length_cons]
  have htb : Between (-(12 * 2 ^ f.b)) (12 * 2 ^ f.b) [t] := between_cons.2 ⟨⟨by omega, by omega⟩, between_nil⟩
  rw [overMask_eq (by omega) ht.1]
  split
  · rename_i h0
    -- nothing is over: the window is closed as it is
    rw [condSub_zero hlen, List.cons_append]
    have hvalue := window_value (x := x) (t := t) h.length
    obtain ⟨m, heq, hleft, hval⟩ := close_spec (x := x) (t := l ++ [t]) (by simpa using h.length)
      (between_append.2 ⟨h.limbs.mono (by omega) (by omega), htb⟩) ⟨by omega, hx.2⟩ h.nonneg (by
        have hlow := low_lt_radix (x := 0#f.w) h.length (by rw [BitVec.toInt_zero]; omega) h.limbs
        rw [hvalue, h0, value_cons]
        rw [value_cons, BitVec.toInt_zero] at hlow
        linarith)
    exact ⟨x, m, heq, hleft, by rw [hval]⟩
  · rename_i h1
    -- one divisor is over
    have ht1 : t.toInt = 1 := by omega
    have hwin : Between (-(6 * 2 ^ f.b)) (2 ^ f.b - 1) (x :: l) :=
      between_cons.2 ⟨⟨by omega, hx.2⟩, h.limbs.mono (by omega) le_rfl⟩
    obtain ⟨hval, hdiff⟩ := zipWith_sub (b := f.b) (by omega) (by omega) (by omega) hlen hwin hs.between
    have hgap := hs.gap
    have hsd := hs.length
    have hmod : value f.b (x :: (l ++ [t])) - value f.b sd ≡ value f.b (x :: (l ++ [t])) [ZMOD value f.b sd] :=
      Int.modEq_iff_dvd.2 ⟨1, by ring⟩
    rw [condSub_ones, sub]
    rcases sd with _ | ⟨z, zs⟩
    · cases hlen
    · have hz := (between_cons.1 hs.between).1
      have hhead : (x - z).toInt = x.toInt - z.toInt := toInt_sub_of_fits (by omega) ⟨by omega, by omega⟩
      rw [List.zipWith_cons_cons] at hval hdiff ⊢
      have hzip : (List.zipWith (· - ·) l zs ++ [t]).length = f.n := by
        have := Nat.succ.inj hlen
        have := h.length
        simp only [List.length_append, List.length_zipWith, List.length_singleton]
        omega
      have hvalue : value f.b ((x - z) :: (List.zipWith (· - ·) l zs ++ [t])) =
          value f.b (x :: (l ++ [t])) - value f.b (z :: zs) := by
        have hl : (List.zipWith (· - ·) l zs).length + 1 = f.n := by simpa using hzip
        rw [window_value hl, hval, window_value h.length]
        ring
      have hlow : -(6 * 2 ^ f.b) ≤ value f.b (x :: l) := by
        have := mul_nonneg hpos.le (h.limbs.value_nonneg (b := f.b))
        rw [value_cons]
        linarith
      have htotal := window_value (x := x) (t := t) h.length
      rw [ht1, mul_one] at htotal
      obtain ⟨m, heq, hleft, hval'⟩ := close_spec (x := x - z) hzip
        (between_append.2 ⟨(between_cons.1 hdiff).2.mono (by omega) (by omega), htb⟩)
        ⟨by omega, by omega⟩ (by rw [hvalue]; omega) (by rw [hvalue]; omega)
      rw [List.cons_append]
      exact ⟨x - z, m, heq, hleft, by rw [hval', hvalue]; exact hmod⟩

/-- **One turn of the loop** leaves a number with the same remainder. -/
theorem window_spec (hs : Shifted f k sd) {y x : BitVec f.w} {l : f.Digits} (h : Left f x l)
    (hy : 0 ≤ y.toInt ∧ y.toInt ≤ 2 ^ f.b - 1) :
    ∃ x' l', window f.b k sd y (x :: l) = x' :: l' ∧ Left f x' l' ∧
      value f.b (x' :: l') ≡ value f.b (y :: x :: l) [ZMOD value f.b sd] := by
  obtain ⟨m, t, rfl, hwin⟩ := h.window hy
  obtain ⟨j, hj⟩ : ∃ j, 0 + (j + 1) = k := ⟨k - 1, by have := hs.one_le; omega⟩
  obtain ⟨x₁, l₁, t₁, hpasses, hwin₁, hmod₁, hlt₁⟩ := passes_spec hs j hj le_rfl hwin
  obtain ⟨x', l', heq, hleft, hmod⟩ := decide_spec hs hwin₁ hlt₁
  refine ⟨x', l', ?_, hleft, hmod.trans hmod₁⟩
  have hk : j + 1 = k := by omega
  rw [hk, List.cons_append] at hpasses
  have htake : (x₁ :: (l₁ ++ [t₁])).take f.n = x₁ :: l₁ := by
    rw [← List.cons_append, List.take_left' (by rw [List.length_cons, hwin₁.length])]
  rw [window, hpasses]
  simp only [hs.length, htake, top_concat, heq]

/-- **The loop.** -/
theorem windows_spec (hs : Shifted f k sd) {x : BitVec f.w} {l : f.Digits} (h : Left f x l) : ∀ {low : f.Digits},
    Canon f.b low → ∃ x' l', low.foldr (window f.b k sd) (x :: l) = x' :: l' ∧ Left f x' l' ∧
      value f.b (x' :: l') ≡ value f.b (low ++ x :: l) [ZMOD value f.b sd]
  | [], _ => ⟨x, l, rfl, h, rfl⟩
  | y :: low, hlow => by
    obtain ⟨hy, hlow⟩ := between_cons.1 hlow
    obtain ⟨x₁, l₁, heq₁, hleft₁, hmod₁⟩ := windows_spec hs h hlow
    obtain ⟨x', l', heq, hleft, hmod⟩ := window_spec hs hleft₁ hy
    refine ⟨x', l', by rw [List.foldr_cons, heq₁, heq], hleft, hmod.trans ?_⟩
    rw [List.cons_append, value_cons, value_cons y]
    exact (hmod₁.mul_left _).add_left _

end Windows

/-! ## The remainder -/

/-- A divisor for which `k` passes will do. -/
structure Divisor (f : Format) (k : Nat) (d : f.Digits) : Prop where
  length : d.length = f.n
  canon : Canon f.b d
  gap : 8 * 2 ^ (2 * f.b) ≤ f.radix - 2 ^ f.s * value f.b d
  one_le : 1 ≤ k
  le_two : k ≤ 2
  first_le : topBound f (f.radix - 2 ^ f.s * value f.b d) 1 ≤ 2 ^ f.b - 1
  top_le : topBound f (f.radix - 2 ^ f.s * value f.b d) k ≤ 1

section Remainder

variable {f : Format} {k : Nat} {d : f.Digits}

theorem toInt_one_shiftLeft (f : Format) : (1#f.w <<< f.s).toInt = 2 ^ f.s := by
  have hs := f.s_lt_b
  have hspare := f.spare
  have hlt : 2 * 2 ^ f.s < 2 ^ f.w := by
    rw [← Nat.pow_succ']
    exact Nat.pow_lt_pow_right (by decide) (by omega)
  have hone : (1#f.w <<< f.s).toNat = 2 ^ f.s := by
    rw [BitVec.toNat_shiftLeft, BitVec.toNat_ofNat, Nat.shiftLeft_eq, Nat.mod_eq_of_lt (Nat.one_lt_two_pow (by omega)),
      one_mul, Nat.mod_eq_of_lt (by omega)]
  rw [toInt_of_toNat hlt hone]
  push_cast
  rfl

/-- The divisor shifted until it fills its top word: nothing goes over. -/
theorem Divisor.shifted (h : Divisor f k d) :
    value f.b ((mulWord f.b d (1#f.w <<< f.s)).take f.n) = 2 ^ f.s * value f.b d ∧
      Shifted f k ((mulWord f.b d (1#f.w <<< f.s)).take f.n) := by
  have hfit := f.digits_fit
  have hpos := two_pow_pos f.b
  have hpow := toInt_one_shiftLeft f
  have hs : (2 : Int) ^ f.s ≤ 2 ^ f.b := pow_le_pow_right₀ (by decide) (by have := f.s_lt_b; omega)
  have hs0 := two_pow_pos f.s
  obtain ⟨hval, hbetween⟩ := mulWord_spec (x := 1#f.w <<< f.s) (l := 0) (u := 2 ^ f.s) (a := d) f.b_lt_w
    (by have := two_pow_pos (f.w - 1); omega) le_rfl (by omega) (by omega) (fun e he => by
      have heb := h.canon e he
      rw [hpow]
      exact ⟨by rw [zero_mul]; exact mul_nonneg hs0.le heb.1, mul_le_mul_of_nonneg_left (by omega) hs0.le⟩)
  rw [hpow] at hval
  have hlen : (mulWord f.b d (1#f.w <<< f.s)).length = f.n + 1 := by rw [length_mulWord, h.length]
  generalize mulWord f.b d (1#f.w <<< f.s) = p at hval hbetween hlen ⊢
  obtain ⟨l, u, rfl⟩ : ∃ l u, p = l ++ [u] :=
    ⟨_, _, (List.dropLast_concat_getLast (by rintro rfl; cases hlen)).symm⟩
  have hl : l.length = f.n := by simpa using hlen
  obtain ⟨hlb, hu⟩ := between_append.1 hbetween
  have hu0 := (between_cons.1 hu).1.1
  rw [value_concat, hl, ← Format.radix] at hval
  have hu1 : u.toInt = 0 := by
    by_contra hne
    have := mul_le_mul_of_nonneg_left (by omega : 1 ≤ u.toInt) f.radix_pos.le
    have := hlb.value_nonneg (b := f.b)
    have := h.gap
    have := two_pow_pos (2 * f.b)
    linarith
  rw [hu1, mul_zero, add_zero] at hval
  rw [List.take_left' hl]
  exact ⟨hval, hl, hlb.mono le_rfl (by omega), by rw [hval]; exact h.gap, h.one_le, h.le_two,
    by rw [hval]; exact h.first_le, by rw [hval]; exact h.top_le⟩

/-- The digits of a shifted dividend: those the loop runs over and those it starts from. -/
theorem lshift_parts {a : f.Digits} (hlen : a.length = 2 * f.n) (ha : Canon f.b a)
    (hlt : 2 ^ f.s * value f.b a < f.radix * f.radix) :
    ∃ low hi, (lshift f.b f.s a).take f.n = low ∧ ((lshift f.b f.s a).drop f.n).take f.n = hi ∧
      hi.length = f.n ∧ Canon f.b low ∧ Canon f.b hi ∧ value f.b (low ++ hi) = 2 ^ f.s * value f.b a := by
  have hsb := f.s_lt_b
  have hspare := f.spare
  obtain ⟨hval, hcanon⟩ := lshift_spec (k := f.s) (by omega) (by omega) ha
  have hlen' : (lshift f.b f.s a).length = 2 * f.n + 1 := by rw [length_lshift, hlen]
  generalize lshift f.b f.s a = t at hval hcanon hlen' ⊢
  obtain ⟨m, u, rfl⟩ : ∃ m u, t = m ++ [u] :=
    ⟨_, _, (List.dropLast_concat_getLast (by rintro rfl; cases hlen')).symm⟩
  have hm : m.length = 2 * f.n := by simpa using hlen'
  obtain ⟨hmc, -⟩ := between_append.1 hcanon
  have hradix : f.radix * f.radix = 2 ^ (f.b * m.length) := by
    rw [Format.radix, ← pow_add, hm]
    congr 1
    ring
  obtain ⟨-, hvalue⟩ := last_eq_zero hmc hcanon.value_bounds.1 (by rw [hval, ← hradix]; exact hlt)
  have htake : (m ++ [u]).take f.n = m.take f.n := List.take_append_of_le_length (by omega)
  have hdrop : ((m ++ [u]).drop f.n).take f.n = m.drop f.n := by
    rw [List.drop_append_of_le_length (by omega), List.take_left' (by rw [List.length_drop]; omega)]
  refine ⟨m.take f.n, m.drop f.n, htake, hdrop, by rw [List.length_drop]; omega, hmc.take _, hmc.drop _, ?_⟩
  rw [List.take_append_drop, hvalue, hval]

theorem norm_below {c : Int} (hc : c ≤ f.radix) {z : f.Digits} (hlen : z.length = f.n)
    (hz : Between (-(15 * 2 ^ f.b)) (15 * 2 ^ f.b) z) (h0 : 0 ≤ value f.b z) (h1 : value f.b z < c) :
    f.Below c (norm f.b z) ∧ value f.b (norm f.b z) = value f.b z := by
  have hpos := two_pow_pos f.b
  have hfit := f.digits_fit
  obtain ⟨hnormal, hval⟩ := norm_spec (b := f.b) f.one_le_b f.b_lt_w (by omega) (ne_nil_of_length hlen) hz
  have hnlen : (norm f.b z).length = f.n := by rw [length_norm, hlen]
  refine ⟨⟨hnlen, hnormal.canon (by omega) ?_, by omega⟩, hval⟩
  rw [hnlen, ← Format.radix]
  omega

theorem norm_sub_spec {c : Int} (hc : c ≤ f.radix) {x y : f.Digits} (hx : f.Below f.radix x) (hy : f.Below f.radix y)
    (h0 : value f.b y ≤ value f.b x) (h1 : value f.b x - value f.b y < c) :
    f.Below c (norm f.b (sub x y)) ∧ value f.b (norm f.b (sub x y)) = value f.b x - value f.b y := by
  have hpos := two_pow_pos f.b
  have hfit := f.digits_fit
  have hw := f.b_lt_w
  obtain ⟨hval, hbetween⟩ := zipWith_sub (b := f.b) (by omega) (by omega) (by omega) (hx.length.trans hy.length.symm)
    hx.canon hy.canon
  rw [← sub] at hval hbetween
  rw [← hval]
  exact norm_below hc (by rw [length_sub, hx.length, hy.length, Nat.min_self]) (hbetween.mono (by omega) (by omega))
    (by omega) (by omega)

theorem norm_add_spec {c : Int} (hc : c ≤ f.radix) {x y : f.Digits} (hx : f.Below f.radix x) (hy : f.Below f.radix y)
    (h1 : value f.b x + value f.b y < c) :
    f.Below c (norm f.b (add x y)) ∧ value f.b (norm f.b (add x y)) = value f.b x + value f.b y := by
  have hpos := two_pow_pos f.b
  have hfit := f.digits_fit
  have hw := f.b_lt_w
  have hx0 := hx.nonneg
  have hy0 := hy.nonneg
  obtain ⟨hval, hbetween⟩ := zipWith_add (b := f.b) (by omega) (by omega) (by omega) (hx.length.trans hy.length.symm)
    hx.canon hy.canon
  rw [← add] at hval hbetween
  rw [← hval]
  exact norm_below hc (by rw [length_add, hx.length, hy.length, Nat.min_self]) (hbetween.mono (by omega) (by omega))
    (by omega) (by omega)

theorem norm_of_canon {a : f.Digits} (hlen : a.length = f.n) (ha : Canon f.b a) : norm f.b a = a := by
  have hpos := two_pow_pos f.b
  have hb := ha.value_bounds
  rw [hlen] at hb
  obtain ⟨hbelow, hval⟩ := norm_below le_rfl hlen (Between.mono ha (by omega) (by omega)) hb.1 hb.2
  exact Canon.eq_of_value_eq hbelow.canon ha (length_norm a) hval

theorem addBack_of_canon {sd t : f.Digits} (hsd : sd.length = f.n) (hlen : t.length = f.n) (ht : Canon f.b t) :
    addBack f.b sd t = t := by
  have htop : 0 ≤ (top t).toInt := by
    rcases List.eq_nil_or_concat t with rfl | ⟨l, u, rfl⟩
    · simp [top]
    · rw [List.concat_eq_append] at ht ⊢
      rw [top, List.getLastD_concat]
      exact (between_cons.1 (between_append.1 ht).2).1.1
  rw [addBack, sshiftRight_sign (by have := f.b_lt_w; omega), if_neg (by omega), condAdd_zero (by rw [hlen, hsd]),
    norm_of_canon hlen ht]

/-- **The remainder.**  For a divisor that is not too close to the radix the division leaves a number of as many bits
that is congruent to the dividend; it need not be below the divisor. -/
theorem div_spec {fix : f.Digits → f.Digits → f.Digits}
    (hfix : ∀ sd t, sd.length = f.n → t.length = f.n → Canon f.b t → fix sd t = t) (hd : Divisor f k d) {a : f.Digits}
    (hlen : a.length = 2 * f.n) (ha : Canon f.b a) (hlt : 2 ^ f.s * value f.b a < f.radix * f.radix) :
    f.Below (2 ^ f.bits) (div f k fix a d) ∧ value f.b (div f k fix a d) ≡ value f.b a [ZMOD value f.b d] := by
  have hfit := f.digits_fit
  have hpos := two_pow_pos f.b
  have hsb := f.s_lt_b
  have hn := f.two_le_n
  obtain ⟨hsd, hshift⟩ := hd.shifted
  obtain ⟨low, hi, hlow, hhi, hhil, hlowc, hhic, hvalue⟩ := lshift_parts hlen ha hlt
  obtain ⟨x, l, rfl⟩ := List.exists_cons_of_length_pos (l := hi) (by omega)
  have hx := (between_cons.1 hhic).1
  have hleft : Left f x l :=
    ⟨by simpa using hhil, ⟨by omega, hx.2⟩, (between_cons.1 hhic).2, hhic.value_bounds.1⟩
  obtain ⟨x', l', hloop, hleft', hmod⟩ := windows_spec hshift hleft hlowc
  rw [hvalue, hsd] at hmod
  have hltr := low_lt_radix hleft'.length hleft'.head.2 hleft'.canon
  -- the digits of the number the loop leaves
  obtain ⟨hnormal, hnorm⟩ := norm_spec (m := 12 * 2 ^ f.b) f.one_le_b f.b_lt_w (by omega) (List.cons_ne_nil x' l')
    (between_cons.2 ⟨by have := hleft'.head; omega, Between.mono hleft'.canon (by omega) (by omega)⟩)
  have hnlen : (norm f.b (x' :: l')).length = f.n := by rw [length_norm, List.length_cons, hleft'.length]
  have hcanon : Canon f.b (norm f.b (x' :: l')) :=
    hnormal.canon (by rw [hnorm]; exact hleft'.nonneg) (by rw [hnorm, hnlen]; exact hltr)
  obtain ⟨hshr, hshrc⟩ := rshift_spec (k := f.s) (by omega) (by have := f.spare; omega) hcanon
  have hdiv : div f k fix a d = rshift f.b f.s (norm f.b (x' :: l')) := by
    rw [div]
    simp only [hlow, hhi, hloop]
    rw [hfix _ _ hshift.length hnlen hcanon]
  rw [hnorm] at hshr
  rw [hdiv]
  refine ⟨⟨by rw [length_rshift, hnlen], hshrc, ?_⟩, ?_⟩ <;> rw [hshr]
  · rw [Int.ediv_lt_iff_lt_mul (two_pow_pos _), ← pow_add, f.bits_add]
    exact hltr
  · obtain ⟨q, hq⟩ := Int.modEq_iff_dvd.1 hmod
    have hH : value f.b (x' :: l') = 2 ^ f.s * (value f.b a - value f.b d * q) := by linear_combination -hq
    rw [hH, Int.mul_ediv_cancel_left _ (two_pow_pos f.s).ne']
    exact Int.modEq_iff_dvd.2 ⟨q, by ring⟩

end Remainder

end Sp
end Wolf
