import WolfsslRs.LimbProducts
/-!
# SpDigits — numbers of the single precision code (wolfssl-src, patches/sp_c64.c)

The code for a curve keeps its numbers in arrays of `sp_digit`, signed words of which only the low bits are used, and is
written out once for each curve.  What the copies have in common is stated here for any number of digits: sums and
differences digit by digit with a mask that switches them off, comparison, and shifts.
-/
namespace Wolf
namespace Sp

open Words Limbs

/-- How the numbers of a curve are laid out: `n` words of `w` bits that hold `b` bits each, the top one `s` fewer. -/
structure Format where
  w : Nat
  b : Nat
  n : Nat
  s : Nat
  one_le_s : 1 ≤ s
  s_lt_b : s < b
  five_le_b : 5 ≤ b
  two_le_n : 2 ≤ n
  n_le : n ≤ 9
  /-- A word has room for the digits that reducing a number adds up in it. -/
  spare : b + s + 5 ≤ w

/-- The bits of a number. -/
def Format.bits (f : Format) : Nat := f.b * f.n - f.s

/-- What the digits of a number count up to. -/
def Format.radix (f : Format) : Int := 2 ^ (f.b * f.n)

section Format

variable (f : Format)

theorem Format.spare_bits : f.b + 6 ≤ f.w := by
  have := f.spare
  have := f.one_le_s
  omega

theorem Format.b_lt_w : f.b < f.w := by
  have := f.spare
  omega

theorem Format.one_le_b : 1 ≤ f.b := by
  have := f.s_lt_b
  omega

theorem Format.bits_add : f.bits + f.s = f.b * f.n := by
  have hs := f.s_lt_b
  have hn := f.two_le_n
  exact Nat.sub_add_cancel (Nat.le_trans (Nat.le_of_lt hs) (Nat.le_mul_of_pos_right _ (by omega)))

theorem Format.digit_large : (32 : Int) ≤ 2 ^ f.b := by
  calc (32 : Int) = 2 ^ 5 := rfl
    _ ≤ 2 ^ f.b := pow_le_pow_right₀ (by decide) f.five_le_b

theorem Format.radix_pos : 0 < f.radix := two_pow_pos _

theorem Format.digits_fit : 32 * (2 : Int) ^ f.b ≤ 2 ^ (f.w - 1) := by
  calc (32 : Int) * 2 ^ f.b = 2 ^ (f.b + 5) := by ring
    _ ≤ 2 ^ (f.w - 1) := pow_le_pow_right₀ (by decide) (by have := f.spare_bits; omega)

end Format

/-- An array of `sp_digit`. -/
abbrev Format.Digits (f : Format) := List (BitVec f.w)

/-- A number below `c`, in digits. -/
structure Format.Below (f : Format) (c : Int) (a : f.Digits) : Prop where
  length : a.length = f.n
  canon : Canon f.b a
  lt : value f.b a < c

theorem Format.Below.nonneg {f : Format} {c : Int} {a : f.Digits} (h : f.Below c a) : 0 ≤ value f.b a :=
  h.canon.value_bounds.1

theorem Format.Below.mono {f : Format} {c c' : Int} {a : f.Digits} (h : f.Below c a) (hc : c ≤ c') : f.Below c' a :=
  ⟨h.length, h.canon, h.lt.trans_le hc⟩

theorem Format.Below.below_radix {f : Format} {c : Int} {a : f.Digits} (h : f.Below c a) : f.Below f.radix a :=
  ⟨h.length, h.canon, by rw [Format.radix, ← h.length]; exact h.canon.value_bounds.2⟩

theorem ne_nil_of_length {f : Format} {a : f.Digits} (ha : a.length = f.n) : a ≠ [] := by
  have := f.two_le_n
  rintro rfl
  simp at ha
  omega

variable {w b : Nat}

def add (a c : List (BitVec w)) : List (BitVec w) := List.zipWith (· + ·) a c

def sub (a c : List (BitVec w)) : List (BitVec w) := List.zipWith (· - ·) a c

/-- `m` is -1 to subtract and 0 when not. -/
def condSub (a c : List (BitVec w)) (m : BitVec w) : List (BitVec w) := List.zipWith (fun x y => x - (y &&& m)) a c

def condAdd (a c : List (BitVec w)) (m : BitVec w) : List (BitVec w) := List.zipWith (fun x y => x + (y &&& m)) a c

/-- The mask made of `over`: -1 when there is something over, 0 when not. -/
def overMask (o : BitVec w) : BitVec w := ~~~((o - 1#w).sshiftRight (w - 1))

/-- From the top digit down; what is found first decides. -/
def cmp (b : Nat) : List (BitVec w) → List (BitVec w) → BitVec w
  | x :: xs, y :: ys =>
    let r := cmp b xs ys
    r ||| ((x - y) &&& ~~~((0#w - r).sshiftRight (b - 1)))
  | _, _ => 0#w

/-- The digits shifted to the left, after a digit `prev`, and what is shifted out of the last one. -/
def lshiftFrom (b k : Nat) (prev : BitVec w) : List (BitVec w) → List (BitVec w)
  | [] => [prev >>> (b - k)]
  | d :: ds => (((d <<< k) ||| (prev >>> (b - k))) &&& mask w b) :: lshiftFrom b k d ds

def lshift (b k : Nat) (a : List (BitVec w)) : List (BitVec w) := lshiftFrom b k 0#w a

def rshift (b k : Nat) : List (BitVec w) → List (BitVec w)
  | [] => []
  | [d] => [d.sshiftRight k]
  | d :: e :: ds => (d.sshiftRight k ||| ((e <<< (b - k)) &&& mask w b)) :: rshift b k (e :: ds)

def rshift1 (b : Nat) : List (BitVec w) → List (BitVec w)
  | [] => []
  | [d] => [d.sshiftRight 1]
  | d :: e :: ds => (d.sshiftRight 1 + ((e <<< (b - 1)) &&& mask w b)) :: rshift1 b (e :: ds)

@[simp] theorem length_add (a c : List (BitVec w)) : (add a c).length = min a.length c.length := by simp [add]

@[simp] theorem length_sub (a c : List (BitVec w)) : (sub a c).length = min a.length c.length := by simp [sub]

@[simp] theorem length_rshift : ∀ {k : Nat} (a : List (BitVec w)), (rshift b k a).length = a.length
  | _, [] => rfl
  | _, [_] => rfl
  | _, _ :: e :: ds => congrArg (· + 1) (length_rshift (e :: ds))

@[simp] theorem length_lshift {k : Nat} (a : List (BitVec w)) : (lshift b k a).length = a.length + 1 := by
  have hfrom : ∀ (prev : BitVec w) (a : List (BitVec w)), (lshiftFrom b k prev a).length = a.length + 1 := by
    intro prev a
    induction a generalizing prev with
    | nil => rfl
    | cons d a ih => exact congrArg (· + 1) (ih d)
  exact hfrom 0#w a

/-! ## Masks -/

theorem condSub_zero : ∀ {a c : List (BitVec w)}, a.length = c.length → condSub a c 0#w = a
  | [], [], _ => rfl
  | x :: a, y :: c, h => by
    have ih := condSub_zero (Nat.succ.inj h)
    unfold condSub at ih ⊢
    rw [List.zipWith_cons_cons, ih]
    simp

theorem condSub_ones (a c : List (BitVec w)) : condSub a c (-1#w) = sub a c := by
  unfold condSub sub
  simp [BitVec.neg_one_eq_allOnes]

theorem condAdd_zero : ∀ {a c : List (BitVec w)}, a.length = c.length → condAdd a c 0#w = a
  | [], [], _ => rfl
  | x :: a, y :: c, h => by
    have ih := condAdd_zero (Nat.succ.inj h)
    unfold condAdd at ih ⊢
    rw [List.zipWith_cons_cons, ih]
    simp

theorem sshiftRight_sign (hw : 0 < w) (x : BitVec w) : x.sshiftRight (w - 1) = if x.toInt < 0 then -1#w else 0#w := by
  have hfit := fits_toInt x
  apply BitVec.eq_of_toInt_eq
  rw [toInt_sshiftRight_div]
  split
  · rename_i h
    have hone : (-1#w).toInt = -1 := by
      rw [BitVec.neg_one_eq_allOnes, BitVec.toInt_allOnes, if_pos hw]
    rw [hone]
    have hpos := two_pow_pos (w - 1)
    exact (Int.ediv_eq_iff_of_pos hpos).2 ⟨by have := hfit.1; omega, by omega⟩
  · rename_i h
    rw [BitVec.toInt_zero]
    exact Int.ediv_eq_zero_of_lt (by omega) hfit.2

theorem overMask_eq (hw : 1 < w) {o : BitVec w} (h : 0 ≤ o.toInt) :
    overMask o = if o.toInt = 0 then 0#w else -1#w := by
  have hfit := fits_toInt o
  have hpow : (2 : Int) ≤ 2 ^ (w - 1) := by
    calc (2 : Int) = 2 ^ 1 := rfl
      _ ≤ 2 ^ (w - 1) := pow_le_pow_right₀ (by decide) (by omega)
  have hone : (1#w).toInt = 1 := BitVec.toInt_one hw
  have hsub : (o - 1#w).toInt = o.toInt - 1 := by
    rw [toInt_sub_of_fits (by omega) (by rw [hone]; exact ⟨by omega, by have := hfit.2; omega⟩), hone]
  rw [overMask, sshiftRight_sign (by omega), hsub]
  by_cases h0 : o.toInt = 0
  · rw [if_pos (by omega), if_pos h0]
    simp [BitVec.neg_one_eq_allOnes]
  · rw [if_neg (by omega), if_neg h0]
    simp [BitVec.neg_one_eq_allOnes]

/-! ## Shifts -/

section Shifts

variable {k : Nat}

theorem toNat_digit_lt {d : BitVec w} (h : 0 ≤ d.toInt ∧ d.toInt ≤ 2 ^ b - 1) : d.toNat < 2 ^ b := by
  have : (d.toNat : Int) < ((2 ^ b : Nat) : Int) := by
    rw [toNat_of_nonneg h.1]
    push_cast
    omega
  exact_mod_cast this

theorem double_digit_le (hbw : b < w) : 2 * 2 ^ b ≤ 2 ^ w := by
  rw [← Nat.pow_succ']
  exact Nat.pow_le_pow_right (by decide) hbw

theorem joined_digits (hk : k ≤ b) (hbw : b + 1 < w) {hi lo : BitVec w} (hhi : 0 ≤ hi.toInt ∧ hi.toInt ≤ 2 ^ b - 1)
    (hlo : 0 ≤ lo.toInt ∧ lo.toInt ≤ 2 ^ b - 1) :
    (((hi <<< k) ||| (lo >>> (b - k))) &&& mask w b).toInt = 2 ^ k * (hi.toInt % 2 ^ (b - k)) + lo.toInt / 2 ^ (b - k) := by
  have hhi' := toNat_of_nonneg hhi.1
  have hlo' := toNat_of_nonneg hlo.1
  have hsplit : (2 : Nat) ^ b = 2 ^ k * 2 ^ (b - k) := by rw [← Nat.pow_add]; congr 1; omega
  have hlob := toNat_digit_lt hlo
  have hq : lo.toNat / 2 ^ (b - k) < 2 ^ k :=
    Nat.div_lt_of_lt_mul (by rw [Nat.mul_comm, ← hsplit]; exact hlob)
  have hr := Nat.mod_lt hi.toNat (Nat.two_pow_pos (b - k))
  have hlow : ((hi <<< k) &&& mask w b).toNat = 2 ^ k * (hi.toNat % 2 ^ (b - k)) := by
    rw [toNat_and_mask (by omega), BitVec.toNat_shiftLeft, Nat.shiftLeft_eq,
      Nat.mod_mod_of_dvd _ (pow_dvd_pow 2 (by omega : b ≤ w)), hsplit, Nat.mul_comm hi.toNat, Nat.mul_mod_mul_left]
  have hhigh : ((lo >>> (b - k)) &&& mask w b).toNat = lo.toNat / 2 ^ (b - k) := by
    rw [toNat_and_mask (by omega), BitVec.toNat_ushiftRight, Nat.shiftRight_eq_div_pow]
    exact Nat.mod_eq_of_lt (Nat.lt_of_le_of_lt (Nat.div_le_self _ _) hlob)
  have hnat : (((hi <<< k) ||| (lo >>> (b - k))) &&& mask w b).toNat =
      2 ^ k * (hi.toNat % 2 ^ (b - k)) + lo.toNat / 2 ^ (b - k) := by
    rw [BitVec.and_comm, BitVec.and_or_distrib_left, BitVec.and_comm, BitVec.and_comm (mask w b), BitVec.toNat_or, hlow,
      hhigh, Nat.two_pow_add_eq_or_of_lt hq]
  have hlt : 2 ^ k * (hi.toNat % 2 ^ (b - k)) + lo.toNat / 2 ^ (b - k) < 2 ^ b := by
    rw [hsplit]
    calc _ < 2 ^ k * (hi.toNat % 2 ^ (b - k)) + 2 ^ k := Nat.add_lt_add_left hq _
      _ = 2 ^ k * (hi.toNat % 2 ^ (b - k) + 1) := by ring
      _ ≤ 2 ^ k * 2 ^ (b - k) := Nat.mul_le_mul_left _ hr
  have hpow := double_digit_le (by omega : b < w)
  rw [toInt_of_toNat (by omega) hnat]
  push_cast
  rw [hhi', hlo']

theorem lshiftFrom_spec (hk : k ≤ b) (hbw : b + 1 < w) : ∀ {a : List (BitVec w)} {p : BitVec w},
    0 ≤ p.toInt ∧ p.toInt ≤ 2 ^ b - 1 → Canon b a →
    value b (lshiftFrom b k p a) = p.toInt / 2 ^ (b - k) + 2 ^ k * value b a ∧ Canon b (lshiftFrom b k p a)
  | [], p, hp, _ => by
    have hnat : (p >>> (b - k)).toNat = p.toNat / 2 ^ (b - k) := by
      rw [BitVec.toNat_ushiftRight, Nat.shiftRight_eq_div_pow]
    have hle := Nat.div_le_self p.toNat (2 ^ (b - k))
    have hp' := toNat_of_nonneg hp.1
    have hlt := toNat_digit_lt hp
    have hpow := double_digit_le (by omega : b < w)
    have htop : (p >>> (b - k)).toInt = p.toInt / 2 ^ (b - k) := by
      rw [toInt_of_toNat (by omega) hnat]
      push_cast
      rw [hp']
    have hdiv : 0 ≤ p.toInt / 2 ^ (b - k) ∧ p.toInt / 2 ^ (b - k) ≤ p.toInt :=
      ⟨Int.ediv_nonneg hp.1 (two_pow_pos _).le, Int.ediv_le_self _ hp.1⟩
    rw [lshiftFrom]
    exact ⟨by rw [value_cons, htop]; simp, between_cons.2 ⟨by rw [htop]; omega, between_nil⟩⟩
  | d :: ds, p, hp, ha => by
    obtain ⟨hd, hds⟩ := between_cons.1 ha
    obtain ⟨hval, hcanon⟩ := lshiftFrom_spec hk hbw hd hds
    have hlimb := joined_digits hk hbw hd hp
    have hsplit : (2 : Int) ^ b = 2 ^ k * 2 ^ (b - k) := by rw [← pow_add]; congr 1; omega
    have hr := emod_digit (b := b - k) d.toInt
    have hq : 0 ≤ p.toInt / 2 ^ (b - k) ∧ p.toInt / 2 ^ (b - k) ≤ 2 ^ k - 1 := by
      refine ⟨Int.ediv_nonneg hp.1 (two_pow_pos _).le, Int.le_sub_one_of_lt ?_⟩
      rw [Int.ediv_lt_iff_lt_mul (two_pow_pos _), ← hsplit]
      omega
    have hprod := mul_le_mul_of_nonneg_left hr.2 (two_pow_pos k).le
    have hnonneg := mul_nonneg (two_pow_pos k).le hr.1
    rw [mul_sub, ← hsplit, mul_one] at hprod
    rw [lshiftFrom]
    refine ⟨?_, between_cons.2 ⟨by rw [hlimb]; omega, hcanon⟩⟩
    rw [value_cons, hval, hlimb, value_cons, hsplit]
    linear_combination (2 : Int) ^ k * Int.emod_add_mul_ediv d.toInt (2 ^ (b - k))

/-- **A shift to the left multiplies.** -/
theorem lshift_spec (hk : k ≤ b) (hbw : b + 1 < w) {a : List (BitVec w)} (ha : Canon b a) :
    value b (lshift b k a) = 2 ^ k * value b a ∧ Canon b (lshift b k a) := by
  have hpos := two_pow_pos b
  obtain ⟨hval, hcanon⟩ := lshiftFrom_spec hk hbw (p := 0#w) (by rw [BitVec.toInt_zero]; omega) ha
  exact ⟨by rw [lshift, hval]; simp, hcanon⟩

theorem joined_halves (hk : k ≤ b) (hbw : b + 1 < w) {d e : BitVec w} (hd : 0 ≤ d.toInt ∧ d.toInt ≤ 2 ^ b - 1)
    (he : 0 ≤ e.toInt ∧ e.toInt ≤ 2 ^ b - 1) :
    (d.sshiftRight k ||| ((e <<< (b - k)) &&& mask w b)).toInt = d.toInt / 2 ^ k + 2 ^ (b - k) * (e.toInt % 2 ^ k) := by
  have hsplit : (2 : Nat) ^ b = 2 ^ (b - k) * 2 ^ k := by rw [← Nat.pow_add]; congr 1; omega
  have hdb := toNat_digit_lt hd
  have hq : d.toNat / 2 ^ k < 2 ^ (b - k) := Nat.div_lt_of_lt_mul (by rw [Nat.mul_comm, ← hsplit]; exact hdb)
  have hr := Nat.mod_lt e.toNat (Nat.two_pow_pos k)
  have hmsb : d.msb = false := by
    rw [BitVec.msb_eq_toInt, decide_eq_false_iff_not]
    omega
  have hlow : (d.sshiftRight k).toNat = d.toNat / 2 ^ k := by
    rw [BitVec.sshiftRight_eq_of_msb_false hmsb, BitVec.toNat_ushiftRight, Nat.shiftRight_eq_div_pow]
  have hhigh : ((e <<< (b - k)) &&& mask w b).toNat = 2 ^ (b - k) * (e.toNat % 2 ^ k) := by
    rw [toNat_and_mask (by omega), BitVec.toNat_shiftLeft, Nat.shiftLeft_eq,
      Nat.mod_mod_of_dvd _ (pow_dvd_pow 2 (by omega : b ≤ w)), hsplit, Nat.mul_comm e.toNat, Nat.mul_mod_mul_left]
  have hnat : (d.sshiftRight k ||| ((e <<< (b - k)) &&& mask w b)).toNat =
      2 ^ (b - k) * (e.toNat % 2 ^ k) + d.toNat / 2 ^ k := by
    rw [BitVec.toNat_or, hlow, hhigh, Nat.or_comm, Nat.two_pow_add_eq_or_of_lt hq]
  have hlt : 2 ^ (b - k) * (e.toNat % 2 ^ k) + d.toNat / 2 ^ k < 2 ^ b := by
    rw [hsplit]
    calc _ < 2 ^ (b - k) * (e.toNat % 2 ^ k) + 2 ^ (b - k) := Nat.add_lt_add_left hq _
      _ = 2 ^ (b - k) * (e.toNat % 2 ^ k + 1) := by ring
      _ ≤ 2 ^ (b - k) * 2 ^ k := Nat.mul_le_mul_left _ hr
  have hpow := double_digit_le (by omega : b < w)
  rw [toInt_of_toNat (by omega) hnat]
  push_cast
  rw [toNat_of_nonneg hd.1, toNat_of_nonneg he.1]
  ring

/-- **A shift to the right divides.** -/
theorem rshift_spec (hk : k ≤ b) (hbw : b + 1 < w) : ∀ {a : List (BitVec w)}, Canon b a →
    value b (rshift b k a) = value b a / 2 ^ k ∧ Canon b (rshift b k a)
  | [], _ => ⟨by simp [rshift], between_nil⟩
  | [d], ha => by
    obtain ⟨hd, -⟩ := between_cons.1 ha
    have hval := toInt_sshiftRight_div d k
    have hq : 0 ≤ d.toInt / 2 ^ k ∧ d.toInt / 2 ^ k ≤ d.toInt :=
      ⟨Int.ediv_nonneg hd.1 (two_pow_pos _).le, Int.ediv_le_self _ hd.1⟩
    rw [rshift]
    exact ⟨by simp [hval], between_cons.2 ⟨by rw [hval]; omega, between_nil⟩⟩
  | d :: e :: ds, ha => by
    obtain ⟨hd, hrest⟩ := between_cons.1 ha
    obtain ⟨he, -⟩ := between_cons.1 hrest
    obtain ⟨hval, hcanon⟩ := rshift_spec hk hbw hrest
    have hlimb := joined_halves hk hbw hd he
    have hsplit : (2 : Int) ^ b = 2 ^ k * 2 ^ (b - k) := by rw [← pow_add]; congr 1; omega
    have hlow : value b (e :: ds) % 2 ^ k = e.toInt % 2 ^ k := by
      rw [value_cons, hsplit, mul_assoc, Int.add_mul_emod_self_left]
    have hquot : value b (d :: e :: ds) / 2 ^ k = d.toInt / 2 ^ k + 2 ^ (b - k) * value b (e :: ds) := by
      rw [value_cons, hsplit, mul_assoc, Int.add_mul_ediv_left _ _ (two_pow_pos k).ne']
    have hq : 0 ≤ d.toInt / 2 ^ k ∧ d.toInt / 2 ^ k ≤ 2 ^ (b - k) - 1 := by
      refine ⟨Int.ediv_nonneg hd.1 (two_pow_pos _).le, Int.le_sub_one_of_lt ?_⟩
      rw [Int.ediv_lt_iff_lt_mul (two_pow_pos _), mul_comm, ← hsplit]
      omega
    have hr := emod_digit (b := k) e.toInt
    have hnonneg := mul_nonneg (two_pow_pos (b - k)).le hr.1
    have hprod : 2 ^ (b - k) * (e.toInt % 2 ^ k) ≤ 2 ^ b - 2 ^ (b - k) := by
      have hle := mul_le_mul_of_nonneg_left hr.2 (two_pow_pos (b - k)).le
      rwa [mul_sub, mul_comm _ ((2 : Int) ^ k), ← hsplit, mul_one] at hle
    rw [rshift]
    refine ⟨?_, between_cons.2 ⟨by rw [hlimb]; omega, hcanon⟩⟩
    rw [value_cons, hval, hlimb, hquot, ← hlow]
    have hdiv := Int.emod_add_mul_ediv (value b (e :: ds)) (2 ^ k)
    linear_combination (2 : Int) ^ (b - k) * hdiv + (value b (e :: ds) / 2 ^ k) * hsplit

/-- **A shift by one bit halves**, whatever the digits are, and loses the lowest bit. -/
theorem rshift1_spec (hb : 1 ≤ b) (hbw : b + 1 < w) {lo hi : Int} (hlo : -2 ^ (w - 1) ≤ lo) (hhi : hi + 2 ^ b ≤ 2 ^ (w - 1))
    (hlo0 : lo ≤ 0) (hhi0 : 0 ≤ hi) : ∀ {d : BitVec w} {ds : List (BitVec w)}, Between lo hi (d :: ds) →
    2 * value b (rshift1 b (d :: ds)) + d.toInt % 2 = value b (d :: ds) ∧
      Between (lo / 2) (hi / 2 + 2 ^ (b - 1)) (rshift1 b (d :: ds))
  | d, [], ha => by
    obtain ⟨hd, -⟩ := between_cons.1 ha
    have hval := toInt_sshiftRight_div d 1
    have hpos := two_pow_pos (b - 1)
    rw [rshift1]
    exact ⟨by simp only [value_cons, value_nil, hval]; omega, between_cons.2 ⟨by rw [hval]; omega, between_nil⟩⟩
  | d, e :: ds, ha => by
    obtain ⟨hd, hrest⟩ := between_cons.1 ha
    obtain ⟨hval, hbetween⟩ := rshift1_spec hb hbw hlo hhi hlo0 hhi0 hrest
    have hsplit : (2 : Int) ^ b = 2 * 2 ^ (b - 1) := by rw [← pow_succ']; congr 1; omega
    have hpos := two_pow_pos (b - 1)
    have hbit : ((e <<< (b - 1)) &&& mask w b).toInt = e.toInt % 2 * 2 ^ (b - 1) := by
      rw [toInt_shiftLeft_and_mask (by omega), hsplit, mul_comm e.toInt, mul_comm 2, Int.mul_emod_mul_of_pos _ _ hpos,
        mul_comm]
    have hbound : 0 ≤ e.toInt % 2 * 2 ^ (b - 1) ∧ e.toInt % 2 * 2 ^ (b - 1) ≤ 2 ^ (b - 1) := by
      have he := Int.emod_two_eq e.toInt
      rcases he with he | he <;> rw [he] <;> omega
    have hhalf := toInt_sshiftRight_div d 1
    have hlimb : (d.sshiftRight 1 + ((e <<< (b - 1)) &&& mask w b)).toInt = d.toInt / 2 + e.toInt % 2 * 2 ^ (b - 1) := by
      rw [toInt_add_of_fits (by omega), hhalf, hbit, pow_one]
      rw [hhalf, hbit, pow_one]
      exact ⟨by omega, by omega⟩
    rw [rshift1]
    refine ⟨?_, between_cons.2 ⟨by rw [hlimb]; omega, hbetween⟩⟩
    rw [value_cons, hlimb, value_cons d]
    have hmod := Int.emod_add_mul_ediv d.toInt 2
    linear_combination hmod + 2 ^ b * hval - (e.toInt % 2) * hsplit

end Shifts

/-! ## Comparison -/

section Comparison

variable {r z : BitVec w}

theorem toInt_neg_iff_msb : r.toInt < 0 ↔ r.msb = true := by
  rw [BitVec.msb_eq_toInt, decide_eq_true_iff]

theorem or_of_neg (h : r.toInt < 0) : r.toInt ≤ (r ||| z).toInt ∧ (r ||| z).toInt < 0 := by
  have hmsb : (r ||| z).msb = true := by rw [BitVec.msb_or, toInt_neg_iff_msb.1 h, Bool.true_or]
  have hneg := toInt_neg_iff_msb.2 hmsb
  have hle : r.toNat ≤ (r ||| z).toNat := by
    rw [BitVec.toNat_or]
    exact Nat.left_le_or
  have hr := BitVec.toInt_eq_toNat_cond r
  have hrz := BitVec.toInt_eq_toNat_cond (r ||| z)
  split at hr <;> split at hrz <;> omega

theorem or_of_pos {k : Nat} (hk : k < w) (h : 0 < r.toInt ∧ r.toInt < 2 ^ k) (hz : 0 ≤ z.toInt ∧ z.toInt < 2 ^ k) :
    0 < (r ||| z).toInt ∧ (r ||| z).toInt < 2 ^ k := by
  have hr := toNat_of_nonneg h.1.le
  have hz' := toNat_of_nonneg hz.1
  have hrk : r.toNat < 2 ^ k := by exact_mod_cast hr ▸ h.2
  have hzk : z.toNat < 2 ^ k := by exact_mod_cast hz' ▸ hz.2
  have hlt : (r ||| z).toNat < 2 ^ k := by
    rw [BitVec.toNat_or]
    exact Nat.or_lt_two_pow hrk hzk
  have hle : r.toNat ≤ (r ||| z).toNat := by
    rw [BitVec.toNat_or]
    exact Nat.left_le_or
  have hpow : 2 * 2 ^ k ≤ 2 ^ w := by
    rw [← Nat.pow_succ']
    exact Nat.pow_le_pow_right (by decide) hk
  have hint := toInt_of_toNat (x := r ||| z) (by omega) rfl
  have hcast : (((r ||| z).toNat : Nat) : Int) < 2 ^ k := by exact_mod_cast hlt
  omega

/-- Once the comparison is positive, all but the lowest bit of the next difference is masked. -/
theorem masked_of_pos (hb : 1 ≤ b) (hbw : b < w) (h : 0 < r.toInt ∧ r.toInt < 2 ^ b) :
    0 ≤ (z &&& ~~~((0#w - r).sshiftRight (b - 1))).toInt ∧ (z &&& ~~~((0#w - r).sshiftRight (b - 1))).toInt ≤ 1 := by
  have hsplit : (2 : Int) ^ b = 2 * 2 ^ (b - 1) := by rw [← pow_succ']; congr 1; omega
  have hpos := two_pow_pos (b - 1)
  have hpow : (2 : Int) ^ b ≤ 2 ^ (w - 1) := pow_le_pow_right₀ (by decide) (by omega)
  have hneg : (0#w - r).toInt = -r.toInt := by
    rw [toInt_sub_of_fits (by omega) (by rw [BitVec.toInt_zero]; exact ⟨by omega, by omega⟩), BitVec.toInt_zero, zero_sub]
  have hshift := toInt_sshiftRight_div (0#w - r) (b - 1)
  have hq : -2 ≤ -r.toInt / 2 ^ (b - 1) ∧ -r.toInt / 2 ^ (b - 1) < 0 :=
    ⟨(Int.le_ediv_iff_mul_le hpos).2 (by omega), Int.ediv_neg_of_neg_of_pos (by omega) hpos⟩
  rw [hneg] at hshift
  generalize (0#w - r).sshiftRight (b - 1) = m at hshift
  have hm := BitVec.toInt_eq_toNat_cond m
  have hmlt := m.isLt
  have hnot : (~~~m).toNat = 2 ^ w - 1 - m.toNat := BitVec.toNat_not
  have hand : (z &&& ~~~m).toNat ≤ (~~~m).toNat := by
    rw [BitVec.toNat_and]
    exact Nat.and_le_right
  have hone : (z &&& ~~~m).toNat ≤ 1 := by
    rw [hnot] at hand
    split at hm <;> omega
  have hfour : 2 * 1 < 2 ^ w := by
    calc 2 * 1 = 2 ^ 1 := rfl
      _ < 2 ^ w := Nat.pow_lt_pow_right (by decide) (by omega)
  have hint := toInt_of_toNat (x := z &&& ~~~m) (n := (z &&& ~~~m).toNat) (by omega) rfl
  omega

/-- **Comparison** has the sign of the difference. -/
theorem cmp_spec (hb : 1 ≤ b) (hbw : b < w) : ∀ {a c : List (BitVec w)}, a.length = c.length → Canon b a → Canon b c →
    (-2 ^ b < (cmp b a c).toInt ∧ (cmp b a c).toInt < 2 ^ b) ∧ ((cmp b a c).toInt < 0 ↔ value b a < value b c) ∧
      (0 < (cmp b a c).toInt ↔ value b c < value b a)
  | [], [], _, _, _ => by
    have := two_pow_pos b
    simp [cmp]
  | x :: a, y :: c, hlen, ha, hc => by
    obtain ⟨hx, ha⟩ := between_cons.1 ha
    obtain ⟨hy, hc⟩ := between_cons.1 hc
    obtain ⟨hrange, hneg, hpos⟩ := cmp_spec hb hbw (Nat.succ.inj hlen) ha hc
    have hB := two_pow_pos b
    have hpow : (2 : Int) ^ b ≤ 2 ^ (w - 1) := pow_le_pow_right₀ (by decide) (by omega)
    rw [cmp, value_cons, value_cons]
    rcases lt_trichotomy (cmp b a c).toInt 0 with hlt | hzero | hgt
    · have hor := or_of_neg (z := (x - y) &&& ~~~((0#w - cmp b a c).sshiftRight (b - 1))) hlt
      have hmul := mul_le_mul_of_nonneg_left (Int.add_one_le_of_lt (hneg.1 hlt)) hB.le
      rw [mul_add, mul_one] at hmul
      omega
    · have hword : cmp b a c = 0#w := BitVec.eq_of_toInt_eq (by rw [hzero, BitVec.toInt_zero])
      have hval : value b a = value b c := by omega
      have hdiff : (x - y).toInt = x.toInt - y.toInt := toInt_sub_of_fits (by omega) ⟨by omega, by omega⟩
      have hall : (0#w ||| ((x - y) &&& ~~~((0#w - 0#w).sshiftRight (b - 1)))) = x - y := by simp
      rw [hword, hall, hdiff, hval]
      omega
    · have hmask := masked_of_pos (z := x - y) hb hbw ⟨hgt, hrange.2⟩
      have htwo : (2 : Int) ≤ 2 ^ b := by
        calc (2 : Int) = 2 ^ 1 := rfl
          _ ≤ 2 ^ b := pow_le_pow_right₀ (by decide) hb
      have hor := or_of_pos hbw ⟨hgt, hrange.2⟩ (z := (x - y) &&& ~~~((0#w - cmp b a c).sshiftRight (b - 1)))
        ⟨hmask.1, by omega⟩
      have hmul := mul_le_mul_of_nonneg_left (Int.add_one_le_of_lt (hpos.1 hgt)) hB.le
      rw [mul_add, mul_one] at hmul
      omega

end Comparison

end Sp
end Wolf
