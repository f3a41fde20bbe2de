import Mathlib.Data.Nat.Size
import Mathlib.RingTheory.Coprime.Lemmas
import WolfsslRs.SpMontgomery
/-!
# SpModInv — inverses by repeated halving (wolfssl-src, patches/sp_c64.c)

`sp_256_mod_inv_5` and its copies are not constant time.  Two numbers start as the modulus and the number to invert; the
smaller is subtracted from the larger and what is left is halved until it is odd.  Each number has a multiplier that goes
the same way modulo the modulus, and whose digits are not normalised in between.  How many bits a number has decides which
one is larger and when to stop.
-/
namespace Wolf
namespace Sp

open Words Limbs

variable {w : Nat}

/-! ## The code -/

def tab64 : List Nat :=
  [64, 1, 59, 2, 60, 48, 54, 3, 61, 40, 49, 28, 55, 34, 43, 4, 62, 52, 38, 41, 50, 19, 29, 21, 56, 31, 35, 12, 44, 15, 23, 5,
    63, 58, 47, 53, 39, 27, 33, 42, 51, 37, 18, 20, 30, 11, 14, 22, 57, 46, 26, 32, 36, 17, 10, 13, 45, 25, 16, 9, 24, 8, 7, 6]

/-- The bits below the top bit of a digit, all set. -/
def smear (v : BitVec w) : BitVec w := [1, 2, 4, 8, 16, 32].foldl (fun v k => v ||| v.sshiftRight k) v

/-- The number of bits of a digit that is not zero, by the place its top bit gets in the table. -/
def numBitsDigit (v : BitVec w) : Nat :=
  let v := smear v
  tab64.getD (((v - v.sshiftRight 1) * BitVec.ofNat w 0x07EDD5E59A4E28C2) >>> 58).toNat 0

/-- The number of bits of a number; from the top digit down, the first that is not zero counts. -/
def numBits (b : Nat) : List (BitVec w) → Nat
  | [] => 0
  | d :: ds => if ds.any (· != 0#w) then numBits b ds + b else if d != 0#w then numBitsDigit d else 0

def odd (a : List (BitVec w)) : Bool := (a.headD 0#w &&& 1#w) != 0#w

/-- A number, its multiplier and how many bits it has. -/
structure Half (f : Format) where
  x : f.Digits
  y : f.Digits
  t : Int

def halve (f : Format) (m : f.Digits) (h : Half f) : Half f :=
  ⟨rshift1 f.b h.x, rshift1 f.b (if odd h.y then add h.y m else h.y), h.t - 1⟩

/-- The loop that halves at least once. -/
def halvings (f : Format) (m : f.Digits) : Nat → Half f → Option (Half f)
  | 0, _ => none
  | k + 1, h =>
    let g := halve f m h
    if 0 < g.t ∧ odd g.x = false then halvings f m k g else some g

/-- One number less the other, halved. -/
def lessOther (f : Format) (m : f.Digits) (fuel : Nat) (h o : Half f) : Option (Half f) :=
  let x := norm f.b (sub h.x o.x)
  let y := norm f.b (sub h.y o.y)
  let y := norm f.b (if (top y).toInt < 0 then add y m else y)
  halvings f m fuel ⟨x, y, numBits f.b x⟩

def modInvLoop (f : Format) (m : f.Digits) (fuel : Nat) : Nat → Half f → Half f → Option (Half f × Half f)
  | 0, _, _ => none
  | k + 1, u, v =>
    if 1 < u.t ∧ 1 < v.t then
      if v.t < u.t ∨ (u.t = v.t ∧ 0 ≤ (cmp f.b u.x v.x).toInt) then
        (lessOther f m fuel u v).bind fun u => modInvLoop f m fuel k u v
      else (lessOther f m fuel v u).bind fun v => modInvLoop f m fuel k u v
    else some (u, v)

/-- The loop before, for an even number. -/
def firstHalvings (f : Format) (m : f.Digits) : Nat → Half f → Option (Half f)
  | 0, _ => none
  | k + 1, h => if odd h.x then some h else firstHalvings f m k (halve f m h)

/-- The digits of the number one more, the carry left where it is. -/
def incr : List (BitVec w) → List (BitVec w)
  | [] => []
  | d :: ds => (d + 1#w) :: ds

/-- The number to start with: halved once if it is even, with half of the modulus and one for its multiplier. -/
def modInvFirst (f : Format) (fuel : Nat) (a m : f.Digits) : Option (Half f) :=
  if odd a then some ⟨a, incr (List.replicate f.n 0#f.w), numBits f.b a⟩
  else firstHalvings f m fuel ⟨rshift1 f.b a, rshift1 f.b (incr m), (numBits f.b a : Int) - 1⟩

def modInv (f : Format) (fuel : Nat) (a m : f.Digits) : Option f.Digits := do
  let v ← modInvFirst f fuel a m
  let (u, v) ← modInvLoop f m fuel fuel ⟨m, List.replicate f.n 0#f.w, numBits f.b m⟩ v
  return if u.t = 1 then u.y else v.y

/-! ## Bits -/

section Bits

/-- The top bit of a number is bit `k`, and the `j` bits from it down are set. -/
def TopBits (n k j : Nat) : Prop := n < 2 ^ (k + 1) ∧ ∀ i ≤ k, k < i + j → n.testBit i = true

theorem topBits_one {n k : Nat} (h0 : 2 ^ k ≤ n) (h1 : n < 2 ^ (k + 1)) : TopBits n k 1 := by
  refine ⟨h1, fun i hi hj => ?_⟩
  obtain rfl : i = k := by omega
  rw [Nat.testBit_eq_decide_div_mod_eq, decide_eq_true_iff]
  have hdiv : n / 2 ^ i = 1 := by
    rw [Nat.div_eq_iff (Nat.two_pow_pos i)]
    rw [pow_succ] at h1
    omega
  rw [hdiv]

/-- The number or itself shifted: twice as many bits. -/
theorem TopBits.double {n k j : Nat} (h : TopBits n k j) : TopBits (n ||| n >>> j) k (2 * j) := by
  refine ⟨Nat.or_lt_two_pow h.1 (Nat.lt_of_le_of_lt (Nat.shiftRight_le n j) h.1), fun i hi hj => ?_⟩
  rw [Nat.testBit_or, Nat.testBit_shiftRight, Bool.or_eq_true]
  rcases Nat.lt_or_ge k (i + j) with hlt | hge
  · exact .inl (h.2 i hi hlt)
  · exact .inr (h.2 (j + i) (by omega) (by omega))

theorem TopBits.eq {n k j : Nat} (h : TopBits n k j) (hj : k < j) : n = 2 ^ (k + 1) - 1 := by
  refine Nat.eq_of_testBit_eq fun i => ?_
  rw [Nat.testBit_two_pow_sub_one]
  rcases Nat.lt_or_ge i (k + 1) with hi | hi
  · rw [h.2 i (by omega) (by omega), decide_eq_true hi]
  · rw [Nat.testBit_lt_two_pow (Nat.lt_of_lt_of_le h.1 (Nat.pow_le_pow_right (by decide) hi)), decide_eq_false (by omega)]

theorem toNat_smear_step {v : BitVec 64} {k : Nat} (hv : v.toNat < 2 ^ 63) :
    (v ||| v.sshiftRight k).toNat = v.toNat ||| v.toNat >>> k := by
  have hmsb : v.msb = false := by
    rw [BitVec.msb_eq_decide, decide_eq_false_iff_not]
    omega
  rw [BitVec.toNat_or, BitVec.sshiftRight_eq_of_msb_false hmsb, BitVec.toNat_ushiftRight]

theorem toNat_smear {v : BitVec 64} {k : Nat} (hk : k < 63) (h0 : 2 ^ k ≤ v.toNat) (h1 : v.toNat < 2 ^ (k + 1)) :
    (smear v).toNat = 2 ^ (k + 1) - 1 := by
  have hpow : 2 ^ (k + 1) ≤ 2 ^ 63 := Nat.pow_le_pow_right (by decide) (by omega)
  have step : ∀ {u : BitVec 64} {j : Nat}, TopBits u.toNat k j → TopBits (u ||| u.sshiftRight j).toNat k (2 * j) := by
    intro u j hu
    rw [toNat_smear_step (Nat.lt_of_lt_of_le hu.1 hpow)]
    exact hu.double
  have h64 := step (step (step (step (step (step (topBits_one h0 h1))))))
  exact h64.eq (by omega)

theorem table : ∀ k < 62, tab64.getD (((BitVec.ofNat 64 (2 ^ (k + 1) - 1) -
    (BitVec.ofNat 64 (2 ^ (k + 1) - 1)).sshiftRight 1) * BitVec.ofNat 64 0x07EDD5E59A4E28C2) >>> 58).toNat 0 = k + 1 := by
  decide +kernel

/-- **The table** gives the number of bits of a digit. -/
theorem numBitsDigit_spec {v : BitVec 64} (h0 : 0 < v.toNat) (h1 : v.toNat < 2 ^ 62) :
    numBitsDigit v = Nat.size v.toNat := by
  obtain ⟨k, hk⟩ : ∃ k, Nat.size v.toNat = k + 1 := ⟨Nat.size v.toNat - 1, by have := Nat.size_pos.2 h0; omega⟩
  have hlt : v.toNat < 2 ^ (k + 1) := hk ▸ Nat.lt_size_self v.toNat
  have hle : 2 ^ k ≤ v.toNat := Nat.lt_size.1 (by omega)
  have hk62 : k < 62 := by
    by_contra hcon
    have := Nat.pow_le_pow_right (by decide : 0 < 2) (by omega : 62 ≤ k)
    omega
  have hsmear := toNat_smear (by omega) hle hlt
  have heq : smear v = BitVec.ofNat 64 (2 ^ (k + 1) - 1) := by
    refine BitVec.eq_of_toNat_eq ?_
    rw [hsmear, BitVec.toNat_ofNat, Nat.mod_eq_of_lt]
    have := Nat.pow_le_pow_right (by decide : 0 < 2) (by omega : k + 1 ≤ 63)
    omega
  rw [numBitsDigit, heq, hk]
  exact table k hk62

theorem size_eq {n k : Nat} (h0 : 2 ^ k ≤ n) (h1 : n < 2 ^ (k + 1)) : Nat.size n = k + 1 :=
  Nat.le_antisymm (Nat.size_le.2 h1) (Nat.lt_size.2 h0)

theorem size_digits {d v b : Nat} (hd : d < 2 ^ b) (hv : 0 < v) : Nat.size (d + 2 ^ b * v) = Nat.size v + b := by
  obtain ⟨k, hk⟩ : ∃ k, Nat.size v = k + 1 := ⟨Nat.size v - 1, by have := Nat.size_pos.2 hv; omega⟩
  have hlt : v < 2 ^ (k + 1) := hk ▸ Nat.lt_size_self v
  have hle : 2 ^ k ≤ v := Nat.lt_size.1 (by omega)
  have hcomm : k + 1 + b = k + b + 1 := by omega
  rw [hk, hcomm]
  refine size_eq ?_ ?_
  · calc 2 ^ (k + b) = 2 ^ b * 2 ^ k := by rw [pow_add, Nat.mul_comm]
      _ ≤ 2 ^ b * v := Nat.mul_le_mul_left _ hle
      _ ≤ d + 2 ^ b * v := Nat.le_add_left _ _
  · calc d + 2 ^ b * v < 2 ^ b + 2 ^ b * v := Nat.add_lt_add_right hd _
      _ = 2 ^ b * (v + 1) := by rw [Nat.mul_succ, Nat.add_comm]
      _ ≤ 2 ^ b * 2 ^ (k + 1) := Nat.mul_le_mul_left _ hlt
      _ = 2 ^ (k + b + 1) := by rw [← pow_add]; congr 1; omega

theorem any_ne_zero_iff {b : Nat} : ∀ {a : List (BitVec w)}, Canon b a → (a.any (· != 0#w) = true ↔ 0 < value b a)
  | [], _ => by simp
  | d :: ds, ha => by
    obtain ⟨hd, hds⟩ := between_cons.1 ha
    have hpos := two_pow_pos b
    have hrest := mul_nonneg hpos.le (hds.value_nonneg (b := b))
    have hzero : d = 0#w ↔ d.toInt = 0 := by
      rw [← BitVec.toInt_inj, BitVec.toInt_zero]
    rw [List.any_cons, Bool.or_eq_true, bne_iff_ne, ne_eq, hzero, any_ne_zero_iff hds, value_cons]
    constructor
    · rintro (h | h)
      · omega
      · have := mul_pos hpos h
        omega
    · intro h
      by_cases h0 : d.toInt = 0
      · exact .inr ((mul_pos_iff_of_pos_left hpos).1 (by omega))
      · exact .inl h0

/-- **The number of bits** of a number in digits. -/
theorem numBits_size {b : Nat} (hb : b ≤ 62) : ∀ {a : List (BitVec 64)}, Canon b a →
    numBits b a = Nat.size (value b a).toNat
  | [], _ => by simp [numBits]
  | d :: ds, ha => by
    obtain ⟨hd, hds⟩ := between_cons.1 ha
    have hpos := two_pow_pos b
    have hv0 := hds.value_nonneg (b := b)
    have hdn := toNat_of_nonneg hd.1
    have hdlt := toNat_digit_lt hd
    have hvalue : (value b (d :: ds)).toNat = d.toNat + 2 ^ b * (value b ds).toNat := by
      zify
      rw [Int.toNat_of_nonneg ha.value_nonneg, Int.toNat_of_nonneg hv0, value_cons, hdn]
    rw [numBits, hvalue]
    split
    · rename_i hany
      have hds0 := (any_ne_zero_iff hds).1 hany
      rw [numBits_size hb hds, size_digits hdlt (by omega)]
    · rename_i hany
      have hds0 : (value b ds).toNat = 0 := by
        have := mt (any_ne_zero_iff hds).2 hany
        omega
      rw [hds0, Nat.mul_zero, Nat.add_zero]
      have hle : 2 ^ b ≤ 2 ^ 62 := Nat.pow_le_pow_right (by decide) hb
      split
      · rename_i hne
        have hd0 : d.toNat ≠ 0 := fun h => by
          rw [bne_iff_ne] at hne
          exact hne (BitVec.eq_of_toNat_eq h)
        exact numBitsDigit_spec (by omega) (by omega)
      · rename_i hne
        have hd0 : d = 0#64 := by simpa using hne
        rw [hd0]
        rfl

theorem numBits_spec {f : Format} (hw : f.w = 64) {a : f.Digits} (ha : Canon f.b a) :
    numBits f.b a = Nat.size (value f.b a).toNat := by
  obtain ⟨w, b, n, s, h1, h2, h3, h4, h5, h6⟩ := f
  obtain rfl : w = 64 := hw
  exact numBits_size (show b ≤ 62 by omega) ha

end Bits

/-! ## Halving -/

section Halving

variable {f : Format} {m : f.Digits} {A M : Int}

theorem length_rshift1 {b : Nat} : ∀ a : List (BitVec w), (rshift1 b a).length = a.length
  | [] => rfl
  | [_] => rfl
  | _ :: e :: ds => congrArg (· + 1) (length_rshift1 (e :: ds))

theorem odd_iff {a : f.Digits} (ha : a.length = f.n) : odd a = true ↔ value f.b a % 2 = 1 := by
  have hb := f.one_le_b
  have hw := f.spare_bits
  obtain ⟨d, ds, rfl⟩ := List.exists_cons_of_ne_nil (ne_nil_of_length ha)
  have heven : (2 : Int) ∣ 2 ^ f.b * value f.b ds := (dvd_pow_self 2 (by omega)).mul_right _
  have hmask : (d &&& 1#f.w).toInt = d.toInt % 2 := toInt_and_mask (k := 1) (by omega)
  have hzero : (d &&& 1#f.w) = 0#f.w ↔ d.toInt % 2 = 0 := by
    rw [← hmask, ← BitVec.toInt_inj, BitVec.toInt_zero]
  rw [odd, List.headD_cons, bne_iff_ne, ne_eq, hzero, value_cons]
  omega

/-- What is known of a number, its multiplier and its bits: the multiplier times `A` is the number modulo `M`. -/
structure Tracked (f : Format) (M A : Int) (h : Half f) : Prop where
  below : f.Below f.radix h.x
  pos : 0 < value f.b h.x
  bits : h.t = Nat.size (value f.b h.x).toNat
  length : h.y.length = f.n
  between : Between 0 (2 * 2 ^ f.b) h.y
  lt : value f.b h.y < M
  mul : value f.b h.y * A ≡ value f.b h.x [ZMOD M]

/-- The modulus the loops work with. -/
structure OddModulus (f : Format) (m : f.Digits) : Prop extends f.Below (2 ^ f.bits) m where
  odd : value f.b m % 2 = 1

/-- An even number is halved exactly, whatever room its digits take. -/
theorem rshift1_even {u : Int} (hhi0 : 0 ≤ u) (hhi : u ≤ 30 * 2 ^ f.b) {z : f.Digits} (hlen : z.length = f.n)
    (hz : Between 0 u z) (heven : value f.b z % 2 = 0) :
    (rshift1 f.b z).length = f.n ∧ Between 0 (u / 2 + 2 ^ (f.b - 1)) (rshift1 f.b z) ∧
      2 * value f.b (rshift1 f.b z) = value f.b z := by
  have hb := f.one_le_b
  have hw := f.spare_bits
  have hfit := f.digits_fit
  have hpos := two_pow_pos f.b
  obtain ⟨d, ds, rfl⟩ := List.exists_cons_of_ne_nil (ne_nil_of_length hlen)
  obtain ⟨hval, hbetween⟩ := rshift1_spec hb (by omega) (by omega) (by omega) le_rfl hhi0 hz
  have hbit : d.toInt % 2 = 0 := by
    have hdvd : (2 : Int) ∣ 2 ^ f.b * value f.b ds := (dvd_pow_self 2 (by omega)).mul_right _
    rw [value_cons] at heven
    omega
  exact ⟨by rw [length_rshift1, hlen], hbetween.mono (by omega) le_rfl, by omega⟩

theorem Format.half_digit (f : Format) : (2 : Int) ^ f.b = 2 * 2 ^ (f.b - 1) := by
  have := f.one_le_b
  rw [← pow_succ']
  congr 1
  omega

theorem rshift1_digits {x : f.Digits} (hx : f.Below f.radix x) (heven : value f.b x % 2 = 0) :
    f.Below f.radix (rshift1 f.b x) ∧ 2 * value f.b (rshift1 f.b x) = value f.b x := by
  have hpos := two_pow_pos f.b
  have hhalf := f.half_digit
  have hlt := hx.lt
  have hnn := hx.nonneg
  obtain ⟨hlen, hbetween, hval⟩ := rshift1_even (by omega) (by omega) hx.length hx.canon heven
  exact ⟨⟨hlen, hbetween.mono le_rfl (by omega), by omega⟩, hval⟩

/-- The multiplier is halved modulo the modulus, which is added first if it is odd. -/
theorem halve_multiplier (hm : OddModulus f m) {y : f.Digits} (hlen : y.length = f.n) (hy : Between 0 (2 * 2 ^ f.b) y)
    (hlt : value f.b y < value f.b m) :
    ∃ z, rshift1 f.b (if odd y then add y m else y) = z ∧ z.length = f.n ∧ Between 0 (2 * 2 ^ f.b) z ∧
      value f.b z < value f.b m ∧ 2 * value f.b z ≡ value f.b y [ZMOD value f.b m] := by
  have hpos := two_pow_pos f.b
  have hfit := f.digits_fit
  have hhalf := f.half_digit
  have hmn := hm.odd
  refine ⟨_, rfl, ?_⟩
  split
  · rename_i hodd
    have hbit := (odd_iff hlen).1 hodd
    have hsame : y.length = m.length := hlen.trans hm.length.symm
    obtain ⟨hval, hbetween⟩ := zipWith_add (b := f.b) (by have := f.b_lt_w; omega) (by omega) (by omega) hsame hy hm.canon
    rw [← add] at hval hbetween
    obtain ⟨hl, hb, hv⟩ := rshift1_even (f := f) (z := add y m) (u := 3 * 2 ^ f.b) (by omega) (by omega)
      (by rw [length_add, hlen, hm.length, Nat.min_self]) (hbetween.mono (by omega) (by omega)) (by omega)
    exact ⟨hl, hb.mono le_rfl (by omega), by omega, by rw [hv, hval]; exact Int.modEq_iff_dvd.2 ⟨-1, by ring⟩⟩
  · rename_i hodd
    have hbit := mt (odd_iff hlen).2 hodd
    obtain ⟨hl, hb, hv⟩ := rshift1_even (by omega) (by omega) hlen hy (by omega)
    have hy0 := hy.value_nonneg (b := f.b)
    exact ⟨hl, hb.mono le_rfl (by omega), by omega, by rw [hv]⟩

theorem cancel_two {M x y : Int} (hM : M % 2 = 1) (h : 2 * x ≡ 2 * y [ZMOD M]) : x ≡ y [ZMOD M] := by
  have hcop : IsCoprime M 2 := ⟨1, -(M / 2), by omega⟩
  rw [Int.modEq_iff_dvd] at h ⊢
  exact hcop.dvd_of_dvd_mul_left (by rw [mul_sub]; exact h)

theorem size_half {n : Nat} (hn : 0 < n) : Nat.size (2 * n) = Nat.size n + 1 := by
  have := size_digits (d := 0) (b := 1) (by decide) hn
  rwa [Nat.zero_add, pow_one] at this

/-- **One halving** of a number that is even. -/
theorem halve_spec (hm : OddModulus f m) {h : Half f} (ht : Tracked f (value f.b m) A h) (heven : value f.b h.x % 2 = 0) :
    Tracked f (value f.b m) A (halve f m h) ∧ 2 * value f.b (halve f m h).x = value f.b h.x ∧ (halve f m h).t = h.t - 1 := by
  obtain ⟨hbelow, hval⟩ := rshift1_digits ht.below heven
  obtain ⟨z, hz, hzlen, hzb, hzlt, hzmod⟩ := halve_multiplier hm ht.length ht.between ht.lt
  have hpos := ht.pos
  have hxpos : 0 < value f.b (rshift1 f.b h.x) := by omega
  have hsize := size_half (n := (value f.b (rshift1 f.b h.x)).toNat) (by omega)
  have hnat : (value f.b h.x).toNat = 2 * (value f.b (rshift1 f.b h.x)).toNat := by omega
  have hbits := ht.bits
  rw [halve, hz]
  refine ⟨⟨hbelow, hxpos, ?_, hzlen, hzb, hzlt, cancel_two hm.odd ?_⟩, hval, rfl⟩
  · rw [hbits, hnat, hsize]
    push_cast
    ring
  · simp only
    rw [hval, ← mul_assoc]
    exact (hzmod.mul_right A).trans ht.mul

theorem Tracked.one_le {M A : Int} {h : Half f} (ht : Tracked f M A h) : 1 ≤ h.t := by
  have hpos := ht.pos
  have hsize := Nat.size_pos.2 (by omega : 0 < (value f.b h.x).toNat)
  rw [ht.bits]
  omega

/-- What a loop that halves gives back: an odd number that divides the one it began with. -/
structure Halved (f : Format) (M A : Int) (h g : Half f) : Prop extends Tracked f M A g where
  odd : value f.b g.x % 2 = 1
  dvd : value f.b g.x ∣ value f.b h.x
  le : g.t ≤ h.t

theorem Halved.of_halve {h g : Half f} (hg : Halved f (value f.b m) A (halve f m h) g)
    (hval : 2 * value f.b (halve f m h).x = value f.b h.x) : Halved f (value f.b m) A h g :=
  ⟨hg.toTracked, hg.odd, hval ▸ hg.dvd.mul_left 2, hg.le.trans (by rw [halve]; simp)⟩

/-- **The loop that halves at least once** ends, within as many passes as the number has bits. -/
theorem halvings_spec (hm : OddModulus f m) : ∀ {k : Nat} {h : Half f}, Tracked f (value f.b m) A h →
    value f.b h.x % 2 = 0 → h.t ≤ k → ∃ g, halvings f m k h = some g ∧ Halved f (value f.b m) A h g ∧ g.t < h.t
  | 0, h, ht, _, hk => absurd ht.one_le (by omega)
  | k + 1, h, ht, heven, hk => by
    obtain ⟨htr, hval, hbits⟩ := halve_spec hm ht heven
    have hone := htr.one_le
    have hodd := odd_iff htr.below.length
    rw [halvings]
    split
    · rename_i hcond
      have hbit : ¬ value f.b (halve f m h).x % 2 = 1 := by
        rw [← hodd, hcond.2]
        decide
      obtain ⟨g, hg, hhalved, hlt⟩ := halvings_spec hm (k := k) htr (by omega) (by omega)
      exact ⟨g, hg, hhalved.of_halve hval, by omega⟩
    · rename_i hcond
      have hbit : odd (halve f m h).x = true := by
        rw [← Bool.not_eq_false]
        exact fun hcon => hcond ⟨by omega, hcon⟩
      exact ⟨_, rfl, ⟨htr, hodd.1 hbit, hval ▸ Dvd.intro_left 2 rfl, by omega⟩, by omega⟩

/-- The loop before does the same, and may end at once. -/
theorem firstHalvings_spec (hm : OddModulus f m) : ∀ {k : Nat} {h : Half f}, Tracked f (value f.b m) A h → h.t ≤ k →
    ∃ g, firstHalvings f m k h = some g ∧ Halved f (value f.b m) A h g
  | 0, h, ht, hk => absurd ht.one_le (by omega)
  | k + 1, h, ht, hk => by
    have hodd := odd_iff ht.below.length
    rw [firstHalvings]
    split
    · rename_i hbit
      exact ⟨h, rfl, ht, hodd.1 hbit, dvd_rfl, le_rfl⟩
    · rename_i hbit
      have heven := mt hodd.2 hbit
      obtain ⟨htr, hval, hbits⟩ := halve_spec hm ht (by omega)
      obtain ⟨g, hg, hhalved⟩ := firstHalvings_spec hm (k := k) htr (by omega)
      exact ⟨g, hg, hhalved.of_halve hval⟩

end Halving

/-! ## Subtraction -/

section Subtraction

variable {f : Format} {m : f.Digits} {A : Int}

/-- Passing the carries on leaves the sign of the number in its top word. -/
theorem norm_sign {z : f.Digits} (hlen : z.length = f.n) (hz : Between (-(15 * 2 ^ f.b)) (15 * 2 ^ f.b) z)
    (h0 : -f.radix ≤ value f.b z) (h1 : value f.b z < f.radix) :
    value f.b (norm f.b z) = value f.b z ∧ Between (-2 ^ f.b) (2 ^ f.b - 1) (norm f.b z) ∧
      ((top (norm f.b z)).toInt < 0 ↔ value f.b z < 0) := by
  have hpos := two_pow_pos f.b
  have hfit := f.digits_fit
  obtain ⟨⟨l, t, heq, hl⟩, hval⟩ := norm_spec (b := f.b) f.one_le_b f.b_lt_w (by omega) (ne_nil_of_length hlen) hz
  have hllen : l.length + 1 = f.n := by
    have := congrArg List.length heq
    rw [length_norm, List.length_append, List.length_singleton] at this
    omega
  have ht := last_eq_ediv (t := t) hl
  have hL := two_pow_pos (f.b * l.length)
  have hradix : f.radix = 2 ^ f.b * 2 ^ (f.b * l.length) := by
    rw [Format.radix, ← hllen, Nat.mul_succ, pow_add, mul_comm]
  have htop : top (l ++ [t]) = t := List.getLastD_concat ..
  rw [← heq, hval] at ht
  refine ⟨hval, ?_, ?_⟩
  · have hq0 : -2 ^ f.b ≤ value f.b z / 2 ^ (f.b * l.length) :=
      (Int.le_ediv_iff_mul_le hL).2 (by rw [neg_mul, ← hradix]; exact h0)
    have hq1 : value f.b z / 2 ^ (f.b * l.length) < 2 ^ f.b := (Int.ediv_lt_iff_lt_mul hL).2 (by rw [← hradix]; exact h1)
    rw [heq]
    exact between_append.2 ⟨Between.mono hl (by omega) le_rfl, between_cons.2 ⟨⟨by omega, by omega⟩, between_nil⟩⟩
  · rw [heq, htop, ht, Int.ediv_lt_iff_lt_mul hL, zero_mul]

/-- **One multiplier less the other** modulo the modulus. -/
theorem sub_multiplier (hm : OddModulus f m) {y z : f.Digits} (hy : y.length = f.n ∧ Between 0 (2 * 2 ^ f.b) y)
    (hz : z.length = f.n ∧ Between 0 (2 * 2 ^ f.b) z) (hylt : value f.b y < value f.b m) (hzlt : value f.b z < value f.b m) :
    ∃ r, norm f.b (if (top (norm f.b (sub y z))).toInt < 0 then add (norm f.b (sub y z)) m else norm f.b (sub y z)) = r ∧
      f.Below (value f.b m) r ∧ value f.b r ≡ value f.b y - value f.b z [ZMOD value f.b m] := by
  have hpos := two_pow_pos f.b
  have hfit := f.digits_fit
  have hw := f.b_lt_w
  have hy0 := hy.2.value_nonneg (b := f.b)
  have hz0 := hz.2.value_nonneg (b := f.b)
  have hmlt := hm.lt
  have hbits := f.bits_le_radix
  obtain ⟨hval, hbetween⟩ := zipWith_sub (b := f.b) (by omega) (by omega) (by omega) (hy.1.trans hz.1.symm) hy.2 hz.2
  rw [← sub] at hval hbetween
  have hslen : (sub y z).length = f.n := by rw [length_sub, hy.1, hz.1, Nat.min_self]
  obtain ⟨hnval, hnb, hsign⟩ := norm_sign hslen (hbetween.mono (by omega) (by omega)) (by omega) (by omega)
  have hnlen : (norm f.b (sub y z)).length = f.n := by rw [length_norm, hslen]
  refine ⟨_, rfl, ?_⟩
  split
  · rename_i hneg
    have hlt := hsign.1 hneg
    obtain ⟨haval, hab⟩ := zipWith_add (b := f.b) (by omega) (by omega) (by omega) (hnlen.trans hm.length.symm) hnb hm.canon
    rw [← add] at haval hab
    obtain ⟨hbelow, hr⟩ := norm_below (f := f) (c := value f.b m) (z := add (norm f.b (sub y z)) m) (by omega)
      (by rw [length_add, hnlen, hm.length, Nat.min_self]) (hab.mono (by omega) (by omega)) (by omega) (by omega)
    refine ⟨hbelow, ?_⟩
    rw [hr, haval, hnval, hval]
    exact Int.modEq_iff_dvd.2 ⟨-1, by ring⟩
  · rename_i hnn
    have hge := mt hsign.2 hnn
    obtain ⟨hbelow, hr⟩ := norm_below (c := value f.b m) (by omega) hnlen (hnb.mono (by omega) (by omega)) (by omega)
      (by omega)
    exact ⟨hbelow, by rw [hr, hnval, hval]⟩

theorem Tracked.size_le {M A : Int} {h : Half f} (ht : Tracked f M A h) {v : Int} (hv : v ≤ value f.b h.x) :
    (Nat.size v.toNat : Int) ≤ h.t := by
  rw [ht.bits]
  exact_mod_cast Nat.size_le_size (Int.toNat_le_toNat hv)

/-- **One number less a smaller one**, both odd. -/
theorem lessOther_spec (hw : f.w = 64) (hm : OddModulus f m) {fuel : Nat} {h o : Half f}
    (hh : Tracked f (value f.b m) A h) (ho : Tracked f (value f.b m) A o) (hodd : value f.b h.x % 2 = 1)
    (hodd' : value f.b o.x % 2 = 1) (hlt : value f.b o.x < value f.b h.x) (hfuel : h.t ≤ fuel) :
    ∃ g, lessOther f m fuel h o = some g ∧ Tracked f (value f.b m) A g ∧ value f.b g.x % 2 = 1 ∧
      value f.b g.x ∣ value f.b h.x - value f.b o.x ∧ g.t < h.t := by
  have hpos := two_pow_pos f.b
  have hfit := f.digits_fit
  have hbw := f.b_lt_w
  have hxlt := hh.below.lt
  have hopos := ho.pos
  obtain ⟨hbelow, hval⟩ := norm_sub_spec le_rfl hh.below ho.below hlt.le (by omega)
  obtain ⟨y, hy, hybelow, hymod⟩ := sub_multiplier hm ⟨hh.length, hh.between⟩ ⟨ho.length, ho.between⟩ hh.lt ho.lt
  have htr : Tracked f (value f.b m) A ⟨norm f.b (sub h.x o.x), y, numBits f.b (norm f.b (sub h.x o.x))⟩ := by
    refine ⟨hbelow, show 0 < value f.b (norm f.b (sub h.x o.x)) by omega, by rw [numBits_spec hw hbelow.canon], hybelow.length,
      Between.mono hybelow.canon le_rfl (by omega), hybelow.lt, ?_⟩
    calc value f.b y * A ≡ (value f.b h.y - value f.b o.y) * A [ZMOD value f.b m] := hymod.mul_right A
      _ = value f.b h.y * A - value f.b o.y * A := by ring
      _ ≡ value f.b h.x - value f.b o.x [ZMOD value f.b m] := hh.mul.sub ho.mul
      _ = value f.b (norm f.b (sub h.x o.x)) := by rw [hval]
  have hsize := hh.size_le (v := value f.b (norm f.b (sub h.x o.x))) (by omega)
  have hbits := htr.bits
  simp only at hbits
  obtain ⟨g, hg, hhalved, hglt⟩ := halvings_spec hm (k := fuel) htr (by simp only; omega) (by simp only; omega)
  have hdvd := hhalved.dvd
  simp only at hdvd hglt
  rw [hval] at hdvd
  exact ⟨g, by rw [lessOther, hy]; exact hg, hhalved.toTracked, hhalved.odd, hdvd, by omega⟩

end Subtraction

/-! ## The loop -/

section Loop

variable {f : Format} {m : f.Digits} {A : Int}

/-- The two numbers between two passes: odd, and with no common divisor. -/
structure Pair (f : Format) (M A : Int) (u v : Half f) : Prop where
  left : Tracked f M A u
  right : Tracked f M A v
  left_odd : value f.b u.x % 2 = 1
  right_odd : value f.b v.x % 2 = 1
  coprime : IsCoprime (value f.b u.x) (value f.b v.x)

theorem Pair.symm {M A : Int} {u v : Half f} (h : Pair f M A u v) : Pair f M A v u :=
  ⟨h.right, h.left, h.right_odd, h.left_odd, h.coprime.symm⟩

theorem Pair.less {M A : Int} {u v g : Half f} (h : Pair f M A u v) (hg : Tracked f M A g) (hodd : value f.b g.x % 2 = 1)
    (hdvd : value f.b g.x ∣ value f.b u.x - value f.b v.x) : Pair f M A g v := by
  refine ⟨hg, h.right, hodd, h.right_odd, IsCoprime.of_isCoprime_of_dvd_left ?_ hdvd⟩
  have := h.coprime.add_mul_left_left (-1)
  rwa [mul_neg_one, ← sub_eq_add_neg] at this

theorem Tracked.eq_one {M : Int} {h : Half f} (ht : Tracked f M A h) (hle : h.t ≤ 1) : value f.b h.x = 1 := by
  have hpos := ht.pos
  have hlt := Nat.lt_size_self (value f.b h.x).toNat
  have hsize : Nat.size (value f.b h.x).toNat ≤ 1 := by
    have := ht.bits
    omega
  have := Nat.pow_le_pow_right (by decide : 0 < 2) hsize
  omega

theorem Pair.ne {M : Int} {u v : Half f} (h : Pair f M A u v) (ht : 1 < u.t) : value f.b u.x ≠ value f.b v.x := by
  intro heq
  have hcop := h.coprime
  rw [← heq, isCoprime_self, Int.isUnit_iff] at hcop
  have hpos := h.left.pos
  have hone : value f.b u.x = 1 := by omega
  have hbits := h.left.bits
  rw [hone] at hbits
  have hsize : Nat.size (1 : Int).toNat = 1 := Nat.size_one
  omega

/-- The bits and the comparison tell the larger number. -/
theorem Pair.larger_iff {M : Int} {u v : Half f} (h : Pair f M A u v) :
    (v.t < u.t ∨ (u.t = v.t ∧ 0 ≤ (cmp f.b u.x v.x).toInt)) ↔ value f.b v.x ≤ value f.b u.x := by
  obtain ⟨-, hneg, -⟩ := cmp_spec f.one_le_b f.b_lt_w (h.left.below.length.trans h.right.below.length.symm)
    h.left.below.canon h.right.below.canon
  have hu := h.left.size_le (v := value f.b v.x)
  have hv := h.right.size_le (v := value f.b u.x)
  rw [← h.right.bits] at hu
  rw [← h.left.bits] at hv
  constructor
  · rintro (hlt | ⟨-, hcmp⟩)
    · by_contra hcon
      exact absurd (hv (by omega)) (by omega)
    · by_contra hcon
      exact absurd (hneg.2 (by omega)) (by omega)
  · intro hle
    by_cases heq : u.t = v.t
    · exact .inr ⟨heq, by by_contra hcon; exact absurd (hneg.1 (by omega)) (by omega)⟩
    · exact .inl (by have := hu hle; omega)

/-- **The loop ends** with one of the numbers at one: each pass takes a bit off one of them. -/
theorem modInvLoop_spec (hw : f.w = 64) (hm : OddModulus f m) (fuel : Nat) : ∀ {k : Nat} {u v : Half f},
    Pair f (value f.b m) A u v → u.t ≤ fuel → v.t ≤ fuel → u.t + v.t ≤ k →
    ∃ g o, modInvLoop f m fuel k u v = some (g, o) ∧ Pair f (value f.b m) A g o ∧ (g.t = 1 ∨ o.t = 1)
  | 0, u, v, h, _, _, hk => absurd h.left.one_le (by have := h.right.one_le; omega)
  | k + 1, u, v, h, hu, hv, hk => by
    rw [modInvLoop]
    split
    · rename_i hmore
      have hne := h.ne hmore.1
      have hlarger := h.larger_iff
      split
      · rename_i hcond
        have hle := hlarger.1 hcond
        obtain ⟨g, hg, htr, hodd, hdvd, hlt⟩ := lessOther_spec hw hm h.left h.right h.left_odd h.right_odd (by omega) hu
        rw [hg, Option.bind_some]
        exact modInvLoop_spec hw hm fuel (h.less htr hodd hdvd) (by omega) hv (by omega)
      · rename_i hcond
        have hlt := mt hlarger.2 hcond
        obtain ⟨g, hg, htr, hodd, hdvd, hless⟩ := lessOther_spec hw hm h.right h.left h.right_odd h.left_odd (by omega) hv
        rw [hg, Option.bind_some]
        exact modInvLoop_spec hw hm fuel (h.symm.less htr hodd hdvd).symm hu (by omega) (by omega)
    · rename_i hdone
      have hone := h.left.one_le
      have hone' := h.right.one_le
      exact ⟨u, v, rfl, h, by omega⟩

/-! ## The inverse -/

theorem length_incr {w : Nat} (a : List (BitVec w)) : (incr a).length = a.length := by
  cases a <;> rfl

theorem incr_spec {a : f.Digits} (hlen : a.length = f.n) (ha : Canon f.b a) :
    value f.b (incr a) = value f.b a + 1 ∧ Between 0 (2 ^ f.b) (incr a) := by
  have hpos := two_pow_pos f.b
  have hfit := f.digits_fit
  have hw := f.spare_bits
  obtain ⟨d, ds, rfl⟩ := List.exists_cons_of_ne_nil (ne_nil_of_length hlen)
  obtain ⟨hd, hds⟩ := between_cons.1 ha
  have hone : (1#f.w).toInt = 1 := BitVec.toInt_one (by omega)
  have hsum : (d + 1#f.w).toInt = d.toInt + 1 := by
    rw [toInt_add_of_fits (by omega) (by rw [hone]; exact ⟨by omega, by omega⟩), hone]
  rw [incr]
  exact ⟨by rw [value_cons, hsum, value_cons]; ring,
    between_cons.2 ⟨by rw [hsum]; omega, Between.mono hds le_rfl (by omega)⟩⟩

theorem size_value_le {a : f.Digits} (ha : f.Below f.radix a) : Nat.size (value f.b a).toNat ≤ f.b * f.n := by
  rw [Nat.size_le]
  have hlt := ha.lt
  have hnn := ha.nonneg
  rw [Format.radix] at hlt
  zify
  rwa [Int.toNat_of_nonneg hnn]

theorem first_even (hw : f.w = 64) (hm : OddModulus f m) (hm1 : 1 < value f.b m) {a : f.Digits} (ha : f.Below f.radix a)
    (h0 : 0 < value f.b a) (heven : value f.b a % 2 = 0) :
    Tracked f (value f.b m) (value f.b a) ⟨rshift1 f.b a, rshift1 f.b (incr m), (numBits f.b a : Int) - 1⟩ ∧
      2 * value f.b (rshift1 f.b a) = value f.b a := by
  have hpos := two_pow_pos f.b
  have hhalf := f.half_digit
  have hmo := hm.odd
  obtain ⟨hbelow, hval⟩ := rshift1_digits ha heven
  obtain ⟨hival, hib⟩ := incr_spec hm.length hm.canon
  obtain ⟨hl, hb, hv⟩ := rshift1_even (f := f) (z := incr m) (by omega) (by omega) (by rw [length_incr, hm.length]) hib
    (by omega)
  have hsize := size_half (n := (value f.b (rshift1 f.b a)).toNat) (by omega)
  have hnat : (value f.b a).toNat = 2 * (value f.b (rshift1 f.b a)).toNat := by omega
  refine ⟨⟨hbelow, show 0 < value f.b (rshift1 f.b a) by omega, ?_, hl, hb.mono le_rfl (by omega),
    show value f.b (rshift1 f.b (incr m)) < _ by omega, cancel_two hmo ?_⟩, hval⟩
  · rw [numBits_spec hw ha.canon, hnat, hsize]
    push_cast
    ring
  · simp only
    rw [hval, ← mul_assoc, hv, hival]
    exact Int.modEq_iff_dvd.2 ⟨-value f.b a, by ring⟩

theorem modInvFirst_spec (hw : f.w = 64) (hm : OddModulus f m) (hm1 : 1 < value f.b m) {a : f.Digits}
    (ha : f.Below f.radix a) (h0 : 0 < value f.b a) {fuel : Nat} (hfuel : f.b * f.n ≤ fuel) :
    ∃ v, modInvFirst f fuel a m = some v ∧ Tracked f (value f.b m) (value f.b a) v ∧ value f.b v.x % 2 = 1 ∧
      value f.b v.x ∣ value f.b a ∧ v.t ≤ (f.b * f.n : Nat) := by
  have hpos := two_pow_pos f.b
  have hsize := size_value_le ha
  have hbits := numBits_spec hw ha.canon
  have hodd := odd_iff ha.length
  rw [modInvFirst]
  split
  · rename_i hbit
    have hval := (incr_spec (f := f) (List.length_replicate (n := f.n)) (between_zeros (by omega) f.n)).1
    have hib := (incr_spec (f := f) (List.length_replicate (n := f.n)) (between_zeros (by omega) f.n)).2
    rw [value_zeros, zero_add] at hval
    refine ⟨_, rfl, ⟨ha, h0, by rw [hbits], ?_, hib.mono le_rfl (by omega), ?_, ?_⟩, hodd.1 hbit, dvd_rfl, ?_⟩
    · rw [length_incr, List.length_replicate]
    · simp only
      omega
    · simp only
      rw [hval, one_mul]
    · simp only
      omega
  · rename_i hbit
    have heven := mt hodd.2 hbit
    obtain ⟨htr, hval⟩ := first_even hw hm hm1 ha h0 (by omega)
    obtain ⟨g, hg, hhalved⟩ := firstHalvings_spec hm (k := fuel) htr (by simp only; omega)
    have hle := hhalved.le
    simp only at hle
    exact ⟨g, hg, hhalved.toTracked, hhalved.odd, hhalved.dvd.trans ⟨2, by rw [mul_comm]; exact hval.symm⟩, by omega⟩

/-- **The inverse**, of a number that has one: the loops end, and what they leave is below the modulus in value, though
its digits may have a bit too many. -/
theorem modInv_inverse (hw : f.w = 64) (hm : OddModulus f m) (hm1 : 1 < value f.b m) {a : f.Digits}
    (ha : f.Below f.radix a) (h0 : 0 < value f.b a) (hcop : IsCoprime (value f.b m) (value f.b a)) {fuel : Nat}
    (hfuel : 2 * (f.b * f.n) ≤ fuel) :
    ∃ r, modInv f fuel a m = some r ∧ r.length = f.n ∧ Between 0 (2 * 2 ^ f.b) r ∧ value f.b r < value f.b m ∧
      value f.b r * value f.b a ≡ 1 [ZMOD value f.b m] := by
  have hpos := two_pow_pos f.b
  have hmb : f.Below f.radix m := hm.toBelow.mono f.bits_le_radix
  obtain ⟨v, hv, hvt, hvodd, hvdvd, hvle⟩ := modInvFirst_spec hw hm hm1 ha h0 (show f.b * f.n ≤ fuel by omega)
  have hu : Tracked f (value f.b m) (value f.b a) ⟨m, List.replicate f.n 0#f.w, numBits f.b m⟩ := by
    refine ⟨hmb, show 0 < value f.b m by omega, by rw [numBits_spec hw hm.canon], List.length_replicate,
      between_zeros (by omega) _, ?_, ?_⟩
    · simp only
      rw [value_zeros]
      omega
    · simp only
      rw [value_zeros, zero_mul]
      exact Int.modEq_iff_dvd.2 ⟨1, by ring⟩
  have hule := hu.bits
  have hmsize := size_value_le hmb
  simp only at hule
  obtain ⟨g, o, hloop, hpair, hend⟩ := modInvLoop_spec hw hm fuel (k := fuel)
    ⟨hu, hvt, hm.odd, hvodd, hcop.of_isCoprime_of_dvd_right hvdvd⟩ (by simp only; omega) (by omega) (by simp only; omega)
  have hmul := hpair.left.mul
  have hmul' := hpair.right.mul
  refine ⟨_, by rw [modInv, hv]; simp only [Option.bind_eq_bind, Option.bind_some, hloop]; rfl, ?_⟩
  split
  · rename_i hone
    rw [hpair.left.eq_one hone.le] at hmul
    exact ⟨hpair.left.length, hpair.left.between, hpair.left.lt, hmul⟩
  · rename_i hone
    rw [hpair.right.eq_one (hend.resolve_left hone).le] at hmul'
    exact ⟨hpair.right.length, hpair.right.between, hpair.right.lt, hmul'⟩

end Loop

/-! ## Zero -/

section Zero

variable {f : Format} {m : f.Digits}

theorem rshift1_zeros (b : Nat) : ∀ n : Nat, rshift1 b (List.replicate n 0#w) = List.replicate n 0#w
  | 0 => rfl
  | 1 => by simp [rshift1]
  | n + 2 => by
    have ih := rshift1_zeros b (n + 1)
    rw [List.replicate_succ] at ih
    rw [List.replicate_succ, List.replicate_succ, rshift1, ih]
    simp

theorem odd_zeros (n : Nat) : odd (List.replicate n 0#w) = false := by
  cases n <;> simp [odd, List.replicate_succ]

theorem firstHalvings_zeros : ∀ (k : Nat) {h : Half f}, h.x = List.replicate f.n 0#f.w → firstHalvings f m k h = none
  | 0, _, _ => rfl
  | k + 1, h, hx => by
    rw [firstHalvings, hx, odd_zeros, if_neg Bool.false_ne_true]
    exact firstHalvings_zeros k (by rw [halve, hx, rshift1_zeros])

/-- **Zero is not inverted and not refused**: the loop does not end, whatever the modulus. -/
theorem modInv_zero (f : Format) (m : f.Digits) (fuel : Nat) : modInv f fuel (List.replicate f.n 0#f.w) m = none := by
  have hfirst : modInvFirst f fuel (List.replicate f.n 0#f.w) m = none := by
    rw [modInvFirst, odd_zeros, if_neg Bool.false_ne_true]
    exact firstHalvings_zeros fuel (by rw [rshift1_zeros])
  rw [modInv, hfirst]
  rfl

end Zero

end Sp
end Wolf
