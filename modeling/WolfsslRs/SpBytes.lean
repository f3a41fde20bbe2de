import WolfsslRs.Bytes
import WolfsslRs.SpCurves
/-!
# SpBytes — numbers from and to bytes (wolfssl-src, patches/sp_c64.c)

`from_bin` reads a number from bytes, the most significant first, and `to_bin` writes as many bytes as the curve's numbers
take.  Both go from the last byte to the first and from the lowest digit up, and a byte may end in the next digit.
-/
namespace Wolf
namespace Sp

open Words Limbs

variable {w b : Nat}

/-! ## The code -/

/-- A byte as a digit. -/
def byteDigit (w : Nat) (x : UInt8) : BitVec w := BitVec.ofNat w x.toNat

/-- The bytes from the last one on, into a digit whose low `s` bits are there, with `left` digits to come.  What is over
in the last digit is lost. -/
def fromBinFrom (b : Nat) : Nat → BitVec w → Nat → Bytes → List (BitVec w)
  | left, d, _, [] => d :: List.replicate left 0#w
  | left, d, s, x :: xs =>
    let d := d ||| (byteDigit w x <<< s)
    if b - 8 ≤ s then
      let d := d &&& mask w b
      match left with
      | 0 => [d]
      | left + 1 => d :: fromBinFrom b left (byteDigit w x >>> (b - s)) (8 - (b - s)) xs
    else fromBinFrom b left d (s + 8) xs

def fromBin (f : Format) (a : Bytes) : f.Digits := fromBinFrom f.b (f.n - 1) 0#f.w 0 a.reverse

/-- The low byte of a digit. -/
def lowByte (d : BitVec w) : UInt8 := UInt8.ofNat d.toNat

/-- Where the bytes of a digit end: the bytes that are done, the last one, the first bit of the digit that is not in
them, and the bytes before that are not written yet. -/
structure Filled where
  done : Bytes
  cur : UInt8
  k : Nat
  rest : Bytes

/-- The bytes of a digit from bit `k` up, as far as there is room. -/
def digitBytes (b : Nat) (d : BitVec w) : Nat → UInt8 → Bytes → Filled
  | k, cur, [] => ⟨[], cur, k, []⟩
  | k, cur, y :: rest =>
    if k < b then
      let r := digitBytes b d (k + 8) (lowByte (d >>> k)) rest
      { r with done := cur :: r.done }
    else ⟨[], cur, k, y :: rest⟩

/-- The next byte to write is cleared, if there is one. -/
def clearNext : Bytes → Bytes
  | [] => []
  | _ :: rest => 0 :: rest

/-- The digits into the bytes from the last one on, of which `cur` has its low `s` bits. -/
def toBinFrom (b : Nat) : List (BitVec w) → Nat → UInt8 → Bytes → Bytes
  | [], _, cur, rest => cur :: rest
  | d :: ds, s, cur, rest =>
    let cur := cur ||| lowByte (d <<< s)
    if rest.isEmpty then [cur]
    else
      let r := digitBytes b d (8 - s) cur rest
      r.done ++ toBinFrom b ds (8 + b - r.k) r.cur (clearNext r.rest)

/-- The digits into all bytes of `a`. -/
def toBin (f : Format) (r : f.Digits) (a : Bytes) : Bytes := (toBinFrom f.b (norm f.b r) 0 0 a.reverse.tail).reverse

/-! ## Little-endian numbers -/

/-- The number a byte string spells, least significant byte first. -/
def leNat : Bytes → Nat
  | [] => 0
  | x :: xs => x.toNat + 256 * leNat xs

theorem leNat_append (xs ys : Bytes) : leNat (xs ++ ys) = leNat xs + 256 ^ xs.length * leNat ys := by
  induction xs with
  | nil => simp [leNat]
  | cons x xs ih =>
    rw [List.cons_append, leNat, ih, leNat, List.length_cons, pow_succ]
    ring

theorem leNat_lt : ∀ xs : Bytes, leNat xs < 256 ^ xs.length
  | [] => by simp [leNat]
  | x :: xs => by
    have ih := leNat_lt xs
    have hx := UInt8.toNat_lt x
    rw [leNat, List.length_cons, pow_succ]
    omega

theorem leNat_reverse : ∀ xs : Bytes, leNat xs.reverse = beNat xs
  | [] => rfl
  | x :: xs => by
    rw [List.reverse_cons, leNat_append, leNat_reverse xs, List.length_reverse, beNat]
    simp only [leNat]
    ring

/-! ## Reading -/

section Reading

theorem toNat_byteDigit (hw : 8 ≤ w) (x : UInt8) : (byteDigit w x).toNat = x.toNat := by
  rw [byteDigit, BitVec.toNat_ofNat]
  exact Nat.mod_eq_of_lt (Nat.lt_of_lt_of_le (UInt8.toNat_lt x) (Nat.pow_le_pow_right (by decide) hw))

theorem canon_of_toNat (hbw : b < w) {d : BitVec w} (h : d.toNat < 2 ^ b) :
    d.toInt = d.toNat ∧ 0 ≤ d.toInt ∧ d.toInt ≤ 2 ^ b - 1 := by
  have hpow := double_digit_le hbw
  have hint := toInt_of_toNat (x := d) (by omega) rfl
  have hcast : ((d.toNat : Nat) : Int) < 2 ^ b := by exact_mod_cast h
  exact ⟨hint, by omega, by omega⟩

theorem or_shiftLeft_toNat {s x : Nat} {d y : BitVec w} (hd : d.toNat < 2 ^ s) (hy : y.toNat = x)
    (hfit : x * 2 ^ s < 2 ^ w) : (d ||| (y <<< s)).toNat = d.toNat + x * 2 ^ s := by
  rw [BitVec.toNat_or, BitVec.toNat_shiftLeft, Nat.shiftLeft_eq, hy, Nat.mod_eq_of_lt hfit, Nat.mul_comm x, Nat.or_comm,
    ← Nat.two_pow_add_eq_or_of_lt hd]
  exact Nat.add_comm _ _

theorem or_shiftLeft_mask_toNat {s x : Nat} (hs : s ≤ b) (hbw : b < w) {d y : BitVec w} (hd : d.toNat < 2 ^ s)
    (hy : y.toNat = x) : ((d ||| (y <<< s)) &&& mask w b).toNat = (d.toNat + x * 2 ^ s) % 2 ^ b := by
  have hsplit : (2 : Nat) ^ b = 2 ^ s * 2 ^ (b - s) := by rw [← Nat.pow_add]; congr 1; omega
  rw [toNat_and_mask hbw, BitVec.toNat_or, BitVec.toNat_shiftLeft, Nat.shiftLeft_eq, hy, Nat.or_mod_two_pow,
    Nat.mod_mod_of_dvd _ (pow_dvd_pow 2 hbw.le), Nat.mul_comm x]
  have hdb : d.toNat < 2 ^ b := Nat.lt_of_lt_of_le hd (Nat.pow_le_pow_right (by decide) hs)
  rw [Nat.mod_eq_of_lt hdb, hsplit, Nat.mul_mod_mul_left, Nat.or_comm, ← Nat.two_pow_add_eq_or_of_lt hd, Nat.mod_mul,
    Nat.add_mul_mod_self_left, Nat.mod_eq_of_lt hd, Nat.add_mul_div_left _ _ (Nat.two_pow_pos s), Nat.div_eq_of_lt hd,
    Nat.zero_add, Nat.add_comm]

theorem digit_mod {p q l v : Nat} (hl : l < p) : l + p * (v % q) = (l + p * v) % (p * q) := by
  rw [Nat.mod_mul, Nat.add_mul_mod_self_left, Nat.mod_eq_of_lt hl, Nat.add_mul_div_left _ _ (by omega),
    Nat.div_eq_of_lt hl, Nat.zero_add]

/-- **Reading the bytes from the last one on**: the invariant is that the digit has its low `s` bits. -/
theorem fromBinFrom_spec (hb : 8 ≤ b) (hbw : b < w) : ∀ (xs : Bytes) (left : Nat) {s : Nat} {d : BitVec w}, s < b →
    d.toNat < 2 ^ s → (fromBinFrom b left d s xs).length = left + 1 ∧ Canon b (fromBinFrom b left d s xs) ∧
      value b (fromBinFrom b left d s xs) = ((d.toNat + 2 ^ s * leNat xs) % 2 ^ (b * (left + 1)) : Nat)
  | [], left, s, d, hs, hd => by
    have hlt : d.toNat < 2 ^ b := Nat.lt_of_lt_of_le hd (Nat.pow_le_pow_right (by decide) hs.le)
    obtain ⟨hint, hdigit⟩ := canon_of_toNat hbw hlt
    have hpos := two_pow_pos b
    have hmod : d.toNat < 2 ^ (b * (left + 1)) :=
      Nat.lt_of_lt_of_le hlt (Nat.pow_le_pow_right (by decide) (Nat.le_mul_of_pos_right _ (by omega)))
    rw [fromBinFrom]
    refine ⟨by simp, between_cons.2 ⟨hdigit, between_zeros (by omega) _⟩, ?_⟩
    rw [value_cons, value_zeros, hint, leNat, Nat.mul_zero, Nat.add_zero, Nat.mod_eq_of_lt hmod, mul_zero, add_zero]
  | x :: xs, left, s, d, hs, hd => by
    have hx := toNat_byteDigit (by omega : 8 ≤ w) x
    have hx8 : x.toNat < 2 ^ 8 := UInt8.toNat_lt x
    have hnext : d.toNat + 2 ^ s * leNat (x :: xs) = d.toNat + x.toNat * 2 ^ s + 2 ^ (s + 8) * leNat xs := by
      rw [leNat, pow_add]
      ring
    rw [fromBinFrom, hnext]
    split
    · rename_i hover
      have hmask := or_shiftLeft_mask_toNat hs.le hbw hd hx
      have hlow := Nat.mod_lt (d.toNat + x.toNat * 2 ^ s) (Nat.two_pow_pos b)
      obtain ⟨hint, hdigit⟩ := canon_of_toNat hbw (hmask ▸ hlow)
      have hsum : 2 ^ (s + 8) = 2 ^ b * 2 ^ (8 - (b - s)) := by rw [← Nat.pow_add]; congr 1; omega
      cases left with
      | zero =>
        refine ⟨rfl, between_cons.2 ⟨hdigit, between_nil⟩, ?_⟩
        rw [value_cons, value_nil, hint, hmask, hsum, Nat.mul_assoc, Nat.zero_add, Nat.mul_one, Nat.add_mul_mod_self_left,
          mul_zero, add_zero]
      | succ left =>
        have hhigh : (byteDigit w x >>> (b - s)).toNat = (d.toNat + x.toNat * 2 ^ s) / 2 ^ b := by
          have hsplit : (2 : Nat) ^ b = 2 ^ s * 2 ^ (b - s) := by rw [← Nat.pow_add]; congr 1; omega
          rw [BitVec.toNat_ushiftRight, Nat.shiftRight_eq_div_pow, hx, hsplit, ← Nat.div_div_eq_div_mul, Nat.mul_comm x.toNat,
            Nat.add_mul_div_left _ _ (Nat.two_pow_pos s), Nat.div_eq_of_lt hd, Nat.zero_add]
        have hhighlt : (byteDigit w x >>> (b - s)).toNat < 2 ^ (8 - (b - s)) := by
          rw [BitVec.toNat_ushiftRight, Nat.shiftRight_eq_div_pow, hx]
          refine Nat.div_lt_of_lt_mul ?_
          rw [← Nat.pow_add]
          exact Nat.lt_of_lt_of_le hx8 (Nat.pow_le_pow_right (by decide) (by omega))
        obtain ⟨hlen, hcanon, hval⟩ := fromBinFrom_spec hb hbw xs left (by omega) hhighlt
        refine ⟨by simpa using hlen, between_cons.2 ⟨hdigit, hcanon⟩, ?_⟩
        rw [value_cons, hval, hint, hmask, hhigh]
        have htotal : (d.toNat + x.toNat * 2 ^ s) % 2 ^ b +
            2 ^ b * ((d.toNat + x.toNat * 2 ^ s) / 2 ^ b + 2 ^ (8 - (b - s)) * leNat xs) =
            d.toNat + x.toNat * 2 ^ s + 2 ^ (s + 8) * leNat xs := by
          rw [Nat.mul_add, ← Nat.add_assoc, Nat.mod_add_div, ← Nat.mul_assoc, ← hsum]
        have hexp : 2 ^ (b * (left + 1 + 1)) = 2 ^ b * 2 ^ (b * (left + 1)) := by rw [← Nat.pow_add]; congr 1; ring
        rw [hexp, ← htotal, ← digit_mod hlow]
        push_cast
        ring
    · rename_i hroom
      have hfit : x.toNat * 2 ^ s < 2 ^ (s + 8) := by
        rw [pow_add, Nat.mul_comm]
        exact Nat.mul_lt_mul_of_pos_left hx8 (Nat.two_pow_pos s)
      have hor := or_shiftLeft_toNat hd hx (Nat.lt_of_lt_of_le hfit (Nat.pow_le_pow_right (by decide) (by omega)))
      have hlt : d.toNat + x.toNat * 2 ^ s < 2 ^ (s + 8) := by
        calc d.toNat + x.toNat * 2 ^ s < 2 ^ s + x.toNat * 2 ^ s := Nat.add_lt_add_right hd _
          _ = (x.toNat + 1) * 2 ^ s := by ring
          _ ≤ 2 ^ 8 * 2 ^ s := Nat.mul_le_mul_right _ hx8
          _ = 2 ^ (s + 8) := by rw [pow_add, Nat.mul_comm]
      have ih := fromBinFrom_spec hb hbw xs left (by omega : s + 8 < b) (hor ▸ hlt)
      rwa [hor] at ih

/-- **Reading a number from bytes**: as much of it as the digits can hold. -/
theorem fromBin_spec {f : Format} (hb : 8 ≤ f.b) (a : Bytes) :
    f.Below f.radix (fromBin f a) ∧ value f.b (fromBin f a) = (beNat a % 2 ^ (f.b * f.n) : Nat) := by
  have hn := f.two_le_n
  obtain ⟨hlen, hcanon, hval⟩ := fromBinFrom_spec hb f.b_lt_w a.reverse (f.n - 1) (s := 0) (d := 0#f.w) (by omega)
    (by rw [BitVec.toNat_ofNat, Nat.zero_mod]; exact Nat.one_pos)
  have hsucc : f.n - 1 + 1 = f.n := by omega
  rw [BitVec.toNat_ofNat, Nat.zero_mod, pow_zero, Nat.one_mul, Nat.zero_add, leNat_reverse, hsucc] at hval
  have hradix : f.radix = ((2 ^ (f.b * f.n) : Nat) : Int) := by
    rw [Format.radix]
    push_cast
    rfl
  refine ⟨⟨hlen.trans hsucc, hcanon, ?_⟩, hval⟩
  rw [fromBin, hval, hradix]
  exact_mod_cast Nat.mod_lt _ (Nat.two_pow_pos _)

end Reading

/-! ## Writing -/

section Writing

theorem toNat_lowByte (d : BitVec w) : (lowByte d).toNat = d.toNat % 256 := by
  rw [lowByte, UInt8.toNat_ofNat']

theorem toNat_or_lowByte (hw : 8 ≤ w) {s : Nat} (hs : s ≤ 8) {cur : UInt8} (hcur : cur.toNat < 2 ^ s) (d : BitVec w) :
    (cur ||| lowByte (d <<< s)).toNat = (cur.toNat + 2 ^ s * d.toNat) % 256 := by
  have hsplit : (256 : Nat) = 2 ^ s * 2 ^ (8 - s) := by rw [← Nat.pow_add, Nat.add_sub_cancel' hs]
  have hdvd : 256 ∣ 2 ^ w := pow_dvd_pow 2 hw
  rw [UInt8.toNat_or, toNat_lowByte, BitVec.toNat_shiftLeft, Nat.shiftLeft_eq, Nat.mod_mod_of_dvd _ hdvd,
    Nat.mul_comm d.toNat, hsplit, Nat.mul_mod_mul_left, Nat.or_comm, ← Nat.two_pow_add_eq_or_of_lt hcur, ← digit_mod hcur,
    Nat.add_comm]

/-- What is known where the bytes of a digit `d` end, that began at bit `k` with the byte `cur`. -/
structure Filled.Holds (r : Filled) (b : Nat) (d k : Nat) (cur : UInt8) (rest : Bytes) : Prop where
  length : r.done.length + r.rest.length = rest.length
  bit : r.k = k + 8 * r.done.length
  lt : r.k < b + 8
  stop : r.rest ≠ [] → b ≤ r.k
  value : leNat r.done + 256 ^ r.done.length * (r.cur.toNat + 256 * (d / 2 ^ r.k)) = cur.toNat + 256 * (d / 2 ^ k)
  small : b ≤ r.k → r.cur.toNat < 2 ^ (8 + b - r.k)

/-- **The bytes of one digit.** -/
theorem digitBytes_spec {d : BitVec w} (hd : d.toNat < 2 ^ b) : ∀ (rest : Bytes) {k : Nat} {c : UInt8}, k < b + 8 →
    (b ≤ k → c.toNat < 2 ^ (8 + b - k)) → (digitBytes b d k c rest).Holds b d.toNat k c rest
  | [], k, cur, hk, hcur => ⟨rfl, rfl, hk, fun h => absurd rfl h, by simp [digitBytes, leNat], hcur⟩
  | y :: rest, k, cur, hk, hcur => by
    rw [digitBytes]
    split
    · rename_i hlt
      have hbyte : (lowByte (d >>> k)).toNat = d.toNat / 2 ^ k % 256 := by
        rw [toNat_lowByte, BitVec.toNat_ushiftRight, Nat.shiftRight_eq_div_pow]
      have hnext : d.toNat / 2 ^ (k + 8) = d.toNat / 2 ^ k / 256 := by
        rw [Nat.div_div_eq_div_mul, show (256 : Nat) = 2 ^ 8 from rfl, ← Nat.pow_add]
      obtain ⟨hlen, hbit, hend, hstop, hval, hsmall⟩ := digitBytes_spec hd rest (k := k + 8) (c := lowByte (d >>> k)) (by omega)
        (fun _ => by
          rw [hbyte]
          refine Nat.lt_of_le_of_lt (Nat.mod_le _ _) (Nat.div_lt_of_lt_mul ?_)
          rw [← Nat.pow_add]
          exact Nat.lt_of_lt_of_le hd (Nat.pow_le_pow_right (by decide) (by omega)))
      refine ⟨by simp only [List.length_cons]; omega, by simp only [List.length_cons]; omega, hend, hstop, ?_, hsmall⟩
      simp only [leNat, List.length_cons, pow_succ]
      rw [hbyte, hnext, Nat.mod_add_div] at hval
      rw [← hval]
      ring
    · rename_i hge
      exact ⟨by simp, by simp, hk, fun _ => by simp only; omega, by simp [leNat], hcur⟩

@[simp] theorem length_clearNext : ∀ rest : Bytes, (clearNext rest).length = rest.length
  | [] => rfl
  | _ :: _ => rfl

/-- Once there is no room, a digit whose bits would be above the byte changes nothing. -/
theorem toBinFrom_full (hw : 8 ≤ w) {s : Nat} (hs : 8 ≤ s) {cur : UInt8} :
    ∀ ds : List (BitVec w), toBinFrom b ds s cur [] = [cur]
  | [] => rfl
  | d :: ds => by
    have hzero : lowByte (d <<< s) = 0 := by
      apply UInt8.toNat.inj
      have hdvd : 256 ∣ 2 ^ w := pow_dvd_pow 2 hw
      have hdvd' : 256 ∣ 2 ^ s := pow_dvd_pow 2 hs
      rw [toNat_lowByte, BitVec.toNat_shiftLeft, Nat.shiftLeft_eq, Nat.mod_mod_of_dvd _ hdvd]
      exact Nat.mod_eq_zero_of_dvd (hdvd'.mul_left _)
    rw [toBinFrom, hzero]
    simp

theorem value_toNat_cons {d : BitVec w} {ds : List (BitVec w)} (h : Canon b (d :: ds)) :
    (value b (d :: ds)).toNat = d.toNat + 2 ^ b * (value b ds).toNat ∧ d.toNat < 2 ^ b := by
  obtain ⟨hd, hds⟩ := between_cons.1 h
  have hlt := toNat_digit_lt hd
  refine ⟨?_, hlt⟩
  zify
  rw [Int.toNat_of_nonneg (Between.value_nonneg h), Int.toNat_of_nonneg (Between.value_nonneg hds), value_cons,
    toNat_of_nonneg hd.1]

/-- **Writing the digits from the lowest up**: the invariant is that the byte has its low `s` bits, and the digits left
reach the last byte. -/
theorem toBinFrom_spec (hb : 8 ≤ b) (hbw : b < w) : ∀ (ds : List (BitVec w)) {s : Nat} {c : UInt8} {r : Bytes},
    s ≤ 8 → c.toNat < 2 ^ s → Canon b ds → 8 * r.length < s + b * ds.length →
    (toBinFrom b ds s c r).length = r.length + 1 ∧
      leNat (toBinFrom b ds s c r) = (c.toNat + 2 ^ s * (value b ds).toNat) % 256 ^ (r.length + 1)
  | [], s, cur, rest, hs, hcur, _, hroom => by
    have hnil : rest = [] := List.length_eq_zero_iff.1 (by simp only [List.length_nil] at hroom; omega)
    subst hnil
    rw [toBinFrom]
    refine ⟨rfl, ?_⟩
    rw [leNat, leNat, value_nil, Int.toNat_zero, Nat.mul_zero, Nat.mul_zero, Nat.add_zero, List.length_nil, Nat.zero_add,
      pow_one, Nat.mod_eq_of_lt (UInt8.toNat_lt cur)]
  | d :: ds, s, cur, rest, hs, hcur, hcanon, hroom => by
    obtain ⟨hvalue, hd⟩ := value_toNat_cons hcanon
    obtain ⟨-, hds⟩ := between_cons.1 hcanon
    have hor := toNat_or_lowByte (by omega : 8 ≤ w) hs hcur d
    have hsplit : (256 : Nat) = 2 ^ s * 2 ^ (8 - s) := by rw [← Nat.pow_add, Nat.add_sub_cancel' hs]
    have hquot : (cur.toNat + 2 ^ s * d.toNat) / 256 = d.toNat / 2 ^ (8 - s) := by
      rw [hsplit, ← Nat.div_div_eq_div_mul, Nat.add_mul_div_left _ _ (Nat.two_pow_pos s), Nat.div_eq_of_lt hcur, Nat.zero_add]
    have htotal : cur.toNat + 2 ^ s * (value b (d :: ds)).toNat =
        cur.toNat + 2 ^ s * d.toNat + 2 ^ (s + b) * (value b ds).toNat := by
      rw [hvalue, pow_add]
      ring
    rw [toBinFrom, htotal]
    split
    · rename_i hempty
      obtain rfl := List.isEmpty_iff.1 hempty
      have hdvd : 256 ∣ 2 ^ (s + b) := pow_dvd_pow 2 (by omega : 8 ≤ s + b)
      obtain ⟨q, hq⟩ := hdvd
      refine ⟨rfl, ?_⟩
      rw [leNat, leNat, hor, hq, Nat.mul_zero, Nat.add_zero, Nat.mul_assoc, List.length_nil, Nat.zero_add, pow_one,
        Nat.add_mul_mod_self_left]
    · have hr := digitBytes_spec hd rest (k := 8 - s) (c := cur ||| lowByte (d <<< s)) (by omega) fun hle => by
        rw [show 8 + b - (8 - s) = 8 by omega]
        exact UInt8.toNat_lt _
      have hrval := hr.value
      rw [hor, ← hquot, Nat.mod_add_div] at hrval
      generalize digitBytes b d (8 - s) (cur ||| lowByte (d <<< s)) rest = r at hr hrval ⊢
      have hlen := hr.length
      have hbit := hr.bit
      have hend := hr.lt
      rw [List.length_cons, Nat.mul_succ] at hroom
      -- either the digit is done, or there was no room for the rest of it
      have hout : (toBinFrom b ds (8 + b - r.k) r.cur (clearNext r.rest)).length = r.rest.length + 1 ∧
          leNat (toBinFrom b ds (8 + b - r.k) r.cur (clearNext r.rest)) =
            (r.cur.toNat + 256 * (d.toNat / 2 ^ r.k) + 2 ^ (8 + b - r.k) * (value b ds).toNat) %
              256 ^ (r.rest.length + 1) := by
        by_cases hdone : b ≤ r.k
        · have hzero : d.toNat / 2 ^ r.k = 0 :=
            Nat.div_eq_of_lt (Nat.lt_of_lt_of_le hd (Nat.pow_le_pow_right (by decide) hdone))
          have ih := toBinFrom_spec hb hbw ds (s := 8 + b - r.k) (c := r.cur) (r := clearNext r.rest) (by omega)
            (hr.small hdone) hds (by rw [length_clearNext]; omega)
          rw [length_clearNext] at ih
          rwa [hzero, Nat.mul_zero, Nat.add_zero]
        · have hnil : r.rest = [] := Classical.byContradiction fun h => hdone (hr.stop h)
          obtain ⟨q, hq⟩ : 256 ∣ 2 ^ (8 + b - r.k) := pow_dvd_pow 2 (by omega : 8 ≤ 8 + b - r.k)
          rw [hnil, clearNext, toBinFrom_full (by omega) (by omega)]
          refine ⟨rfl, ?_⟩
          rw [leNat, leNat, hq, Nat.mul_assoc, Nat.add_assoc, ← Nat.mul_add, List.length_nil, Nat.zero_add, pow_one,
            Nat.add_mul_mod_self_left, Nat.mod_eq_of_lt (UInt8.toNat_lt r.cur)]
          rfl
      have hpow : 2 ^ (s + b) = 256 ^ r.done.length * 2 ^ (8 + b - r.k) := by
        rw [show (256 : Nat) = 2 ^ 8 from rfl, ← Nat.pow_mul, ← Nat.pow_add]
        congr 1
        omega
      have hlt := leNat_lt r.done
      refine ⟨by rw [List.length_append, hout.1]; omega, ?_⟩
      rw [leNat_append, hout.2, digit_mod hlt, ← Nat.pow_add, ← hrval, hpow, show rest.length + 1 = _ from
        (by omega : rest.length + 1 = r.done.length + (r.rest.length + 1))]
      exact congrArg (· % _) (by ring)

/-- **Writing a number to bytes**: the low bytes of it, whether or not the carries had been passed on. -/
theorem toBin_spec {f : Format} (hb : 8 ≤ f.b) {r : f.Digits} (hlen : r.length = f.n)
    (hr : Between (-(15 * 2 ^ f.b)) (15 * 2 ^ f.b) r) (h0 : 0 ≤ value f.b r) (h1 : value f.b r < f.radix) {a : Bytes}
    (ha : a ≠ []) (hroom : 8 * (a.length - 1) < f.b * f.n) :
    (toBin f r a).length = a.length ∧ beNat (toBin f r a) = (value f.b r).toNat % 256 ^ a.length := by
  have hpos := List.length_pos_iff.2 ha
  obtain ⟨hbelow, hval⟩ := norm_below le_rfl hlen hr h0 h1
  have hrest : a.reverse.tail.length = a.length - 1 := by simp
  obtain ⟨hl, hv⟩ := toBinFrom_spec hb f.b_lt_w (norm f.b r) (s := 0) (c := 0) (r := a.reverse.tail) (by omega)
    (by decide) hbelow.canon (by rw [hrest, hbelow.length]; omega)
  have hsucc : a.length - 1 + 1 = a.length := by omega
  rw [hrest, hsucc] at hl hv
  rw [UInt8.toNat_zero, Nat.zero_add, pow_zero, Nat.one_mul, hval] at hv
  rw [toBin, List.length_reverse, ← leNat_reverse, List.reverse_reverse]
  exact ⟨hl, hv⟩

end Writing

/-! ## The curves -/

/-- The bytes of a number of the curve. -/
def Curve.bytes : Curve → Nat
  | .p256 => 32
  | .p384 => 48
  | .p521 => 66

theorem Curve.eight_le (c : Curve) : 8 ≤ c.format.b := by
  cases c <;> decide

theorem Curve.bytes_room (c : Curve) : 0 < c.bytes ∧ 8 * (c.bytes - 1) < c.format.b * c.format.n := by
  cases c <;> decide

/-- **Bytes and digits are two forms of the same numbers.**  What is written is read back, from digits that need not be
normalised, and what is read is written again. -/
theorem Curve.bin_round_trip (c : Curve) {a : Bytes} (ha : a.length = c.bytes) :
    (∀ r : c.format.Digits, r.length = c.format.n → Between (-(15 * 2 ^ c.format.b)) (15 * 2 ^ c.format.b) r →
      0 ≤ value c.format.b r → value c.format.b r < min c.format.radix (256 ^ c.bytes) →
      fromBin c.format (toBin c.format r a) = norm c.format.b r) ∧
    ∀ x : Bytes, x.length = c.bytes → beNat x < 2 ^ (c.format.b * c.format.n) →
      toBin c.format (fromBin c.format x) a = x := by
  have hroom := c.bytes_room
  have hne : a ≠ [] := by
    rintro rfl
    simp at ha
    omega
  have hpos := two_pow_pos c.format.b
  constructor
  · intro r hlen hr h0 hlt
    obtain ⟨h1, h2⟩ := lt_min_iff.1 hlt
    obtain ⟨hbelow, hval⟩ := norm_below le_rfl hlen hr h0 h1
    obtain ⟨-, hbytes⟩ := toBin_spec c.eight_le hlen hr h0 h1 hne (by rw [ha]; exact hroom.2)
    obtain ⟨hread, hreadval⟩ := fromBin_spec c.eight_le (toBin c.format r a)
    refine Canon.eq_of_value_eq hread.canon hbelow.canon (hread.length.trans hbelow.length.symm) ?_
    rw [hreadval, hbytes, hval, Nat.mod_eq_of_lt, Nat.mod_eq_of_lt, Int.toNat_of_nonneg h0]
    · rw [ha]
      zify
      rw [Int.toNat_of_nonneg h0]
      exact h2
    · rw [ha]
      refine Nat.lt_of_le_of_lt (Nat.mod_le _ _) ?_
      zify
      rw [Int.toNat_of_nonneg h0]
      exact h1
  · intro x hx hlt
    obtain ⟨hread, hreadval⟩ := fromBin_spec c.eight_le x
    obtain ⟨hl, hbytes⟩ := toBin_spec c.eight_le hread.length (Between.mono hread.canon (by omega) (by omega)) hread.nonneg
      hread.lt hne (by rw [ha]; exact hroom.2)
    rw [hreadval, Nat.mod_eq_of_lt hlt, Int.toNat_natCast] at hbytes
    have hxlt := beNat_lt x
    rw [hx] at hxlt
    rw [ha] at hl hbytes
    rw [Nat.mod_eq_of_lt hxlt] at hbytes
    rw [← beBytes_beNat (toBin c.format (fromBin c.format x) a), hl, hbytes, ← hx, beBytes_beNat]

/-- Digits of which the first is below zero and two have carries to pass on. -/
def carriedDigits : p384Format.Digits :=
  [-5#64, 0x100000000000003#64, 7#64, 0x1ffffffffffffff#64, 0x12345#64, 2#64, 0x3fffffffffffff#64]

theorem Curve.bin_round_trip_carries :
    fromBin p384Format (toBin p384Format carriedDigits (List.replicate 48 0)) =
        [0x7ffffffffffffb#64, 2#64, 9#64, 0x7fffffffffffff#64, 0x12348#64, 2#64, 0x3fffffffffffff#64] ∧
      toBin p384Format (fromBin p384Format ((List.range 48).map UInt8.ofNat)) (List.replicate 48 0) =
        (List.range 48).map UInt8.ofNat := by
  obtain ⟨hdigits, hbytes⟩ := Curve.bin_round_trip .p384 (a := List.replicate 48 0) rfl
  have hnorm : norm p384Format.b carriedDigits =
      [0x7ffffffffffffb#64, 2#64, 9#64, 0x7fffffffffffff#64, 0x12348#64, 2#64, 0x3fffffffffffff#64] := rfl
  have hcarries : Between (-(15 * 2 ^ p384Format.b)) (15 * 2 ^ p384Format.b) carriedDigits := by decide +kernel
  constructor
  · rw [← hnorm]
    exact hdigits carriedDigits rfl hcarries (by decide +kernel) (by decide +kernel)
  · exact hbytes _ rfl (by decide +kernel)

end Sp
end Wolf
