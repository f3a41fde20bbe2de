import WolfsslRs.SpBytes
import WolfsslRs.SpModInv
/-!
# SpScalars — numbers that signing starts from (wolfssl-src, patches/sp_c64.c)

A nonce is made of random bytes that are thrown away until they are below the order less one (`gen_k`); the number that is
signed is made of the leftmost bits of the hash; and what comes out of a point is brought below the order by subtracting
it once.
-/
namespace Wolf
namespace Sp

open Words Limbs

/-! ## The code -/

/-- The order less two. -/
def p256Order2 : p256Format.Digits :=
  [0x9cac2fc63254f#64, 0xada7179e84f3b#64, 0xfffffffbce6fa#64, 0x0000fffffffff#64, 0x0ffffffff0000#64]

def p384Order2 : p384Format.Digits :=
  [0x6c196accc52971#64, 0x1b6491614ef5d9#64, 0x07d0dcb77d6068#64, 0x7ffffffe3b1a6c#64, 0x7fffffffffffff#64,
    0x7fffffffffffff#64, 0x3fffffffffffff#64]

def p521Order2 : p521Format.Digits :=
  [0x36fb71e91386407#64, 0x1726e226711ebae#64, 0x0148f709a5d03bb#64, 0x20efcbe59adff30#64, 0x3fffffffa518687#64,
    0x3ffffffffffffff#64, 0x3ffffffffffffff#64, 0x3ffffffffffffff#64, 0x1ffffffffffffff#64]

def Curve.order2 : (c : Curve) → c.format.Digits
  | .p256 => p256Order2
  | .p384 => p384Order2
  | .p521 => p521Order2

def addOne (f : Format) (a : f.Digits) : f.Digits := norm f.b (incr a)

/-- The random bytes of a nonce: for P-521 all but one bit of the first byte is cleared. -/
def Curve.trim : Curve → Bytes → Bytes
  | .p521, x :: xs => (x &&& 1) :: xs
  | _, a => a

/-- What the random number generator answers, call by call: bytes or an error code. -/
abbrev Rng := List (Except Int Bytes)

/-- A nonce, and the answers that are left; none if the loop has used them up. -/
def Curve.genK (c : Curve) : Rng → Option (Except Int c.format.Digits × Rng)
  | [] => none
  | .error e :: rng => some (.error e, rng)
  | .ok buf :: rng =>
    let k := fromBin c.format (c.trim buf)
    if (cmp c.format.b k c.order2).toInt ≤ 0 then some (.ok (addOne c.format k), rng) else c.genK rng

/-- All digits are zero. -/
def iszero {w : Nat} (a : List (BitVec w)) : Bool := a.foldl (· ||| ·) 0#w == 0#w

/-- The order is subtracted once if the number is not below it. -/
def Curve.subOrder (c : Curve) (a : c.format.Digits) : c.format.Digits :=
  norm c.format.b (condSub a c.order (if 0 ≤ (cmp c.format.b a c.order).toInt then -1#c.format.w else 0#c.format.w))

/-- The 521 leftmost bits of a hash of 66 bytes, of which the digits had lost some. -/
def takeLeftmost (hash : Bytes) (e : p521Format.Digits) : p521Format.Digits :=
  let e := rshift p521Format.b 7 e
  e.dropLast ++ [top e ||| (byteDigit p521Format.w (hash.headD 0) <<< 49)]

/-- The number to sign, of as much of a hash as the curve has bytes. -/
def Curve.hashNumber : (c : Curve) → Bytes → c.format.Digits
  | .p521, hash =>
    let hash := hash.take 66
    let e := fromBin p521Format hash
    if hash.length = 66 then takeLeftmost hash e else e
  | .p256, hash => fromBin p256Format (hash.take 32)
  | .p384, hash => fromBin p384Format (hash.take 48)

/-! ## Nonces -/

section Nonces

variable {c : Curve}

theorem Curve.order2_spec (c : Curve) : c.format.Below c.R c.order2 ∧ value c.format.b c.order2 = c.n - 2 := by
  cases c
  · exact ⟨⟨rfl, by decide +kernel, by decide +kernel⟩, by decide +kernel⟩
  · exact ⟨⟨rfl, by decide +kernel, by decide +kernel⟩, by decide +kernel⟩
  · exact ⟨⟨rfl, by decide +kernel, by decide +kernel⟩, by decide +kernel⟩

theorem Curve.R_le_radix (c : Curve) : 2 * c.R ≤ c.format.radix := c.format.two_mul_bits_le

theorem length_trim (c : Curve) (a : Bytes) : (c.trim a).length = a.length := by
  cases c <;> cases a <;> rfl

theorem Curve.R_eq (c : Curve) : c.R = ((2 ^ c.format.bits : Nat) : Int) := by
  rw [Curve.R]
  push_cast
  rfl

theorem pow_bytes (k : Nat) : 256 ^ k = 2 ^ (8 * k) := by rw [Nat.pow_mul]

theorem beNat_cons_lt {x : UInt8} {xs : Bytes} (hx : x.toNat ≤ 1) : beNat (x :: xs) < 2 ^ (8 * xs.length + 1) := by
  have hlt := beNat_lt xs
  have hmul := Nat.mul_le_mul_right (256 ^ xs.length) hx
  rw [beNat, pow_succ, ← pow_bytes]
  omega

theorem Curve.trim_lt (c : Curve) {a : Bytes} (ha : a.length = c.bytes) : beNat (c.trim a) < 2 ^ c.format.bits := by
  have hlt := beNat_lt a
  rw [ha, pow_bytes] at hlt
  cases c with
  | p256 =>
    have hbits : 8 * Curve.p256.bytes = Curve.p256.format.bits := rfl
    rwa [hbits] at hlt
  | p384 =>
    have hbits : 8 * Curve.p384.bytes = Curve.p384.format.bits := rfl
    rwa [hbits] at hlt
  | p521 =>
    cases a with
    | nil => cases ha
    | cons x xs =>
      have hx : (x &&& 1).toNat ≤ 1 := by
        rw [UInt8.toNat_and]
        exact Nat.and_le_right
      have hbits : 8 * xs.length + 1 = Curve.p521.format.bits := by rw [Nat.succ.inj ha]; rfl
      rw [← hbits]
      exact beNat_cons_lt hx

theorem Curve.fromBin_trim {a : Bytes} (ha : a.length = c.bytes) :
    c.format.Below c.R (fromBin c.format (c.trim a)) ∧ value c.format.b (fromBin c.format (c.trim a)) = beNat (c.trim a) := by
  have hlt := c.trim_lt ha
  have hRn := c.R_eq
  have hR := c.R_le_radix
  have hpos := c.R_pos
  obtain ⟨hbelow, hval⟩ := fromBin_spec c.eight_le (c.trim a)
  rw [Nat.mod_eq_of_lt] at hval
  · exact ⟨⟨hbelow.length, hbelow.canon, by omega⟩, hval⟩
  · have hradix : c.format.radix = ((2 ^ (c.format.b * c.format.n) : Nat) : Int) := by
      rw [Format.radix]
      push_cast
      rfl
    omega

theorem addOne_spec {f : Format} {a : f.Digits} (ha : f.Below f.radix a) {u : Int} (hu : u ≤ f.radix)
    (h : value f.b a + 1 < u) : f.Below u (addOne f a) ∧ value f.b (addOne f a) = value f.b a + 1 := by
  have hpos := two_pow_pos f.b
  have h0 := ha.nonneg
  obtain ⟨hval, hbetween⟩ := incr_spec ha.length ha.canon
  rw [addOne, ← hval]
  exact norm_below hu (by rw [length_incr, ha.length]) (hbetween.mono (by omega) (by omega)) (by omega) (by omega)

/-- **A block of random bytes gives a nonce** if its number is at most the order less two, the number one more. -/
theorem Curve.genK_ok {buf : Bytes} (hbuf : buf.length = c.bytes) (rng : Rng) :
    if (beNat (c.trim buf) : Int) ≤ c.n - 2 then
      ∃ k, c.genK (.ok buf :: rng) = some (.ok k, rng) ∧ c.format.Below c.n k ∧
        value c.format.b k = beNat (c.trim buf) + 1
    else c.genK (.ok buf :: rng) = c.genK rng := by
  have hn := c.n_bounds
  have hR := c.R_le_radix
  have hpos := c.R_pos
  obtain ⟨hbelow, hval⟩ := Curve.fromBin_trim hbuf
  obtain ⟨hb2, hval2⟩ := c.order2_spec
  obtain ⟨-, -, hgt⟩ := cmp_spec c.format.one_le_b c.format.b_lt_w (hbelow.length.trans hb2.length.symm) hbelow.canon hb2.canon
  rw [hval, hval2] at hgt
  rw [Curve.genK]
  split
  · rename_i hle
    rw [if_pos (by omega)]
    obtain ⟨hk, hkval⟩ := addOne_spec hbelow.below_radix (u := c.n) (by omega) (by omega)
    exact ⟨_, rfl, hk, by rw [hkval, hval]⟩
  · rename_i hle
    rw [if_neg (by omega)]

/-- The answers of a generator that fills the whole buffer of a nonce. -/
def Curve.Blocks (c : Curve) (rng : Rng) : Prop := ∀ buf, .ok buf ∈ rng → buf.length = c.bytes

theorem Curve.blocks_singleton {a : Bytes} (ha : a.length = c.bytes) : c.Blocks [.ok a] := by
  intro buf hbuf
  cases List.mem_singleton.1 hbuf
  exact ha

/-- **The nonce is of the last block that was drawn**: the ones before were too large, and the ones after are left. -/
theorem Curve.genK_spec {k : c.format.Digits} {rest : Rng} : ∀ {rng : Rng}, c.Blocks rng →
    c.genK rng = some (.ok k, rest) → ∃ used buf, rng = used ++ .ok buf :: rest ∧
      (∀ a ∈ used, ∃ buf, a = .ok buf ∧ c.n - 2 < beNat (c.trim buf)) ∧ c.format.Below c.n k ∧
      value c.format.b k = beNat (c.trim buf) + 1
  | [], _, h => by cases h
  | .error e :: rng, _, h => by
    rw [Curve.genK] at h
    cases h
  | .ok buf :: rng, hrng, h => by
    have hok := Curve.genK_ok (hrng buf List.mem_cons_self) rng
    split at hok
    · obtain ⟨k', hk', hbelow, hval⟩ := hok
      rw [hk'] at h
      cases h
      exact ⟨[], buf, rfl, (fun _ ha => by cases ha), hbelow, hval⟩
    · rename_i hlarge
      rw [hok] at h
      obtain ⟨used, buf', hrest, hused, hbelow, hval⟩ := Curve.genK_spec (fun b hb => hrng b (List.mem_cons_of_mem _ hb)) h
      refine ⟨.ok buf :: used, buf', by rw [hrest, List.cons_append], fun a ha => ?_, hbelow, hval⟩
      rcases List.mem_cons.1 ha with rfl | ha
      · exact ⟨buf, rfl, by omega⟩
      · exact hused a ha

/-- **Blocks are drawn until one can be used**: there is no answer only if all that the generator gave were too large. -/
theorem Curve.genK_none_iff : ∀ {rng : Rng}, c.Blocks rng →
    (c.genK rng = none ↔ ∀ a ∈ rng, ∃ buf, a = .ok buf ∧ c.n - 2 < beNat (c.trim buf))
  | [], _ => by simp [Curve.genK]
  | .error e :: rng, _ => by
    rw [Curve.genK]
    constructor
    · intro h
      cases h
    · intro h
      obtain ⟨buf, hbuf, -⟩ := h _ List.mem_cons_self
      cases hbuf
  | .ok buf :: rng, hrng => by
    have hok := Curve.genK_ok (hrng buf List.mem_cons_self) rng
    have hrest : c.Blocks rng := fun b hb => hrng b (List.mem_cons_of_mem _ hb)
    rw [List.forall_mem_cons]
    split at hok
    · rename_i hsmall
      obtain ⟨k, hk, -⟩ := hok
      rw [hk]
      constructor
      · intro h
        cases h
      · rintro ⟨⟨buf', hbuf, hlarge⟩, -⟩
        cases hbuf
        omega
    · rename_i hlarge
      rw [hok, Curve.genK_none_iff hrest]
      exact ⟨fun h => ⟨⟨buf, rfl, by omega⟩, h⟩, fun h => h.2⟩

theorem Curve.genK_none_ones : Curve.p256.genK [.ok (List.replicate 32 255)] = none := by
  have hblocks : Curve.p256.Blocks [.ok (List.replicate 32 255)] := Curve.blocks_singleton rfl
  refine (Curve.genK_none_iff hblocks).2 fun a ha => ⟨List.replicate 32 255, List.mem_singleton.1 ha, ?_⟩
  decide +kernel

theorem Curve.trim_beBytes (c : Curve) {v : Nat} (hv : v < 2 ^ c.format.bits) : c.trim (beBytes c.bytes v) = beBytes c.bytes v := by
  cases c with
  | p256 => rfl
  | p384 => rfl
  | p521 =>
    have hbits : Curve.p521.format.bits = 8 * 65 + 1 := rfl
    have hhead : v / 256 ^ 65 < 2 := by
      rw [pow_bytes]
      refine Nat.div_lt_of_lt_mul ?_
      rwa [hbits, pow_succ] at hv
    have hbyte : UInt8.ofNat (v / 256 ^ 65) &&& 1 = UInt8.ofNat (v / 256 ^ 65) := by
      generalize v / 256 ^ 65 = u at hhead
      obtain rfl | rfl : u = 0 ∨ u = 1 := by omega
      · rfl
      · rfl
    show (UInt8.ofNat (v / 256 ^ 65) &&& 1) :: beBytes 65 v = UInt8.ofNat (v / 256 ^ 65) :: beBytes 65 v
    rw [hbyte]

/-- **Every scalar from one to the order less one is as likely as any other**: there is one block for it, and the random
bytes that give it are those that are this block once they are trimmed. -/
theorem Curve.genK_uniform (c : Curve) {v : Int} (h1 : 1 ≤ v) (hv : v < c.n) :
    ∃ a : Bytes, a.length = c.bytes ∧ c.trim a = a ∧ ∀ buf : Bytes, buf.length = c.bytes →
      ((∃ k, c.genK [.ok buf] = some (.ok k, []) ∧ value c.format.b k = v) ↔ c.trim buf = a) := by
  have hn := c.n_bounds
  have hRn := c.R_eq
  obtain ⟨u, rfl⟩ : ∃ u : Nat, v = u + 1 := ⟨(v - 1).toNat, by omega⟩
  have hu : u < 2 ^ c.format.bits := by omega
  refine ⟨beBytes c.bytes u, length_beBytes _ _, c.trim_beBytes hu, fun buf hbuf => ?_⟩
  have hok := Curve.genK_ok hbuf []
  have hlen : (c.trim buf).length = c.bytes := by rw [length_trim, hbuf]
  have hle : 2 ^ c.format.bits ≤ 256 ^ c.bytes := by
    rw [pow_bytes]
    exact Nat.pow_le_pow_right (by decide) (by cases c <;> decide)
  constructor
  · rintro ⟨k, hk, hval⟩
    split at hok
    · obtain ⟨k', hk', -, hval'⟩ := hok
      rw [hk'] at hk
      cases hk
      have hnum : beNat (c.trim buf) = u := by omega
      rw [← hnum, ← hlen, beBytes_beNat]
    · rw [hok] at hk
      cases hk
  · intro htrim
    have hnum : beNat (c.trim buf) = u := by
      rw [htrim, beNat_beBytes]
      exact Nat.mod_eq_of_lt (Nat.lt_of_lt_of_le hu hle)
    rw [if_pos (by omega)] at hok
    obtain ⟨k, hk, -, hval⟩ := hok
    exact ⟨k, hk, by rw [hval, hnum]⟩

theorem Curve.genK_uniform_last : 1 ≤ Curve.p521.n - 1 ∧ ∃ a : Bytes, a.length = 66 ∧ Curve.p521.trim a = a ∧
    ∀ buf : Bytes, buf.length = 66 → ((∃ k, Curve.p521.genK [.ok buf] = some (.ok k, []) ∧
      value p521Format.b k = Curve.p521.n - 1) ↔ Curve.p521.trim buf = a) :=
  ⟨by decide +kernel, Curve.genK_uniform .p521 (by decide +kernel) (by decide +kernel)⟩

end Nonces

/-! ## Hashes -/

section Hashes

theorem or_low_two (h : Nat) : h % 4 ||| h = h := by
  rw [show 4 = 2 ^ 2 from rfl, ← Nat.and_two_pow_sub_one_eq_mod]
  refine Nat.eq_of_testBit_eq fun i => ?_
  rw [Nat.testBit_or, Nat.testBit_and]
  cases h.testBit i <;> simp

/-- The top digit of a number cut off at two bits of its first byte `h`, with the whole byte put back. -/
theorem or_top_byte {t h : Nat} (ht : t / 2 ^ 49 = h % 4) : t ||| h * 2 ^ 49 = t % 2 ^ 49 + 2 ^ 49 * h := by
  have hdiv : (t ||| h * 2 ^ 49) / 2 ^ 49 = h := by
    rw [Nat.or_div_two_pow, ht, Nat.mul_div_cancel _ (Nat.two_pow_pos 49), or_low_two]
  have hmod : (t ||| h * 2 ^ 49) % 2 ^ 49 = t % 2 ^ 49 := by
    rw [Nat.or_mod_two_pow, Nat.mul_mod_left, Nat.or_zero]
  rw [← Nat.mod_add_div (t ||| h * 2 ^ 49) (2 ^ 49), hdiv, hmod]

/-- The number behind it: `p` is what is shifted out and `q` what the rest of the bytes then count up to. -/
theorem leftmost_div {h l p q : Nat} (hp : 0 < p) (hl : l < p * q) :
    (h * (p * q) + l) / p = h * q + l / p ∧ (h * (p * q) + l) % (4 * (p * q)) / p = h % 4 * q + l / p := by
  have hdiv : ∀ g, (g * (p * q) + l) / p = g * q + l / p := by
    intro g
    rw [show g * (p * q) + l = l + p * (g * q) by ring, Nat.add_mul_div_left _ _ hp, Nat.add_comm]
  refine ⟨hdiv h, ?_⟩
  have hmod : (h * (p * q) + l) % (4 * (p * q)) = h % 4 * (p * q) + l := by
    rw [Nat.mul_comm 4, Nat.mod_mul, Nat.add_comm (h * _), Nat.add_mul_mod_self_right, Nat.mod_eq_of_lt hl,
      Nat.add_mul_div_right _ _ (by omega), Nat.div_eq_of_lt hl, Nat.zero_add]
    ring
  rw [hmod, hdiv]

theorem leftmost_join {a r h v l t : Nat} (hv : v = h % 4 * (a * 2 ^ 49) + r) (hr : r < a * 2 ^ 49) (hl : l < a)
    (ht : l + a * t = v) : t / 2 ^ 49 = h % 4 ∧ l + a * (t % 2 ^ 49 + 2 ^ 49 * h) = h * (a * 2 ^ 49) + r := by
  have ha : 0 < a := by omega
  have htv : v / a = t := by
    rw [← ht, Nat.add_mul_div_left _ _ ha, Nat.div_eq_of_lt hl, Nat.zero_add]
  have htop : t / 2 ^ 49 = h % 4 := by
    rw [← htv, Nat.div_div_eq_div_mul, hv, Nat.add_comm, Nat.add_mul_div_right _ _ (by positivity), Nat.div_eq_of_lt hr,
      Nat.zero_add]
  refine ⟨htop, ?_⟩
  have hsplit := Nat.mod_add_div t (2 ^ 49)
  rw [htop] at hsplit
  have hlow : l + a * (t % 2 ^ 49) = r := by
    have hmul := congrArg (a * ·) hsplit
    simp only [Nat.mul_add] at hmul
    have hcomm : a * (2 ^ 49 * (h % 4)) = h % 4 * (a * 2 ^ 49) := by ring
    omega
  rw [Nat.mul_add, ← Nat.add_assoc, hlow]
  ring

/-- **The 521 leftmost bits** of 66 bytes. -/
theorem takeLeftmost_spec {x : UInt8} {xs : Bytes} (hlen : xs.length = 65) :
    ∃ z, takeLeftmost (x :: xs) (fromBin p521Format (x :: xs)) = z ∧ z.length = 9 ∧ Canon p521Format.b z ∧
      value p521Format.b z = (beNat (x :: xs) / 2 ^ 7 : Nat) := by
  obtain ⟨hbelow, hval⟩ := fromBin_spec (f := p521Format) (by decide) (x :: xs)
  obtain ⟨hshift, hcanon⟩ := rshift_spec (k := 7) (by decide) (by decide : p521Format.b + 1 < p521Format.w) hbelow.canon
  have hzlen : (rshift p521Format.b 7 (fromBin p521Format (x :: xs))).length = 9 := by
    rw [length_rshift]
    exact hbelow.length
  rw [hval] at hshift
  rw [takeLeftmost]
  generalize rshift p521Format.b 7 (fromBin p521Format (x :: xs)) = z at hshift hcanon hzlen
  have hz : z ≠ [] := fun h => by
    rw [h] at hzlen
    cases hzlen
  obtain ⟨l, t, rfl⟩ : ∃ l t, z = l ++ [t] := ⟨z.dropLast, z.getLast hz, (List.dropLast_concat_getLast hz).symm⟩
  have hllen : l.length = 8 := by
    rw [List.length_append, List.length_singleton] at hzlen
    omega
  obtain ⟨hl, htc⟩ := between_append.1 hcanon
  obtain ⟨ht, -⟩ := between_cons.1 htc
  have htn := toNat_of_nonneg ht.1
  have hl0 := Canon.value_bounds (b := p521Format.b) hl
  rw [hllen] at hl0
  -- in natural numbers, and with the powers of two as they are
  have hp1 : 256 ^ 65 = 2 ^ 7 * (2 ^ (p521Format.b * 8) * 2 ^ 49) := by
    rw [pow_bytes, ← Nat.pow_add, ← Nat.pow_add, show 8 * 65 = 7 + (p521Format.b * 8 + 49) from rfl]
  have hp2 : 2 ^ (p521Format.b * p521Format.n) = 4 * (2 ^ 7 * (2 ^ (p521Format.b * 8) * 2 ^ 49)) := by
    rw [show 4 = 2 ^ 2 from rfl, ← Nat.pow_add, ← Nat.pow_add, ← Nat.pow_add,
      show p521Format.b * p521Format.n = 2 + (7 + (p521Format.b * 8 + 49)) from rfl]
  have hL := beNat_lt xs
  rw [hlen, hp1] at hL
  rw [value_concat, hllen, hp2, beNat, hlen, hp1] at hshift
  obtain ⟨hleft, hcut⟩ := leftmost_div (h := x.toNat) (Nat.two_pow_pos 7) hL
  have hnat : (value p521Format.b l).toNat + 2 ^ (p521Format.b * 8) * t.toNat =
      x.toNat % 4 * (2 ^ (p521Format.b * 8) * 2 ^ 49) + beNat xs / 2 ^ 7 := by
    rw [← hcut]
    zify
    rw [Int.toNat_of_nonneg hl0.1, htn]
    exact hshift
  obtain ⟨htop, hjoin⟩ := leftmost_join rfl (Nat.div_lt_of_lt_mul hL) (by zify; rw [Int.toNat_of_nonneg hl0.1]; exact hl0.2) hnat
  have hx := UInt8.toNat_lt x
  have hor : (t ||| (byteDigit p521Format.w x <<< 49)).toNat = t.toNat % 2 ^ 49 + 2 ^ 49 * x.toNat := by
    rw [BitVec.toNat_or, BitVec.toNat_shiftLeft, toNat_byteDigit (by decide), Nat.shiftLeft_eq, Nat.mod_eq_of_lt, or_top_byte htop]
    show x.toNat * 2 ^ 49 < 2 ^ 64
    omega
  have hdigit := canon_of_toNat (b := p521Format.b) (w := p521Format.w) (by decide)
      (d := t ||| (byteDigit p521Format.w x <<< 49)) (by
    rw [hor]
    show _ < 2 ^ 58
    omega)
  refine ⟨l ++ [t ||| (byteDigit p521Format.w x <<< 49)], ?_, ?_, between_append.2 ⟨hl, between_cons.2 ⟨hdigit.2, between_nil⟩⟩, ?_⟩
  · rw [List.dropLast_concat, top, List.getLastD_concat, List.headD_cons]
  · rw [List.length_append, hllen, List.length_singleton]
  · rw [value_concat, hllen, hdigit.1, hor, beNat, hlen, hp1, hleft, ← hjoin]
    push_cast
    rw [Int.toNat_of_nonneg hl0.1]

theorem fromBin_short {c : Curve} {hash : Bytes} (hlen : 8 * hash.length ≤ c.format.bits) :
    c.format.Below c.R (fromBin c.format hash) ∧ value c.format.b (fromBin c.format hash) = beNat hash := by
  have hlt : beNat hash < 2 ^ c.format.bits := by
    refine Nat.lt_of_lt_of_le (beNat_lt hash) ?_
    rw [pow_bytes]
    exact Nat.pow_le_pow_right (by decide) hlen
  have hbits := c.format.bits_add
  obtain ⟨hbelow, hval⟩ := fromBin_spec c.eight_le hash
  rw [Nat.mod_eq_of_lt (Nat.lt_of_lt_of_le hlt (Nat.pow_le_pow_right (by decide) (by omega)))] at hval
  exact ⟨⟨hbelow.length, hbelow.canon, by rw [hval, c.R_eq]; exact_mod_cast hlt⟩, hval⟩

/-- **The number that is signed** is made of the leftmost bits of the hash, as many as the curve has. -/
theorem Curve.hashNumber_spec (c : Curve) (hash : Bytes) :
    c.format.Below c.R (c.hashNumber hash) ∧ value c.format.b (c.hashNumber hash) =
      (beNat (hash.take c.bytes) / 2 ^ (8 * (hash.take c.bytes).length - c.format.bits) : Nat) := by
  have hle : (hash.take c.bytes).length ≤ c.bytes := List.length_take_le _ _
  have short : 8 * (hash.take c.bytes).length ≤ c.format.bits →
      c.format.Below c.R (fromBin c.format (hash.take c.bytes)) ∧ value c.format.b (fromBin c.format (hash.take c.bytes)) =
        (beNat (hash.take c.bytes) / 2 ^ (8 * (hash.take c.bytes).length - c.format.bits) : Nat) := by
    intro h
    rw [Nat.sub_eq_zero_of_le h, pow_zero, Nat.div_one]
    exact fromBin_short h
  cases c with
  | p256 => exact short (Nat.mul_le_mul_left 8 hle)
  | p384 => exact short (Nat.mul_le_mul_left 8 hle)
  | p521 =>
    by_cases hfull : (hash.take 66).length = 66
    · have hnum : Curve.p521.hashNumber hash = takeLeftmost (hash.take 66) (fromBin p521Format (hash.take 66)) := if_pos hfull
      rw [hnum]
      show p521Format.Below Curve.p521.R _ ∧ value p521Format.b _ =
        (beNat (hash.take 66) / 2 ^ (8 * (hash.take 66).length - 521) : Nat)
      have hlt := beNat_lt (hash.take 66)
      rw [hfull] at hlt ⊢
      generalize hash.take 66 = h at hfull hlt
      cases h with
      | nil => cases hfull
      | cons x xs =>
        obtain ⟨z, hz, hlen, hcanon, hval⟩ := takeLeftmost_spec (x := x) (Nat.succ.inj hfull)
        rw [hz]
        refine ⟨⟨hlen, hcanon, ?_⟩, hval⟩
        rw [hval, Curve.R_eq, Nat.cast_lt]
        refine Nat.div_lt_of_lt_mul ?_
        rwa [← Nat.pow_add, show 7 + Curve.p521.format.bits = 8 * 66 from rfl, ← pow_bytes]
    · have hnum : Curve.p521.hashNumber hash = fromBin p521Format (hash.take 66) := if_neg hfull
      rw [hnum]
      refine short ?_
      show 8 * (hash.take 66).length ≤ 521
      have : (hash.take 66).length ≤ 66 := hle
      omega

/-- **Two hashes are signed alike** exactly if they agree in the leftmost bits that the curve takes. -/
theorem Curve.hashNumber_eq_iff (c : Curve) (h k : Bytes) : c.hashNumber h = c.hashNumber k ↔
    beNat (h.take c.bytes) / 2 ^ (8 * (h.take c.bytes).length - c.format.bits) =
      beNat (k.take c.bytes) / 2 ^ (8 * (k.take c.bytes).length - c.format.bits) := by
  obtain ⟨hb, hval⟩ := c.hashNumber_spec h
  obtain ⟨kb, kval⟩ := c.hashNumber_spec k
  constructor
  · intro heq
    rw [heq, kval] at hval
    exact_mod_cast hval.symm
  · intro heq
    exact Canon.eq_of_value_eq hb.canon kb.canon (hb.length.trans kb.length.symm) (by rw [hval, kval, heq])

end Hashes

/-! ## Below the order -/

theorem foldl_or_eq_zero {w : Nat} : ∀ {a : List (BitVec w)} {u : BitVec w},
    a.foldl (· ||| ·) u = 0#w ↔ u = 0#w ∧ ∀ d ∈ a, d = 0#w
  | [], u => by simp
  | d :: a, u => by
    have hor : u ||| d = 0#w ↔ u = 0#w ∧ d = 0#w := by
      constructor
      · intro h
        have hbit : ∀ i, (u ||| d).getLsbD i = false := fun i => by rw [h, BitVec.getLsbD_zero]
        simp only [BitVec.getLsbD_or, Bool.or_eq_false_iff] at hbit
        exact ⟨BitVec.eq_of_getLsbD_eq fun i _ => by rw [(hbit i).1, BitVec.getLsbD_zero],
          BitVec.eq_of_getLsbD_eq fun i _ => by rw [(hbit i).2, BitVec.getLsbD_zero]⟩
      · rintro ⟨rfl, rfl⟩
        simp
    rw [List.foldl_cons, foldl_or_eq_zero, hor, List.forall_mem_cons, and_assoc]

/-- **Zero in digits.** -/
theorem iszero_iff {f : Format} {a : f.Digits} (ha : Canon f.b a) : iszero a = true ↔ value f.b a = 0 := by
  have hany := any_ne_zero_iff ha
  have h0 := ha.value_bounds.1
  have hall : a.any (· != 0#f.w) = true ↔ ¬ ∀ d ∈ a, d = 0#f.w := by
    simp
  rw [iszero, beq_iff_eq, foldl_or_eq_zero]
  rw [hall] at hany
  constructor
  · rintro ⟨-, h⟩
    by_contra hne
    exact hany.2 (by omega) h
  · intro h
    refine ⟨rfl, ?_⟩
    by_contra hne
    have := hany.1 hne
    omega

/-- **The order subtracted once.** -/
theorem Curve.subOrder_spec {c : Curve} {a : c.format.Digits} {u : Int} (ha : c.format.Below (u + c.n) a) (hu : c.n ≤ u)
    (hu' : u ≤ c.format.radix) :
    c.format.Below u (c.subOrder a) ∧ value c.format.b (c.subOrder a) ≡ value c.format.b a [ZMOD c.n] := by
  have hm := c.modulus
  have hlt := ha.lt
  have hsame : a.length = c.order.length := ha.length.trans hm.length.symm
  obtain ⟨-, hneg, -⟩ := cmp_spec c.format.one_le_b c.format.b_lt_w hsame ha.canon hm.canon
  have hn : value c.format.b c.order = c.n := rfl
  rw [hn] at hneg
  rw [Curve.subOrder]
  split
  · rename_i hge
    rw [condSub_ones]
    obtain ⟨hbelow, hval⟩ := norm_sub_spec hu' ha.below_radix hm.below_radix (by omega) (by omega)
    exact ⟨hbelow, by rw [hval]; exact Int.modEq_iff_dvd.2 ⟨1, by rw [hn]; ring⟩⟩
  · rename_i hless
    rw [condSub_zero hsame, norm_of_canon ha.length ha.canon]
    exact ⟨⟨ha.length, ha.canon, by omega⟩, rfl⟩

end Sp
end Wolf
