import WolfsslRs.SpMontgomery
/-!
# SpCurves — the numbers of the three curves (wolfssl-src, patches/sp_c64.c)

The digits of each curve, the order of its group and the constants for Montgomery reduction modulo the order, and what
the code for the curves does modulo the order: remainders, products, squares.
-/
namespace Wolf
namespace Sp

open Words Limbs

inductive Curve
  | p256 | p384 | p521

def p256Format : Format := ⟨64, 52, 5, 4, by decide, by decide, by decide, by decide, by decide, by decide⟩

def p384Format : Format := ⟨64, 55, 7, 1, by decide, by decide, by decide, by decide, by decide, by decide⟩

def p521Format : Format := ⟨64, 58, 9, 1, by decide, by decide, by decide, by decide, by decide, by decide⟩

def Curve.format : Curve → Format
  | .p256 => p256Format
  | .p384 => p384Format
  | .p521 => p521Format

def p256Order : p256Format.Digits :=
  [0x9cac2fc632551#64, 0xada7179e84f3b#64, 0xfffffffbce6fa#64, 0x0000fffffffff#64, 0x0ffffffff0000#64]

def p384Order : p384Format.Digits :=
  [0x6c196accc52973#64, 0x1b6491614ef5d9#64, 0x07d0dcb77d6068#64, 0x7ffffffe3b1a6c#64, 0x7fffffffffffff#64,
    0x7fffffffffffff#64, 0x3fffffffffffff#64]

def p521Order : p521Format.Digits :=
  [0x36fb71e91386409#64, 0x1726e226711ebae#64, 0x0148f709a5d03bb#64, 0x20efcbe59adff30#64, 0x3fffffffa518687#64,
    0x3ffffffffffffff#64, 0x3ffffffffffffff#64, 0x3ffffffffffffff#64, 0x1ffffffffffffff#64]

def Curve.order : (c : Curve) → c.format.Digits
  | .p256 => p256Order
  | .p384 => p384Order
  | .p521 => p521Order

/-- The Montgomery normalizer for the order: the radix of the reduction less the order. -/
def p256NormOrder : p256Format.Digits :=
  [0x6353d039cdaaf#64, 0x5258e8617b0c4#64, 0x0000000431905#64, 0xffff000000000#64, 0x000000000ffff#64]

def p384NormOrder : p384Format.Digits :=
  [0x13e695333ad68d#64, 0x649b6e9eb10a26#64, 0x782f2348829f97#64, 0x00000001c4e593#64, 0x00000000000000#64,
    0x00000000000000#64, 0x00000000000000#64]

def p521NormOrder : p521Format.Digits :=
  [0x09048e16ec79bf7#64, 0x28d91dd98ee1451#64, 0x3eb708f65a2fc44#64, 0x1f10341a65200cf#64, 0x000000005ae7978#64,
    0x000000000000000#64, 0x000000000000000#64, 0x000000000000000#64, 0x000000000000000#64]

def Curve.normOrder : (c : Curve) → c.format.Digits
  | .p256 => p256NormOrder
  | .p384 => p384NormOrder
  | .p521 => p521NormOrder

/-- The Montgomery multiplier for the order. -/
def Curve.mpOrder : (c : Curve) → BitVec c.format.w
  | .p256 => 0x1c8aaee00bc4f#64
  | .p384 => 0x546089e88fdc45#64
  | .p521 => 0x12f5ccd79a995c7#64

def sp256Div5 (a d : p256Format.Digits) : p256Format.Digits := div p256Format 2 (fun _ t => t) a d

def sp384Div7 (a d : p384Format.Digits) : p384Format.Digits := div p384Format 1 (fun _ t => t) a d

def sp521Div9 (a d : p521Format.Digits) : p521Format.Digits := div p521Format 1 (addBack p521Format.b) a d

/-- Reduction modulo a number, as the curve's `mod` does it. -/
def Curve.mod : (c : Curve) → c.format.Digits → c.format.Digits → c.format.Digits
  | .p256 => sp256Div5
  | .p384 => sp384Div7
  | .p521 => sp521Div9

/-- `mont_mul_order`, `mont_sqr_order` and `mont_sqr_n_order` of the curve. -/
def Curve.montMulOrder (c : Curve) (x y : c.format.Digits) : c.format.Digits :=
  Sp.montMulOrder c.format c.order c.mpOrder x y

def Curve.montSqrOrder (c : Curve) (x : c.format.Digits) : c.format.Digits := Sp.montSqrOrder c.format c.order c.mpOrder x

def Curve.montSqrNOrder (c : Curve) (x : c.format.Digits) (n : Nat) : c.format.Digits :=
  Sp.montSqrNOrder c.format c.order c.mpOrder x n

/-! ## The constants -/

/-- The order as a number, and the radix of the Montgomery reduction. -/
def Curve.n (c : Curve) : Int := value c.format.b c.order

def Curve.R (c : Curve) : Int := 2 ^ c.format.bits

theorem p256Order_divisor : Divisor p256Format 2 p256Order :=
  ⟨rfl, by decide +kernel, by decide +kernel, by decide, by decide, by decide +kernel, by decide +kernel⟩

theorem p384Order_divisor : Divisor p384Format 1 p384Order :=
  ⟨rfl, by decide +kernel, by decide +kernel, by decide, by decide, by decide +kernel, by decide +kernel⟩

theorem p521Order_divisor : Divisor p521Format 1 p521Order :=
  ⟨rfl, by decide +kernel, by decide +kernel, by decide, by decide, by decide +kernel, by decide +kernel⟩

variable (c : Curve)

theorem Curve.modulus : Modulus c.format c.order c.mpOrder := by
  cases c
  · exact ⟨⟨rfl, by decide +kernel, by decide +kernel⟩, by decide +kernel⟩
  · exact ⟨⟨rfl, by decide +kernel, by decide +kernel⟩, by decide +kernel⟩
  · exact ⟨⟨rfl, by decide +kernel, by decide +kernel⟩, by decide +kernel⟩

theorem Curve.normOrder_below : c.format.Below c.R c.normOrder := by
  cases c
  · exact ⟨rfl, by decide +kernel, by decide +kernel⟩
  · exact ⟨rfl, by decide +kernel, by decide +kernel⟩
  · exact ⟨rfl, by decide +kernel, by decide +kernel⟩

theorem Curve.normOrder_value : value c.format.b c.normOrder = c.R - c.n := by
  cases c <;> decide +kernel

theorem Curve.R_pos : 0 < c.R := two_pow_pos _

theorem Curve.n_odd : c.n % 2 = 1 := by
  cases c <;> decide +kernel

theorem Curve.n_bounds : c.R < 2 * c.n ∧ c.n < c.R := by
  cases c <;> decide +kernel

/-! ## Modulo the order -/

variable {c}

theorem Curve.radix_bounds : c.R * c.R * 2 ^ c.format.s < c.format.radix * c.format.radix := by
  cases c <;> decide +kernel

/-- **Remainders modulo the order**, of numbers of twice the bits.  They have as many bits as the order and need not be
below it. -/
theorem Curve.mod_spec {a : c.format.Digits} (hlen : a.length = 2 * c.format.n) (ha : Canon c.format.b a)
    (hlt : value c.format.b a ≤ c.R * c.R) :
    c.format.Below c.R (c.mod a c.order) ∧ value c.format.b (c.mod a c.order) ≡ value c.format.b a [ZMOD c.n] := by
  have hbound : 2 ^ c.format.s * value c.format.b a < c.format.radix * c.format.radix := by
    have hs := two_pow_pos c.format.s
    have := c.radix_bounds
    nlinarith
  cases c
  · exact div_spec (fun _ _ _ _ _ => rfl) p256Order_divisor hlen ha hbound
  · exact div_spec (fun _ _ _ _ _ => rfl) p384Order_divisor hlen ha hbound
  · exact div_spec (fun _ _ hs ht hc => addBack_of_canon hs ht hc) p521Order_divisor hlen ha hbound

theorem Curve.mod_mul_spec {x y : c.format.Digits} (hx : c.format.Below c.R x) (hy : c.format.Below c.R y) :
    c.format.Below c.R (c.mod (mul c.format x y) c.order) ∧
      value c.format.b (c.mod (mul c.format x y) c.order) ≡ value c.format.b x * value c.format.b y [ZMOD c.n] := by
  obtain ⟨hlen, hcanon, hval⟩ := mul_spec hx.below_radix hy.below_radix
  have hle : value c.format.b x * value c.format.b y ≤ c.R * c.R :=
    mul_le_mul hx.lt.le hy.lt.le hy.nonneg c.R_pos.le
  rw [← hval]
  exact Curve.mod_spec hlen hcanon (by rw [hval]; exact hle)

/-- **The remainder of a product** is the least one or that and the order: it is not brought below the order. -/
theorem Curve.mod_mul_remainder {x y : c.format.Digits} (hx : c.format.Below c.R x) (hy : c.format.Below c.R y) :
    value c.format.b (c.mod (mul c.format x y) c.order) = value c.format.b x * value c.format.b y % c.n ∨
      value c.format.b (c.mod (mul c.format x y) c.order) = value c.format.b x * value c.format.b y % c.n + c.n := by
  have hn := c.n_bounds
  obtain ⟨hbelow, hmod⟩ := Curve.mod_mul_spec hx hy
  have h0 := hbelow.nonneg
  have hlt := hbelow.lt
  rw [← hmod.eq]
  by_cases hless : value c.format.b (c.mod (mul c.format x y) c.order) < c.n
  · left
    rw [Int.emod_eq_of_lt h0 hless]
  · right
    rw [← Int.sub_emod_right, Int.emod_eq_of_lt (by omega) (by omega)]
    omega

theorem Curve.mod_mul_remainder_normOrder :
    value p521Format.b (sp521Div9 (mul p521Format p521NormOrder p521NormOrder) p521Order) =
        value p521Format.b p521NormOrder * value p521Format.b p521NormOrder % Curve.p521.n ∨
      value p521Format.b (sp521Div9 (mul p521Format p521NormOrder p521NormOrder) p521Order) =
        value p521Format.b p521NormOrder * value p521Format.b p521NormOrder % Curve.p521.n + Curve.p521.n :=
  Curve.mod_mul_remainder (c := .p521) (Curve.normOrder_below .p521) (Curve.normOrder_below .p521)

/-- **The Montgomery product modulo the order**, of numbers below a bound that may be above the radix. -/
theorem Curve.montMulOrder_mod {u : Int} (hu : c.R ≤ u ∧ u + c.n ≤ 2 * c.R) {x y : c.format.Digits}
    (hx : c.format.Below u x) (hy : c.format.Below c.R y) :
    c.format.Below u (c.montMulOrder x y) ∧
      c.R * value c.format.b (c.montMulOrder x y) ≡ value c.format.b x * value c.format.b y [ZMOD c.n] :=
  montMulOrder_spec c.modulus hu hx hy

end Sp
end Wolf
