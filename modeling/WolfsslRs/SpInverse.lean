import Mathlib.Data.ZMod.Basic
import Mathlib.FieldTheory.Finite.Basic
import WolfsslRs.AdditionChain
import WolfsslRs.SpOrders
/-!
# SpInverse — inverses modulo the order by a fixed power (wolfssl-src, patches/sp_c64.c)

`sp_256_mont_inv_order_5` and its copies raise a number in Montgomery form to a power that inverts it, the order being a
prime: first by a chain of squarings and products made for the ones at the top of the order, then bit by bit.  What the
temporaries held before does not matter.
-/
namespace Wolf
namespace Sp

open Limbs AdditionChain

/-- The number, the temporaries and the result. -/
inductive Reg
  | r | a | t | t2 | t3
  deriving DecidableEq

/-- A bit of a number in words of 64 bits. -/
def bitAt (ws : List (BitVec 64)) (i : Nat) : Bool := (ws.getD (i / 64) 0#64 &&& (1#64 <<< (i % 64))) != 0#64

/-- The bits from `hi` down to `lo`. -/
def bitsDown (ws : List (BitVec 64)) (hi lo : Nat) : List Bool :=
  (List.range (hi + 1 - lo)).map fun j => bitAt ws (hi - j)

/-- The low half of the order less two. -/
def p256OrderLow : List (BitVec 64) := [0xf3b9cac2fc63254f#64, 0xbce6faada7179e84#64]

def p384OrderLow : List (BitVec 64) := [0xecec196accc52971#64, 0x581a0db248b0a77a#64, 0xc7634d81f4372ddf#64]

def p521OrderLow : List (BitVec 64) :=
  [0xbb6fb71e91386407#64, 0x3bb5c9b8899c47ae#64, 0x7fcc0148f709a5d0#64, 0x51868783bf2f966b#64, 0xfffffffffffffffa#64]

def sp256MontInvOrder5 : List (Instr Reg) :=
  List.flatten [
    [.sqr .t .a 1, .mul .t .t .a, .sqr .t2 .t 2, .mul .t3 .t2 .t, .sqr .t2 .t3 4, .mul .t .t2 .t3, .sqr .t2 .t 8,
      .mul .t .t2 .t, .sqr .t2 .t 16, .mul .t .t2 .t, .sqr .t2 .t 64, .mul .t2 .t2 .t, .sqr .t2 .t2 32, .mul .t2 .t2 .t,
      .sqr .t2 .t2 1, .mul .t2 .t2 .a, .sqr .t2 .t2 5, .mul .t2 .t2 .t3],
    scan .t2 .a (bitsDown p256OrderLow 121 112), [.sqr .t2 .t2 4, .mul .t2 .t2 .t3],
    scan .t2 .a (bitsDown p256OrderLow 107 64), [.sqr .t2 .t2 4, .mul .t2 .t2 .t3],
    scan .t2 .a (bitsDown p256OrderLow 59 32), [.sqr .t2 .t2 4, .mul .t2 .t2 .t3],
    scan .t2 .a (bitsDown p256OrderLow 27 0), [.sqr .t2 .t2 4, .mul .r .t2 .t3]]

def sp384MontInvOrder7 : List (Instr Reg) :=
  List.flatten [
    [.sqr .t .a 1, .mul .t .t .a, .sqr .t2 .t 2, .mul .t .t2 .t, .sqr .t2 .t 4, .mul .t .t2 .t, .sqr .t2 .t 8,
      .mul .t3 .t2 .t, .sqr .t2 .t3 16, .mul .t .t2 .t3, .sqr .t2 .t 16, .mul .t .t2 .t3, .sqr .t2 .t 48, .mul .t .t2 .t,
      .sqr .t2 .t 96, .mul .t2 .t2 .t],
    scan .t2 .a (bitsDown p384OrderLow 191 1), [.sqr .t2 .t2 1, .mul .r .t2 .a]]

def sp521MontInvOrder9 : List (Instr Reg) :=
  List.flatten [
    [.sqr .t .a 1, .mul .t .t .a, .sqr .t2 .t 2, .mul .t .t2 .t, .sqr .t3 .t 1, .mul .t3 .t3 .a, .sqr .t2 .t 4,
      .mul .t .t2 .t, .sqr .t2 .t 8, .mul .t .t2 .t, .sqr .t2 .t 16, .mul .t .t2 .t, .sqr .t2 .t 32, .mul .t .t2 .t,
      .sqr .t2 .t 64, .mul .t .t2 .t, .sqr .t2 .t 128, .mul .t .t2 .t, .sqr .t2 .t 5, .mul .t2 .t2 .t3],
    scan .t2 .a (bitsDown p521OrderLow 259 1), [.sqr .t2 .t2 1, .mul .r .t2 .a]]

def Curve.invOrderChain : Curve → List (Instr Reg)
  | .p256 => sp256MontInvOrder5
  | .p384 => sp384MontInvOrder7
  | .p521 => sp521MontInvOrder9

def Curve.orderOps (c : Curve) : Ops c.format.Digits := ⟨c.montMulOrder, c.montSqrNOrder⟩

/-- `mont_inv_order` of the curve, with what the temporaries hold. -/
def Curve.montInvOrder (c : Curve) (td : Reg → c.format.Digits) (a : c.format.Digits) : c.format.Digits :=
  exec c.orderOps (Function.update td .a a) c.invOrderChain .r

/-- The order less two, in words. -/
def p256OrderMinus2 : List (BitVec 64) :=
  [0xf3b9cac2fc63254f#64, 0xbce6faada7179e84#64, 0xffffffffffffffff#64, 0xffffffff00000000#64]

def p384OrderMinus2 : List (BitVec 64) :=
  [0xecec196accc52971#64, 0x581a0db248b0a77a#64, 0xc7634d81f4372ddf#64, 0xffffffffffffffff#64, 0xffffffffffffffff#64,
    0xffffffffffffffff#64]

def p521OrderMinus2 : List (BitVec 64) :=
  [0xbb6fb71e91386407#64, 0x3bb5c9b8899c47ae#64, 0x7fcc0148f709a5d0#64, 0x51868783bf2f966b#64, 0xfffffffffffffffa#64,
    0xffffffffffffffff#64, 0xffffffffffffffff#64, 0xffffffffffffffff#64, 0x00000000000001ff#64]

/-- The bits below the top one of the order less two, from the top. -/
def Curve.orderMinus2Bits : Curve → List Bool
  | .p256 => bitsDown p256OrderMinus2 254 0
  | .p384 => bitsDown p384OrderMinus2 382 0
  | .p521 => bitsDown p521OrderMinus2 519 0

/-- `mont_inv_order` of the curve as it is built for size: one scan, that starts with a copy of the number.  Its
products are those of the other build here, `sp_*_mul` and `sp_*_sqr` with their loops written out. -/
def Curve.montInvOrderSmall (c : Curve) (td : Reg → c.format.Digits) (a : c.format.Digits) : c.format.Digits :=
  exec c.orderOps (Function.update (Function.update td .a a) .t a) (scan .t .a c.orderMinus2Bits) .t

/-- The exponent of a chain.  The last scan of the chain for P-256 goes down to bit 0, and four squarings and a product
follow that were meant for the last four bits. -/
def Curve.invOrderExponent : Curve → Nat
  | .p256 => 16 * (Curve.p256.n.toNat - 2) + 15
  | c => c.n.toNat - 2

theorem Curve.invOrderChain_exponent (c : Curve) :
    exec exponents (Function.update (fun _ => none) Reg.a (some 1)) c.invOrderChain .r = some c.invOrderExponent := by
  cases c <;> decide +kernel

/-- **All chains invert**: the extra bits do no harm, as the exponent is one less than a multiple of the order less one. -/
theorem Curve.orderMinus2_exponent (c : Curve) :
    exec exponents (Function.update (Function.update (fun _ => none) Reg.a (some 1)) Reg.t (some 1))
      (scan .t .a c.orderMinus2Bits) .t = some (c.n.toNat - 2) := by
  cases c <;> decide +kernel

theorem Curve.invOrderExponent_dvd (c : Curve) : c.n.toNat - 1 ∣ c.invOrderExponent + 1 := by
  cases c
  · exact ⟨16, by decide +kernel⟩
  · exact ⟨1, by decide +kernel⟩
  · exact ⟨1, by decide +kernel⟩

theorem Curve.invOrderExponent_ne_zero (c : Curve) : c.invOrderExponent ≠ 0 := by
  cases c <;> decide +kernel

/-- The chains only read temporaries that they have written. -/
theorem Curve.montInvOrder_temporaries (c : Curve) (td td' : Reg → c.format.Digits) (a : c.format.Digits) :
    c.montInvOrder td a = c.montInvOrder td' a :=
  exec_agree c.invOrderChain (update_agree (fun _ _ h => by cases h) fun _ _ => rfl) .r _ c.invOrderChain_exponent

/-! ## In the field -/

section Field

variable {c : Curve}

theorem Curve.n_toNat (c : Curve) : ((c.n.toNat : Nat) : Int) = c.n := by
  have := c.n_bounds
  have := c.R_pos
  exact Int.toNat_of_nonneg (by omega)

theorem Curve.cast_eq_iff {x y : Int} : (x : ZMod c.n.toNat) = y ↔ x ≡ y [ZMOD c.n] := by
  rw [ZMod.intCast_eq_intCast_iff, c.n_toNat]

theorem Curve.R_ne_zero : ((c.R : Int) : ZMod c.n.toNat) ≠ 0 := by
  intro h
  have hdvd : c.n ∣ 2 ^ c.format.bits := by
    have hzero := Curve.cast_eq_iff.1 (h.trans Int.cast_zero.symm)
    exact Int.modEq_zero_iff_dvd.1 hzero
  have hprime : Prime c.n := by
    rw [← c.n_toNat]
    exact Nat.prime_iff_prime_int.1 c.n_prime
  have htwo : c.n ∣ 2 := hprime.dvd_of_dvd_pow hdvd
  have hle := Int.le_of_dvd (by decide) htwo
  have := c.n_odd
  have := c.n_bounds
  have := c.R_pos
  have hcases : c.n = 1 := by omega
  exact hprime.not_isUnit (by rw [hcases]; exact isUnit_one)

/-- The residue that a number in Montgomery form stands for. -/
noncomputable def Curve.residue (c : Curve) (x : c.format.Digits) : ZMod c.n.toNat :=
  (value c.format.b x : ZMod c.n.toNat) * ((c.R : Int) : ZMod c.n.toNat)⁻¹

/-- A number in Montgomery form that stands for a power of another. -/
structure Curve.Power (c : Curve) (a x : c.format.Digits) (e : Nat) : Prop where
  below : c.format.Below c.R x
  eq : c.residue x = c.residue a ^ e

theorem Curve.montMulOrder_residue {x y : c.format.Digits} (hx : c.format.Below c.R x) (hy : c.format.Below c.R y) :
    c.format.Below c.R (c.montMulOrder x y) ∧ c.residue (c.montMulOrder x y) = c.residue x * c.residue y := by
  have hn := c.n_bounds
  have hR := Curve.R_ne_zero (c := c)
  obtain ⟨hbelow, hmod⟩ := Curve.montMulOrder_mod ⟨le_rfl, by omega⟩ hx hy
  refine ⟨hbelow, ?_⟩
  have hcast : ((c.R : Int) : ZMod c.n.toNat) * (value c.format.b (c.montMulOrder x y) : ZMod c.n.toNat) =
      value c.format.b x * value c.format.b y := by
    rw [← Int.cast_mul, ← Int.cast_mul]
    exact Curve.cast_eq_iff.2 hmod
  unfold Curve.residue
  rw [mul_mul_mul_comm, ← hcast]
  field_simp

theorem Curve.power_mul {a x y : c.format.Digits} {e k : Nat} (hx : c.Power a x e) (hy : c.Power a y k) :
    c.Power a (c.montMulOrder x y) (e + k) := by
  obtain ⟨hbelow, heq⟩ := Curve.montMulOrder_residue hx.below hy.below
  exact ⟨hbelow, by rw [heq, hx.eq, hy.eq, pow_add]⟩

theorem Curve.power_sqr {a x : c.format.Digits} {e : Nat} (hx : c.Power a x e) :
    c.Power a (c.montSqrOrder x) (2 * e) := by
  have heq : c.montSqrOrder x = c.montMulOrder x x := montSqrOrder_eq hx.below
  rw [heq, Nat.two_mul]
  exact Curve.power_mul hx hx

theorem Curve.power_sqrN {a x : c.format.Digits} {e : Nat} (hx : c.Power a x e) (n : Nat) :
    c.Power a (c.montSqrNOrder x n) (2 ^ max n 1 * e) :=
  sqr_represents (fun _ _ => Curve.power_sqr) (fun _ => rfl) (fun _ => rfl) (fun _ _ => rfl) hx n

/-- A power whose exponent is one short of a multiple of the order less one is the inverse. -/
theorem Curve.Power.inverse {a x : c.format.Digits} {e : Nat} (hx : c.Power a x e) (he : c.n.toNat - 1 ∣ e + 1)
    (h0 : ¬ c.n ∣ value c.format.b a) : c.residue x * c.residue a = 1 := by
  have hR := Curve.R_ne_zero (c := c)
  have hne : c.residue a ≠ 0 := by
    refine mul_ne_zero (fun hzero => h0 ?_) (inv_ne_zero hR)
    exact Int.modEq_zero_iff_dvd.1 (Curve.cast_eq_iff.1 (hzero.trans Int.cast_zero.symm))
  obtain ⟨k, hk⟩ := he
  rw [hx.eq, ← pow_succ, hk, pow_mul, ZMod.pow_card_sub_one_eq_one hne, one_pow]

theorem Curve.power_one {a : c.format.Digits} (ha : c.format.Below c.R a) (k : Nat) (hk : some 1 = some k) : c.Power a a k := by
  cases hk
  exact ⟨ha, by rw [pow_one]⟩

/-- **The chains** raise to their exponents, whatever the temporaries held. -/
theorem Curve.montInvOrder_power (td : Reg → c.format.Digits) {a : c.format.Digits} (ha : c.format.Below c.R a) :
    c.Power a (c.montInvOrder td a) c.invOrderExponent := by
  have hstart : ∀ reg k, Function.update (fun _ => none) Reg.a (some 1) reg = some k →
      c.Power a (Function.update td .a a reg) k :=
    update_represents (fun _ _ h => by cases h) (Curve.power_one ha)
  exact exec_represents (o := c.orderOps) (P := c.Power a) (fun _ _ _ _ => Curve.power_mul)
    (fun _ _ n h => Curve.power_sqrN h n) c.invOrderChain hstart .r _ c.invOrderChain_exponent

theorem Curve.montInvOrderSmall_power (td : Reg → c.format.Digits) {a : c.format.Digits} (ha : c.format.Below c.R a) :
    c.Power a (c.montInvOrderSmall td a) (c.n.toNat - 2) := by
  have hstart : ∀ reg k, Function.update (Function.update (fun _ => none) Reg.a (some 1)) Reg.t (some 1) reg = some k →
      c.Power a (Function.update (Function.update td .a a) .t a reg) k :=
    update_represents (update_represents (fun _ _ h => by cases h) (Curve.power_one ha)) (Curve.power_one ha)
  exact exec_represents (o := c.orderOps) (P := c.Power a) (fun _ _ _ _ => Curve.power_mul)
    (fun _ _ n h => Curve.power_sqrN h n) (scan .t .a c.orderMinus2Bits) hstart .t _ c.orderMinus2_exponent

theorem Curve.mul_of_residue {x a : c.format.Digits} (h : c.residue x * c.residue a = 1) :
    value c.format.b x * value c.format.b a ≡ c.R * c.R [ZMOD c.n] := by
  have hR := Curve.R_ne_zero (c := c)
  refine Curve.cast_eq_iff.1 ?_
  unfold Curve.residue at h
  field_simp at h
  rw [Int.cast_mul, Int.cast_mul, h]
  ring

end Field

/-- **The inverse modulo the order**: the number and its inverse, both in Montgomery form, multiply to the form of one. -/
theorem Curve.montInvOrder_spec {c : Curve} (td : Reg → c.format.Digits) {a : c.format.Digits}
    (ha : c.format.Below c.R a) (h0 : ¬ c.n ∣ value c.format.b a) :
    c.format.Below c.R (c.montInvOrder td a) ∧
      value c.format.b (c.montInvOrder td a) * value c.format.b a ≡ c.R * c.R [ZMOD c.n] := by
  have hpower := c.montInvOrder_power td ha
  exact ⟨hpower.below, Curve.mul_of_residue (hpower.inverse c.invOrderExponent_dvd h0)⟩

/-- **Both ways to invert agree** modulo the order, whatever the temporaries held, and for zero too. -/
theorem Curve.montInv_agree {c : Curve} (td td' : Reg → c.format.Digits) {a : c.format.Digits}
    (ha : c.format.Below c.R a) :
    value c.format.b (c.montInvOrder td a) ≡ value c.format.b (c.montInvOrderSmall td' a) [ZMOD c.n] := by
  have hpower := c.montInvOrder_power td ha
  have hsmall := c.montInvOrderSmall_power td' ha
  have htwo := c.n_prime.two_le
  have hodd := c.n_odd
  have hcast := c.n_toNat
  have hsame : c.residue (c.montInvOrder td a) = c.residue (c.montInvOrderSmall td' a) := by
    by_cases h0 : c.n ∣ value c.format.b a
    · have hzero : c.residue a = 0 := by
        have hval : ((value c.format.b a : Int) : ZMod c.n.toNat) = 0 := by
          rw [← Int.cast_zero]
          exact Curve.cast_eq_iff.2 (Int.modEq_zero_iff_dvd.2 h0)
        rw [Curve.residue, hval, zero_mul]
      rw [hpower.eq, hsmall.eq, hzero, zero_pow c.invOrderExponent_ne_zero, zero_pow (by omega)]
    · have hinv := hpower.inverse c.invOrderExponent_dvd h0
      have hinv' := hsmall.inverse ⟨1, by omega⟩ h0
      exact mul_right_cancel₀ (right_ne_zero_of_mul_eq_one hinv) (hinv.trans hinv'.symm)
  exact Curve.cast_eq_iff.1 (mul_right_cancel₀ (inv_ne_zero Curve.R_ne_zero) hsame)

theorem Curve.montInv_agree_normOrder :
    value p256Format.b (Curve.p256.montInvOrder (fun _ => []) p256NormOrder) ≡
      value p256Format.b (Curve.p256.montInvOrderSmall (fun _ => p256Order) p256NormOrder) [ZMOD Curve.p256.n] :=
  Curve.montInv_agree (c := .p256) _ _ (Curve.normOrder_below .p256)

end Sp
end Wolf
