import Mathlib.Algebra.GroupWithZero.Nat
import Mathlib.Algebra.Order.Group.Int
import Mathlib.Tactic.Ring
/-!
# Words — fixed-width words as the integers they stand for

A word is read as a two's complement integer.  Addition, subtraction and multiplication are those of the integers as long
as the result fits; a mask of the low bits is a remainder whatever was cut off above it; an arithmetic shift to the right
is a division that rounds down.
-/
namespace Wolf
namespace Words

variable {w k : Nat} {x y : BitVec w}

/-- The integers that `w` bits can hold. -/
def Fits (w : Nat) (v : Int) : Prop := -2 ^ (w - 1) ≤ v ∧ v < 2 ^ (w - 1)

theorem fits_toInt (x : BitVec w) : Fits w x.toInt := ⟨x.le_toInt, x.toInt_lt⟩

theorem Fits.mono {v : Nat} {n : Int} (h : Fits v n) (hv : v ≤ w) : Fits w n := by
  have hle : (2 : Int) ^ (v - 1) ≤ 2 ^ (w - 1) := by
    exact_mod_cast Nat.pow_le_pow_right (by decide : 0 < 2) (Nat.sub_le_sub_right hv 1)
  exact ⟨by have := h.1; omega, by have := h.2; omega⟩

theorem bmod_of_fits {v : Int} (hw : 0 < w) (h : Fits w v) : v.bmod (2 ^ w) = v := by
  obtain ⟨n, rfl⟩ : ∃ n, w = n + 1 := ⟨w - 1, by omega⟩
  obtain ⟨hlo, hhi⟩ := h
  simp only [Nat.add_sub_cancel] at hlo hhi
  have hpow : ((2 ^ (n + 1) : Nat) : Int) = 2 * 2 ^ n := by push_cast; ring
  apply Int.bmod_eq_of_le <;> rw [hpow] <;> omega

theorem toInt_add_of_fits (hw : 0 < w) (h : Fits w (x.toInt + y.toInt)) : (x + y).toInt = x.toInt + y.toInt := by
  rw [BitVec.toInt_add, bmod_of_fits hw h]

theorem toInt_sub_of_fits (hw : 0 < w) (h : Fits w (x.toInt - y.toInt)) : (x - y).toInt = x.toInt - y.toInt := by
  rw [BitVec.toInt_sub, bmod_of_fits hw h]

theorem toInt_mul_of_fits (hw : 0 < w) (h : Fits w (x.toInt * y.toInt)) : (x * y).toInt = x.toInt * y.toInt := by
  rw [BitVec.toInt_mul, bmod_of_fits hw h]

theorem toNat_of_nonneg (h : 0 ≤ x.toInt) : (x.toNat : Int) = x.toInt := by
  rw [BitVec.toInt_eq_toNat_cond] at h ⊢
  have := x.isLt
  split at h <;> split <;> omega

/-- A word that is not too large for it as a natural number is the same integer. -/
theorem toInt_of_toNat {n : Nat} (hn : 2 * n < 2 ^ w) (h : x.toNat = n) : x.toInt = n := by
  rw [BitVec.toInt_eq_toNat_of_lt (by rwa [h]), h]

/-! ## Masks and shifts -/

/-- The mask of the low `k` bits. -/
def mask (w k : Nat) : BitVec w := BitVec.ofNat w (2 ^ k - 1)

theorem two_pow_dvd (hk : k ≤ w) : (2 : Int) ^ k ∣ ((2 ^ w : Nat) : Int) := by
  push_cast
  exact pow_dvd_pow 2 hk

theorem bmod_emod_two_pow (hk : k ≤ w) (v : Int) : v.bmod (2 ^ w) % 2 ^ k = v % 2 ^ k := by
  rw [← Int.emod_emod_of_dvd _ (two_pow_dvd hk), Int.bmod_emod, Int.emod_emod_of_dvd _ (two_pow_dvd hk)]

theorem toNat_emod (hk : k ≤ w) (x : BitVec w) : (x.toNat : Int) % 2 ^ k = x.toInt % 2 ^ k := by
  rw [x.toInt_eq_toNat_bmod, bmod_emod_two_pow hk]

theorem toNat_and_mask (hk : k < w) : (x &&& mask w k).toNat = x.toNat % 2 ^ k := by
  have hlt : 2 ^ k - 1 < 2 ^ w :=
    Nat.lt_of_le_of_lt (Nat.sub_le _ _) (Nat.pow_lt_pow_right (by decide) hk)
  rw [BitVec.toNat_and, mask, BitVec.toNat_ofNat, Nat.mod_eq_of_lt hlt, Nat.and_two_pow_sub_one_eq_mod]

/-- **The low bits are the remainder.** -/
theorem toInt_and_mask (hk : k < w) : (x &&& mask w k).toInt = x.toInt % 2 ^ k := by
  have hnat := toNat_and_mask (x := x) hk
  have hlt : 2 * (x &&& mask w k).toNat < 2 ^ w := by
    have := Nat.mod_lt x.toNat (Nat.two_pow_pos k)
    have hpow : 2 * 2 ^ k ≤ 2 ^ w := by
      rw [← Nat.pow_succ']
      exact Nat.pow_le_pow_right (by decide) hk
    omega
  rw [BitVec.toInt_eq_toNat_of_lt hlt, hnat]
  push_cast
  exact toNat_emod (Nat.le_of_lt hk) x

/-- What is congruent has the same low bits. -/
theorem toInt_and_mask_of_bmod {v : Int} (hk : k < w) (h : x.toInt = v.bmod (2 ^ w)) :
    (x &&& mask w k).toInt = v % 2 ^ k := by
  rw [toInt_and_mask hk, h, bmod_emod_two_pow (Nat.le_of_lt hk)]

theorem toInt_mul_and_mask (hk : k < w) : ((x * y) &&& mask w k).toInt = x.toInt * y.toInt % 2 ^ k :=
  toInt_and_mask_of_bmod hk (BitVec.toInt_mul x y)

theorem toInt_shiftLeft_and_mask (hk : k < w) (s : Nat) :
    ((x <<< s) &&& mask w k).toInt = x.toInt * 2 ^ s % 2 ^ k := by
  have hle := Nat.le_of_lt hk
  have hcast : ((x.toNat * 2 ^ s : Nat) : Int) % 2 ^ k = x.toInt * 2 ^ s % 2 ^ k := by
    push_cast
    rw [Int.mul_emod, toNat_emod hle, ← Int.mul_emod]
  rw [← hcast]
  apply toInt_and_mask_of_bmod hk
  rw [BitVec.toInt_shiftLeft, Nat.shiftLeft_eq]

theorem toInt_sshiftRight_div (x : BitVec w) (n : Nat) : (x.sshiftRight n).toInt = x.toInt / 2 ^ n := by
  rw [BitVec.toInt_sshiftRight, Int.shiftRight_eq_div_pow]
  push_cast
  rfl

/-! ## Widths -/

theorem toInt_setWidth_of_fits {v : Nat} (hv : 0 < v) (hvw : v ≤ w) (h : Fits v x.toInt) :
    (x.setWidth v).toInt = x.toInt := by
  have hmod : (x.toNat : Int) % ((2 ^ v : Nat) : Int) = x.toInt % ((2 ^ v : Nat) : Int) := by
    push_cast
    exact toNat_emod hvw x
  rw [BitVec.toInt_setWidth, ← Int.emod_bmod, hmod, Int.emod_bmod, bmod_of_fits hv h]

end Words
end Wolf
