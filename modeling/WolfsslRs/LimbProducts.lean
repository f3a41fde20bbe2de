import Mathlib.Algebra.Order.Ring.Abs
import WolfsslRs.Limbs
/-!
# LimbProducts — products of limb numbers in words of double width

The product of two words fits a word of twice the width.  A number is multiplied by a word limb by limb (`mulWord`), two
numbers by columns: the products that count alike are added up, then the carries run through the sums (`carryOut`).
-/
namespace Wolf
namespace Limbs

open Words

variable {w b : Nat}

def wide (x : BitVec w) : BitVec (2 * w) := x.signExtend (2 * w)

def narrow (t : BitVec (2 * w)) : BitVec w := t.setWidth w

theorem toInt_wide (x : BitVec w) : (wide x).toInt = x.toInt := BitVec.toInt_signExtend_of_le (by omega)

theorem toInt_narrow (hw : 0 < w) {t : BitVec (2 * w)} (h : Fits w t.toInt) : (narrow t).toInt = t.toInt :=
  toInt_setWidth_of_fits hw (by omega) h

theorem abs_toInt_le (x : BitVec w) : |x.toInt| ≤ 2 ^ (w - 1) :=
  abs_le.2 ⟨(fits_toInt x).1, (fits_toInt x).2.le⟩

/-- **The product of two words fits twice the width.** -/
theorem toInt_wide_mul (hw : 0 < w) (x y : BitVec w) : (wide x * wide y).toInt = x.toInt * y.toInt := by
  have habs : |x.toInt * y.toInt| ≤ 2 ^ (w - 1) * 2 ^ (w - 1) := by
    rw [abs_mul]
    exact mul_le_mul (abs_toInt_le x) (abs_toInt_le y) (abs_nonneg _) (two_pow_pos _).le
  have hlt : (2 : Int) ^ (w - 1) * 2 ^ (w - 1) < 2 ^ (2 * w - 1) := by
    rw [← pow_add]
    exact pow_lt_pow_right₀ (by decide) (by omega)
  have hle := abs_le.1 habs
  rw [toInt_mul_of_fits (by omega) (by rw [toInt_wide, toInt_wide]; exact ⟨by omega, by omega⟩), toInt_wide, toInt_wide]

/-! ## Times a word -/

/-- The limbs of `x` times the number, after a limb whose product was `prev`. -/
def mulWordFrom (b : Nat) (x : BitVec w) (prev : BitVec (2 * w)) : List (BitVec w) → List (BitVec w)
  | [] => [narrow (prev.sshiftRight b)]
  | d :: ds =>
    let t := wide x * wide d
    narrow (prev.sshiftRight b + (t &&& mask (2 * w) b)) :: mulWordFrom b x t ds

def mulWord (b : Nat) (a : List (BitVec w)) (x : BitVec w) : List (BitVec w) := mulWordFrom b x 0#(2 * w) a

@[simp] theorem length_mulWordFrom (x : BitVec w) (prev : BitVec (2 * w)) (a : List (BitVec w)) :
    (mulWordFrom b x prev a).length = a.length + 1 := by
  induction a generalizing prev with
  | nil => rfl
  | cons d a ih => exact congrArg (· + 1) (ih _)

@[simp] theorem length_mulWord (a : List (BitVec w)) (x : BitVec w) : (mulWord b a x).length = a.length + 1 :=
  length_mulWordFrom x 0#(2 * w) a

theorem ediv_between {v l u : Int} (h : l * 2 ^ b ≤ v ∧ v ≤ u * 2 ^ b) : l ≤ v / 2 ^ b ∧ v / 2 ^ b ≤ u :=
  ⟨(Int.le_ediv_iff_mul_le (two_pow_pos b)).2 h.1, Int.ediv_le_of_le_mul (two_pow_pos b) h.2⟩

section MulWord

variable {x : BitVec w} {l u : Int}

theorem mulWordFrom_spec (hbw : b < w) (hlo : -2 ^ (w - 1) ≤ l) (hlo0 : l ≤ 0) (hhi : u + 2 ^ b ≤ 2 ^ (w - 1)) :
    ∀ {a : List (BitVec w)} {p : BitVec (2 * w)}, l * 2 ^ b ≤ p.toInt ∧ p.toInt ≤ u * 2 ^ b →
      (∀ d ∈ a, l * 2 ^ b ≤ x.toInt * d.toInt ∧ x.toInt * d.toInt ≤ u * 2 ^ b) →
      value b (mulWordFrom b x p a) = p.toInt / 2 ^ b + x.toInt * value b a ∧
        Between l (u + 2 ^ b - 1) (mulWordFrom b x p a)
  | [], p, hp, _ => by
    have hq := ediv_between hp
    have hpos := two_pow_pos b
    have hval : (narrow (p.sshiftRight b)).toInt = p.toInt / 2 ^ b := by
      rw [toInt_narrow (by omega) (by rw [toInt_sshiftRight_div]; exact ⟨by omega, by omega⟩), toInt_sshiftRight_div]
    rw [mulWordFrom]
    exact ⟨by rw [value_cons, hval]; simp, between_cons.2 ⟨by rw [hval]; omega, between_nil⟩⟩
  | d :: ds, p, hp, ha => by
    obtain ⟨hd, hds⟩ := List.forall_mem_cons.1 ha
    have ht := toInt_wide_mul (by omega : 0 < w) x d
    obtain ⟨hval, hbetween⟩ := mulWordFrom_spec hbw hlo hlo0 hhi (p := wide x * wide d) (by rwa [ht]) hds
    have hq := ediv_between hp
    have hr := emod_digit (b := b) (x.toInt * d.toInt)
    have hmask : (wide x * wide d &&& mask (2 * w) b).toInt = x.toInt * d.toInt % 2 ^ b := by
      rw [toInt_and_mask (by omega), ht]
    have hwide : (2 : Int) ^ (w - 1) ≤ 2 ^ (2 * w - 1) := pow_le_pow_right₀ (by decide) (by omega)
    have hsum : (p.sshiftRight b + (wide x * wide d &&& mask (2 * w) b)).toInt =
        p.toInt / 2 ^ b + x.toInt * d.toInt % 2 ^ b := by
      rw [toInt_add_of_fits (by omega), toInt_sshiftRight_div, hmask]
      rw [toInt_sshiftRight_div, hmask]
      exact ⟨by omega, by omega⟩
    have hlimb := toInt_narrow (t := p.sshiftRight b + (wide x * wide d &&& mask (2 * w) b)) (by omega)
      (by rw [hsum]; exact ⟨by omega, by omega⟩)
    rw [hsum] at hlimb
    rw [mulWordFrom]
    refine ⟨?_, between_cons.2 ⟨by rw [hlimb]; omega, hbetween⟩⟩
    rw [value_cons, hval, hlimb, ht, value_cons]
    linear_combination Int.emod_add_mul_ediv (x.toInt * d.toInt) (2 ^ b)

/-- **A number times a word**, when the products of its limbs leave the word room for a carry. -/
theorem mulWord_spec (hbw : b < w) (hlo : -2 ^ (w - 1) ≤ l) (hlo0 : l ≤ 0) (hhi0 : 0 ≤ u)
    (hhi : u + 2 ^ b ≤ 2 ^ (w - 1)) {a : List (BitVec w)}
    (ha : ∀ d ∈ a, l * 2 ^ b ≤ x.toInt * d.toInt ∧ x.toInt * d.toInt ≤ u * 2 ^ b) :
    value b (mulWord b a x) = x.toInt * value b a ∧ Between l (u + 2 ^ b - 1) (mulWord b a x) := by
  have hpos := (two_pow_pos b).le
  obtain ⟨hval, hbetween⟩ := mulWordFrom_spec (p := 0#(2 * w)) hbw hlo hlo0 hhi
    (by rw [BitVec.toInt_zero]; exact ⟨mul_nonpos_of_nonpos_of_nonneg hlo0 hpos, mul_nonneg hhi0 hpos⟩) ha
  exact ⟨by rw [mulWord, hval]; simp, hbetween⟩

end MulWord

/-! ## By columns -/

/-- Sums of columns that count alike, the longer list going on alone. -/
def addColumns : List (BitVec w) → List (BitVec w) → List (BitVec w)
  | [], cs => cs
  | a :: as, [] => a :: as
  | a :: as, c :: cs => (a + c) :: addColumns as cs

/-- Column `k` is the sum of the products `a[i] * c[j]` with `i + j = k`. -/
def columns : List (BitVec w) → List (BitVec w) → List (BitVec (2 * w))
  | [], _ => []
  | a :: as, cs => addColumns (cs.map (wide a * wide ·)) (0#(2 * w) :: columns as cs)

/-- The limbs of a sum of columns, after a carry. -/
def carryOutFrom (b : Nat) (c : BitVec (2 * w)) : List (BitVec (2 * w)) → List (BitVec w)
  | [] => [narrow c]
  | t :: ts => narrow ((t + c) &&& mask (2 * w) b) :: carryOutFrom b ((t + c).sshiftRight b) ts

def carryOut (b : Nat) (ts : List (BitVec (2 * w))) : List (BitVec w) := carryOutFrom b 0#(2 * w) ts

theorem addColumns_spec (hw : 0 < w) {l u l' u' : Int} (hlo : l ≤ 0 ∧ l' ≤ 0) (hhi : 0 ≤ u ∧ 0 ≤ u')
    (hfit : -2 ^ (w - 1) ≤ l + l' ∧ u + u' < 2 ^ (w - 1)) :
    ∀ {a c : List (BitVec w)}, Between l u a → Between l' u' c →
      value b (addColumns a c) = value b a + value b c ∧ Between (l + l') (u + u') (addColumns a c)
  | [], c, _, hc => ⟨by rw [addColumns, value_nil, zero_add], hc.mono (by omega) (by omega)⟩
  | a :: as, [], ha, _ => ⟨by rw [addColumns, value_nil, add_zero], ha.mono (by omega) (by omega)⟩
  | a :: as, c :: cs, ha, hc => by
    obtain ⟨ha, has⟩ := between_cons.1 ha
    obtain ⟨hc, hcs⟩ := between_cons.1 hc
    obtain ⟨hval, hbetween⟩ := addColumns_spec hw hlo hhi hfit has hcs
    have hsum : (a + c).toInt = a.toInt + c.toInt := toInt_add_of_fits hw ⟨by omega, by omega⟩
    rw [addColumns]
    refine ⟨?_, between_cons.2 ⟨by rw [hsum]; omega, hbetween⟩⟩
    rw [value_cons, hval, hsum, value_cons, value_cons]
    ring

theorem row_spec (hw : 0 < w) {m : Int} (a : BitVec w) : ∀ {cs : List (BitVec w)},
    (∀ c ∈ cs, -m ≤ a.toInt * c.toInt ∧ a.toInt * c.toInt ≤ m) →
      value b (cs.map (wide a * wide ·)) = a.toInt * value b cs ∧ Between (-m) m (cs.map (wide a * wide ·))
  | [], _ => ⟨by simp, between_nil⟩
  | c :: cs, h => by
    obtain ⟨hc, hcs⟩ := List.forall_mem_cons.1 h
    obtain ⟨hval, hbetween⟩ := row_spec hw a hcs
    have hmul := toInt_wide_mul hw a c
    rw [List.map_cons]
    refine ⟨?_, between_cons.2 ⟨by rw [hmul]; exact hc, hbetween⟩⟩
    rw [value_cons, hval, hmul, value_cons]
    ring

/-- **The columns of a product.** -/
theorem columns_spec (hw : 0 < w) {m : Int} (hm : 0 ≤ m) : ∀ {a cs : List (BitVec w)},
    a.length * m < 2 ^ (2 * w - 1) → (∀ d ∈ a, ∀ c ∈ cs, -m ≤ d.toInt * c.toInt ∧ d.toInt * c.toInt ≤ m) →
      value b (columns a cs) = value b a * value b cs ∧ Between (-(a.length * m)) (a.length * m) (columns a cs)
  | [], cs, _, _ => ⟨by simp [columns], between_nil⟩
  | a :: as, cs, hfit, h => by
    obtain ⟨ha, has⟩ := List.forall_mem_cons.1 h
    have hlen : (((a :: as).length : Nat) : Int) * m = m + as.length * m := by
      rw [List.length_cons]
      push_cast
      ring
    rw [hlen] at hfit ⊢
    have hrest : (0 : Int) ≤ as.length * m := mul_nonneg (by positivity) hm
    obtain ⟨hval, hbetween⟩ := columns_spec hw hm (by omega) has
    obtain ⟨hrow, hrowb⟩ := row_spec (b := b) hw a ha
    have hshift : Between (-(as.length * m)) (as.length * m) (0#(2 * w) :: columns as cs) :=
      between_cons.2 ⟨by rw [BitVec.toInt_zero]; omega, hbetween⟩
    obtain ⟨hsum, hsumb⟩ := addColumns_spec (b := b) (by omega) ⟨by omega, by omega⟩ ⟨hm, hrest⟩ ⟨by omega, hfit⟩
      hrowb hshift
    rw [columns]
    refine ⟨?_, hsumb.mono (by omega) le_rfl⟩
    rw [hsum, hrow, value_cons, hval, BitVec.toInt_zero, value_cons]
    ring

/-- **The carries run through the columns**: the limbs are digits, but for the last one, and the number is the same. -/
theorem carryOutFrom_spec (hbw : b < w) {m k : Int} (hm : 0 ≤ m) (hfit : m + k < 2 ^ (2 * w - 1)) (hk : m + k ≤ k * 2 ^ b)
    (hkw : k < 2 ^ (w - 1)) : ∀ {ts : List (BitVec (2 * w))} {c : BitVec (2 * w)}, Between (-m) m ts →
      -k ≤ c.toInt ∧ c.toInt ≤ k →
      Normal b (carryOutFrom b c ts) ∧ value b (carryOutFrom b c ts) = c.toInt + value b ts
  | [], c, _, hc => by
    have hlast := toInt_narrow (t := c) (by omega) ⟨by omega, by omega⟩
    exact ⟨⟨[], narrow c, rfl, between_nil⟩, by rw [carryOutFrom, value_cons, hlast]; simp⟩
  | t :: ts, c, hts, hc => by
    obtain ⟨ht, hts⟩ := between_cons.1 hts
    have hsum : (t + c).toInt = t.toInt + c.toInt := toInt_add_of_fits (by omega) ⟨by omega, by omega⟩
    have hcarry := toInt_sshiftRight_div (t + c) b
    have hq : -k ≤ (t + c).toInt / 2 ^ b ∧ (t + c).toInt / 2 ^ b ≤ k :=
      ediv_between (by rw [hsum, neg_mul]; exact ⟨by omega, by omega⟩)
    obtain ⟨hnormal, hval⟩ := carryOutFrom_spec hbw hm hfit hk hkw hts (hcarry ▸ hq)
    have hdigit := emod_digit (b := b) (t + c).toInt
    have hpow : (2 : Int) ^ b ≤ 2 ^ (w - 1) := pow_le_pow_right₀ (by decide) (by omega)
    have hmask := toInt_and_mask (x := t + c) (by omega : b < 2 * w)
    have hlimb := toInt_narrow (t := (t + c) &&& mask (2 * w) b) (by omega) (by rw [hmask]; exact ⟨by omega, by omega⟩)
    rw [hmask] at hlimb
    rw [carryOutFrom]
    refine ⟨hnormal.cons (by rw [hlimb]; exact hdigit), ?_⟩
    rw [value_cons, hval, hlimb, hcarry, value_cons]
    have hdiv := Int.emod_add_mul_ediv (t + c).toInt (2 ^ b)
    rw [hsum] at hdiv ⊢
    linear_combination hdiv

@[simp] theorem length_carryOutFrom (c : BitVec (2 * w)) (ts : List (BitVec (2 * w))) :
    (carryOutFrom b c ts).length = ts.length + 1 := by
  induction ts generalizing c with
  | nil => rfl
  | cons t ts ih => exact congrArg (· + 1) (ih _)

theorem length_addColumns : ∀ a c : List (BitVec w), (addColumns a c).length = max a.length c.length
  | [], c => by simp [addColumns]
  | a :: as, [] => by simp [addColumns]
  | a :: as, c :: cs => by simp [addColumns, length_addColumns as cs]

theorem length_columns : ∀ a cs : List (BitVec w), a ≠ [] → cs ≠ [] → (columns a cs).length + 1 = a.length + cs.length
  | [], _, h, _ => absurd rfl h
  | [a], cs, _, hcs => by
    have := List.length_pos_iff.2 hcs
    simp only [columns, length_addColumns, List.length_map, List.length_cons, List.length_nil]
    omega
  | a :: e :: as, cs, _, hcs => by
    have ih := length_columns (e :: as) cs (List.cons_ne_nil e as) hcs
    rw [columns, length_addColumns, List.length_map]
    simp only [List.length_cons] at ih ⊢
    omega

end Limbs
end Wolf
