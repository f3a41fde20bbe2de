import Mathlib.Tactic.Linarith
import Mathlib.Tactic.LinearCombination
import WolfsslRs.Words
/-!
# Limbs — numbers as lists of signed words

A number is a list of words, the least significant first, each of which counts `2 ^ b` times the one before.  Words may
be negative or have more than `b` bits: the carries are passed on when it suits (`norm`), and a list whose carries have
been passed on is read digit by digit.
-/
namespace Wolf
namespace Limbs

open Words

variable {w b : Nat}

/-- The number a list of words stands for. -/
def value (b : Nat) : List (BitVec w) → Int
  | [] => 0
  | d :: ds => d.toInt + 2 ^ b * value b ds

@[simp] theorem value_nil : value b ([] : List (BitVec w)) = 0 := rfl

@[simp] theorem value_cons (d : BitVec w) (ds : List (BitVec w)) : value b (d :: ds) = d.toInt + 2 ^ b * value b ds := rfl

theorem value_append (a c : List (BitVec w)) : value b (a ++ c) = value b a + 2 ^ (b * a.length) * value b c := by
  induction a with
  | nil => simp
  | cons d a ih =>
    rw [List.cons_append, value_cons, ih, value_cons, List.length_cons, Nat.mul_succ, pow_add]
    ring

theorem two_pow_pos (b : Nat) : (0 : Int) < 2 ^ b := by positivity

/-- Words from `lo` to `hi`. -/
def Between (lo hi : Int) (a : List (BitVec w)) : Prop := ∀ d ∈ a, lo ≤ d.toInt ∧ d.toInt ≤ hi

/-- Words that are digits. -/
def Canon (b : Nat) (a : List (BitVec w)) : Prop := Between 0 (2 ^ b - 1) a

instance (lo hi : Int) (a : List (BitVec w)) : Decidable (Between lo hi a) :=
  List.decidableBAll (fun d : BitVec w => lo ≤ d.toInt ∧ d.toInt ≤ hi) a

instance (b : Nat) (a : List (BitVec w)) : Decidable (Canon b a) := inferInstanceAs (Decidable (Between 0 (2 ^ b - 1) a))

section Between

variable {lo hi lo' hi' : Int} {a c : List (BitVec w)}

theorem between_nil : Between lo hi ([] : List (BitVec w)) := fun _ h => by cases h

theorem between_cons {d : BitVec w} : Between lo hi (d :: a) ↔ (lo ≤ d.toInt ∧ d.toInt ≤ hi) ∧ Between lo hi a :=
  List.forall_mem_cons

theorem between_append : Between lo hi (a ++ c) ↔ Between lo hi a ∧ Between lo hi c := List.forall_mem_append

theorem Between.mono (h : Between lo hi a) (hlo : lo' ≤ lo) (hhi : hi ≤ hi') : Between lo' hi' a := fun d hd =>
  ⟨hlo.trans (h d hd).1, (h d hd).2.trans hhi⟩

theorem Between.take (h : Between lo hi a) (n : Nat) : Between lo hi (a.take n) := fun d hd =>
  h d (List.mem_of_mem_take hd)

theorem Between.drop (h : Between lo hi a) (n : Nat) : Between lo hi (a.drop n) := fun d hd =>
  h d (List.mem_of_mem_drop hd)

theorem Between.value_lt (h : Between lo (2 ^ b - 1) a) : value b a < 2 ^ (b * a.length) := by
  induction a with
  | nil => simp
  | cons d a ih =>
    obtain ⟨hd, ha⟩ := between_cons.1 h
    have hrest := mul_le_mul_of_nonneg_left (Int.add_one_le_of_lt (ih ha)) (two_pow_pos b).le
    rw [value_cons, List.length_cons, Nat.mul_succ, pow_add]
    linarith

theorem Between.value_nonneg (h : Between 0 hi a) : 0 ≤ value b a := by
  induction a with
  | nil => simp
  | cons d a ih =>
    obtain ⟨hd, ha⟩ := between_cons.1 h
    rw [value_cons]
    exact add_nonneg hd.1 (mul_nonneg (two_pow_pos b).le (ih ha))

/-- **Digits count up to the radix.** -/
theorem Canon.value_bounds (h : Canon b a) : 0 ≤ value b a ∧ value b a < 2 ^ (b * a.length) :=
  ⟨Between.value_nonneg h, Between.value_lt h⟩

theorem Canon.eq_of_value_eq (ha : Canon b a) (hc : Canon b c) (hlen : a.length = c.length)
    (h : value b a = value b c) : a = c := by
  induction a generalizing c with
  | nil => exact (List.length_eq_zero_iff.1 hlen.symm).symm
  | cons d a ih =>
    cases c with
    | nil => cases hlen
    | cons e c =>
      obtain ⟨hd, ha⟩ := between_cons.1 ha
      obtain ⟨he, hc⟩ := between_cons.1 hc
      rw [value_cons, value_cons] at h
      have hde : d.toInt = e.toInt := by
        have hmod := congrArg (· % (2 : Int) ^ b) h
        simpa only [Int.add_mul_emod_self_left, Int.emod_eq_of_lt hd.1 (Int.lt_of_le_sub_one hd.2),
          Int.emod_eq_of_lt he.1 (Int.lt_of_le_sub_one he.2)] using hmod
      have hrest : value b a = value b c := by
        rw [hde] at h
        exact mul_left_cancel₀ (two_pow_pos b).ne' (add_left_cancel h)
      rw [BitVec.eq_of_toInt_eq hde, ih ha hc (Nat.succ.inj hlen) hrest]

theorem value_zeros (b n : Nat) : value b (List.replicate n 0#w) = 0 := by
  induction n with
  | zero => rfl
  | succ n ih => rw [List.replicate_succ, value_cons, ih, BitVec.toInt_zero, mul_zero, add_zero]

theorem between_zeros {u : Int} (hu : 0 ≤ u) (n : Nat) : Between 0 u (List.replicate n 0#w) := by
  intro d hd
  rw [List.eq_of_mem_replicate hd, BitVec.toInt_zero]
  exact ⟨le_rfl, hu⟩

end Between

/-! ## Sums and differences word by word -/

section Wordwise

variable {lo hi lo' hi' : Int}

theorem zipWith_add (hw : 0 < w) (hlo : -2 ^ (w - 1) ≤ lo + lo') (hhi : hi + hi' < 2 ^ (w - 1)) :
    ∀ {a c : List (BitVec w)}, a.length = c.length → Between lo hi a → Between lo' hi' c →
      value b (List.zipWith (· + ·) a c) = value b a + value b c ∧
        Between (lo + lo') (hi + hi') (List.zipWith (· + ·) a c)
  | [], [], _, _, _ => ⟨by simp, between_nil⟩
  | d :: a, e :: c, hlen, ha, hc => by
    obtain ⟨hd, ha⟩ := between_cons.1 ha
    obtain ⟨he, hc⟩ := between_cons.1 hc
    obtain ⟨hval, hbetween⟩ := zipWith_add hw hlo hhi (Nat.succ.inj hlen) ha hc
    have hsum : (d + e).toInt = d.toInt + e.toInt := toInt_add_of_fits hw ⟨by omega, by omega⟩
    rw [List.zipWith_cons_cons, value_cons, value_cons, value_cons, hval, hsum]
    exact ⟨by ring, between_cons.2 ⟨by rw [hsum]; omega, hbetween⟩⟩

theorem zipWith_sub (hw : 0 < w) (hlo : -2 ^ (w - 1) ≤ lo - hi') (hhi : hi - lo' < 2 ^ (w - 1)) :
    ∀ {a c : List (BitVec w)}, a.length = c.length → Between lo hi a → Between lo' hi' c →
      value b (List.zipWith (· - ·) a c) = value b a - value b c ∧
        Between (lo - hi') (hi - lo') (List.zipWith (· - ·) a c)
  | [], [], _, _, _ => ⟨by simp, between_nil⟩
  | d :: a, e :: c, hlen, ha, hc => by
    obtain ⟨hd, ha⟩ := between_cons.1 ha
    obtain ⟨he, hc⟩ := between_cons.1 hc
    obtain ⟨hval, hbetween⟩ := zipWith_sub hw hlo hhi (Nat.succ.inj hlen) ha hc
    have hdiff : (d - e).toInt = d.toInt - e.toInt := toInt_sub_of_fits hw ⟨by omega, by omega⟩
    rw [List.zipWith_cons_cons, value_cons, value_cons, value_cons, hval, hdiff]
    exact ⟨by ring, between_cons.2 ⟨by rw [hdiff]; omega, hbetween⟩⟩

end Wordwise

/-! ## Passing the carries on -/

/-- All words but the last one are digits. -/
def Normal (b : Nat) (a : List (BitVec w)) : Prop := ∃ l t, a = l ++ [t] ∧ Canon b l

/-- The words after a carry `c`: each keeps its low bits and passes the rest on, the last one keeps all. -/
def carry (b : Nat) (c : BitVec w) : List (BitVec w) → List (BitVec w)
  | [] => []
  | [d] => [d + c]
  | d :: e :: ds => ((d + c) &&& mask w b) :: carry b ((d + c).sshiftRight b) (e :: ds)

def norm (b : Nat) : List (BitVec w) → List (BitVec w)
  | d :: e :: ds => (d &&& mask w b) :: carry b (d.sshiftRight b) (e :: ds)
  | a => a

theorem length_carry : ∀ (c : BitVec w) (a : List (BitVec w)), (carry b c a).length = a.length
  | _, [] => rfl
  | _, [_] => rfl
  | _, _ :: e :: ds => congrArg (· + 1) (length_carry _ (e :: ds))

@[simp] theorem length_norm : ∀ a : List (BitVec w), (norm b a).length = a.length
  | [] => rfl
  | [_] => rfl
  | _ :: e :: ds => congrArg (· + 1) (length_carry _ (e :: ds))

theorem emod_digit (v : Int) : 0 ≤ v % 2 ^ b ∧ v % 2 ^ b ≤ 2 ^ b - 1 :=
  ⟨Int.emod_nonneg _ (two_pow_pos b).ne', Int.le_sub_one_of_lt (Int.emod_lt_of_pos _ (two_pow_pos b))⟩

theorem ediv_half {v m : Int} (hb : 1 ≤ b) (h : -(2 * m) ≤ v ∧ v ≤ 2 * m) : -m ≤ v / 2 ^ b ∧ v / 2 ^ b ≤ m := by
  have hpow : (2 : Int) ≤ 2 ^ b := by
    calc (2 : Int) = 2 ^ 1 := rfl
      _ ≤ 2 ^ b := pow_le_pow_right₀ (by decide) hb
  have hm : 0 ≤ m := by omega
  constructor
  · rw [Int.le_ediv_iff_mul_le (two_pow_pos b)]
    nlinarith
  · refine Int.le_of_lt_add_one ((Int.ediv_lt_iff_lt_mul (two_pow_pos b)).2 ?_)
    nlinarith

theorem Normal.cons {d : BitVec w} {a : List (BitVec w)} (hd : 0 ≤ d.toInt ∧ d.toInt ≤ 2 ^ b - 1) (h : Normal b a) :
    Normal b (d :: a) := by
  obtain ⟨l, t, rfl, hl⟩ := h
  exact ⟨d :: l, t, rfl, between_cons.2 ⟨hd, hl⟩⟩

theorem carry_spec {m : Int} (hb : 1 ≤ b) (hbw : b < w) (hm : 2 * m < 2 ^ (w - 1)) :
    ∀ {a : List (BitVec w)} {c : BitVec w}, a ≠ [] → Between (-m) m a → -m ≤ c.toInt ∧ c.toInt ≤ m →
      Normal b (carry b c a) ∧ value b (carry b c a) = c.toInt + value b a
  | [], _, hne, _, _ => absurd rfl hne
  | [d], c, _, ha, hc => by
    obtain ⟨hd, -⟩ := between_cons.1 ha
    have hsum : (d + c).toInt = d.toInt + c.toInt := toInt_add_of_fits (by omega) ⟨by omega, by omega⟩
    exact ⟨⟨[], d + c, rfl, between_nil⟩, by simp only [carry, value_cons, value_nil, hsum]; ring⟩
  | d :: e :: ds, c, _, ha, hc => by
    obtain ⟨hd, ha⟩ := between_cons.1 ha
    have hsum : (d + c).toInt = d.toInt + c.toInt := toInt_add_of_fits (by omega) ⟨by omega, by omega⟩
    have hcarry := toInt_sshiftRight_div (d + c) b
    have hhalf := ediv_half (v := (d + c).toInt) (m := m) hb (by rw [hsum]; omega)
    obtain ⟨hnormal, hval⟩ := carry_spec hb hbw hm (List.cons_ne_nil e ds) ha (hcarry ▸ hhalf)
    have hmask := toInt_and_mask (x := d + c) hbw
    rw [carry]
    refine ⟨hnormal.cons (by rw [hmask]; exact emod_digit _), ?_⟩
    rw [value_cons, hval, hmask, hcarry, value_cons d]
    have hdiv := Int.emod_add_mul_ediv (d + c).toInt (2 ^ b)
    rw [hsum] at hdiv ⊢
    linear_combination hdiv

/-- **Passing the carries on does not change the number.** -/
theorem norm_spec {m : Int} (hb : 1 ≤ b) (hbw : b < w) (hm : 2 * m < 2 ^ (w - 1)) {a : List (BitVec w)} (hne : a ≠ [])
    (ha : Between (-m) m a) : Normal b (norm b a) ∧ value b (norm b a) = value b a := by
  rcases a with _ | ⟨d, _ | ⟨e, ds⟩⟩
  · exact absurd rfl hne
  · exact ⟨⟨[], d, rfl, between_nil⟩, rfl⟩
  · obtain ⟨hd, ha⟩ := between_cons.1 ha
    have hcarry := toInt_sshiftRight_div d b
    have hhalf := ediv_half (v := d.toInt) (m := m) hb (by omega)
    obtain ⟨hnormal, hval⟩ := carry_spec hb hbw hm (List.cons_ne_nil e ds) ha (hcarry ▸ hhalf)
    have hmask := toInt_and_mask (x := d) hbw
    rw [norm]
    refine ⟨hnormal.cons (by rw [hmask]; exact emod_digit _), ?_⟩
    rw [value_cons, hval, hmask, hcarry, value_cons d]
    linear_combination Int.emod_add_mul_ediv d.toInt (2 ^ b)

section Normal

variable {l : List (BitVec w)} {t : BitVec w}

theorem value_concat : value b (l ++ [t]) = value b l + 2 ^ (b * l.length) * t.toInt := by
  rw [value_append, value_cons, value_nil]
  ring

/-- **The last word is the quotient** by what the digits before it count up to. -/
theorem last_eq_ediv (hl : Canon b l) : t.toInt = value b (l ++ [t]) / 2 ^ (b * l.length) := by
  obtain ⟨hlo, hhi⟩ := hl.value_bounds
  rw [value_concat, Int.add_mul_ediv_left _ _ (two_pow_pos _).ne', Int.ediv_eq_zero_of_lt hlo hhi, zero_add]

theorem last_eq_zero (hl : Canon b l) (h0 : 0 ≤ value b (l ++ [t])) (h1 : value b (l ++ [t]) < 2 ^ (b * l.length)) :
    t.toInt = 0 ∧ value b l = value b (l ++ [t]) := by
  have ht : t.toInt = 0 := by
    rw [last_eq_ediv hl]
    exact Int.ediv_eq_zero_of_lt h0 h1
  exact ⟨ht, by rw [value_concat, ht]; ring⟩

/-- A number that its words can hold as digits is written in digits once the carries are passed on. -/
theorem Normal.canon {a : List (BitVec w)} (h : Normal b a) (h0 : 0 ≤ value b a) (h1 : value b a < 2 ^ (b * a.length)) :
    Canon b a := by
  obtain ⟨l, t, rfl, hl⟩ := h
  have ht := last_eq_ediv (t := t) hl
  rw [List.length_append, List.length_singleton, Nat.mul_succ, pow_add] at h1
  have hq := Int.ediv_lt_of_lt_mul (two_pow_pos (b * l.length)) (by rwa [mul_comm] at h1)
  have hnonneg := Int.ediv_nonneg h0 (two_pow_pos (b * l.length)).le
  exact between_append.2 ⟨hl, between_cons.2 ⟨⟨by omega, by omega⟩, between_nil⟩⟩

end Normal

end Limbs
end Wolf
