import Mathlib.Data.List.Prime
import Mathlib.NumberTheory.LucasPrimality
/-!
# Primality — large primes by Lucas's test

A number is prime if some `g` has order `p - 1` modulo it, which takes the prime factors of `p - 1`.  A chain of such tests
starts from primes small enough to divide by everything below them, and each test may use the primes before it.
-/
namespace Wolf
namespace Primality

/-- `g ^ e` modulo `m` for an exponent of at most `k` bits. -/
def powMod (m : Nat) : Nat → Nat → Nat → Nat
  | 0, _, _ => 1 % m
  | k + 1, g, e => if e % 2 = 0 then powMod m k (g * g % m) (e / 2) else g * powMod m k (g * g % m) (e / 2) % m

theorem powMod_eq (m : Nat) : ∀ (k g e : Nat), e < 2 ^ k → powMod m k g e = g ^ e % m
  | 0, g, e, h => by
    obtain rfl : e = 0 := by omega
    rfl
  | k + 1, g, e, h => by
    have hhalf : powMod m k (g * g % m) (e / 2) = g ^ (2 * (e / 2)) % m := by
      rw [powMod_eq m k _ _ (by rw [pow_succ] at h; omega), ← Nat.pow_mod, pow_mul, pow_two]
    rw [powMod]
    split
    · rename_i heven
      rw [hhalf, Nat.mul_div_cancel' (Nat.dvd_of_mod_eq_zero heven)]
    · rename_i hodd
      have he : e = 2 * (e / 2) + 1 := by omega
      conv => rhs; rw [he, pow_succ']
      rw [hhalf, Nat.mul_mod_mod]

/-- One test: the number, its generator and the factors of the number less one. -/
structure Test where
  p : Nat
  g : Nat
  factors : List Nat

def smallPrime (q : Nat) : Bool := decide (2 ≤ q) && (List.range q).all fun d => decide (d < 2) || q % d != 0

def Test.passes (known : List Nat) (t : Test) : Bool :=
  decide (2 ≤ t.p) && t.factors.all (fun q => known.contains q || smallPrime q) && t.factors.prod == t.p - 1 &&
    powMod t.p (t.p.log2 + 1) t.g (t.p - 1) == 1 &&
    t.factors.all fun q => powMod t.p (t.p.log2 + 1) t.g ((t.p - 1) / q) != 1

/-- The tests one after another, each with the primes before it. -/
def allPass : List Nat → List Test → Bool
  | _, [] => true
  | known, t :: ts => t.passes known && allPass (t.p :: known) ts

theorem prime_of_smallPrime {q : Nat} (h : smallPrime q = true) : q.Prime := by
  simp only [smallPrime, Bool.and_eq_true, decide_eq_true_eq, List.all_eq_true, List.mem_range, Bool.or_eq_true,
    bne_iff_ne, ne_eq] at h
  refine Nat.prime_def_lt.2 ⟨h.1, fun d hd hdvd => ?_⟩
  rcases h.2 d hd with hsmall | hmod
  · rcases d with _ | _ | d
    · rw [Nat.zero_dvd.1 hdvd] at h
      omega
    · rfl
    · omega
  · exact absurd (Nat.mod_eq_zero_of_dvd hdvd) hmod

theorem pow_eq_one_iff {p : Nat} (hp : 2 ≤ p) {g e : Nat} (he : e ≤ p) :
    (g : ZMod p) ^ e = 1 ↔ powMod p (p.log2 + 1) g e = 1 := by
  rw [powMod_eq p _ _ _ (Nat.lt_of_le_of_lt he Nat.lt_log2_self), ← Nat.cast_pow, ← Nat.cast_one,
    ZMod.natCast_eq_natCast_iff', Nat.mod_eq_of_lt (by omega : 1 < p)]

/-- **Lucas's test.** -/
theorem prime_of_passes {known : List Nat} (hknown : ∀ q ∈ known, q.Prime) {t : Test} (h : t.passes known = true) :
    t.p.Prime := by
  simp only [Test.passes, Bool.and_eq_true, decide_eq_true_eq, List.all_eq_true, Bool.or_eq_true, beq_iff_eq,
    List.contains_iff_mem, bne_iff_ne, ne_eq] at h
  obtain ⟨⟨⟨⟨hp, hprime⟩, hprod⟩, hone⟩, hne⟩ := h
  refine lucas_primality t.p t.g ((pow_eq_one_iff hp (Nat.sub_le _ _)).2 hone) fun q hq hdvd => ?_
  rw [← hprod] at hdvd
  obtain ⟨r, hr, hqr⟩ := (Prime.dvd_prod_iff hq.prime).1 hdvd
  have hr' : r.Prime := (hprime r hr).elim (hknown r) prime_of_smallPrime
  obtain rfl := (Nat.prime_dvd_prime_iff_eq hq hr').1 hqr
  exact fun h1 => hne q hr ((pow_eq_one_iff hp ((Nat.div_le_self _ _).trans (Nat.sub_le _ _))).1 h1)

/-- **A chain of tests** proves every number in it prime. -/
theorem prime_of_allPass : ∀ {known : List Nat} {ts : List Test}, (∀ q ∈ known, q.Prime) → allPass known ts = true →
    ∀ t ∈ ts, t.p.Prime
  | _, [], _, _, _, ht => by cases ht
  | known, u :: ts, hknown, h, t, ht => by
    obtain ⟨hu, hts⟩ := Bool.and_eq_true_iff.1 h
    have hprime := prime_of_passes hknown hu
    rcases List.mem_cons.1 ht with rfl | ht
    · exact hprime
    · refine prime_of_allPass (fun q hq => ?_) hts t ht
      rcases List.mem_cons.1 hq with rfl | hq
      · exact hprime
      · exact hknown q hq

end Primality
end Wolf
