import Mathlib.Logic.Function.Basic
import Mathlib.Tactic.Ring
/-!
# AdditionChain — powers by squarings and products in registers

A power is computed by a list of instructions over registers: some squarings of a register, or the product of two.  What a
list of instructions does to exponents says what it does to powers (`exec_represents`), whatever the registers held that
are written before they are read.
-/
namespace Wolf
namespace AdditionChain

inductive Instr (ρ : Type)
  | sqr (dst src : ρ) (n : Nat)
  | mul (dst x y : ρ)

/-- What the instructions are run with: a product, and repeated squaring. -/
structure Ops (α : Type) where
  mul : α → α → α
  sqr : α → Nat → α

variable {ρ α : Type} [DecidableEq ρ]

def Instr.exec (o : Ops α) (s : ρ → α) : Instr ρ → ρ → α
  | .sqr dst src n => Function.update s dst (o.sqr (s src) n)
  | .mul dst x y => Function.update s dst (o.mul (s x) (s y))

def exec (o : Ops α) (s : ρ → α) (p : List (Instr ρ)) : ρ → α := p.foldl (Instr.exec o) s

/-- The bits of an exponent from the top: a squaring for each, and a product with `a` for each that is set. -/
def scan (t a : ρ) : List Bool → List (Instr ρ)
  | [] => []
  | bit :: bits => .sqr t t 1 :: (if bit then .mul t t a :: scan t a bits else scan t a bits)

/-- The exponents of what the registers hold, where it is known.  At least one squaring is made. -/
def exponents : Ops (Option Nat) where
  mul x y := x.bind fun e => y.map fun f => e + f
  sqr x n := x.map fun e => 2 ^ max n 1 * e

variable {o : Ops α} {P : α → Nat → Prop}

theorem update_represents {s : ρ → α} {e : ρ → Option Nat} (h : ∀ r k, e r = some k → P (s r) k) {dst : ρ} {x : α}
    {y : Option Nat} (hx : ∀ k, y = some k → P x k) :
    ∀ r k, Function.update e dst y r = some k → P (Function.update s dst x r) k := by
  intro r k hk
  by_cases hr : r = dst
  · subst hr
    rw [Function.update_self] at hk ⊢
    exact hx k hk
  · rw [Function.update_of_ne hr] at hk ⊢
    exact h r k hk

/-- **What the instructions do to exponents they do to powers.** -/
theorem exec_represents (hmul : ∀ x y e f, P x e → P y f → P (o.mul x y) (e + f))
    (hsqr : ∀ x e n, P x e → P (o.sqr x n) (2 ^ max n 1 * e)) : ∀ (p : List (Instr ρ)) {s : ρ → α}
      {e : ρ → Option Nat}, (∀ r k, e r = some k → P (s r) k) →
      ∀ r k, exec exponents e p r = some k → P (exec o s p r) k
  | [], _, _, h => h
  | .sqr dst src n :: p, s, e, h => by
    refine exec_represents hmul hsqr p (update_represents h ?_)
    intro k hk
    obtain ⟨i, hi, rfl⟩ := Option.map_eq_some_iff.1 hk
    exact hsqr _ _ _ (h src i hi)
  | .mul dst x y :: p, s, e, h => by
    refine exec_represents hmul hsqr p (update_represents h ?_)
    intro k hk
    obtain ⟨i, hi, hk⟩ := Option.bind_eq_some_iff.1 hk
    obtain ⟨j, hj, rfl⟩ := Option.map_eq_some_iff.1 hk
    exact hmul _ _ _ _ (h x i hi) (h y j hj)

theorem update_agree {s t : ρ → α} {e : ρ → Option Nat} (h : ∀ r k, e r = some k → s r = t r) {dst : ρ} {x x' : α}
    {y : Option Nat} (hx : ∀ k, y = some k → x = x') :
    ∀ r k, Function.update e dst y r = some k → Function.update s dst x r = Function.update t dst x' r := by
  intro r k hk
  by_cases hr : r = dst
  · subst hr
    rw [Function.update_self] at hk ⊢
    rw [Function.update_self]
    exact hx k hk
  · rw [Function.update_of_ne hr] at hk ⊢
    rw [Function.update_of_ne hr]
    exact h r k hk

/-- **A power does not depend on what the other registers held**: where its exponent is known, two runs agree. -/
theorem exec_agree : ∀ (p : List (Instr ρ)) {s t : ρ → α} {e : ρ → Option Nat}, (∀ r k, e r = some k → s r = t r) →
    ∀ r k, exec exponents e p r = some k → exec o s p r = exec o t p r
  | [], _, _, _, h => h
  | .sqr dst src n :: p, s, t, e, h => by
    refine exec_agree p (update_agree h ?_)
    intro k hk
    obtain ⟨i, hi, -⟩ := Option.map_eq_some_iff.1 hk
    rw [h src i hi]
  | .mul dst x y :: p, s, t, e, h => by
    refine exec_agree p (update_agree h ?_)
    intro k hk
    obtain ⟨i, hi, hk⟩ := Option.bind_eq_some_iff.1 hk
    obtain ⟨j, hj, -⟩ := Option.map_eq_some_iff.1 hk
    rw [h x i hi, h y j hj]

theorem sqr_represents {sqr : α → α} {sqrN : α → Nat → α} (hsqr : ∀ x e, P x e → P (sqr x) (2 * e))
    (h0 : ∀ x, sqrN x 0 = sqr x) (h1 : ∀ x, sqrN x 1 = sqr x) (hstep : ∀ x k, sqrN x (k + 2) = sqr (sqrN x (k + 1)))
    {x : α} {e : Nat} (hx : P x e) : ∀ n, P (sqrN x n) (2 ^ max n 1 * e)
  | 0 => by simpa [h0] using hsqr x e hx
  | 1 => by simpa [h1] using hsqr x e hx
  | k + 2 => by
    have ih := hsqr _ _ (sqr_represents hsqr h0 h1 hstep hx (k + 1))
    have hpow : 2 ^ max (k + 2) 1 * e = 2 * (2 ^ max (k + 1) 1 * e) := by
      rw [Nat.max_eq_left (by omega), Nat.max_eq_left (by omega), pow_succ]
      ring
    rw [hstep, hpow]
    exact ih

end AdditionChain
end Wolf
