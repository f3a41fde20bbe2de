import Mathlib.Data.List.Forall2
import WolfsslRs.Program
/-!
# Lockstep — two programs that go through the same states

Two programs over one type of states are in lockstep if from every state they end in the same one, with answers that
belong together, or leave by the same exit.  The rules follow the ways programs are put together; whole runs of calls are
in lockstep if the calls are (`lockstep_calls`).
-/
namespace Wolf
namespace Program

variable {ε σ α β γ δ α' β' : Type}

/-- Two ends that belong together. -/
inductive SameEnd (R : α → β → Prop) : EStateM.Result ε σ α → EStateM.Result ε σ β → Prop
  | ok {a : α} {b : β} {s : σ} (h : R a b) : SameEnd R (.ok a s) (.ok b s)
  | error {e : ε} {s : σ} : SameEnd R (.error e s) (.error e s)

def Lockstep (R : α → β → Prop) (p : EStateM ε σ α) (q : EStateM ε σ β) : Prop := ∀ s, SameEnd R (p.run s) (q.run s)

variable {R : α → β → Prop} {S : α' → β' → Prop} {p : EStateM ε σ α} {q : EStateM ε σ β}

theorem lockstep_pure {a : α} {b : β} (h : R a b) : Lockstep R (pure a : EStateM ε σ α) (pure b) := fun _ => .ok h

theorem lockstep_throw {e : ε} : Lockstep R (throw e : EStateM ε σ α) (throw e) := fun _ => .error

theorem lockstep_refl (p : EStateM ε σ α) : Lockstep (· = ·) p p := by
  intro s
  cases p.run s with
  | ok a t => exact .ok rfl
  | error e t => exact .error

/-- **One program after another.** -/
theorem lockstep_bind {k : α → EStateM ε σ α'} {l : β → EStateM ε σ β'} (h : Lockstep R p q)
    (hk : ∀ a b, R a b → Lockstep S (k a) (l b)) : Lockstep S (p >>= k) (q >>= l) := by
  intro s
  have hs := h s
  rw [EStateM.run_bind, EStateM.run_bind]
  generalize p.run s = x at hs ⊢
  generalize q.run s = y at hs ⊢
  cases hs with
  | ok hab => exact hk _ _ hab _
  | error => exact .error

theorem lockstep_after (r : EStateM ε σ γ) {k : γ → EStateM ε σ α} {l : γ → EStateM ε σ β}
    (hk : ∀ c, Lockstep R (k c) (l c)) : Lockstep R (r >>= k) (r >>= l) :=
  lockstep_bind (lockstep_refl r) fun c _ h => h ▸ hk c

theorem lockstep_ite {c : Prop} [Decidable c] {p' : EStateM ε σ α} {q' : EStateM ε σ β} (h : c → Lockstep R p q)
    (h' : ¬ c → Lockstep R p' q') : Lockstep R (if c then p else p') (if c then q else q') := by
  by_cases hc : c
  · rw [if_pos hc, if_pos hc]
    exact h hc
  · rw [if_neg hc, if_neg hc]
    exact h' hc

theorem lockstep_map {f : α → α'} {g : β → β'} (h : Lockstep R p q) (hf : ∀ a b, R a b → S (f a) (g b)) :
    Lockstep S (f <$> p) (g <$> q) := by
  rw [map_eq_pure_bind, map_eq_pure_bind]
  exact lockstep_bind h fun a b hab => lockstep_pure (hf a b hab)

theorem lockstep_map_same (p : EStateM ε σ α) {f : α → α'} {g : α → β'} (hf : ∀ a, S (f a) (g a)) :
    Lockstep S (f <$> p) (g <$> p) :=
  lockstep_map (lockstep_refl p) fun a _ h => h ▸ hf a

/-- **Two programs in lockstep with a third** are in lockstep with each other. -/
theorem lockstep_common {R' : α → γ → Prop} {r : EStateM ε σ γ} (h : Lockstep R p q) (h' : Lockstep R' p r) :
    Lockstep (fun b c => ∃ a, R a b ∧ R' a c) q r := by
  intro s
  have hs := h s
  have hs' := h' s
  generalize p.run s = x at hs hs'
  generalize q.run s = y at hs ⊢
  generalize r.run s = z at hs' ⊢
  cases hs with
  | ok hab =>
    cases hs' with
    | ok hac => exact .ok ⟨_, hab, hac⟩
  | error =>
    cases hs' with
    | error => exact .error

/-- **Loops**: passes in lockstep, which go on together and end together. -/
theorem lockstep_loop {body : EStateM ε σ (Option α)} {body' : EStateM ε σ (Option β)} {out : ε}
    (h : Lockstep (Option.Rel R) body body') : ∀ n, Lockstep R (loop body out n) (loop body' out n)
  | 0 => lockstep_throw
  | n + 1 => by
    rw [loop, loop]
    refine lockstep_bind h fun o o' ho => ?_
    cases ho with
    | none => exact lockstep_loop h n
    | some hab => exact lockstep_pure hab

/-! ## Runs of calls -/

/-- The calls of a run that returned, each with its answer and the state after it, then the exit the next one left by, if
it did, and the last state. -/
structure Calls (γ α ε σ : Type) where
  done : List (γ × α × σ)
  stop : Option ε
  final : σ

def calls (perform : γ → EStateM ε σ α) : List γ → σ → Calls γ α ε σ
  | [], s => ⟨[], none, s⟩
  | c :: cs, s =>
    match (perform c).run s with
    | .error e t => ⟨[], some e, t⟩
    | .ok a t =>
      let rest := calls perform cs t
      { rest with done := (c, a, t) :: rest.done }

/-- Two runs whose calls returned answers that belong together, in the same states, and stopped the same way. -/
structure SameCalls (R : γ → δ → α → β → Prop) (r : Calls γ α ε σ) (r' : Calls δ β ε σ) : Prop where
  done : List.Forall₂ (fun x y => R x.1 y.1 x.2.1 y.2.1 ∧ x.2.2 = y.2.2) r.done r'.done
  stop : r.stop = r'.stop
  final : r.final = r'.final

/-- **Runs of calls that are in lockstep.** -/
theorem lockstep_calls {C : γ → δ → Prop} {A : γ → δ → α → β → Prop} {perform : γ → EStateM ε σ α}
    {perform' : δ → EStateM ε σ β} (h : ∀ c d, C c d → Lockstep (A c d) (perform c) (perform' d)) {cs : List γ}
    {ds : List δ} (hcs : List.Forall₂ C cs ds) (s : σ) :
    SameCalls A (calls perform cs s) (calls perform' ds s) := by
  induction hcs generalizing s with
  | nil => exact ⟨.nil, rfl, rfl⟩
  | @cons c d cs ds hcd _ ih =>
    have hs := h c d hcd s
    unfold calls
    generalize (perform c).run s = x at hs ⊢
    generalize (perform' d).run s = y at hs ⊢
    cases hs with
    | @ok a b t hab => exact ⟨.cons ⟨hab, rfl⟩ (ih t).done, (ih t).stop, (ih t).final⟩
    | error => exact ⟨.nil, rfl, rfl⟩

end Program
end Wolf
