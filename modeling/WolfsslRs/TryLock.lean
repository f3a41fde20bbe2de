import Mathlib.Logic.Function.Basic
import WolfsslRs.Trace
/-!
# TryLock — a lock that is one flag

Whoever finds the flag down raises it and is inside; whoever leaves takes it down.  Nobody waits.  In every run from a lock
that is free, the flag is up just while somebody is inside, and at most one is.
-/
namespace Wolf

structure TryLock (α : Type) where
  held : Bool
  inside : α → Bool

namespace TryLock

variable {α ε : Type} {l l' : TryLock α} {e : Option ε}

def free : TryLock α := ⟨false, fun _ => false⟩

/-- **What holds of a lock at any time.** -/
structure Sound (l : TryLock α) : Prop where
  held_iff : l.held = true ↔ ∃ a, l.inside a = true
  one : ∀ a b, l.inside a = true → l.inside b = true → a = b

theorem free_sound : (free : TryLock α).Sound :=
  ⟨⟨nofun, fun ⟨_, h⟩ => nomatch h⟩, fun _ _ h => nomatch h⟩

theorem Sound.nobody (h : l.Sound) (hfree : l.held = false) (a : α) : l.inside a = false := by
  cases ha : l.inside a with
  | false => rfl
  | true => rw [h.held_iff.2 ⟨a, ha⟩] at hfree; cases hfree

variable [DecidableEq α]

/-- A step of somebody, whatever it is seen as. -/
inductive Step : TryLock α → Option ε → TryLock α → Prop
  | enter {l : TryLock α} (e : Option ε) (a : α) (hfree : l.held = false) :
      Step l e ⟨true, Function.update l.inside a true⟩
  | stay (e : Option ε) (l : TryLock α) : Step l e l
  | leave {l : TryLock α} (e : Option ε) (a : α) (hin : l.inside a = true) :
      Step l e ⟨false, Function.update l.inside a false⟩

theorem inside_update {inside : α → Bool} {a b : α} {v : Bool} (h : Function.update inside a v b = true) :
    b = a ∧ v = true ∨ b ≠ a ∧ inside b = true := by
  by_cases hab : b = a
  · subst hab
    rw [Function.update_self] at h
    exact .inl ⟨rfl, h⟩
  · rw [Function.update_of_ne hab] at h
    exact .inr ⟨hab, h⟩

theorem Step.sound (hl : l.Sound) (h : Step l e l') : l'.Sound := by
  cases h with
  | stay => exact hl
  | enter _ a hfree =>
    have honly : ∀ b, Function.update l.inside a true b = true → b = a := by
      intro b hb
      rcases inside_update hb with ⟨rfl, -⟩ | ⟨-, hin⟩
      · rfl
      · rw [hl.nobody hfree b] at hin
        cases hin
    refine ⟨iff_of_true rfl ⟨a, Function.update_self ..⟩, fun b c hb hc => ?_⟩
    exact (honly b hb).trans (honly c hc).symm
  | leave _ a hin =>
    have hnobody : ∀ b, Function.update l.inside a false b ≠ true := by
      intro b hb
      rcases inside_update hb with ⟨-, hv⟩ | ⟨hne, hb'⟩
      · cases hv
      · exact hne (hl.one b a hb' hin)
    exact ⟨⟨nofun, fun ⟨b, hb⟩ => absurd hb (hnobody b)⟩, fun b _ hb => absurd hb (hnobody b)⟩

/-- **Every run of a free lock keeps it sound.** -/
theorem sound_of_trace {u : List ε} (h : Trace Step free u l) : l.Sound :=
  h.rel (R := fun _ m => m.Sound) free_sound fun _ _ _ _ hm hstep => hstep.sound hm

end TryLock
end Wolf
