import Mathlib.Logic.Basic
/-!
# Trace — the events of a run

A step leads from one state to another and is seen as one event or, a silent step, as none.  A trace is a run of steps
with the events seen in its course; it can be put after another, cut at any of its events, and carries every property that
each of its steps keeps.
-/
namespace Wolf

variable {σ ε : Type} {step : σ → Option ε → σ → Prop} {s m s' : σ} {u v : List ε}

/-- **A run from one state to another**, seen as the events `u`. -/
inductive Trace (step : σ → Option ε → σ → Prop) (s : σ) : List ε → σ → Prop
  | refl : Trace step s [] s
  | tail {u : List ε} {m s' : σ} {e : Option ε} (h : Trace step s u m) (hstep : step m e s') :
      Trace step s (u ++ e.toList) s'

namespace Trace

theorem event {e : ε} (h : step s (some e) s') : Trace step s [e] s' := Trace.refl.tail h

theorem silent (h : step s none s') : Trace step s [] s' := Trace.refl.tail h

theorem trans (h : Trace step s u m) (h' : Trace step m v s') : Trace step s (u ++ v) s' := by
  induction h' with
  | refl => rw [List.append_nil]; exact h
  | tail _ hstep ih => rw [← List.append_assoc]; exact ih.tail hstep

/-- **The run rule**: what holds of no step, and of a run and one more step if it holds of the run, holds of every run. -/
theorem rel {R : List ε → σ → Prop} (hrefl : R [] s)
    (hstep : ∀ u m e m', R u m → step m e m' → R (u ++ e.toList) m') (h : Trace step s u s') : R u s' := by
  induction h with
  | refl => exact hrefl
  | tail _ h ih => exact hstep _ _ _ _ ih h

/-- **The simulation rule**: where another system, from the state a map gives, takes every step that is taken, it has
every trace. -/
theorem image {τ : Type} {step' : τ → Option ε → τ → Prop} (f : σ → τ)
    (hstep : ∀ m e m', step m e m' → step' (f m) e (f m')) (h : Trace step s u s') : Trace step' (f s) u (f s') := by
  induction h with
  | refl => exact .refl
  | tail _ h ih => exact ih.tail (hstep _ _ _ h)

/-- **The queue rule**: where each step takes from the front of a queue what it is seen to take and puts at its end what it
is seen to give, what a run took followed by what is queued is what was queued followed by what the run gave. -/
theorem queue {β : Type} (content : σ → List β) {taken given : ε → List β}
    (hstep : ∀ m e m', step m e m' →
      e.toList.flatMap taken ++ content m' = content m ++ e.toList.flatMap given)
    (h : Trace step s u s') : u.flatMap taken ++ content s' = content s ++ u.flatMap given := by
  refine h.rel (R := fun u m => u.flatMap taken ++ content m = content s ++ u.flatMap given) ?_ ?_
  · exact (List.append_nil _).symm
  · intro u m e m' hu hm
    rw [List.flatMap_append, List.append_assoc, hstep m e m' hm, ← List.append_assoc, hu, List.append_assoc,
      List.flatMap_append]

/-- **A run cut at one of its events.** -/
theorem cut {e : ε} (h : Trace step s (u ++ e :: v) s') :
    ∃ m m', Trace step s u m ∧ step m (some e) m' ∧ Trace step m' v s' := by
  generalize hw : u ++ e :: v = w at h
  induction h generalizing v with
  | refl => simp at hw
  | @tail w m s' o h hstep ih =>
    cases o with
    | none =>
      obtain ⟨n, n', hu, hn, hv⟩ := ih (by simpa using hw)
      refine ⟨n, n', hu, hn, ?_⟩
      rw [← List.append_nil v]
      exact hv.trans (silent hstep)
    | some e' =>
      -- the last event is either the one of the cut or the last of those after it
      rcases List.eq_nil_or_concat v with rfl | ⟨v', x, rfl⟩
      · obtain ⟨rfl, he⟩ := List.append_inj' hw rfl
        cases he
        exact ⟨m, s', h, hstep, .refl⟩
      · have hw' : (u ++ e :: v') ++ [x] = w ++ [e'] := by simpa using hw
        obtain ⟨rfl, he⟩ := List.append_inj' hw' rfl
        cases he
        obtain ⟨n, n', hu, hn, hv⟩ := ih rfl
        rw [List.concat_eq_append]
        exact ⟨n, n', hu, hn, hv.trans (event hstep)⟩

end Trace
end Wolf
