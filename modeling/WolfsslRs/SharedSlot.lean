import Mathlib.Data.List.Basic
/-!
# SharedSlot — one slot for streaming contexts that come one after another

A context absorbs its updates and, unless it is abandoned, is finalised.  All contexts stream through one slot: an update
goes to what the slot holds if that is kept for the context's key, and else replaces it; a final takes what the slot holds
and leaves it empty.  A context's result is its own exactly when it is isolated from what it found in the slot.
-/
namespace Wolf
namespace SharedSlot

variable {κ α : Type}

/-- **A streaming context**: what it was set up with, what it was fed, and whether it was finalised or abandoned. -/
structure Context (κ α : Type) where
  key : κ
  updates : List (List α)
  finalised : Bool
  deriving DecidableEq, Repr

/-- The key and the data of the context that is being streamed. -/
abbrev Slot (κ α : Type) := Option (κ × List α)

/-- What the context's result is meant to be made of. -/
def Context.own (c : Context κ α) : Option (κ × List α) :=
  if c.finalised then some (c.key, c.updates.flatten) else none

section Run

variable (keep : κ → κ → Bool)

def update (k : κ) : Slot κ α → List α → Slot κ α
  | none, d => some (k, d)
  | some (k', b), d => if keep k' k then some (k', b ++ d) else some (k, d)

/-- The slot when a context has been fed. -/
def fed (c : Context κ α) (p : Slot κ α) : Slot κ α := c.updates.foldl (update keep c.key) p

/-- The slot a context leaves behind. -/
def leave (p : Slot κ α) (c : Context κ α) : Slot κ α := if c.finalised then none else fed keep c p

def result (c : Context κ α) (p : Slot κ α) : Option (κ × List α) :=
  if c.finalised then some ((fed keep c p).getD (c.key, [])) else none

/-- **The results of contexts that come one after another**, from what the slot holds. -/
def run : List (Context κ α) → Slot κ α → List (Option (κ × List α))
  | [], _ => []
  | c :: cs, p => result keep c p :: run cs (leave keep p c)

/-- **Isolation**: the context finds the slot empty, or replaces what it finds, or finds there what it would have put
itself, its own key and no data. -/
def Isolated (c : Context κ α) : Slot κ α → Prop
  | none => True
  | some (k, b) => c.updates = [] ∨ keep k c.key = true → k = c.key ∧ b = []

instance [DecidableEq κ] [DecidableEq α] (c : Context κ α) (p : Slot κ α) : Decidable (Isolated keep c p) :=
  match p with
  | none => inferInstanceAs (Decidable True)
  | some (_, _) => inferInstanceAs (Decidable (_ → _))

/-- **Every finalised context of a history is isolated** from what the contexts before it left in the slot. -/
def AllIsolated : List (Context κ α) → Slot κ α → Prop
  | [], _ => True
  | c :: cs, p => (c.finalised = true → Isolated keep c p) ∧ AllIsolated cs (leave keep p c)

instance decidableAllIsolated [DecidableEq κ] [DecidableEq α] : ∀ (cs : List (Context κ α)) (p : Slot κ α),
    Decidable (AllIsolated keep cs p)
  | [], _ => inferInstanceAs (Decidable True)
  | _ :: cs, _ =>
    have := decidableAllIsolated cs
    inferInstanceAs (Decidable (_ ∧ _))

end Run

variable {keep : κ → κ → Bool}

theorem foldl_update_kept {k k' : κ} (hk : keep k' k = true) : ∀ (us : List (List α)) (b : List α),
    us.foldl (update keep k) (some (k', b)) = some (k', b ++ us.flatten)
  | [], b => by rw [List.foldl_nil, List.flatten_nil, List.append_nil]
  | u :: us, b => by
    rw [List.foldl_cons, update, if_pos hk, foldl_update_kept hk us, List.append_assoc, List.flatten_cons]

/-- A context fed at all, whose first update replaces what the slot holds. -/
theorem fed_replaced (hrefl : ∀ k, keep k k = true) {c : Context κ α} {p : Slot κ α} (hne : c.updates ≠ [])
    (hp : ∀ x ∈ p, keep x.1 c.key = false) : fed keep c p = some (c.key, c.updates.flatten) := by
  unfold fed
  cases hus : c.updates with
  | nil => exact absurd hus hne
  | cons u us =>
    have hfirst : update keep c.key p u = some (c.key, u) := by
      cases p with
      | none => rfl
      | some x => rw [update, hp x rfl, if_neg Bool.false_ne_true]
    rw [List.foldl_cons, hfirst, foldl_update_kept (hrefl _), List.flatten_cons]

/-- **A finalised context's result is its own exactly when it is isolated.** -/
theorem result_own_iff (hrefl : ∀ k, keep k k = true) {c : Context κ α} (hfin : c.finalised = true) (p : Slot κ α) :
    result keep c p = c.own ↔ Isolated keep c p := by
  rw [result, Context.own, if_pos hfin, if_pos hfin, Option.some_inj]
  cases p with
  | none =>
    refine ⟨fun _ => trivial, fun _ => ?_⟩
    by_cases hne : c.updates = []
    · rw [fed, hne]; rfl
    · rw [fed_replaced hrefl hne (fun x hx => by cases hx), Option.getD_some]
  | some x =>
    obtain ⟨k, b⟩ := x
    by_cases hkeep : keep k c.key = true
    · rw [fed, foldl_update_kept hkeep, Option.getD_some, Prod.mk.injEq, List.append_left_eq_self]
      exact ⟨fun h _ => h, fun h => h (.inr hkeep)⟩
    · by_cases hne : c.updates = []
      · rw [fed, hne, List.foldl_nil, Option.getD_some, List.flatten_nil, Prod.mk.injEq]
        exact ⟨fun h _ => h, fun h => h (.inl hne)⟩
      · have hrep : ∀ x ∈ some (k, b), keep x.1 c.key = false := by
          intro x hx
          cases hx
          exact eq_false_of_ne_true hkeep
        rw [fed_replaced hrefl hne hrep, Option.getD_some]
        exact ⟨fun _ h => absurd h (not_or.2 ⟨hne, hkeep⟩), fun _ => rfl⟩

/-- **Every result of a history is its context's own exactly when every finalised context is isolated.** -/
theorem run_own_iff (hrefl : ∀ k, keep k k = true) : ∀ (cs : List (Context κ α)) (p : Slot κ α),
    run keep cs p = cs.map Context.own ↔ AllIsolated keep cs p
  | [], p => ⟨fun _ => trivial, fun _ => rfl⟩
  | c :: cs, p => by
    have hhead : result keep c p = c.own ↔ (c.finalised = true → Isolated keep c p) := by
      by_cases hfin : c.finalised = true
      · rw [result_own_iff hrefl hfin]
        exact ⟨fun h _ => h, fun h => h hfin⟩
      · refine ⟨fun _ h => absurd h hfin, fun _ => ?_⟩
        rw [result, Context.own, if_neg hfin, if_neg hfin]
    rw [run, List.map_cons, List.cons.injEq, hhead, run_own_iff hrefl cs, AllIsolated]

/-! ## Contexts served by a device -/

section Serve

variable {σ δ : Type} (feed : κ → σ → List α → σ) (finish : κ → σ → δ × σ)

/-- **What a device gives the finalised contexts of a history**: each context feeds it and then finishes or goes. -/
def serve : List (Context κ α) → σ → List (Option δ)
  | [], _ => []
  | c :: cs, s =>
    let s' := c.updates.foldl (feed c.key) s
    if c.finalised then some (finish c.key s').1 :: serve cs (finish c.key s').2
    else none :: serve cs s'

variable {feed finish} {R : σ → Slot κ α → Prop} {out : κ × List α → δ}
  (hfeed : ∀ k s p d, R s p → R (feed k s d) (update keep k p d))
  (hfinish : ∀ k s p, R s p → (finish k s).1 = out (p.getD (k, [])) ∧ R (finish k s).2 none)

include hfeed in
theorem foldl_feed (k : κ) : ∀ (us : List (List α)) (s : σ) (p : Slot κ α), R s p →
    R (us.foldl (feed k) s) (us.foldl (update keep k) p)
  | [], _, _, h => h
  | u :: us, s, p, h => foldl_feed k us _ _ (hfeed k s p u h)

include hfeed hfinish in
/-- **A device whose state stands for the slot** gives what the slot's contents are worth. -/
theorem serve_eq_run : ∀ (cs : List (Context κ α)) (s : σ) (p : Slot κ α), R s p →
    serve feed finish cs s = (run keep cs p).map (Option.map out)
  | [], _, _, _ => rfl
  | c :: cs, s, p, h => by
    have hfed := foldl_feed hfeed c.key c.updates s p h
    rw [serve, run, result, leave, List.map_cons]
    by_cases hfin : c.finalised = true
    · obtain ⟨hout, hleft⟩ := hfinish c.key _ _ hfed
      rw [if_pos hfin, if_pos hfin, if_pos hfin, serve_eq_run cs _ none hleft, hout]
      rfl
    · rw [if_neg hfin, if_neg hfin, if_neg hfin, serve_eq_run cs _ _ hfed]
      rfl

end Serve

end SharedSlot
end Wolf
