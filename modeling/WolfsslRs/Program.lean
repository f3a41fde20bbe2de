import Mathlib.Logic.Basic
/-!
# Program — programs with a state, an early exit and loops

A program is an `EStateM`: from a state it ends with an answer or leaves by an exit, in some state in either case.
`wp` says what a program establishes of both ends; a loop without a bound of its own is followed for a given number of
passes and then left by an exit the caller names, so that what is proved for every number of passes holds of the loop at
every moment of its run.
-/
namespace Wolf
namespace Program

variable {ε σ α β : Type}

/-- **What a program establishes** from `s`: `Q` of its answer and state if it ends, `E` of its exit and state if it
leaves. -/
def wp (p : EStateM ε σ α) (Q : α → σ → Prop) (E : ε → σ → Prop) (s : σ) : Prop :=
  match p.run s with
  | .ok a s' => Q a s'
  | .error e s' => E e s'

theorem bind_ok {r : Except ε β} {k : β → Except ε α} {a : α} : (r >>= k) = .ok a ↔ ∃ b, r = .ok b ∧ k b = .ok a := by
  cases r with
  | error e => exact ⟨nofun, nofun⟩
  | ok b => exact ⟨fun h => ⟨b, rfl, h⟩, fun ⟨_, h, hk⟩ => by cases h; exact hk⟩

theorem exists_of_isOk {r : Except ε α} (h : r.isOk = true) : ∃ a, r = .ok a := by
  cases r with
  | ok a => exact ⟨a, rfl⟩
  | error e => cases h

theorem mapError_ok {δ : Type} {f : ε → δ} {r : Except ε α} {a : α} : r.mapError f = .ok a ↔ r = .ok a := by
  cases r with
  | ok b => exact ⟨fun h => congrArg Except.ok (Except.ok.inj h), fun h => congrArg Except.ok (Except.ok.inj h)⟩
  | error e => exact ⟨nofun, nofun⟩

/-- **What each pass keeps, a fold keeps.** -/
theorem foldlM_ok {f : β → α → Except ε β} {I : β → Prop} (hstep : ∀ b a b', I b → f b a = .ok b' → I b') :
    ∀ (as : List α) {b b' : β}, I b → as.foldlM f b = .ok b' → I b'
  | [], _, _, hI, h => by
    cases h
    exact hI
  | a :: as, b, b', hI, h => by
    rw [List.foldlM_cons] at h
    obtain ⟨c, hc, h⟩ := bind_ok.1 h
    exact foldlM_ok hstep as (hstep b a c hI hc) h

/-- A program without a state answers with `P` or leaves by an exit with `F`. -/
def Ends (F : ε → Prop) (P : α → Prop) : Except ε α → Prop
  | .ok a => P a
  | .error e => F e

section Ends

variable {F : ε → Prop} {P : α → Prop} {D : β → Prop} {r : Except ε β} {k : β → Except ε α}

/-- **One program after another**: the second starts from what the first answers. -/
theorem ends_bind (hr : Ends F D r) (hk : ∀ b, D b → Ends F P (k b)) : Ends F P (r >>= k) := by
  cases r with
  | ok b => exact hk b hr
  | error e => exact hr

theorem ends_mono {r : Except ε β} {D P : β → Prop} (hr : Ends F D r) (h : ∀ b, D b → P b) : Ends F P r := by
  cases r with
  | ok b => exact h b hr
  | error e => exact hr

theorem ends_of_eq {a : α} {r : Except ε α} (h : r = .ok a) (ha : P a) : Ends F P r := by rw [h]; exact ha

theorem of_ends {r : Except ε α} {a : α} (h : Ends F P r) (hr : r = .ok a) : P a := by rw [hr] at h; exact h

theorem ends_self {r : Except ε α} (h : Ends F P r) : Ends F (fun a => r = .ok a ∧ P a) r := by
  cases r with
  | ok a => exact ⟨rfl, h⟩
  | error e => exact h

end Ends

/-- Pass after pass of `body` until one gives an answer; left by `out` after `n` passes. -/
def loop (body : EStateM ε σ (Option α)) (out : ε) : Nat → EStateM ε σ α
  | 0 => throw out
  | n + 1 => do
    match ← body with
    | some a => pure a
    | none => loop body out n

variable {Q : α → σ → Prop} {E : ε → σ → Prop} {s : σ}

@[simp] theorem wp_pure {a : α} : wp (pure a) Q E s ↔ Q a s := Iff.rfl

@[simp] theorem wp_throw {e : ε} : wp (throw e : EStateM ε σ α) Q E s ↔ E e s := Iff.rfl

@[simp] theorem wp_get {Q : σ → σ → Prop} : wp (get : EStateM ε σ σ) Q E s ↔ Q s s := Iff.rfl

@[simp] theorem wp_modify {Q : PUnit → σ → Prop} {f : σ → σ} :
    wp (modify f : EStateM ε σ PUnit) Q E s ↔ Q ⟨⟩ (f s) := Iff.rfl

@[simp] theorem wp_bind {p : EStateM ε σ β} {k : β → EStateM ε σ α} :
    wp (p >>= k) Q E s ↔ wp p (fun b => wp (k b) Q E) E s := by
  simp only [wp, EStateM.run_bind]
  cases p.run s <;> rfl

theorem wp_map {f : β → α} {p : EStateM ε σ β} : wp (f <$> p) Q E s ↔ wp p (fun b => Q (f b)) E s := by
  rw [map_eq_pure_bind, wp_bind]
  rfl

theorem wp_mono {p : EStateM ε σ α} {Q' : α → σ → Prop} {E' : ε → σ → Prop} (hQ : ∀ a s, Q a s → Q' a s)
    (hE : ∀ e s, E e s → E' e s) (h : wp p Q E s) : wp p Q' E' s := by
  unfold wp at h ⊢
  cases hp : p.run s with
  | ok a s' => rw [hp] at h; exact hQ a s' h
  | error e s' => rw [hp] at h; exact hE e s' h

/-- What a pass of a loop establishes: the invariant if the loop goes on, `Q` if it ends. -/
def passes (I : σ → Prop) (Q : α → σ → Prop) : Option α → σ → Prop
  | none, s => I s
  | some a, s => Q a s

/-- **The loop rule**: an invariant that a pass keeps, or leaves with what is to be shown, holds when the passes run
out. -/
theorem wp_loop {body : EStateM ε σ (Option α)} {out : ε} {I : σ → Prop}
    (hbody : ∀ s, I s → wp body (passes I Q) E s)
    (hout : ∀ s, I s → E out s) : ∀ (n : Nat) (s : σ), I s → wp (loop body out n) Q E s
  | 0, s, hs => hout s hs
  | n + 1, s, hs => by
    rw [loop, wp_bind]
    refine wp_mono (fun o s' h => ?_) (fun _ _ h => h) (hbody s hs)
    cases o with
    | none => exact wp_loop hbody hout n s' h
    | some a => exact h

theorem wp_ok {p : EStateM ε σ α} {a : α} {s' : σ} (h : wp p Q E s) (hp : p.run s = .ok a s') : Q a s' := by
  unfold wp at h; rw [hp] at h; exact h

theorem wp_error {p : EStateM ε σ α} {e : ε} {s' : σ} (h : wp p Q E s) (hp : p.run s = .error e s') : E e s' := by
  unfold wp at h; rw [hp] at h; exact h

theorem run_bind_ok {d : EStateM ε σ β} {k : β → EStateM ε σ α} {s s' : σ} {a : α} :
    (d >>= k).run s = .ok a s' ↔ ∃ b t, d.run s = .ok b t ∧ (k b).run t = .ok a s' := by
  rw [EStateM.run_bind]
  cases d.run s with
  | ok b t => exact ⟨fun h => ⟨b, t, rfl, h⟩, fun ⟨_, _, hd, hk⟩ => by cases hd; exact hk⟩
  | error e t => exact ⟨nofun, nofun⟩

/-! ## Programs with a log -/

/-- The program answers `a` and adds `l` to the log, whatever is in it. -/
def Logs (p : EStateM ε (List β) α) (a : α) (l : List β) : Prop := ∀ log, p.run log = .ok a (log ++ l)

/-- The program answers `a`, whatever it adds to the log. -/
def Answers (p : EStateM ε (List β) α) (a : α) : Prop := ∃ l, Logs p a l

theorem Logs.pure (a : α) : Logs (Pure.pure a : EStateM ε (List β) α) a [] := fun log => by
  rw [List.append_nil]
  rfl

/-- **One program after another**: the logs follow each other. -/
theorem Logs.bind {γ : Type} {p : EStateM ε (List β) γ} {k : γ → EStateM ε (List β) α} {c : γ} {a : α} {l m : List β}
    (hp : Logs p c l) (hk : Logs (k c) a m) : Logs (p >>= k) a (l ++ m) := by
  intro log
  rw [EStateM.run_bind, hp log]
  simp only
  rw [hk (log ++ l), List.append_assoc]

theorem Logs.map {γ : Type} {p : EStateM ε (List β) γ} {c : γ} {l : List β} (hp : Logs p c l) (f : γ → α) :
    Logs (p >>= fun c => Pure.pure (f c)) (f c) l := by
  have hrun := hp.bind (k := fun c => Pure.pure (f c)) (Logs.pure (f c))
  rw [List.append_nil] at hrun
  exact hrun

end Program
end Wolf
