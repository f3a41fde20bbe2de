import WolfsslRs.Bytes
import WolfsslRs.Program
/-!
# Reader — programs that read bytes, and the bytes they read

A reader is a program whose state is what is left of the input.  `Reads` says which bytes a reader took off the front
for the answer it gave, and which exits it may leave by; its rules follow the ways readers are put together, nested
readers behind a length included.  The other direction, writing, is a list of pieces: `cat` joins them in order, `total`
adds up their announced lengths, and the two agree when each piece announces its own length.
-/
namespace Wolf
namespace Reader

open Program

variable {ε α β : Type}

/-- **What a reader reads**: on at most `n` bytes it answers `a` only by taking some `w` with `P a w` off the front, and
otherwise leaves by an exit in `F`. -/
def Reads (F : ε → Prop) (n : Nat) (d : EStateM ε Bytes α) (P : α → Bytes → Prop) : Prop :=
  ∀ bs : Bytes, bs.length ≤ n → wp d (fun a rest => ∃ w, bs = w ++ rest ∧ P a w) (fun e _ => F e) bs

variable {F : ε → Prop} {n : Nat} {P : α → Bytes → Prop}

theorem reads_pure {a : α} (h : P a []) : Reads F n (pure a) P :=
  fun _ _ => wp_pure.2 ⟨[], rfl, h⟩

theorem reads_throw {e : ε} (h : F e) : Reads F n (throw e : EStateM ε Bytes α) P :=
  fun _ _ => wp_throw.2 h

/-- The rule for one reader after another, with what the first leaves of the bound. -/
theorem reads_bind_le {d : EStateM ε Bytes β} {k : β → EStateM ε Bytes α} {D : β → Bytes → Prop} (hd : Reads F n d D)
    (hk : ∀ b w, D b w → w.length ≤ n → Reads F (n - w.length) (k b) (fun a v => P a (w ++ v))) :
    Reads F n (d >>= k) P := by
  intro bs hbs
  refine wp_bind.2 (wp_mono ?_ (fun _ _ h => h) (hd bs hbs))
  rintro b rest ⟨w, rfl, hw⟩
  rw [List.length_append] at hbs
  refine wp_mono ?_ (fun _ _ h => h) (hk b w hw (by omega) rest (by omega))
  rintro a rest' ⟨v, rfl, hv⟩
  exact ⟨w ++ v, (List.append_assoc ..).symm, hv⟩

theorem reads_le {m : Nat} {d : EStateM ε Bytes α} (h : Reads F n d P) (hm : m ≤ n) : Reads F m d P :=
  fun bs hbs => h bs (Nat.le_trans hbs hm)

theorem reads_bind {d : EStateM ε Bytes β} {k : β → EStateM ε Bytes α} {D : β → Bytes → Prop} (hd : Reads F n d D)
    (hk : ∀ b w, D b w → Reads F n (k b) (fun a v => P a (w ++ v))) : Reads F n (d >>= k) P :=
  reads_bind_le hd fun b w hw _ => reads_le (hk b w hw) (Nat.sub_le ..)

theorem reads_mono {d : EStateM ε Bytes α} {Q : α → Bytes → Prop} (h : Reads F n d P) (hPQ : ∀ a w, P a w → Q a w) :
    Reads F n d Q := by
  intro bs hbs
  refine wp_mono ?_ (fun _ _ h => h) (h bs hbs)
  rintro a rest ⟨w, hw, hP⟩
  exact ⟨w, hw, hPQ a w hP⟩

theorem reads_map {d : EStateM ε Bytes β} {D : β → Bytes → Prop} {f : β → α} (hd : Reads F n d D)
    (hf : ∀ b w, D b w → P (f b) w) : Reads F n (f <$> d) P := by
  intro bs hbs
  refine wp_map.2 (wp_mono ?_ (fun _ _ h => h) (hd bs hbs))
  rintro b rest ⟨w, hw, hD⟩
  exact ⟨w, hw, hf b w hD⟩

/-- An answer computed without reading, or its error. -/
def orThrow : Except ε α → EStateM ε Bytes α
  | .ok a => pure a
  | .error e => throw e

theorem reads_orThrow {r : Except ε α} (hok : ∀ a, r = .ok a → P a []) (herr : ∀ e, r = .error e → F e) :
    Reads F n (orThrow r) P := by
  cases r with
  | ok a => exact reads_pure (hok a rfl)
  | error e => exact reads_throw (herr e rfl)

/-- The next `k` bytes. -/
def take (short : ε) (k : Nat) : EStateM ε Bytes {w : Bytes // w.length = k} := do
  let bs ← get
  if h : k ≤ bs.length then
    set (bs.drop k)
    pure ⟨bs.take k, by rw [List.length_take]; omega⟩
  else throw short

theorem reads_take {short : ε} {k : Nat} (hF : F short) : Reads F n (take short k) (fun a w => a.1 = w) := by
  intro bs _
  refine wp_bind.2 (wp_get.2 ?_)
  split
  · exact ⟨bs.take k, (List.take_append_drop k bs).symm, rfl⟩
  · exact hF

/-- A length, then a reader over that many bytes, which has to use all of them. -/
def readPrefixed (size : EStateM ε Bytes Nat) (short : ε) (trailing : Nat → ε) (f : EStateM ε Bytes α) :
    EStateM ε Bytes α := do
  let inner ← take short (← size)
  match f.run inner.1 with
  | .ok a rest => if rest = [] then pure a else throw (trailing rest.length)
  | .error e _ => throw e

theorem reads_prefixed {size : EStateM ε Bytes Nat} {S : Nat → Bytes → Prop} {short : ε} {trailing : Nat → ε}
    {f : EStateM ε Bytes α} (hsize : Reads F n size S) (hshort : F short) (htrailing : ∀ k, F (trailing k))
    (hf : ∀ k w, S k w → Reads F (n - w.length) f P) :
    Reads F n (readPrefixed size short trailing f)
      (fun a w => ∃ ws inner, S inner.length ws ∧ P a inner ∧ w = ws ++ inner) := by
  refine reads_bind_le hsize fun k ws hws _ => ?_
  intro bs hbs
  refine wp_bind.2 (wp_mono ?_ (fun _ _ h => h) (reads_take hshort bs hbs))
  rintro ⟨inner, hlen⟩ rest ⟨_, rfl, rfl⟩
  rw [List.length_append] at hbs
  have hin := hf k ws hws inner (Nat.le_trans (Nat.le_add_right ..) hbs)
  unfold wp at hin
  cases hrun : f.run inner with
  | error e s =>
    rw [hrun] at hin
    exact hin
  | ok a left =>
    rw [hrun] at hin
    obtain ⟨w, hw, hP⟩ := hin
    by_cases hleft : left = []
    · subst hleft
      rw [List.append_nil] at hw
      subst hw
      simp only [if_true]
      exact ⟨inner, rfl, ws, inner, hlen ▸ hws, hP, rfl⟩
    · simp only [if_neg hleft]
      exact htrailing _

/-- Passes over what is left until nothing is; `out` if the passes given do not reach the end. -/
def passesOver {σ : Type} (out : ε) (body : σ → EStateM ε Bytes σ) : Nat → σ → EStateM ε Bytes σ
  | 0, _ => throw out
  | k + 1, s => do
    if (← get) = [] then pure s else
      let s' ← body s
      passesOver out body k s'

/-- Pass after pass while there is something left to read. -/
def whileUnread {σ : Type} (out : ε) (body : σ → EStateM ε Bytes σ) (s : σ) : EStateM ε Bytes σ := do
  let bs ← get
  passesOver out body (bs.length + 1) s

theorem wp_passesOver {σ : Type} {out : ε} {body : σ → EStateM ε Bytes σ} {I : σ → Bytes → Prop}
    (hbody : ∀ s w, I s w → Reads F n (body s) (fun s' v => I s' (w ++ v) ∧ v ≠ [])) :
    ∀ (k : Nat) (s : σ) (w bs : Bytes), I s w → bs.length ≤ n → bs.length < k →
      wp (passesOver out body k s) (fun s' rest => ∃ v, bs = v ++ rest ∧ I s' (w ++ v)) (fun e _ => F e) bs
  | 0, _, _, _, _, _, hk => absurd hk (Nat.not_lt_zero _)
  | k + 1, s, w, bs, hs, hn, hk => by
    rw [passesOver, wp_bind, wp_get]
    by_cases hnil : bs = []
    · rw [if_pos hnil, wp_pure]
      exact ⟨[], rfl, by rwa [List.append_nil]⟩
    · rw [if_neg hnil, wp_bind]
      refine wp_mono ?_ (fun _ _ h => h) (hbody s w hs bs hn)
      rintro s' rest ⟨v, rfl, hs', hv⟩
      have hpos := List.length_pos_iff.2 hv
      rw [List.length_append] at hn hk
      refine wp_mono ?_ (fun _ _ h => h)
        (wp_passesOver hbody k s' (w ++ v) rest hs' (by omega) (by omega))
      rintro s'' rest' ⟨u, rfl, hu⟩
      exact ⟨v ++ u, (List.append_assoc ..).symm, by rwa [← List.append_assoc]⟩

/-- **The loop rule**: an invariant of what was read so far that each pass keeps, reading something, holds at the end. -/
theorem reads_while {σ : Type} {out : ε} {body : σ → EStateM ε Bytes σ} {s : σ} {I : σ → Bytes → Prop}
    (hbody : ∀ s w, I s w → Reads F n (body s) (fun s' v => I s' (w ++ v) ∧ v ≠ [])) (hs : I s []) :
    Reads F n (whileUnread out body s) I := by
  intro bs hbs
  refine wp_bind.2 (wp_get.2 ?_)
  exact wp_passesOver hbody (bs.length + 1) s [] bs hs hbs (Nat.lt_succ_self _)

/-- All that is left. -/
def rest : EStateM ε Bytes Bytes := do
  let bs ← get
  set ([] : Bytes)
  pure bs

theorem reads_rest : Reads F n (rest : EStateM ε Bytes Bytes) (fun a w => a = w) :=
  fun bs _ => ⟨bs, (List.append_nil bs).symm, rfl⟩

/-- A read that gave an answer took it off the front of the input. -/
theorem reads_ok {d : EStateM ε Bytes α} {bs rest : Bytes} {a : α} (h : Reads F bs.length d P)
    (hd : d.run bs = .ok a rest) : ∃ w, bs = w ++ rest ∧ P a w :=
  wp_ok (h bs (Nat.le_refl _)) hd

theorem reads_error {d : EStateM ε Bytes α} {bs rest : Bytes} {e : ε} (h : Reads F bs.length d P)
    (hd : d.run bs = .error e rest) : F e :=
  wp_error (h bs (Nat.le_refl _)) hd

/-! ## Reading back -/

/-- **A reader gives back what was written**: on `w`, whatever follows it, it answers `a` and leaves what follows. -/
def Restores (d : EStateM ε Bytes α) (w : Bytes) (a : α) : Prop := ∀ left, d.run (w ++ left) = .ok a left

theorem restores_pure {a : α} : Restores (pure a : EStateM ε Bytes α) [] a := fun _ => rfl

/-- One reader after another, on what was written one after the other. -/
theorem restores_bind {d : EStateM ε Bytes β} {k : β → EStateM ε Bytes α} {u v : Bytes} {b : β} {a : α}
    (hd : Restores d u b) (hk : Restores (k b) v a) : Restores (d >>= k) (u ++ v) a := by
  intro left
  rw [List.append_assoc, EStateM.run_bind, hd]
  exact hk left

theorem restores_then {d : EStateM ε Bytes β} {k : β → EStateM ε Bytes α} {w : Bytes} {b : β} {a : α}
    (hd : Restores d [] b) (hk : Restores (k b) w a) : Restores (d >>= k) w a :=
  restores_bind hd hk

theorem restores_end {d : EStateM ε Bytes β} {k : β → EStateM ε Bytes α} {w : Bytes} {b : β} {a : α}
    (hd : Restores d w b) (hk : Restores (k b) [] a) : Restores (d >>= k) w a := by
  have h := restores_bind hd hk
  rwa [List.append_nil] at h

theorem restores_map {d : EStateM ε Bytes β} {w : Bytes} {b : β} {f : β → α} (hd : Restores d w b) :
    Restores (f <$> d) w (f b) := by
  rw [map_eq_pure_bind]
  exact restores_end hd restores_pure

theorem restores_orThrow {r : Except ε α} {a : α} (h : r = .ok a) : Restores (orThrow r) [] a := by
  rw [h]
  exact restores_pure

theorem restores_take {short : ε} {k : Nat} (w : Bytes) (h : w.length = k) : Restores (take short k) w ⟨w, h⟩ := by
  intro left
  have hk : k ≤ (w ++ left).length := by rw [List.length_append]; omega
  have htake : (w ++ left).take k = w := List.take_left' h
  have hdrop : (w ++ left).drop k = left := List.drop_left' h
  show EStateM.run (if _ : k ≤ (w ++ left).length then _ else _) (w ++ left) = _
  rw [dif_pos hk]
  show EStateM.Result.ok _ ((w ++ left).drop k) = _
  simp only [htake, hdrop]

/-- A reader behind a length, which uses all it is given. -/
theorem restores_prefixed {size : EStateM ε Bytes Nat} {short : ε} {trailing : Nat → ε} {f : EStateM ε Bytes α}
    {ws inner : Bytes} {a : α} (hsize : Restores size ws inner.length) (hf : f.run inner = .ok a []) :
    Restores (readPrefixed size short trailing f) (ws ++ inner) a := by
  refine restores_bind hsize (restores_end (restores_take inner rfl) ?_)
  rw [hf]
  exact restores_pure

theorem restores_run {d : EStateM ε Bytes α} {w : Bytes} {a : α} (h : Restores d w a) : d.run w = .ok a [] := by
  have hw := h []
  rwa [List.append_nil] at hw

/-- **What is read back was written for one answer only.** -/
theorem restores_unique {d : EStateM ε Bytes α} {w : Bytes} {a b : α} (ha : Restores d w a) (hb : Restores d w b) :
    a = b := by
  have h := (restores_run ha).symm.trans (restores_run hb)
  cases h
  rfl

/-- The same on an input given as a whole, for what is not a reader of anything that may follow. -/
theorem run_restores {d : EStateM ε Bytes β} {k : β → EStateM ε Bytes α} {u v : Bytes} {b : β}
    {r : EStateM.Result ε Bytes α} (hd : Restores d u b) (hk : (k b).run v = r) : (d >>= k).run (u ++ v) = r := by
  rw [EStateM.run_bind, hd]
  exact hk

theorem run_restores_end {d : EStateM ε Bytes β} {k : β → EStateM ε Bytes α} {w : Bytes} {b : β}
    {r : EStateM.Result ε Bytes α} (hd : Restores d w b) (hk : (k b).run [] = r) : (d >>= k).run w = r := by
  have h := run_restores hd hk
  rwa [List.append_nil] at h

/-- What was written pass after pass, each pass on some bytes. -/
inductive Passes {σ : Type} (body : σ → EStateM ε Bytes σ) : σ → Bytes → σ → Prop
  | done (s : σ) : Passes body s [] s
  | pass {s s' s'' : σ} {u w : Bytes} : u ≠ [] → Restores (body s) u s' → Passes body s' w s'' →
    Passes body s (u ++ w) s''

/-- **A loop over what is left reads back what was written pass after pass.** -/
theorem run_whileUnread {σ : Type} {out : ε} {body : σ → EStateM ε Bytes σ} {s s' : σ} {w : Bytes}
    (h : Passes body s w s') : (whileUnread out body s).run w = .ok s' [] := by
  have hrun : ∀ k, w.length < k → (passesOver out body k s).run w = .ok s' [] := by
    induction h with
    | done s =>
      intro k hk
      cases k with
      | zero => exact absurd hk (Nat.not_lt_zero _)
      | succ k => rfl
    | @pass s s' s'' u w hu hpass _ ih =>
      intro k hk
      cases k with
      | zero => exact absurd hk (Nat.not_lt_zero _)
      | succ k =>
        have hpos := List.length_pos_iff.2 hu
        rw [List.length_append] at hk
        rw [passesOver, EStateM.run_bind, EStateM.run_get]
        show EStateM.run (if u ++ w = [] then _ else _) (u ++ w) = _
        rw [if_neg (fun h => hu (List.append_eq_nil_iff.1 h).1)]
        exact run_restores hpass (ih k (by omega))
  exact hrun (w.length + 1) (Nat.lt_succ_self _)

/-! ## Answers taken apart -/

theorem run_map_ok {d : EStateM ε Bytes β} {f : β → α} {bs rest : Bytes} {a : α} :
    (f <$> d).run bs = .ok a rest ↔ ∃ b, d.run bs = .ok b rest ∧ f b = a := by
  rw [← bind_pure_comp, run_bind_ok]
  constructor
  · rintro ⟨b, mid, hb, h⟩
    cases h
    exact ⟨b, hb, rfl⟩
  · rintro ⟨b, hb, rfl⟩
    exact ⟨b, rest, hb, rfl⟩

theorem run_orThrow_ok {r : Except ε α} {bs rest : Bytes} {a : α} :
    (orThrow r).run bs = .ok a rest ↔ r = .ok a ∧ rest = bs := by
  cases r with
  | ok b =>
    show EStateM.Result.ok b bs = .ok a rest ↔ _
    simp [eq_comm]
  | error e =>
    show EStateM.Result.error e bs = .ok a rest ↔ _
    simp

/-- A block is its bytes, and a reader over them that leaves nothing. -/
theorem run_prefixed_ok {size : EStateM ε Bytes Nat} {short : ε} {trailing : Nat → ε} {f : EStateM ε Bytes α}
    {bs left : Bytes} {a : α} : (readPrefixed size short trailing f).run bs = .ok a left ↔
      ∃ inner, (readPrefixed size short trailing rest).run bs = .ok inner left ∧ f.run inner = .ok a [] := by
  unfold readPrefixed
  simp only [run_bind_ok]
  constructor
  · rintro ⟨k, mid, hsize, inner, left', htake, h⟩
    cases hf : f.run inner.1 with
    | error e s =>
      rw [hf] at h
      cases h
    | ok a' s =>
      simp only [hf] at h
      split at h
      · rename_i hs
        cases h
        exact ⟨inner.1, ⟨k, mid, hsize, inner, left, htake, rfl⟩, by rw [hs] at hf; exact hf⟩
      · cases h
  · rintro ⟨bytes, ⟨k, mid, hsize, inner, left', htake, h⟩, hf⟩
    cases h
    refine ⟨k, mid, hsize, inner, left, htake, ?_⟩
    rw [hf]
    rfl

/-- **Two readers over the same bytes**: whatever the first answers, `P` holds of what the second ends with. -/
def Beside (f : EStateM ε Bytes α) (g : EStateM ε Bytes β) (P : α → Bytes → EStateM.Result ε Bytes β → Prop) : Prop :=
  ∀ bs a rest, f.run bs = .ok a rest → P a rest (g.run bs)

/-- What both read first does not matter. -/
theorem beside_bind {γ : Type} {d : EStateM ε Bytes γ} {k : γ → EStateM ε Bytes α} {k' : γ → EStateM ε Bytes β}
    {P : α → Bytes → EStateM.Result ε Bytes β → Prop} (h : ∀ c, Beside (k c) (k' c) P) :
    Beside (d >>= k) (d >>= k') P := by
  intro bs a rest hrun
  obtain ⟨c, mid, hd, hk⟩ := run_bind_ok.1 hrun
  rw [EStateM.run_bind, hd]
  exact h c mid a rest hk

/-! ## What an answer satisfies -/

/-- Every answer of the reader, whatever it read, is one with `Q`. -/
def Gives (d : EStateM ε Bytes α) (Q : α → Prop) : Prop := ∀ bs, wp d (fun a _ => Q a) (fun _ _ => True) bs

section
variable {Q : α → Prop}

theorem gives_pure {a : α} (h : Q a) : Gives (pure a : EStateM ε Bytes α) Q := fun _ => wp_pure.2 h

theorem gives_throw {e : ε} : Gives (throw e : EStateM ε Bytes α) Q := fun _ => wp_throw.2 trivial

theorem gives_bind {d : EStateM ε Bytes β} {k : β → EStateM ε Bytes α} {D : β → Prop} (hd : Gives d D)
    (hk : ∀ b, D b → Gives (k b) Q) : Gives (d >>= k) Q :=
  fun bs => wp_bind.2 (wp_mono (fun b rest hb => hk b hb rest) (fun _ _ h => h) (hd bs))

theorem gives_true {d : EStateM ε Bytes β} : Gives d (fun _ => True) := by
  intro bs
  unfold wp
  split <;> trivial

theorem gives_then {d : EStateM ε Bytes β} {k : β → EStateM ε Bytes α} (hk : ∀ b, Gives (k b) Q) :
    Gives (d >>= k) Q :=
  gives_bind gives_true fun b _ => hk b

theorem gives_map {d : EStateM ε Bytes β} {f : β → α} {D : β → Prop} (hd : Gives d D) (hf : ∀ b, D b → Q (f b)) :
    Gives (f <$> d) Q :=
  fun bs => wp_map.2 (wp_mono (fun b _ hb => hf b hb) (fun _ _ h => h) (hd bs))

theorem gives_made {d : EStateM ε Bytes β} {f : β → α} (hf : ∀ b, Q (f b)) : Gives (f <$> d) Q := by
  rw [map_eq_pure_bind]
  exact gives_then fun b => gives_pure (hf b)

theorem gives_orThrow {r : Except ε α} (h : ∀ a, r = .ok a → Q a) : Gives (orThrow r) Q := by
  cases r with
  | ok a => exact gives_pure (h a rfl)
  | error e => exact gives_throw

theorem gives_prefixed {size : EStateM ε Bytes Nat} {short : ε} {trailing : Nat → ε} {f : EStateM ε Bytes α}
    (hf : Gives f Q) : Gives (readPrefixed size short trailing f) Q := by
  refine gives_then fun k => gives_then fun inner => ?_
  cases hrun : f.run inner.1 with
  | error e s => exact gives_throw
  | ok a left =>
    have hQ : Q a := wp_ok (hf inner.1) hrun
    show Gives (if left = [] then pure a else throw (trailing left.length)) Q
    split
    · exact gives_pure hQ
    · exact gives_throw

theorem gives_ok {d : EStateM ε Bytes α} {bs rest : Bytes} {a : α} (h : Gives d Q) (hd : d.run bs = .ok a rest) : Q a :=
  wp_ok (h bs) hd

theorem gives_of_ok {d : EStateM ε Bytes α} (h : ∀ bs a rest, d.run bs = .ok a rest → Q a) : Gives d Q := by
  intro bs
  unfold wp
  cases hrun : d.run bs with
  | ok a rest => exact h bs a rest hrun
  | error e rest => trivial

end

/-! ## Writing -/

/-- Pieces one after the other; the first that fails stops the writing. -/
def cat : List (Except ε Bytes) → Except ε Bytes
  | [] => .ok []
  | p :: ps => do
    let w ← p
    let ws ← cat ps
    pure (w ++ ws)

@[simp] theorem cat_nil {w : Bytes} : cat ([] : List (Except ε Bytes)) = .ok w ↔ w = [] := by
  simp only [cat, Except.ok.injEq, eq_comm]

@[simp] theorem cat_cons {p : Except ε Bytes} {ps : List (Except ε Bytes)} {w : Bytes} :
    cat (p :: ps) = .ok w ↔ ∃ u, p = .ok u ∧ ∃ v, cat ps = .ok v ∧ w = u ++ v := by
  cases p with
  | error e => exact ⟨nofun, by rintro ⟨_, h, _⟩; cases h⟩
  | ok u =>
    cases h : cat ps with
    | error e => simp [cat, h, bind, Except.bind]
    | ok v => simp [cat, h, bind, Except.bind, pure, Except.pure, eq_comm]

theorem cat_ok {p : Except ε Bytes} {ps : List (Except ε Bytes)} {u v : Bytes} (hp : p = .ok u) (hps : cat ps = .ok v) :
    cat (p :: ps) = .ok (u ++ v) :=
  cat_cons.2 ⟨u, hp, v, hps, rfl⟩

theorem cat_append {ps qs : List (Except ε Bytes)} {u v : Bytes} (hp : cat ps = .ok u) (hq : cat qs = .ok v) :
    cat (ps ++ qs) = .ok (u ++ v) := by
  induction ps generalizing u with
  | nil =>
    rw [cat_nil.1 hp]
    exact hq
  | cons p ps ih =>
    obtain ⟨w, hw, u', hu', rfl⟩ := cat_cons.1 hp
    exact cat_cons.2 ⟨w, hw, u' ++ v, ih hu', List.append_assoc ..⟩

theorem cat_pair {p q : Except ε Bytes} {w : Bytes} :
    cat [p, q] = .ok w ↔ ∃ u v, p = .ok u ∧ q = .ok v ∧ w = u ++ v := by
  constructor
  · intro h
    obtain ⟨u, hu, x, hx, rfl⟩ := cat_cons.1 h
    obtain ⟨v, hv, _, hnil, rfl⟩ := cat_cons.1 hx
    exact ⟨u, v, hu, hv, by rw [cat_nil.1 hnil, List.append_nil]⟩
  · rintro ⟨u, v, hu, hv, rfl⟩
    exact cat_ok hu (cat_cons.2 ⟨v, hv, [], cat_nil.2 rfl, (List.append_nil v).symm⟩)

theorem cat_one {p : Except ε Bytes} {w : Bytes} : cat [p] = .ok w ↔ p = .ok w := by
  constructor
  · intro h
    obtain ⟨u, hu, v, hv, rfl⟩ := cat_cons.1 h
    rw [cat_nil.1 hv, List.append_nil]
    exact hu
  · intro h
    exact cat_cons.2 ⟨w, h, [], cat_nil.2 rfl, (List.append_nil w).symm⟩

/-- **Reading back piece by piece.** -/
theorem restores_cat {d : EStateM ε Bytes β} {k : β → EStateM ε Bytes α} {p : Except ε Bytes}
    {ps : List (Except ε Bytes)} {w : Bytes} {b : β} {a : α} (hw : cat (p :: ps) = .ok w)
    (hd : ∀ u, p = .ok u → Restores d u b) (hk : ∀ v, cat ps = .ok v → Restores (k b) v a) :
    Restores (d >>= k) w a := by
  obtain ⟨u, hu, v, hv, rfl⟩ := cat_cons.1 hw
  exact restores_bind (hd u hu) (hk v hv)

/-- The same with a bound on what was written, which the pieces keep. -/
theorem restores_cat_le {max : Nat} {d : EStateM ε Bytes β} {k : β → EStateM ε Bytes α} {p : Except ε Bytes}
    {ps : List (Except ε Bytes)} {w : Bytes} {b : β} {a : α} (hw : cat (p :: ps) = .ok w) (hmax : w.length ≤ max)
    (hd : ∀ u, p = .ok u → u.length ≤ max → Restores d u b)
    (hk : ∀ v, cat ps = .ok v → v.length ≤ max → Restores (k b) v a) : Restores (d >>= k) w a := by
  obtain ⟨u, hu, v, hv, rfl⟩ := cat_cons.1 hw
  rw [List.length_append] at hmax
  exact restores_bind (hd u hu (by omega)) (hk v hv (by omega))

theorem restores_nil {d : EStateM ε Bytes α} {w : Bytes} {a : α} (hw : cat ([] : List (Except ε Bytes)) = .ok w)
    (hd : Restores d [] a) : Restores d w a := by
  rw [cat_nil.1 hw]
  exact hd

theorem cat_mem {p : Except ε Bytes} : ∀ {ps : List (Except ε Bytes)} {w : Bytes}, p ∈ ps → cat ps = .ok w →
    ∃ u, p = .ok u ∧ u.length ≤ w.length
  | q :: ps, w, hp, hw => by
    obtain ⟨u, hu, v, hv, rfl⟩ := cat_cons.1 hw
    rw [List.length_append]
    rcases List.mem_cons.1 hp with rfl | hp
    · exact ⟨u, hu, Nat.le_add_right ..⟩
    · obtain ⟨x, hx, hle⟩ := cat_mem hp hv
      exact ⟨x, hx, by omega⟩

theorem cat_concat (q : Except ε Bytes) : ∀ ps : List (Except ε Bytes), cat [cat ps, q] = cat (ps ++ [q])
  | [] => by
    cases q with
    | error e => rfl
    | ok w => rfl
  | p :: ps => by
    have ih := cat_concat q ps
    cases p with
    | error e => rfl
    | ok u =>
      have hcons : cat (.ok u :: (ps ++ [q])) = (do let ws ← cat (ps ++ [q]); pure (u ++ ws)) := rfl
      rw [List.cons_append, hcons, ← ih, cat, cat]
      cases hps : cat ps with
      | error e => rfl
      | ok v =>
        cases q with
        | error e => rfl
        | ok w => simp [cat, bind, Except.bind, pure, Except.pure]

/-- Lengths worked out in order, then their sum, which has to stay within `max`. -/
def total (max : Nat) (overflow : ε) : List (Except ε Nat) → Except ε Nat
  | [] => .ok 0
  | l :: ls => do
    let k ← l
    let m ← total max overflow ls
    if k + m ≤ max then pure (k + m) else throw overflow

theorem total_oks {max : Nat} {overflow : ε} {k : Nat} : ∀ {ns : List Nat},
    total max overflow (ns.map .ok) = .ok k ↔ k = ns.sum ∧ ns.sum ≤ max
  | [] => by
    show Except.ok 0 = .ok k ↔ _
    simp [eq_comm]
  | n :: ns => by
    rw [List.map_cons, List.sum_cons]
    show (total max overflow (ns.map .ok) >>= fun m => if n + m ≤ max then .ok (n + m) else .error overflow) = _ ↔ _
    rw [bind_ok]
    constructor
    · rintro ⟨m, hm, h⟩
      obtain ⟨rfl, -⟩ := total_oks.1 hm
      split at h
      · rename_i hle
        cases h
        exact ⟨rfl, hle⟩
      · cases h
    · rintro ⟨rfl, hle⟩
      exact ⟨ns.sum, total_oks.2 ⟨rfl, by omega⟩, if_pos hle⟩

/-- A piece of at most `max` bytes has the length announced for it. -/
def Announces (max : Nat) (l : Except ε Nat) (p : Except ε Bytes) : Prop :=
  ∀ w, p = .ok w → w.length ≤ max → l = .ok w.length

/-- **Announced lengths add up** to the length of what is written. -/
theorem announces_total {max : Nat} (overflow : ε) :
    ∀ {ls : List (Except ε Nat)} {ps : List (Except ε Bytes)}, List.Forall₂ (Announces max) ls ps →
      Announces max (total max overflow ls) (cat ps)
  | _, _, .nil, w, hw, _ => by
    rw [cat_nil] at hw
    rw [hw]
    rfl
  | _, _, .cons hl hls, w, hw, hmax => by
    obtain ⟨u, hu, v, hv, rfl⟩ := cat_cons.1 hw
    rw [List.length_append] at hmax ⊢
    have hu' := hl u hu (by omega)
    have hv' := announces_total overflow hls v hv (by omega)
    simp [total, hu', hv', bind, Except.bind, pure, Except.pure, hmax]

end Reader
end Wolf
