import WolfsslRs.CMemory
/-!
# Rfc3394 — the key wraps of RFC 3394 and RFC 5649, over any pair of inverse block functions

`wrap` runs `6 n` steps over a register of eight bytes and `n` blocks of eight bytes.  Each step is undone by
`unwrapStep` on the states of the right size (`Sized`), so running the inverse steps backwards undoes the whole loop,
in both directions (`unwrapLoop_wrapLoop`, `wrapLoop_unwrapLoop`).

RFC 5649 puts the length of the plaintext into the initial value and pads with zeros; `opened_iff` says which recovered
registers and blocks are the padding of a plaintext.
-/
namespace Wolf
namespace Rfc3394

/-- The register `A` and the data blocks `R[1] … R[n]`, one after another. -/
structure State where
  a : Bytes
  r : Bytes
deriving DecidableEq

/-- The steps of the wrap, `(j, i)` for `j = 0 … 5` and `i = 1 … n`. -/
def steps (n : Nat) : List (Nat × Nat) :=
  (List.range 6).flatMap (fun j => (List.range n).map (fun i => (j, i + 1)))

/-- `B = E(A ‖ R[i])`, `A = MSB(64, B) ^ t` with `t = n j + i`, `R[i] = LSB(64, B)`. -/
def wrapStep (E : Bytes → Bytes) (n : Nat) (s : State) (ji : Nat × Nat) : State :=
  let b := E (s.a ++ slice s.r ((ji.2 - 1) * 8) 8)
  ⟨xorBytes (b.take 8) (beBytes 8 (n * ji.1 + ji.2)), splice s.r ((ji.2 - 1) * 8) (b.drop 8)⟩

/-- `B = D((A ^ t) ‖ R[i])`, `A = MSB(64, B)`, `R[i] = LSB(64, B)`. -/
def unwrapStep (D : Bytes → Bytes) (n : Nat) (s : State) (ji : Nat × Nat) : State :=
  let b := D (xorBytes s.a (beBytes 8 (n * ji.1 + ji.2)) ++ slice s.r ((ji.2 - 1) * 8) 8)
  ⟨b.take 8, splice s.r ((ji.2 - 1) * 8) (b.drop 8)⟩

def wrapLoop (E : Bytes → Bytes) (n : Nat) (s : State) : State := (steps n).foldl (wrapStep E n) s

def unwrapLoop (D : Bytes → Bytes) (n : Nat) (s : State) : State := (steps n).reverse.foldl (unwrapStep D n) s

/-- The wrap of `p` with the initial value `iv`. -/
def wrap (E : Bytes → Bytes) (iv p : Bytes) : Bytes :=
  let s := wrapLoop E (p.length / 8) ⟨iv, p⟩
  s.a ++ s.r

/-- The states the loops run over: eight bytes in the register, `n` blocks of data. -/
def Sized (n : Nat) (s : State) : Prop := s.a.length = 8 ∧ s.r.length = 8 * n

theorem mem_steps {n : Nat} {ji : Nat × Nat} (h : ji ∈ steps n) : 1 ≤ ji.2 ∧ ji.2 ≤ n ∧ ji.1 < 6 := by
  simp only [steps, List.mem_flatMap, List.mem_map, List.mem_range] at h
  obtain ⟨j, hj, i, hi, rfl⟩ := h
  exact ⟨Nat.succ_le_succ (Nat.zero_le i), hi, hj⟩

/-! ## One step -/

section

variable {F G : Bytes → Bytes} {n : Nat} {s : State} {ji : Nat × Nat}

theorem block_le (hs : Sized n s) (h : ji ∈ steps n) : (ji.2 - 1) * 8 + 8 ≤ s.r.length := by
  obtain ⟨h1, h2, -⟩ := mem_steps h
  have := hs.2
  omega

theorem length_input (hs : Sized n s) (h : ji ∈ steps n) :
    (s.a ++ slice s.r ((ji.2 - 1) * 8) 8).length = 16 := by
  rw [List.length_append, hs.1, length_slice_of_le (block_le hs h)]

theorem length_masked (hs : Sized n s) (h : ji ∈ steps n) :
    (xorBytes s.a (beBytes 8 (n * ji.1 + ji.2)) ++ slice s.r ((ji.2 - 1) * 8) 8).length = 16 := by
  rw [List.length_append, length_xorBytes, hs.1, length_beBytes, length_slice_of_le (block_le hs h)]
  rfl

theorem sized_wrapStep (hF : ∀ b : Bytes, b.length = 16 → (F b).length = 16) (hs : Sized n s) (h : ji ∈ steps n) :
    Sized n (wrapStep F n s ji) := by
  have hb := hF _ (length_input hs h)
  have hle := block_le hs h
  constructor
  · simp only [wrapStep, length_xorBytes, List.length_take, length_beBytes, hb]
    rfl
  · rw [wrapStep]
    rw [length_splice (by rw [List.length_drop, hb]; exact hle)]
    exact hs.2

theorem sized_unwrapStep (hG : ∀ b : Bytes, b.length = 16 → (G b).length = 16) (hs : Sized n s) (h : ji ∈ steps n) :
    Sized n (unwrapStep G n s ji) := by
  have hb := hG _ (length_masked hs h)
  have hle := block_le hs h
  constructor
  · simp only [unwrapStep, List.length_take, hb]
    rfl
  · rw [unwrapStep]
    rw [length_splice (by rw [List.length_drop, hb]; exact hle)]
    exact hs.2

/-- **The inverse step undoes a step.** -/
theorem unwrapStep_wrapStep (hF : ∀ b : Bytes, b.length = 16 → (F b).length = 16)
    (hGF : ∀ b : Bytes, b.length = 16 → G (F b) = b) (hs : Sized n s) (h : ji ∈ steps n) :
    unwrapStep G n (wrapStep F n s ji) ji = s := by
  have hin := length_input hs h
  have hb := hF _ hin
  have hle := block_le hs h
  have hdrop : 8 = ((F (s.a ++ slice s.r ((ji.2 - 1) * 8) 8)).drop 8).length := by rw [List.length_drop, hb]
  have hmask : xorBytes (wrapStep F n s ji).a (beBytes 8 (n * ji.1 + ji.2)) =
      (F (s.a ++ slice s.r ((ji.2 - 1) * 8) 8)).take 8 := by
    rw [wrapStep]
    exact xorBytes_xorBytes _ _ (by rw [List.length_take, hb, length_beBytes]; rfl)
  have hblock : slice (wrapStep F n s ji).r ((ji.2 - 1) * 8) 8 =
      (F (s.a ++ slice s.r ((ji.2 - 1) * 8) 8)).drop 8 := by
    rw [wrapStep]
    exact slice_splice hdrop (by rw [← hdrop]; exact hle)
  rw [unwrapStep, hmask, hblock, List.take_append_drop, hGF _ hin]
  rw [List.take_left' hs.1, List.drop_left' hs.1, wrapStep]
  rw [splice_splice (by rw [← hdrop, length_slice_of_le hle]) (by rw [← hdrop]; exact hle), splice_slice hle]

/-- **A step undoes the inverse step.** -/
theorem wrapStep_unwrapStep (hG : ∀ b : Bytes, b.length = 16 → (G b).length = 16)
    (hFG : ∀ b : Bytes, b.length = 16 → F (G b) = b) (hs : Sized n s) (h : ji ∈ steps n) :
    wrapStep F n (unwrapStep G n s ji) ji = s := by
  have hin := length_masked hs h
  have hb := hG _ hin
  have hle := block_le hs h
  generalize hx : xorBytes s.a (beBytes 8 (n * ji.1 + ji.2)) = x at hin hb
  have hxl : x.length = 8 := by rw [← hx, length_xorBytes, hs.1, length_beBytes]; rfl
  have hdrop : 8 = ((G (x ++ slice s.r ((ji.2 - 1) * 8) 8)).drop 8).length := by rw [List.length_drop, hb]
  have hstep : unwrapStep G n s ji = ⟨(G (x ++ slice s.r ((ji.2 - 1) * 8) 8)).take 8,
      splice s.r ((ji.2 - 1) * 8) ((G (x ++ slice s.r ((ji.2 - 1) * 8) 8)).drop 8)⟩ := by
    rw [unwrapStep, hx]
  rw [hstep, wrapStep]
  simp only
  rw [slice_splice hdrop (by rw [← hdrop]; exact hle), List.take_append_drop, hFG _ hin]
  have hmask : xorBytes x (beBytes 8 (n * ji.1 + ji.2)) = s.a := by
    rw [← hx, xorBytes_xorBytes _ _ (by rw [hs.1, length_beBytes])]
  rw [List.take_left' hxl, List.drop_left' hxl, hmask]
  rw [splice_splice (by rw [← hdrop, length_slice_of_le hle]) (by rw [← hdrop]; exact hle), splice_slice hle]

end

/-! ## The loops -/

section

variable {F G : Bytes → Bytes} {n : Nat} {s : State}

theorem sized_wrapLoop (hF : ∀ b : Bytes, b.length = 16 → (F b).length = 16) (hs : Sized n s) :
    Sized n (wrapLoop F n s) :=
  foldl_keeps _ (Sized n) (steps n) (fun _ h _ hs => sized_wrapStep hF hs h) s hs

theorem sized_unwrapLoop (hG : ∀ b : Bytes, b.length = 16 → (G b).length = 16) (hs : Sized n s) :
    Sized n (unwrapLoop G n s) :=
  foldl_keeps _ (Sized n) (steps n).reverse (fun _ h _ hs => sized_unwrapStep hG hs (List.mem_reverse.1 h)) s hs

/-- **The unwrap loop inverts the wrap loop.** -/
theorem unwrapLoop_wrapLoop (hF : ∀ b : Bytes, b.length = 16 → (F b).length = 16)
    (hGF : ∀ b : Bytes, b.length = 16 → G (F b) = b) (hs : Sized n s) :
    unwrapLoop G n (wrapLoop F n s) = s :=
  foldl_reverse_undo (wrapStep F n) (unwrapStep G n) (Sized n) (steps n) (fun _ h _ hs => sized_wrapStep hF hs h)
    (fun _ h _ hs => unwrapStep_wrapStep hF hGF hs h) s hs

/-- **The wrap loop inverts the unwrap loop.** -/
theorem wrapLoop_unwrapLoop (hG : ∀ b : Bytes, b.length = 16 → (G b).length = 16)
    (hFG : ∀ b : Bytes, b.length = 16 → F (G b) = b) (hs : Sized n s) :
    wrapLoop F n (unwrapLoop G n s) = s := by
  have h := foldl_reverse_undo (unwrapStep G n) (wrapStep F n) (Sized n) (steps n).reverse
    (fun _ h _ hs => sized_unwrapStep hG hs (List.mem_reverse.1 h))
    (fun _ h _ hs => wrapStep_unwrapStep hG hFG hs (List.mem_reverse.1 h)) s hs
  rwa [List.reverse_reverse] at h

end

/-! ## RFC 5649: the padded wrap -/

/-- The fixed half of the alternative initial value. -/
def paddedAiv : Bytes := [0xA6, 0x59, 0x59, 0xA6]

/-- The alternative initial value of a plaintext of `n` bytes: the fixed half, then the length in 32 bits. -/
def aiv (n : Nat) : Bytes := paddedAiv ++ beBytes 4 n

/-- `n` rounded up to whole blocks of eight bytes. -/
def roundUp (n : Nat) : Nat := (n + 7) / 8 * 8

def pad (p : Bytes) : Bytes := p ++ List.replicate (roundUp p.length - p.length) 0

/-- The padded wrap: one block is encrypted as it is, more blocks are wrapped. -/
def wrapPadded (E : Bytes → Bytes) (p : Bytes) : Bytes :=
  if roundUp p.length ≤ 8 then E (aiv p.length ++ pad p) else wrap E (aiv p.length) (pad p)

@[simp] theorem length_aiv (n : Nat) : (aiv n).length = 8 := by simp [aiv, paddedAiv]

theorem le_roundUp (n : Nat) : n ≤ roundUp n ∧ roundUp n ≤ n + 7 := by unfold roundUp; omega

theorem roundUp_mod (n : Nat) : roundUp n % 8 = 0 := by unfold roundUp; omega

theorem length_pad (p : Bytes) : (pad p).length = roundUp p.length := by
  have := le_roundUp p.length
  simp only [pad, List.length_append, List.length_replicate]
  omega

theorem sized_pad (p : Bytes) : Sized ((pad p).length / 8) ⟨aiv p.length, pad p⟩ := by
  refine ⟨length_aiv _, ?_⟩
  have := roundUp_mod p.length
  rw [length_pad]; omega

theorem length_wrapPadded {E : Bytes → Bytes} (hE : ∀ b : Bytes, b.length = 16 → (E b).length = 16) {p : Bytes}
    (hp : p ≠ []) : (wrapPadded E p).length = roundUp p.length + 8 := by
  have hpos : 1 ≤ p.length := List.length_pos_iff.2 hp
  have hr := le_roundUp p.length
  have hm := roundUp_mod p.length
  unfold wrapPadded
  split
  · rw [hE _ (by rw [List.length_append, length_aiv, length_pad]; omega)]
    omega
  · have hs := sized_wrapLoop hE (sized_pad p)
    rw [wrap, List.length_append, hs.1, hs.2, length_pad]
    omega

/-- **Which recovered registers and blocks are the padding of a plaintext**: the fixed half is there, the length lies
in the last block, and the bytes after it are zero. -/
theorem opened_iff {a r : Bytes} {n : Nat} (ha : a.length = 8) (hr : r.length = 8 * n) (m : Nat)
    (hm : m = beNat (slice a 4 4)) :
    (a.take 4 = paddedAiv ∧ 0 < m ∧ 8 * n < m + 8 ∧ m ≤ 8 * n ∧ r.drop m = List.replicate (8 * n - m) 0) ↔
      (r.take m ≠ [] ∧ (r.take m).length = m ∧ a = aiv (r.take m).length ∧ r = pad (r.take m)) := by
  have hsplit : a = a.take 4 ++ slice a 4 4 := by
    have : slice a 4 4 = a.drop 4 := by
      rw [slice, List.take_of_length_le (by simp [ha])]
    rw [this, List.take_append_drop]
  have hlow : (slice a 4 4).length = 4 := by rw [length_slice, ha]; rfl
  have hmli : beBytes 4 m = slice a 4 4 := by
    have := beBytes_beNat (slice a 4 4)
    rwa [hlow, ← hm] at this
  constructor
  · rintro ⟨hmagic, hpos, hlast, hle, hzero⟩
    have hlen : (r.take m).length = m := by rw [List.length_take]; omega
    have hround : roundUp m = 8 * n := by unfold roundUp; omega
    refine ⟨fun h => by rw [h] at hlen; simp at hlen; omega, hlen, ?_, ?_⟩
    · rw [hlen, aiv, hmli, ← hmagic]; exact hsplit
    · rw [pad, hlen, hround, ← hzero, List.take_append_drop]
  · rintro ⟨hne, hlen, hav, hpad⟩
    have hround : roundUp m = 8 * n := by rw [← hr, hpad, length_pad, hlen]
    have hb := le_roundUp m
    have hpos : 0 < m := by rw [← hlen]; exact List.length_pos_iff.2 hne
    refine ⟨?_, hpos, by omega, by omega, ?_⟩
    · rw [hav]; rfl
    · conv => lhs; rw [hpad, pad, List.drop_left' hlen]
      rw [hlen, hround]

end Rfc3394
end Wolf
