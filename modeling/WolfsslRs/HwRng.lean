import WolfsslRs.CMemory
import WolfsslRs.HwGcm
import WolfsslRs.Program
/-!
# HwRng — random bytes of the Caliptra backend (wolfcrypt-dpe-hw)

On the firmware target wolfSSL asks `caliptra_hw_generate_seed` for its random bytes, which fills the buffer with one
48-byte output of the registered TRNG after the other and counts the requests it served.  A served request holds the
first bytes of the outputs drawn for it (`seed_outcome`); the one request that is answered without being counted is the
empty one (`seed_counted`).
-/
namespace Wolf
namespace DpeHw

open Program

/-- `Array4x12` of the drivers: twelve words. -/
structure Array4x12 where
  words : List UInt32
  twelve : words.length = 12

/-- The words as they lie in the memory of the core, which is little-endian. -/
def Array4x12.asBytes (a : Array4x12) : Bytes := a.words.flatMap fun w => (beBytes 4 w.toNat).reverse

/-- The TRNG: what each of its draws answers, the number of those made so far. -/
structure Trng where
  answers : Nat → Option Array4x12
  drawn : Nat

/-- What the function reads and writes: `REGISTERED_TRNG`, whose lock it holds to its end, `TRNG_DISPATCH_COUNT`, a
`usize` of a 32-bit core, and the memory `output` points into. -/
structure Firmware where
  registeredTrng : Option Trng
  trngDispatchCount : BitVec 32
  memory : Bytes

abbrev Rng := EStateM Halt Firmware

def registerTrng (trng : Trng) : Rng Unit := modify fun d => { d with registeredTrng := some trng }

def resetTrngDispatchCount : Rng Unit := modify fun d => { d with trngDispatchCount := 0 }

/-- `Trng::generate`, on the instance behind the lock. -/
def generate (trng : Trng) : Rng (Option Array4x12 × Trng) := do
  let next := { trng with drawn := trng.drawn + 1 }
  modify fun d => { d with registeredTrng := some next }
  pure (trng.answers trng.drawn, next)

/-- `ptr::copy_nonoverlapping` from the front of a slice. -/
def copyNonoverlapping (src : Bytes) (dst n : Nat) : Rng Unit := do
  match memcpy (← get).memory dst src 0 n with
  | some m => modify fun d => { d with memory := m }
  | none => throw .undefinedBehaviour

theorem Array4x12.length_asBytes (a : Array4x12) : a.asBytes.length = 48 := by
  have hlen : ∀ ws : List UInt32, (ws.flatMap fun w => (beBytes 4 w.toNat).reverse).length = 4 * ws.length := by
    intro ws
    induction ws with
    | nil => rfl
    | cons w ws ih =>
      rw [List.flatMap_cons, List.length_append, ih, List.length_reverse, length_beBytes, List.length_cons]
      omega
  rw [asBytes, hlen, a.twelve]

theorem Array4x12.length_take_asBytes (a : Array4x12) (n : Nat) : (a.asBytes.take n).length = min n 48 := by
  rw [List.length_take, length_asBytes]

/-- The `while` of the function; `false` when a draw failed. -/
def fillLoop (output sz filled : Nat) (trng : Trng) : Rng Bool :=
  if filled < sz then do
    match ← generate trng with
    | (none, _) => pure false
    | (some chunk, trng) =>
      let toCopy := min (sz - filled) chunk.asBytes.length
      copyNonoverlapping chunk.asBytes (output + filled) toCopy
      fillLoop output sz (filled + toCopy) trng
  else pure true
termination_by sz - filled
decreasing_by
  rw [Array4x12.length_asBytes]
  omega

/-- `output` is `none` for a null pointer. -/
def caliptraHwGenerateSeed (output : Option Nat) (sz : BitVec 32) : Rng Int := do
  let sz := sz.toNat
  if sz = 0 then return 0
  match output with
  | none => return -1
  | some output =>
    match (← get).registeredTrng with
    | none => return -1
    | some trng =>
      if ← fillLoop output sz 0 trng then
        modify fun d => { d with trngDispatchCount := d.trngDispatchCount + 1 }
        return 0
      else return -1

/-- The C shim that wolfSSL calls for every `wc_RNG_GenerateBlock`. -/
def caliptraGenerateRandomBlock (output : Option Nat) (sz : BitVec 32) : Rng Int := caliptraHwGenerateSeed output sz

/-! ## Draws -/

/-- The next `n` outputs of a TRNG, one after the other; `none` when one of the draws fails. -/
def Trng.outputs (answers : Nat → Option Array4x12) : (n drawn : Nat) → Option Bytes
  | 0, _ => some []
  | n + 1, drawn => do
    let chunk ← answers drawn
    let rest ← outputs answers n (drawn + 1)
    some (chunk.asBytes ++ rest)

/-- The outputs it takes for so many bytes. -/
def outputsFor (sz : Nat) : Nat := (sz + 47) / 48

theorem outputsFor_rest {sz filled n : Nat} (h : outputsFor (sz - filled) = n + 1) :
    filled < sz ∧ outputsFor (sz - (filled + min (sz - filled) 48)) = n := by
  unfold outputsFor at h ⊢
  omega

theorem Trng.length_outputs (answers : Nat → Option Array4x12) : ∀ (n drawn : Nat) {bytes : Bytes},
    outputs answers n drawn = some bytes → bytes.length = 48 * n
  | 0, _, _, h => by
    cases h
    rfl
  | n + 1, drawn, bytes, h => by
    simp only [outputs, Option.bind_eq_bind, Option.bind_eq_some_iff] at h
    obtain ⟨chunk, _, rest, hrest, h⟩ := h
    cases h
    rw [List.length_append, chunk.length_asBytes, length_outputs answers n (drawn + 1) hrest]
    omega

/-! ## The loop -/

/-- The firmware after `n` draws more, with `written` in the buffer from `pos` on. -/
def afterDraws (d : Firmware) (trng : Trng) (n pos : Nat) (written : Bytes) : Firmware :=
  { d with registeredTrng := some { trng with drawn := trng.drawn + n }, memory := splice d.memory pos written }

theorem generate_run (trng : Trng) (d : Firmware) : (generate trng).run d =
    .ok (trng.answers trng.drawn, { trng with drawn := trng.drawn + 1 })
      { d with registeredTrng := some { trng with drawn := trng.drawn + 1 } } := rfl

theorem copyNonoverlapping_run {src : Bytes} {dst n : Nat} {d : Firmware} (hdst : dst + n ≤ d.memory.length)
    (hsrc : n ≤ src.length) :
    (copyNonoverlapping src dst n).run d = .ok () { d with memory := splice d.memory dst (src.take n) } := by
  have hcopy : memcpy d.memory dst src 0 n = some (splice d.memory dst (src.take n)) := by
    rw [memcpy_eq hdst (by omega), slice_zero]
  unfold copyNonoverlapping
  rw [EStateM.run_bind, EStateM.run_get]
  simp only [hcopy]
  rfl

section Loop

variable {output sz filled : Nat} {trng : Trng} {d : Firmware}

/-- Two writes side by side, and one draw before `n` more. -/
theorem afterDraws_next {pos n : Nat} {a b : Bytes} (hfits : pos + a.length ≤ d.memory.length) :
    afterDraws (afterDraws d trng 1 pos a) { trng with drawn := trng.drawn + 1 } n (pos + a.length) b =
      afterDraws d trng (n + 1) pos (a ++ b) := by
  simp only [afterDraws]
  rw [splice_beside hfits, Nat.add_assoc trng.drawn, Nat.add_comm 1]

theorem fillLoop_done (h : sz ≤ filled) : (fillLoop output sz filled trng).run d = .ok true d := by
  rw [fillLoop, if_neg (Nat.not_lt.2 h)]
  rfl

theorem fillLoop_failed_draw (h : filled < sz) (hdraw : trng.answers trng.drawn = none) :
    (fillLoop output sz filled trng).run d = .ok false (afterDraws d trng 1 (output + filled) []) := by
  rw [fillLoop, if_pos h, EStateM.run_bind, generate_run, afterDraws, splice_nil]
  simp only [hdraw]
  rfl

/-- **A pass of the loop**: one output, and as much of it as the request still takes. -/
theorem fillLoop_step {chunk : Array4x12} (h : filled < sz) (hroom : output + sz ≤ d.memory.length)
    (hdraw : trng.answers trng.drawn = some chunk) :
    (fillLoop output sz filled trng).run d =
      (fillLoop output sz (filled + min (sz - filled) 48) { trng with drawn := trng.drawn + 1 }).run
        (afterDraws d trng 1 (output + filled) (chunk.asBytes.take (sz - filled))) := by
  have hlen := chunk.length_asBytes
  have htake : chunk.asBytes.take (min (sz - filled) 48) = chunk.asBytes.take (sz - filled) := by
    rw [List.take_eq_take_iff, hlen]
    omega
  rw [fillLoop, if_pos h, EStateM.run_bind, generate_run]
  simp only [hdraw, hlen]
  rw [EStateM.run_bind, copyNonoverlapping_run (by simp only; omega) (by omega), htake]
  rfl

end Loop

theorem Trng.outputs_succ {answers : Nat → Option Array4x12} {n drawn : Nat} {bytes : Bytes} :
    outputs answers (n + 1) drawn = some bytes ↔
      ∃ chunk rest, answers drawn = some chunk ∧ outputs answers n (drawn + 1) = some rest ∧
        bytes = chunk.asBytes ++ rest := by
  simp only [outputs, Option.bind_eq_bind, Option.bind_eq_some_iff, Option.some.injEq]
  exact ⟨fun ⟨c, hc, r, hr, h⟩ => ⟨c, r, hc, hr, h.symm⟩, fun ⟨c, r, hc, hr, h⟩ => ⟨c, hc, r, hr, h.symm⟩⟩

/-- **The loop, when no draw fails**: the request is filled with the outputs, one after the other. -/
theorem fillLoop_filled (output sz : Nat) : ∀ (n filled : Nat) (trng : Trng) (d : Firmware) (bytes : Bytes),
    outputsFor (sz - filled) = n → d.registeredTrng = some trng → output + sz ≤ d.memory.length → filled ≤ sz →
    Trng.outputs trng.answers n trng.drawn = some bytes →
    (fillLoop output sz filled trng).run d = .ok true (afterDraws d trng n (output + filled) (bytes.take (sz - filled)))
  | 0, filled, trng, d, bytes, hn, hreg, _, _, hdraws => by
    have hend : sz ≤ filled := by unfold outputsFor at hn; omega
    cases hdraws
    rw [fillLoop_done hend, List.take_nil, afterDraws, splice_nil, Nat.add_zero, ← hreg]
  | n + 1, filled, trng, d, bytes, hn, hreg, hroom, hfilled, hdraws => by
    obtain ⟨hlt, hcount⟩ := outputsFor_rest hn
    obtain ⟨chunk, rest, hchunk, hrest, rfl⟩ := Trng.outputs_succ.1 hdraws
    have hwrote := chunk.length_take_asBytes (sz - filled)
    have hfits : output + filled + (chunk.asBytes.take (sz - filled)).length ≤ d.memory.length := by omega
    have hbytes : chunk.asBytes.take (sz - filled) ++ rest.take (sz - (filled + min (sz - filled) 48)) =
        (chunk.asBytes ++ rest).take (sz - filled) := by
      rw [List.take_append, chunk.length_asBytes]
      congr 2
      omega
    rw [fillLoop_step hlt hroom hchunk, fillLoop_filled output sz n _ _ _ rest hcount rfl
      (by rw [afterDraws, length_splice hfits]; exact hroom) (by omega) hrest]
    rw [← hbytes, ← hwrote, ← Nat.add_assoc output, afterDraws_next hfits]

/-- **The loop, when a draw fails**: it ends there, with nothing written beside the request. -/
theorem fillLoop_failed (output sz : Nat) : ∀ (n filled : Nat) (trng : Trng) (d : Firmware),
    outputsFor (sz - filled) = n → output + sz ≤ d.memory.length → filled ≤ sz →
    Trng.outputs trng.answers n trng.drawn = none →
    ∃ k written, k ≤ n ∧ written.length ≤ sz - filled ∧
      (fillLoop output sz filled trng).run d = .ok false (afterDraws d trng k (output + filled) written)
  | 0, _, _, _, _, _, _, hdraws => by cases hdraws
  | n + 1, filled, trng, d, hn, hroom, hfilled, hdraws => by
    obtain ⟨hlt, hcount⟩ := outputsFor_rest hn
    cases hchunk : trng.answers trng.drawn with
    | none => exact ⟨1, [], by omega, Nat.zero_le _, fillLoop_failed_draw hlt hchunk⟩
    | some chunk =>
      have hrest : Trng.outputs trng.answers n (trng.drawn + 1) = none := by
        cases hrest : Trng.outputs trng.answers n (trng.drawn + 1) with
        | none => rfl
        | some rest => rw [Trng.outputs_succ.2 ⟨chunk, rest, hchunk, hrest, rfl⟩] at hdraws; cases hdraws
      have hwrote := chunk.length_take_asBytes (sz - filled)
      have hfits : output + filled + (chunk.asBytes.take (sz - filled)).length ≤ d.memory.length := by omega
      obtain ⟨k, written, hk, hlen, hrun⟩ := fillLoop_failed output sz n (filled + min (sz - filled) 48)
        { trng with drawn := trng.drawn + 1 } (afterDraws d trng 1 (output + filled) (chunk.asBytes.take (sz - filled)))
        hcount (by rw [afterDraws, length_splice hfits]; exact hroom) (by omega) hrest
      refine ⟨k + 1, chunk.asBytes.take (sz - filled) ++ written, by omega, by rw [List.length_append]; omega, ?_⟩
      rw [fillLoop_step hlt hroom hchunk, hrun, ← hwrote, ← Nat.add_assoc output, afterDraws_next hfits]

/-! ## A request -/

section Request

variable {d : Firmware} {sz : BitVec 32} {output : Nat} {trng : Trng}

theorem seed_empty (out : Option Nat) (d : Firmware) : (caliptraHwGenerateSeed out 0).run d = .ok 0 d := rfl

theorem seed_null (hsz : sz ≠ 0) : (caliptraHwGenerateSeed none sz).run d = .ok (-1) d := by
  have hpos : sz.toNat ≠ 0 := fun h => hsz (BitVec.eq_of_toNat_eq h)
  unfold caliptraHwGenerateSeed
  rw [if_neg hpos]
  rfl

theorem seed_of_output (hsz : sz ≠ 0) : (caliptraHwGenerateSeed (some output) sz).run d =
    (match d.registeredTrng with
      | none => pure (-1)
      | some trng => do
        if ← fillLoop output sz.toNat 0 trng then
          modify fun d => { d with trngDispatchCount := d.trngDispatchCount + 1 }
          return 0
        else return -1 : Rng Int).run d := by
  have hpos : sz.toNat ≠ 0 := fun h => hsz (BitVec.eq_of_toNat_eq h)
  unfold caliptraHwGenerateSeed
  rw [if_neg hpos]
  rfl

theorem seed_unregistered (hsz : sz ≠ 0) (hreg : d.registeredTrng = none) :
    (caliptraHwGenerateSeed (some output) sz).run d = .ok (-1) d := by
  rw [seed_of_output hsz, hreg]
  rfl

theorem seed_filled {bytes : Bytes} (hsz : sz ≠ 0) (hreg : d.registeredTrng = some trng)
    (hroom : output + sz.toNat ≤ d.memory.length)
    (hdraws : Trng.outputs trng.answers (outputsFor sz.toNat) trng.drawn = some bytes) :
    (caliptraHwGenerateSeed (some output) sz).run d =
      .ok 0 { afterDraws d trng (outputsFor sz.toNat) output (bytes.take sz.toNat) with
        trngDispatchCount := d.trngDispatchCount + 1 } := by
  have hloop := fillLoop_filled output sz.toNat _ 0 trng d bytes rfl hreg hroom (Nat.zero_le _) hdraws
  rw [seed_of_output hsz, hreg]
  simp only
  rw [EStateM.run_bind, hloop]
  rfl

theorem seed_failed (hsz : sz ≠ 0) (hreg : d.registeredTrng = some trng) (hroom : output + sz.toNat ≤ d.memory.length)
    (hdraws : Trng.outputs trng.answers (outputsFor sz.toNat) trng.drawn = none) :
    ∃ k written, written.length ≤ sz.toNat ∧
      (caliptraHwGenerateSeed (some output) sz).run d = .ok (-1) (afterDraws d trng k output written) := by
  obtain ⟨k, written, _, hlen, hloop⟩ :=
    fillLoop_failed output sz.toNat _ 0 trng d rfl hroom (Nat.zero_le _) hdraws
  refine ⟨k, written, hlen, ?_⟩
  rw [seed_of_output hsz, hreg]
  simp only
  rw [EStateM.run_bind, hloop]
  rfl

end Request

/-- The firmware's TRNG after `n` draws more. -/
def Firmware.trngAfter (d : Firmware) (n : Nat) : Option Trng :=
  d.registeredTrng.map fun t => { t with drawn := t.drawn + n }

/-- The next `n` outputs of the registered TRNG. -/
def Firmware.outputs (d : Firmware) (n : Nat) : Option Bytes :=
  match d.registeredTrng with
  | some t => Trng.outputs t.answers n t.drawn
  | none => if n = 0 then some [] else none

/-- There is a buffer, and a TRNG none of whose draws for the request fails. -/
def Servable (d : Firmware) (output : Option Nat) (sz : Nat) : Prop :=
  output.isSome = true ∧ (d.outputs (outputsFor sz)).isSome = true

/-- **A request filled**: the first `sz` bytes of as many successive outputs as that takes, each drawn for it, in the
buffer, and no other byte changed. -/
def Filled (d : Firmware) (output : Option Nat) (sz : Nat) (d' : Firmware) : Prop :=
  ∃ bytes, d.outputs (outputsFor sz) = some bytes ∧ sz ≤ bytes.length ∧ d'.registeredTrng = d.trngAfter (outputsFor sz) ∧
    d'.memory = output.elim d.memory fun pos => splice d.memory pos (bytes.take sz)

/-- Nothing outside the request is changed. -/
def Beside (d : Firmware) (output : Option Nat) (sz : Nat) (d' : Firmware) : Prop :=
  match output with
  | some pos => d'.memory.length = d.memory.length ∧ d'.memory.take pos = d.memory.take pos ∧
      d'.memory.drop (pos + sz) = d.memory.drop (pos + sz)
  | none => d'.memory = d.memory

/-- **Counted**: once when it was served, not at all when it failed. -/
def Counted (d : Firmware) (r : Int) (d' : Firmware) : Prop :=
  (r = 0 → d'.trngDispatchCount = d.trngDispatchCount + 1) ∧ (r ≠ 0 → d'.trngDispatchCount = d.trngDispatchCount)

theorem splice_beside_request {b written : Bytes} {pos sz : Nat} (hroom : pos + sz ≤ b.length) (h : written.length ≤ sz) :
    (splice b pos written).length = b.length ∧ (splice b pos written).take pos = b.take pos ∧
      (splice b pos written).drop (pos + sz) = b.drop (pos + sz) := by
  have hlen : (b.take pos).length = pos := by rw [List.length_take]; omega
  refine ⟨length_splice (by omega), ?_, ?_⟩
  · rw [splice, List.append_assoc, List.take_left' hlen]
  · obtain ⟨k, rfl⟩ := Nat.exists_eq_add_of_le h
    have hfront : (b.take pos ++ written).length = pos + written.length := by rw [List.length_append, hlen]
    rw [splice, ← Nat.add_assoc, ← hfront, List.drop_length_add_append, hfront, List.drop_drop]

theorem beside_self (d : Firmware) (output : Option Nat) (sz : Nat) : Beside d output sz d := by
  cases output with
  | none => rfl
  | some pos => exact ⟨rfl, rfl, rfl⟩

theorem Firmware.trngAfter_zero (d : Firmware) : d.registeredTrng = d.trngAfter 0 := by
  unfold trngAfter
  cases d.registeredTrng <;> rfl

theorem filled_empty (d : Firmware) (output : Option Nat) : Filled d output 0 d := by
  refine ⟨[], ?_, Nat.le_refl 0, d.trngAfter_zero, ?_⟩
  · unfold Firmware.outputs
    cases d.registeredTrng <;> rfl
  · cases output with
    | none => rfl
    | some pos => exact (splice_nil d.memory pos).symm

/-- **What a request ends with**: it is served when it is empty, or when there is a buffer and no draw fails. -/
structure Outcome (d : Firmware) (output : Option Nat) (sz : BitVec 32) (r : Int) (d' : Firmware) : Prop where
  served : r = 0 ↔ sz = 0 ∨ Servable d output sz.toNat
  filled : r = 0 → Filled d output sz.toNat d'
  beside : Beside d output sz.toNat d'
  drawn : ∃ n, d'.registeredTrng = d.trngAfter n
  count : d'.trngDispatchCount = if r = 0 ∧ sz ≠ 0 then d.trngDispatchCount + 1 else d.trngDispatchCount

theorem outcome_refused {d d' : Firmware} {output : Option Nat} {sz : BitVec 32} (hsz : sz ≠ 0)
    (h : (d.outputs (outputsFor sz.toNat)).isSome = false ∨ output = none) (hbeside : Beside d output sz.toNat d')
    (hdrawn : ∃ n, d'.registeredTrng = d.trngAfter n) (hcount : d'.trngDispatchCount = d.trngDispatchCount) :
    Outcome d output sz (-1) d' where
  served := by
    refine iff_of_false (by decide) ?_
    rintro (hempty | ⟨hbuffer, hdraws⟩)
    · exact hsz hempty
    · rcases h with h | rfl
      · exact Bool.false_ne_true (h.symm.trans hdraws)
      · cases hbuffer
  filled := nofun
  beside := hbeside
  drawn := hdrawn
  count := hcount.trans (if_neg fun h => absurd h.1 (by decide)).symm

theorem seed_outcome (d : Firmware) (output : Option Nat) (sz : BitVec 32)
    (hroom : ∀ pos, output = some pos → pos + sz.toNat ≤ d.memory.length) :
    ∃ r d', (caliptraHwGenerateSeed output sz).run d = .ok r d' ∧ Outcome d output sz r d' := by
  by_cases hsz : sz = 0
  · subst hsz
    exact ⟨0, d, seed_empty output d, iff_of_true rfl (.inl rfl), fun _ => filled_empty d output, beside_self ..,
      ⟨0, d.trngAfter_zero⟩, (if_neg fun h => h.2 rfl).symm⟩
  have hpos : sz.toNat ≠ 0 := fun h => hsz (BitVec.eq_of_toNat_eq h)
  cases output with
  | none =>
    exact ⟨-1, d, seed_null hsz, outcome_refused hsz (.inr rfl) (beside_self ..) ⟨0, d.trngAfter_zero⟩ rfl⟩
  | some pos =>
    cases hreg : d.registeredTrng with
    | none =>
      have hnone : d.outputs (outputsFor sz.toNat) = none := by
        unfold Firmware.outputs outputsFor
        rw [hreg]
        exact if_neg (by omega)
      exact ⟨-1, d, seed_unregistered hsz hreg,
        outcome_refused hsz (.inl (by rw [hnone]; rfl)) (beside_self ..) ⟨0, d.trngAfter_zero⟩ rfl⟩
    | some trng =>
      have houtputs : d.outputs (outputsFor sz.toNat) = Trng.outputs trng.answers (outputsFor sz.toNat) trng.drawn := by
        unfold Firmware.outputs
        rw [hreg]
      have hafter : ∀ n, some { trng with drawn := trng.drawn + n } = d.trngAfter n := fun n => by
        rw [Firmware.trngAfter, hreg]
        rfl
      cases hdraws : Trng.outputs trng.answers (outputsFor sz.toNat) trng.drawn with
      | none =>
        obtain ⟨k, written, hlen, hrun⟩ := seed_failed hsz hreg (hroom pos rfl) hdraws
        exact ⟨-1, _, hrun, outcome_refused hsz (.inl (by rw [houtputs, hdraws]; rfl))
          (splice_beside_request (hroom pos rfl) hlen) ⟨k, hafter k⟩ rfl⟩
      | some bytes =>
        have hlen := Trng.length_outputs _ _ _ hdraws
        have hbytes : sz.toNat ≤ bytes.length := by rw [hlen, outputsFor]; omega
        have hserved : (d.outputs (outputsFor sz.toNat)).isSome = true := by rw [houtputs, hdraws]; rfl
        exact ⟨0, _, seed_filled hsz hreg (hroom pos rfl) hdraws, iff_of_true rfl (.inr ⟨rfl, hserved⟩),
          fun _ => ⟨bytes, houtputs.trans hdraws, hbytes, hafter _, rfl⟩,
          splice_beside_request (hroom pos rfl) (List.length_take_le _ _), ⟨_, hafter _⟩, (if_pos ⟨rfl, hsz⟩).symm⟩

/-- **A request is filled with fresh output and counted**, except that an empty one changes nothing, the counter
included. -/
theorem seed_counted (d : Firmware) (output : Option Nat) (sz : BitVec 32)
    (hroom : ∀ pos, output = some pos → pos + sz.toNat ≤ d.memory.length) :
    ∃ r d', (caliptraHwGenerateSeed output sz).run d = .ok r d' ∧ (r = 0 → Filled d output sz.toNat d') ∧
      Beside d output sz.toNat d' ∧ (sz ≠ 0 → Counted d r d') ∧ (sz = 0 → r = 0 ∧ d' = d) := by
  obtain ⟨r, d', hrun, hend⟩ := seed_outcome d output sz hroom
  refine ⟨r, d', hrun, hend.filled, hend.beside, ?_, ?_⟩
  · intro hsz
    refine ⟨fun hr => ?_, fun hr => ?_⟩
    · rw [hend.count, if_pos ⟨hr, hsz⟩]
    · rw [hend.count, if_neg fun h => hr h.1]
  · rintro rfl
    rw [seed_empty] at hrun
    cases hrun
    exact ⟨rfl, rfl⟩

/-- A TRNG with the number of the draw in every word. -/
def countingTrng : Trng := ⟨fun n => some ⟨List.replicate 12 (UInt32.ofNat n), List.length_replicate⟩, 0⟩

theorem seed_counted_fifty :
    ∃ r d', (caliptraHwGenerateSeed (some 3) 50).run ⟨some countingTrng, 0, List.replicate 60 255⟩ = .ok r d' ∧
      (r = 0 → Filled ⟨some countingTrng, 0, List.replicate 60 255⟩ (some 3) 50 d') ∧
      Beside ⟨some countingTrng, 0, List.replicate 60 255⟩ (some 3) 50 d' ∧
      ((50 : BitVec 32) ≠ 0 → Counted ⟨some countingTrng, 0, List.replicate 60 255⟩ r d') ∧
      ((50 : BitVec 32) = 0 → r = 0 ∧ d' = ⟨some countingTrng, 0, List.replicate 60 255⟩) :=
  seed_counted _ _ 50 fun pos h => by
    cases h
    decide

/-- An empty request to a firmware without a TRNG is answered with success and not counted. -/
theorem empty_request_uncounted :
    ∃ d' : Firmware, (caliptraHwGenerateSeed (some 0) 0).run ⟨none, 5, [1, 2]⟩ = .ok 0 d' ∧ d'.trngDispatchCount = 5 ∧
      ¬ Counted ⟨none, 5, [1, 2]⟩ 0 d' :=
  ⟨⟨none, 5, [1, 2]⟩, rfl, rfl, fun h => absurd (h.1 rfl) (by decide)⟩

/-! ## Calls one after the other -/

inductive Call where
  | registerTrng (trng : Trng)
  | resetTrngDispatchCount
  | generateRandomBlock (output : Option Nat) (sz : BitVec 32)

/-- A call, with its answer if it has one. -/
def Call.perform : Call → Rng (Option Int)
  | .registerTrng trng => do
    DpeHw.registerTrng trng
    pure none
  | .resetTrngDispatchCount => do
    DpeHw.resetTrngDispatchCount
    pure none
  | .generateRandomBlock output sz => do
    let r ← caliptraGenerateRandomBlock output sz
    pure (some r)

def performAll : List Call → Rng (List (Option Int))
  | [] => pure []
  | c :: cs => do
    let answer ← c.perform
    let answers ← performAll cs
    pure (answer :: answers)

/-- The buffer of a request lies in the memory. -/
def Call.InRoom (room : Nat) : Call → Prop
  | .generateRandomBlock output sz => ∀ pos, output = some pos → pos + sz.toNat ≤ room
  | _ => True

/-- What a call makes of the count: a reset forgets it, a request for some bytes that is served adds to it. -/
def Call.tally (count : BitVec 32) : Call → Option Int → BitVec 32
  | .resetTrngDispatchCount, _ => 0
  | .generateRandomBlock _ sz, some r => if r = 0 ∧ sz ≠ 0 then count + 1 else count
  | _, _ => count

theorem perform_outcome (c : Call) (d : Firmware) (hroom : c.InRoom d.memory.length) :
    ∃ answer d', c.perform.run d = .ok answer d' ∧ d'.memory.length = d.memory.length ∧
      d'.trngDispatchCount = c.tally d.trngDispatchCount answer := by
  cases c with
  | registerTrng trng => exact ⟨none, _, rfl, rfl, rfl⟩
  | resetTrngDispatchCount => exact ⟨none, _, rfl, rfl, rfl⟩
  | generateRandomBlock output sz =>
    obtain ⟨r, d', hrun, hend⟩ := seed_outcome d output sz hroom
    refine ⟨some r, d', ?_, ?_, hend.count⟩
    · rw [Call.perform, caliptraGenerateRandomBlock, EStateM.run_bind, hrun]
      rfl
    · cases output with
      | none => exact congrArg List.length hend.beside
      | some pos => exact hend.beside.1

/-- **Over any run of calls** the counter holds the requests served since it was last reset. -/
theorem performAll_outcome : ∀ (cs : List Call) (d : Firmware), (∀ c ∈ cs, c.InRoom d.memory.length) →
    ∃ answers d', (performAll cs).run d = .ok answers d' ∧ d'.memory.length = d.memory.length ∧
      d'.trngDispatchCount = (cs.zip answers).foldl (fun n p => p.1.tally n p.2) d.trngDispatchCount
  | [], d, _ => ⟨[], d, rfl, rfl, rfl⟩
  | c :: cs, d, hroom => by
    obtain ⟨a, d₁, hrun, hlen, hcount⟩ := perform_outcome c d (hroom c List.mem_cons_self)
    obtain ⟨as, d₂, hruns, hlens, hcounts⟩ := performAll_outcome cs d₁ fun q hq => by
      rw [hlen]
      exact hroom q (List.mem_cons_of_mem _ hq)
    refine ⟨a :: as, d₂, ?_, hlens.trans hlen, ?_⟩
    · rw [performAll, EStateM.run_bind, hrun]
      simp only
      rw [EStateM.run_bind, hruns]
      rfl
    · rw [hcounts, hcount, List.zip_cons_cons, List.foldl_cons]

end DpeHw
end Wolf
