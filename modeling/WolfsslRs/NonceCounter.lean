import WolfsslRs.Bytes
import Mathlib.Data.List.Nodup
/-!
# NonceCounter — `Counter32` and `Counter64`, two counter nonce sequences

`counter32.rs` and `counter64.rs` are one text with two widths: an identifier, a counter that wraps, a limit, and a
count of the nonces generated that failing calls move as well.  `Layout` holds the widths, `advance` is the shared
body, and `Counter32`/`Counter64` are its two instances.

The whole run has a closed form (`run_after`): call number `n` returns the nonce of `start + n` while `n` is below the
limit and an error from then on.  Distinctness, the limit and the sticky error are read off it, and so is what the
getters show after a run (`counter_accounts_iff`).
-/
namespace Wolf
namespace Aead

/-- `NONCE_LEN`: all the AEADs use 96-bit nonces. -/
def nonceLen : Nat := 96 / 8

/-- How a sequence fills a nonce: `idLen` identifier bytes, then the bytes of a `width`-bit counter. -/
structure Layout where
  width : Nat
  idLen : Nat
  whole : 8 * (width / 8) = width
  fits : idLen + width / 8 = nonceLen

/-- The layout of `Counter32`: an 8-byte identifier and a 32-bit counter. -/
def counter32 : Layout := ⟨32, 8, rfl, rfl⟩

/-- The layout of `Counter64`: a 4-byte identifier and a 64-bit counter. -/
def counter64 : Layout := ⟨64, 4, rfl, rfl⟩

/-- A nonce: exactly `NONCE_LEN` bytes. -/
structure Nonce where
  bytes : Bytes
  len : bytes.length = nonceLen
deriving DecidableEq

/-- `error::Unspecified`, which says nothing about the cause. -/
inductive Unspecified
  | unspecified
deriving DecidableEq

structure Counter (L : Layout) where
  limit : BitVec L.width
  generated : BitVec L.width
  identifier : Vector UInt8 L.idLen
  counter : BitVec L.width

structure CounterBuilder (L : Layout) where
  limit : BitVec L.width
  identifier : Vector UInt8 L.idLen
  counter : BitVec L.width

abbrev Counter32 := Counter counter32
abbrev Counter64 := Counter counter64
abbrev Counter32Builder := CounterBuilder counter32
abbrev Counter64Builder := CounterBuilder counter64

variable {L : Layout}

/-- `new`, which is also `Default`: the limit is the largest value of the width. -/
def CounterBuilder.new : CounterBuilder L :=
  { limit := BitVec.allOnes L.width, identifier := Vector.replicate L.idLen 0, counter := 0 }

def CounterBuilder.build (b : CounterBuilder L) : Counter L :=
  { limit := b.limit, generated := 0, identifier := b.identifier, counter := b.counter }

/-- `to_be_bytes` of the counter. -/
def toBeBytes (n : BitVec L.width) : Bytes := beBytes (L.width / 8) n.toNat

/-- The identifier in front, the counter bytes behind it. -/
def nonceOf (identifier : Vector UInt8 L.idLen) (counter : BitVec L.width) : Nonce :=
  ⟨identifier.toList ++ toBeBytes counter, by simp [toBeBytes, L.fits]⟩

/-- `checked_add(1)`: nothing when the sum leaves the width. -/
def checkedAddOne {w : Nat} (x : BitVec w) : Option (BitVec w) :=
  if x.toNat + 1 < 2 ^ w then some (x + 1) else none

/-- `NonceSequence::advance`. -/
def Counter.advance (c : Counter L) : Except Unspecified Nonce × Counter L :=
  match checkedAddOne c.generated with
  | none => (.error .unspecified, c)
  | some generated =>
    -- the count is stored before the limit is looked at, so a refused call moves it too
    if c.limit < generated then (.error .unspecified, { c with generated := generated })
    else
      (.ok (nonceOf c.identifier c.counter), { c with generated := generated, counter := c.counter + 1 })

/-- `n` calls of `advance` in a row: what they returned, and the sequence after them. -/
def Counter.run : Nat → Counter L → List (Except Unspecified Nonce) × Counter L
  | 0, c => ([], c)
  | n + 1, c => ((c.advance.1 :: (run n c.advance.2).1), (run n c.advance.2).2)

/-- The nonces among the results of a run. -/
def returned (rs : List (Except Unspecified Nonce)) : List Nonce := rs.filterMap Except.toOption

/-! ## The closed form of a run -/

/-- What call number `n` returns. -/
def CounterBuilder.resultAt (b : CounterBuilder L) (n : Nat) : Except Unspecified Nonce :=
  if n < b.limit.toNat then .ok (nonceOf b.identifier (b.counter + BitVec.ofNat L.width n))
  else .error .unspecified

/-- The sequence after `n` calls: the count stops at the largest value of the width, the counter at the limit. -/
def CounterBuilder.after (b : CounterBuilder L) (n : Nat) : Counter L :=
  { limit := b.limit
    generated := BitVec.ofNat L.width (min n (2 ^ L.width - 1))
    identifier := b.identifier
    counter := b.counter + BitVec.ofNat L.width (min n b.limit.toNat) }

theorem build_eq_after (b : CounterBuilder L) : b.build = b.after 0 := by
  simp [CounterBuilder.build, CounterBuilder.after]

theorem generated_after (b : CounterBuilder L) (n : Nat) :
    (b.after n).generated.toNat = min n (2 ^ L.width - 1) := by
  have hpos : 0 < 2 ^ L.width := Nat.pow_pos (by decide)
  simp only [CounterBuilder.after, BitVec.toNat_ofNat]
  exact Nat.mod_eq_of_lt (by omega)

/-- The count leaves its width exactly when it has reached the largest value. -/
theorem checkedAddOne_generated (b : CounterBuilder L) (n : Nat) :
    checkedAddOne (b.after n).generated =
      if n < 2 ^ L.width - 1 then some (b.after (n + 1)).generated else none := by
  unfold checkedAddOne
  rw [generated_after]
  by_cases hn : n < 2 ^ L.width - 1
  · rw [if_pos (by omega), if_pos hn]
    simp only [CounterBuilder.after, Option.some.injEq]
    rw [show min (n + 1) (2 ^ L.width - 1) = min n (2 ^ L.width - 1) + 1 by omega, BitVec.ofNat_add]
    rfl
  · rw [if_neg (by omega), if_neg hn]

/-- **One call moves the closed form on by one.** -/
theorem advance_after (b : CounterBuilder L) (n : Nat) :
    (b.after n).advance = (b.resultAt n, b.after (n + 1)) := by
  have hlim : b.limit.toNat < 2 ^ L.width := b.limit.isLt
  unfold Counter.advance
  rw [checkedAddOne_generated]
  by_cases hn : n < 2 ^ L.width - 1
  · rw [if_pos hn]
    have hgen : (b.after (n + 1)).generated.toNat = n + 1 := by
      rw [generated_after, Nat.min_eq_left (by omega)]
    have hcmp : (b.after n).limit < (b.after (n + 1)).generated ↔ b.limit.toNat < n + 1 := by
      rw [BitVec.lt_def, hgen]; rfl
    simp only [hcmp]
    by_cases hl : n < b.limit.toNat
    · rw [if_neg (by omega)]
      have hcount : min (n + 1) b.limit.toNat = min n b.limit.toNat + 1 := by omega
      simp only [CounterBuilder.resultAt, hl, if_true, CounterBuilder.after, hcount, BitVec.ofNat_add,
        Nat.min_eq_left (Nat.le_of_lt hl)]
      rw [BitVec.add_assoc]; rfl
    · rw [if_pos (by omega)]
      have hcount : min (n + 1) b.limit.toNat = min n b.limit.toNat := by omega
      simp only [CounterBuilder.resultAt, hl, if_false, CounterBuilder.after, hcount]
  · rw [if_neg hn]
    have hl : ¬ n < b.limit.toNat := by omega
    have hcount : min (n + 1) b.limit.toNat = min n b.limit.toNat := by omega
    have hgen : min (n + 1) (2 ^ L.width - 1) = min n (2 ^ L.width - 1) := by omega
    simp only [CounterBuilder.resultAt, hl, if_false, CounterBuilder.after, hcount, hgen]

/-- **A run from call `m` on**: the results of calls `m`, `m + 1`, …, in order. -/
theorem run_after (b : CounterBuilder L) : ∀ (n m : Nat),
    (b.after m).run n = ((List.range' m n).map b.resultAt, b.after (m + n))
  | 0, m => by simp [Counter.run]
  | n + 1, m => by
    rw [Counter.run, advance_after, run_after b n (m + 1), List.range'_succ, List.map_cons]
    simp only [Prod.mk.injEq, true_and]
    rw [Nat.add_assoc, Nat.add_comm 1 n]

theorem run_build (b : CounterBuilder L) (n : Nat) :
    (b.build.run n).1 = (List.range n).map b.resultAt := by
  rw [build_eq_after, run_after, List.range_eq_range']

/-! ## What the results are -/

theorem returned_resultAt (b : CounterBuilder L) (n : Nat) :
    returned ((List.range n).map b.resultAt) =
      (List.range (min n b.limit.toNat)).map
        (fun i => nonceOf b.identifier (b.counter + BitVec.ofNat L.width i)) := by
  induction n with
  | zero => simp [returned]
  | succ n ih =>
    rw [List.range_succ, List.map_append, returned, List.filterMap_append]
    rw [returned] at ih
    rw [ih]
    by_cases hl : n < b.limit.toNat
    · rw [Nat.min_eq_left (Nat.le_of_lt hl), Nat.min_eq_left hl, List.range_succ, List.map_append]
      simp [CounterBuilder.resultAt, hl, Except.toOption]
    · rw [show min (n + 1) b.limit.toNat = min n b.limit.toNat by omega]
      simp [CounterBuilder.resultAt, hl, Except.toOption]

theorem nonceOf_inj {identifier : Vector UInt8 L.idLen} {x y : BitVec L.width}
    (h : nonceOf identifier x = nonceOf identifier y) : x = y := by
  have hb : toBeBytes x = toBeBytes y := by
    have := congrArg Nonce.bytes h
    exact List.append_cancel_left this
  have hw : 256 ^ (L.width / 8) = 2 ^ L.width := by
    rw [show (256 : Nat) = 2 ^ 8 from rfl, ← Nat.pow_mul, L.whole]
  exact BitVec.eq_of_toNat_eq (beBytes_inj (hw ▸ x.isLt) (hw ▸ y.isLt) hb)

theorem add_ofNat_inj {w i j : Nat} (start : BitVec w) (hi : i < 2 ^ w) (hj : j < 2 ^ w)
    (h : start + BitVec.ofNat w i = start + BitVec.ofNat w j) : i = j := by
  have h' : BitVec.ofNat w i = BitVec.ofNat w j := by
    have := congrArg (fun z => z - start) h
    simpa [BitVec.add_comm start, BitVec.add_sub_cancel] using this
  have := congrArg BitVec.toNat h'
  rwa [BitVec.toNat_ofNat, BitVec.toNat_ofNat, Nat.mod_eq_of_lt hi, Nat.mod_eq_of_lt hj] at this

theorem returned_nodup (b : CounterBuilder L) (n : Nat) : (returned (b.build.run n).1).Nodup := by
  rw [run_build, returned_resultAt]
  have hlim : b.limit.toNat < 2 ^ L.width := b.limit.isLt
  refine List.Nodup.map_on ?_ List.nodup_range
  intro i hi j hj hij
  rw [List.mem_range] at hi hj
  exact add_ofNat_inj b.counter (by omega) (by omega) (nonceOf_inj hij)

theorem returned_length_le (b : CounterBuilder L) (n : Nat) :
    (returned (b.build.run n).1).length ≤ b.limit.toNat := by
  rw [run_build, returned_resultAt, List.length_map, List.length_range]
  exact Nat.min_le_right _ _

/-- **A refused call is followed by refused calls only.** -/
theorem error_sticky (b : CounterBuilder L) (n i j : Nat) (hij : i ≤ j) (hj : j < n)
    (hi : (b.build.run n).1[i]? = some (.error .unspecified)) :
    (b.build.run n).1[j]? = some (.error .unspecified) := by
  rw [run_build] at hi ⊢
  simp only [List.getElem?_map, List.getElem?_range hj, List.getElem?_range (Nat.lt_of_le_of_lt hij hj),
    Option.map_some, Option.some.injEq, CounterBuilder.resultAt] at hi ⊢
  split at hi
  · cases hi
  · rw [if_neg (by omega)]

/-- What a nonce sequence owes its key over a run of `n` calls: no nonce twice, at most `limit` of them, and no nonce
after an error. -/
def SequenceSound (b : CounterBuilder L) (n : Nat) : Prop :=
  (returned (b.build.run n).1).Nodup ∧
  (returned (b.build.run n).1).length ≤ b.limit.toNat ∧
  ∀ i j : Nat, i ≤ j → j < n → (b.build.run n).1[i]? = some (.error .unspecified) →
    (b.build.run n).1[j]? = some (.error .unspecified)

theorem sequenceSound (b : CounterBuilder L) (n : Nat) : SequenceSound b n :=
  ⟨returned_nodup b n, returned_length_le b n, fun i j hij hj => error_sticky b n i j hij hj⟩

/-- **Every run of a `Counter32` or `Counter64` is sound**, from any start, identifier and limit. -/
theorem counter_runs_sound :
    (∀ (b : Counter32Builder) (n : Nat), SequenceSound b n) ∧
    (∀ (b : Counter64Builder) (n : Nat), SequenceSound b n) :=
  ⟨sequenceSound, sequenceSound⟩

/-- A counter that starts at its largest value wraps, and stops at its limit of two. -/
example : (returned (CounterBuilder.build (L := counter32) ⟨2, Vector.replicate 8 7, 0xFFFFFFFF⟩ |>.run 4).1).map
    (fun x => x.bytes.drop 8) = [[255, 255, 255, 255], [0, 0, 0, 0]] := by decide

/-! ## What the getters show -/

theorem run_build_after (b : CounterBuilder L) (n : Nat) : (b.build.run n).2 = b.after n := by
  rw [build_eq_after, run_after, Nat.zero_add]

theorem length_returned (b : CounterBuilder L) (n : Nat) :
    (returned (b.build.run n).1).length = min n b.limit.toNat := by
  rw [run_build, returned_resultAt, List.length_map, List.length_range]

theorem counter_after_run (b : CounterBuilder L) (n : Nat) :
    (b.build.run n).2.counter = b.counter + BitVec.ofNat L.width (returned (b.build.run n).1).length := by
  rw [run_build_after, length_returned]
  rfl

/-- A refused call leaves the sequence as it was. -/
def Counter.KeepsRefused (c : Counter L) : Prop := c.advance.1 = .error .unspecified → c.advance.2 = c

/-- **The getters account for a run** of `n` calls: `generated()` is the number of nonces returned and within `limit()`,
and none of the calls that were refused changed anything. -/
def Accounts (b : CounterBuilder L) (n : Nat) : Prop :=
  (b.build.run n).2.generated.toNat = (returned (b.build.run n).1).length ∧
  (b.build.run n).2.generated ≤ (b.build.run n).2.limit ∧
  ∀ i < n, (b.build.run i).2.KeepsRefused

/-- The count of calls and the count of nonces part at the first refused call below the largest limit. -/
theorem generated_eq_iff (b : CounterBuilder L) (n : Nat) :
    (b.after n).generated.toNat = min n b.limit.toNat ↔ n ≤ b.limit.toNat ∨ b.limit = BitVec.allOnes L.width := by
  have hlim : b.limit.toNat < 2 ^ L.width := b.limit.isLt
  have htop : b.limit = BitVec.allOnes L.width ↔ b.limit.toNat = 2 ^ L.width - 1 := by
    rw [← BitVec.toNat_inj, BitVec.toNat_allOnes]
  rw [generated_after, htop]
  omega

theorem keepsRefused_after (b : CounterBuilder L) (n : Nat)
    (h : n < b.limit.toNat ∨ b.limit = BitVec.allOnes L.width) : (b.after n).KeepsRefused := by
  intro hrefused
  rw [advance_after] at hrefused ⊢
  by_cases hn : n < b.limit.toNat
  · rw [CounterBuilder.resultAt, if_pos hn] at hrefused
    cases hrefused
  · -- the limit is the largest value of the width, and so is the count
    have htop : b.limit.toNat = 2 ^ L.width - 1 := by rw [h.resolve_left hn, BitVec.toNat_allOnes]
    have hgen : min (n + 1) (2 ^ L.width - 1) = min n (2 ^ L.width - 1) := by omega
    have hcount : min (n + 1) b.limit.toNat = min n b.limit.toNat := by omega
    simp only [CounterBuilder.after, hgen, hcount]

theorem accounts_iff (b : CounterBuilder L) (n : Nat) :
    Accounts b n ↔ n ≤ b.limit.toNat ∨ b.limit = BitVec.allOnes L.width := by
  unfold Accounts
  simp only [run_build_after, length_returned]
  constructor
  · exact fun h => (generated_eq_iff b n).1 h.1
  · intro h
    have hgen := (generated_eq_iff b n).2 h
    refine ⟨hgen, ?_, fun i hi => keepsRefused_after b i (h.imp_left (by omega))⟩
    rw [BitVec.le_def, hgen]
    exact Nat.min_le_right _ _

/-- **`counter()` is always the start plus the nonces returned; `generated()` counts them exactly as long as no call is
refused**, or if the limit is the largest there is, which is the default.  `Counter32` and `Counter64` alike. -/
theorem counter_accounts_iff (b : CounterBuilder L) (n : Nat) :
    (b.build.run n).2.counter.toNat = (b.counter.toNat + (returned (b.build.run n).1).length) % 2 ^ L.width ∧
    (Accounts b n ↔ n ≤ b.limit.toNat ∨ b.limit = BitVec.allOnes L.width) := by
  refine ⟨?_, accounts_iff b n⟩
  rw [counter_after_run, BitVec.toNat_add, BitVec.toNat_ofNat, Nat.add_mod_mod]

/-- **One refused call of a `Counter32` with limit 0 is counted as a nonce generated.** -/
theorem refused_call_counted :
    (returned (CounterBuilder.build (L := counter32) ⟨0, Vector.replicate 8 0, 7⟩ |>.run 1).1).length = 0 ∧
    (CounterBuilder.build (L := counter32) ⟨0, Vector.replicate 8 0, 7⟩ |>.run 1).2.generated = 1 := by
  decide

end Aead
end Wolf
