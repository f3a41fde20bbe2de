import WolfsslRs.CMemory
import Mathlib.Data.List.Range
import Mathlib.Tactic
/-!
# KdfShim — the HMAC key derivations of `compat_shim.c`

`KBKDF_ctr_hmac` and `SSKDF_hmac` run the same loop: one HMAC per value of a 32-bit counter, its output copied behind
what is there.  Lengths come as `size_t` and go to wolfSSL's HMAC as `int`.  HMAC is a parameter that answers each call
as it likes, correct (`Hmac.Correct`) for the lengths that are not negative.  A `none` is an access outside an object,
or a loop that does not end.
-/
namespace Wolf
namespace Kdf

/-- `(int)n` of a `size_t`. -/
def toInt (n : Nat) : Int := if n % 2 ^ 32 < 2 ^ 31 then (n % 2 ^ 32 : Nat) else (n % 2 ^ 32 : Nat) - 2 ^ 32

/-- `wolfSSL_EVP_MD_size` and `wolfSSL_EVP_MD_block_size`. -/
structure Digest where
  size : Int
  blockSize : Int
  deriving DecidableEq, Repr

/-- An HMAC context: the key it was given and the message so far. -/
structure Ctx where
  key : Bytes
  msg : Bytes
  deriving DecidableEq, Repr

/-- wolfSSL's HMAC with one digest.  The calls of the `k`-th block get a number; a call that does not return 1 is
`none`. -/
structure Hmac where
  mac : Bytes → Bytes → Bytes
  ctxNew : Bool
  initEx : Nat → Bytes → Int → Option Ctx
  update : Nat → Ctx → Bytes → Int → Option Ctx
  final : Nat → Ctx → Option Bytes

/-- **HMAC is correct for the length it receives**, if that is one: a call that returns 1 took so many bytes. -/
structure Hmac.Correct (h : Hmac) (size : Nat) : Prop where
  length_mac : ∀ key msg, (h.mac key msg).length = size
  initEx_eq : ∀ k key len ctx, 0 ≤ len → h.initEx k key len = some ctx → ctx = ⟨key.take len.toNat, []⟩
  update_eq : ∀ k ctx data len ctx', 0 ≤ len → h.update k ctx data len = some ctx' →
    ctx' = ⟨ctx.key, ctx.msg ++ data.take len.toNat⟩
  final_eq : ∀ k ctx d, h.final k ctx = some d → d = h.mac ctx.key ctx.msg

/-- The return value, the output buffer, and the values the counter had for the blocks in it. -/
structure Derived where
  ret : Int
  out : Bytes
  counters : List Nat
  deriving DecidableEq

/-! ## The functions -/

/-- The updates after the counter: buffers with the lengths the caller gave. -/
def updates (h : Hmac) (k : Nat) : List (Bytes × Nat) → Ctx → Option Ctx
  | [], ctx => some ctx
  | p :: ps, ctx => do
    let ctx ← h.update k ctx p.1 (toInt p.2)
    updates h k ps ctx

def hmacBlock (h : Hmac) (key : Bytes × Nat) (parts : List (Bytes × Nat)) (k i : Nat) : Option Bytes := do
  let ctx ← h.initEx k key.1 (toInt key.2)
  let ctx ← h.update k ctx (beBytes 4 i) 4
  let ctx ← updates h k parts ctx
  h.final k ctx

/-- `for (unsigned int i = 1; done < out_len; i++)` for at most `fuel` passes. -/
def deriveLoop (block : Nat → Nat → Option Bytes) (outLen : Nat) : Nat → Nat → Nat → Bytes → List Nat → Option Derived
  | 0, _, done, out, counters => if done < outLen then none else some ⟨1, out, counters⟩
  | fuel + 1, i, done, out, counters =>
    if done < outLen then
      match block counters.length i with
      | none => some ⟨0, out, counters⟩
      | some mac => do
        let out ← memcpy out done mac 0 (min (outLen - done) mac.length)
        deriveLoop block outLen fuel ((i + 1) % 2 ^ 32) (done + min (outLen - done) mac.length) out (counters ++ [i])
    else some ⟨1, out, counters⟩

/-- Both functions behind their checks. -/
def derive (h : Hmac) (key : Bytes × Nat) (parts : List (Bytes × Nat)) (out : Bytes) (outLen : Nat) : Option Derived :=
  if h.ctxNew then deriveLoop (hmacBlock h key parts) outLen outLen 1 0 out [] else some ⟨0, out, []⟩

/-- `if (info != NULL && info_len > 0)`. -/
def infoPart (info : Option Bytes) (infoLen : Nat) : List (Bytes × Nat) :=
  match info with
  | none => []
  | some info => if 0 < infoLen then [(info, infoLen)] else []

def refused (out : Option Bytes) : Option Derived := some ⟨0, out.getD [], []⟩

def kbkdfCtrHmac (h : Hmac) (out : Option Bytes) (outLen : Nat) (digest : Option Digest) (key : Option Bytes)
    (keyLen : Nat) (info : Option Bytes) (infoLen : Nat) : Option Derived :=
  match out, digest, key with
  | some o, some d, some key =>
    if outLen = 0 ∨ keyLen = 0 then refused out
    else if d.size ≤ 0 ∨ 64 < d.size then refused out
    -- the sum is one of `size_t`
    else if 0xFFFFFFFF < (outLen + d.size.toNat - 1) % 2 ^ 64 / d.size.toNat then refused out
    else derive h (key, keyLen) (infoPart info infoLen) o outLen
  | _, _, _ => refused out

/-- The salt the loop uses: the caller's, or one block of zeros. -/
def saltOf (d : Digest) (salt : Option Bytes) (saltLen : Nat) : Option (Bytes × Nat) :=
  let default := if d.blockSize ≤ 0 ∨ 144 < d.blockSize then none
    else some (List.replicate d.blockSize.toNat 0, d.blockSize.toNat)
  match salt with
  | none => default
  | some salt => if saltLen = 0 then default else some (salt, saltLen)

def sskdfHmac (h : Hmac) (out : Option Bytes) (outLen : Nat) (digest : Option Digest) (secret : Option Bytes)
    (secretLen : Nat) (info : Option Bytes) (infoLen : Nat) (salt : Option Bytes) (saltLen : Nat) : Option Derived :=
  match out, digest, secret with
  | some o, some d, some secret =>
    if outLen = 0 ∨ secretLen = 0 then refused out
    else if d.size ≤ 0 ∨ 64 < d.size then refused out
    else
      match saltOf d salt saltLen with
      | none => refused out
      | some salt => derive h salt ((secret, secretLen) :: infoPart info infoLen) o outLen
  | _, _, _ => refused out

/-! ## What the loop computes -/

/-- The counter of the `j`-th block, from 0 on, as an `unsigned int`. -/
def counterAt (j : Nat) : Nat := (j + 1) % 2 ^ 32

/-- The first `m` blocks, `B` of their counters one after the other. -/
def stream (B : Nat → Bytes) (m : Nat) : Bytes := (List.range m).flatMap fun j => B (counterAt j)

def countersOf (m : Nat) : List Nat := (List.range m).map counterAt

theorem stream_succ (B : Nat → Bytes) (m : Nat) : stream B (m + 1) = stream B m ++ B (counterAt m) := by
  rw [stream, List.range_succ, List.flatMap_append, List.flatMap_singleton, ← stream]

theorem countersOf_succ (m : Nat) : countersOf (m + 1) = countersOf m ++ [counterAt m] := by
  rw [countersOf, List.range_succ, List.map_append, List.map_singleton, ← countersOf]

@[simp] theorem length_countersOf (m : Nat) : (countersOf m).length = m := by
  rw [countersOf, List.length_map, List.length_range]

theorem length_stream {B : Nat → Bytes} {size : Nat} (hB : ∀ i, (B i).length = size) : ∀ m : Nat,
    (stream B m).length = m * size
  | 0 => by rw [Nat.zero_mul]; rfl
  | m + 1 => by rw [stream_succ, List.length_append, length_stream hB m, hB, Nat.succ_mul]

/-- A run that ended with 1 has all blocks up to the length, cut at it. -/
def Complete (B : Nat → Bytes) (outLen size : Nat) (r : Derived) : Prop :=
  r.out = (stream B ((outLen + size - 1) / size)).take outLen ∧ r.counters = countersOf ((outLen + size - 1) / size)

theorem counterAt_succ (m : Nat) : (counterAt m + 1) % 2 ^ 32 = counterAt (m + 1) := by
  unfold counterAt
  rw [Nat.mod_add_mod]

theorem deriveLoop_done (block : Nat → Nat → Option Bytes) (outLen fuel i : Nat) (out : Bytes) (counters : List Nat) :
    deriveLoop block outLen fuel i outLen out counters = some ⟨1, out, counters⟩ := by
  cases fuel with
  | zero => rw [deriveLoop, if_neg (Nat.lt_irrefl _)]
  | succ fuel => rw [deriveLoop, if_neg (Nat.lt_irrefl _)]

theorem memcpy_behind {s rest d : Bytes} {t : Nat} (hd : t ≤ d.length) (hrest : t ≤ rest.length) :
    memcpy (s ++ rest) s.length d 0 t = some (s ++ d.take t ++ rest.drop t) := by
  rw [memcpy_eq (by rw [List.length_append]; omega) (by omega), slice_zero, splice_append_right, splice_zero,
    List.length_take, Nat.min_eq_left hd, List.append_assoc]

theorem blocks_eq {size m l : Nat} (hlo : 1 ≤ l) (hhi : l ≤ size) : (m * size + l + size - 1) / size = m + 1 := by
  have h : m * size + l + size - 1 = size * (m + 1) + (l - 1) := by
    rw [Nat.mul_add, Nat.mul_comm size m]
    omega
  rw [h, Nat.mul_add_div (by omega), Nat.div_eq_of_lt (by omega), Nat.add_zero]

theorem blocks_lt_iff {size outLen : Nat} (hsize : 1 ≤ size) :
    (outLen + size - 1) / size < 2 ^ 32 ↔ outLen ≤ (2 ^ 32 - 1) * size := by
  rw [Nat.div_lt_iff_lt_mul (by omega)]
  omega

theorem le_blocks_mul {size outLen : Nat} (hsize : 1 ≤ size) : outLen ≤ (outLen + size - 1) / size * size := by
  have hdiv := Nat.div_add_mod (outLen + size - 1) size
  have hmod := Nat.mod_lt (outLen + size - 1) (show 0 < size by omega)
  rw [Nat.mul_comm] at hdiv
  omega

section Loop

variable {block : Nat → Nat → Option Bytes} {B : Nat → Bytes} {size outLen : Nat} (hsize : 1 ≤ size)
  (hB : ∀ i, (B i).length = size)
include hB

/-- One pass over `m` blocks with `rest` of the output left: the next block, or what fits of it. -/
theorem deriveLoop_pass {fuel m : Nat} {rest : Bytes} (hlen : m * size + rest.length = outLen) (hrest : rest ≠ [])
    (hblock : block m (counterAt m) = some (B (counterAt m))) :
    deriveLoop block outLen (fuel + 1) (counterAt m) (m * size) (stream B m ++ rest) (countersOf m) =
      deriveLoop block outLen fuel (counterAt (m + 1)) (m * size + min rest.length size)
        ((stream B (m + 1)).take (m * size + rest.length) ++ rest.drop size) (countersOf (m + 1)) := by
  have hpos : 0 < rest.length := List.length_pos_iff.2 hrest
  have hstream := length_stream hB m
  have hcopy : memcpy (stream B m ++ rest) (stream B m).length (B (counterAt m)) 0 (min rest.length size) =
      some (stream B m ++ (B (counterAt m)).take (min rest.length size) ++ rest.drop (min rest.length size)) :=
    memcpy_behind (by rw [hB]; exact Nat.min_le_right _ _) (Nat.min_le_left _ _)
  have htake : stream B m ++ (B (counterAt m)).take (min rest.length size) =
      (stream B (m + 1)).take (m * size + rest.length) := by
    rw [stream_succ, ← hstream, List.take_length_add_append, List.take_eq_take_min (i := rest.length), hB]
  have hdrop : rest.drop (min rest.length size) = rest.drop size := by
    by_cases h : size ≤ rest.length
    · rw [Nat.min_eq_right h]
    · rw [Nat.min_eq_left (by omega), List.drop_length, List.drop_of_length_le (by omega)]
  rw [hstream, htake, hdrop] at hcopy
  have hleft : outLen - m * size = rest.length := by omega
  rw [deriveLoop, if_pos (by omega), length_countersOf, hblock]
  simp only [hB, hleft, hcopy, Option.bind_eq_bind, Option.bind_some]
  rw [counterAt_succ, countersOf_succ]

include hsize

/-- **The loop fails, or ends with the stream cut at `out_len`**: by induction on the passes left, `m` blocks done. -/
theorem deriveLoop_ends (hblock : ∀ k i d, block k i = some d → d = B i) : ∀ (fuel m : Nat) (rest : Bytes),
    rest ≠ [] → m * size + rest.length = outLen → rest.length ≤ fuel →
      ∃ r, deriveLoop block outLen fuel (counterAt m) (m * size) (stream B m ++ rest) (countersOf m) = some r ∧
        (r.ret = 0 ∧ (∃ k i, block k i = none) ∨ r.ret = 1 ∧ Complete B outLen size r)
  | 0, m, rest, hrest, _, hfuel => absurd (List.length_eq_zero_iff.1 (Nat.le_zero.1 hfuel)) hrest
  | fuel + 1, m, rest, hrest, hlen, hfuel => by
    have hpos : 0 < rest.length := List.length_pos_iff.2 hrest
    cases hb : block m (counterAt m) with
    | none =>
      rw [deriveLoop, if_pos (by omega), length_countersOf, hb]
      exact ⟨_, rfl, .inl ⟨rfl, m, counterAt m, hb⟩⟩
    | some d =>
      obtain rfl := hblock _ _ _ hb
      rw [deriveLoop_pass hB hlen hrest hb]
      by_cases hmore : size < rest.length
      · have hlen' := length_stream hB (m + 1)
        rw [Nat.min_eq_right (Nat.le_of_lt hmore), ← Nat.succ_mul, List.take_of_length_le (by
          rw [hlen', Nat.succ_mul]; omega)]
        refine deriveLoop_ends hblock fuel (m + 1) (rest.drop size) ?_ ?_ ?_
        · exact List.length_pos_iff.1 (by rw [List.length_drop]; omega)
        · rw [List.length_drop, Nat.succ_mul]; omega
        · rw [List.length_drop]; omega
      · rw [Nat.min_eq_left (by omega), hlen, List.drop_of_length_le (by omega), List.append_nil, deriveLoop_done]
        refine ⟨_, rfl, .inr ⟨rfl, ?_, ?_⟩⟩
        · rw [← hlen, blocks_eq hpos (by omega)]
        · rw [← hlen, blocks_eq hpos (by omega)]

end Loop

/-! ## What is derived -/

/-- `K(i)`: the HMAC of the counter in four bytes and the rest of the message. -/
def K (h : Hmac) (key msg : Bytes) (i : Nat) : Bytes := h.mac key (beBytes 4 i ++ msg)

/-- **A return value of 1 means the first `out_len` bytes of `K(1) ‖ K(2) ‖ …`**, each counter used once and none zero. -/
def Exact (h : Hmac) (key msg : Bytes) (outLen : Nat) (r : Derived) : Prop :=
  r.ret = 1 → (∃ m, r.out = ((List.range m).flatMap fun j => K h key msg (j + 1)).take outLen) ∧
    r.out.length = outLen ∧ r.counters.Nodup ∧ 0 ∉ r.counters

theorem exact_of_failed {h : Hmac} {key msg : Bytes} {outLen : Nat} {r : Derived} (hr : r.ret = 0) :
    Exact h key msg outLen r := fun h1 => by rw [hr] at h1; cases h1

/-- The bytes of the buffers, all of them. -/
def messageOf (parts : List (Bytes × Nat)) : Bytes := parts.flatMap Prod.fst

/-- The bytes of the buffers that an `int` length leaves. -/
def cutMessage (parts : List (Bytes × Nat)) : Bytes := parts.flatMap fun p => p.1.take (toInt p.2).toNat

theorem toInt_small {n : Nat} (h : n < 2 ^ 31) : toInt n = n := by
  rw [toInt, Nat.mod_eq_of_lt (by omega), if_pos h]

/-- **From 2^31 on an `int` is a shorter length, or none.** -/
theorem toInt_large {n : Nat} (h : 2 ^ 31 ≤ n) : (toInt n).toNat < n := by
  unfold toInt
  split
  · rw [Int.toNat_natCast]; omega
  · omega

theorem counters_small {m : Nat} (h : m < 2 ^ 32) {j : Nat} (hj : j < m) : counterAt j = j + 1 :=
  Nat.mod_eq_of_lt (by omega)

theorem countersOf_small {m : Nat} (h : m < 2 ^ 32) : countersOf m = (List.range m).map (· + 1) :=
  List.map_congr_left fun _ hj => counters_small h (List.mem_range.1 hj)

theorem stream_small {m : Nat} (h : m < 2 ^ 32) (B : Nat → Bytes) :
    stream B m = (List.range m).flatMap fun j => B (j + 1) := by
  have hmap := congrArg (List.flatMap B) (countersOf_small h)
  rwa [countersOf, List.flatMap_map, List.flatMap_map] at hmap

theorem nodup_countersOf {m : Nat} (h : m < 2 ^ 32) : (countersOf m).Nodup ∧ 0 ∉ countersOf m := by
  rw [countersOf_small h]
  refine ⟨List.Nodup.map (fun a b hab => by simpa using hab) List.nodup_range, ?_⟩
  simp

theorem zero_mem_countersOf {m : Nat} (h : 2 ^ 32 ≤ m) : 0 ∈ countersOf m :=
  List.mem_map.2 ⟨2 ^ 32 - 1, List.mem_range.2 (by omega), rfl⟩

/-! ## Correct blocks, and blocks of cut buffers -/

/-- A buffer goes to HMAC with its own length. -/
def Whole (p : Bytes × Nat) : Prop := p.1.length = p.2

theorem updates_eq {h : Hmac} {size : Nat} (hc : h.Correct size) {k : Nat} : ∀ {parts : List (Bytes × Nat)} {ctx ctx' : Ctx},
    (∀ p ∈ parts, Whole p ∧ p.2 < 2 ^ 31) → updates h k parts ctx = some ctx' →
      ctx' = ⟨ctx.key, ctx.msg ++ messageOf parts⟩
  | [], ctx, ctx', _, hu => by
    obtain rfl := Option.some.inj hu
    simp [messageOf]
  | p :: ps, ctx, ctx', hp, hu => by
    obtain ⟨hwhole, hsmall⟩ := hp p List.mem_cons_self
    obtain ⟨c, hc1, hc2⟩ := Option.bind_eq_some_iff.1 hu
    have hstep := hc.update_eq _ _ _ _ _ (by rw [toInt_small hsmall]; omega) hc1
    rw [toInt_small hsmall, Int.toNat_natCast, ← hwhole, List.take_length] at hstep
    rw [updates_eq hc (fun q hq => hp q (List.mem_cons_of_mem _ hq)) hc2, hstep]
    simp [messageOf]

/-- **With lengths that are `int`s every block is `K` of its counter.** -/
theorem hmacBlock_eq {h : Hmac} {size : Nat} (hc : h.Correct size) {key : Bytes × Nat} {parts : List (Bytes × Nat)}
    (hp : ∀ p ∈ key :: parts, Whole p ∧ p.2 < 2 ^ 31) {k i : Nat} {d : Bytes} (hd : hmacBlock h key parts k i = some d) :
    d = K h key.1 (messageOf parts) i := by
  obtain ⟨hwhole, hsmall⟩ := hp key List.mem_cons_self
  obtain ⟨c1, h1, hd⟩ := Option.bind_eq_some_iff.1 hd
  obtain ⟨c2, h2, hd⟩ := Option.bind_eq_some_iff.1 hd
  obtain ⟨c3, h3, hd⟩ := Option.bind_eq_some_iff.1 hd
  have hinit := hc.initEx_eq _ _ _ _ (by rw [toInt_small hsmall]; omega) h1
  rw [toInt_small hsmall, Int.toNat_natCast, ← hwhole, List.take_length] at hinit
  have hctr := hc.update_eq _ _ _ _ _ (by decide) h2
  have hparts := updates_eq hc (fun q hq => hp q (List.mem_cons_of_mem _ hq)) h3
  rw [hc.final_eq _ _ _ hd, hparts, hctr, hinit, K, List.take_of_length_le (by rw [length_beBytes]; decide)]
  rfl

/-- HMAC that always succeeds and takes no bytes for a negative length. -/
def plainHmac (mac : Bytes → Bytes → Bytes) : Hmac where
  mac := mac
  ctxNew := true
  initEx := fun _ key len => some ⟨key.take len.toNat, []⟩
  update := fun _ ctx data len => some ⟨ctx.key, ctx.msg ++ data.take len.toNat⟩
  final := fun _ ctx => some (mac ctx.key ctx.msg)

theorem plainHmac_correct {mac : Bytes → Bytes → Bytes} {size : Nat} (h : ∀ key msg, (mac key msg).length = size) :
    (plainHmac mac).Correct size where
  length_mac := h
  initEx_eq := fun _ _ _ _ _ hctx => (Option.some.inj hctx).symm
  update_eq := fun _ _ _ _ _ _ hctx => (Option.some.inj hctx).symm
  final_eq := fun _ _ _ hd => (Option.some.inj hd).symm

theorem updates_plain (mac : Bytes → Bytes → Bytes) (k : Nat) : ∀ (parts : List (Bytes × Nat)) (ctx : Ctx),
    updates (plainHmac mac) k parts ctx = some ⟨ctx.key, ctx.msg ++ cutMessage parts⟩
  | [], ctx => by simp [updates, cutMessage]
  | p :: ps, ctx => by
    refine (updates_plain mac k ps _).trans ?_
    simp [cutMessage]

theorem hmacBlock_plain (mac : Bytes → Bytes → Bytes) (key : Bytes × Nat) (parts : List (Bytes × Nat)) (k i : Nat) :
    hmacBlock (plainHmac mac) key parts k i =
      some (mac (key.1.take (toInt key.2).toNat) (beBytes 4 i ++ cutMessage parts)) := by
  have hctr : (beBytes 4 i).take (Int.toNat 4) = beBytes 4 i := List.take_of_length_le (by rw [length_beBytes]; decide)
  refine Option.bind_eq_some_iff.2 ⟨_, updates_plain mac k parts _, ?_⟩
  simp only [plainHmac, List.nil_append, hctr]

theorem length_cutMessage_le : ∀ {parts : List (Bytes × Nat)}, (cutMessage parts).length ≤ (messageOf parts).length
  | [] => Nat.le_refl 0
  | p :: ps => by
    have ih : (cutMessage ps).length ≤ (messageOf ps).length := length_cutMessage_le
    have hp := List.length_take_le' (toInt p.2).toNat p.1
    simp only [cutMessage, messageOf, List.flatMap_cons, List.length_append] at ih ⊢
    omega

/-- **A buffer of 2^31 bytes or more is not hashed to its end.** -/
theorem length_take_lt {p : Bytes × Nat} (hwhole : Whole p) (h : 2 ^ 31 ≤ p.2) :
    (p.1.take (toInt p.2).toNat).length < p.1.length := by
  have := toInt_large h
  rw [List.length_take, hwhole]
  omega

theorem length_cutMessage_lt {p : Bytes × Nat} : ∀ {parts : List (Bytes × Nat)}, p ∈ parts → Whole p → 2 ^ 31 ≤ p.2 →
    (cutMessage parts).length < (messageOf parts).length
  | q :: ps, hmem, hwhole, hbig => by
    have hle : (cutMessage ps).length ≤ (messageOf ps).length := length_cutMessage_le
    simp only [cutMessage, messageOf, List.flatMap_cons, List.length_append] at hle ⊢
    rcases List.mem_cons.1 hmem with rfl | hmem
    · have := length_take_lt hwhole hbig
      omega
    · have hp := List.length_take_le' (toInt q.2).toNat q.1
      have ih := length_cutMessage_lt hmem hwhole hbig
      simp only [cutMessage, messageOf] at ih
      omega

/-- A MAC that tells a key and a message of the given lengths from all others. -/
def lengthMac (size keyLen msgLen : Nat) (key msg : Bytes) : Bytes :=
  List.replicate size (if key.length = keyLen ∧ msg.length = msgLen then 1 else 0)

theorem eq_of_mem_stream {B : Nat → Bytes} {b : UInt8} {m : Nat} (hB : ∀ i, ∀ c ∈ B i, c = b) {c : UInt8}
    (hc : c ∈ stream B m) : c = b := by
  obtain ⟨j, -, hj⟩ := List.mem_flatMap.1 hc
  exact hB _ c hj

section Derive

variable {size outLen : Nat} {out : Bytes} (hsize : 1 ≤ size) (hpos : 0 < outLen) (hout : out.length = outLen)
include hsize hpos hout

theorem derive_ends {h : Hmac} {key : Bytes × Nat} {parts : List (Bytes × Nat)} {B : Nat → Bytes}
    (hB : ∀ i, (B i).length = size) (hblock : ∀ k i d, hmacBlock h key parts k i = some d → d = B i) :
    ∃ r, derive h key parts out outLen = some r ∧
      (r.ret = 0 ∧ (h.ctxNew = false ∨ ∃ k i, hmacBlock h key parts k i = none) ∨ r.ret = 1 ∧ Complete B outLen size r) := by
  unfold derive
  cases hctx : h.ctxNew with
  | false => exact ⟨_, rfl, .inl ⟨rfl, .inl rfl⟩⟩
  | true =>
    have hall : 0 * size + out.length = outLen := by rw [Nat.zero_mul, Nat.zero_add, hout]
    obtain ⟨r, hr, hend⟩ := deriveLoop_ends hsize hB hblock outLen 0 out (List.length_pos_iff.1 (by omega)) hall
      (by omega)
    rw [Nat.zero_mul] at hr
    exact ⟨r, hr, hend.imp_left fun h => ⟨h.1, .inr h.2⟩⟩

theorem derive_exact {h : Hmac} (hc : h.Correct size) {key : Bytes × Nat} {parts : List (Bytes × Nat)}
    (hp : ∀ p ∈ key :: parts, Whole p ∧ p.2 < 2 ^ 31) (hmax : outLen ≤ (2 ^ 32 - 1) * size) :
    ∃ r, derive h key parts out outLen = some r ∧ Exact h key.1 (messageOf parts) outLen r := by
  have hK : ∀ i, (K h key.1 (messageOf parts) i).length = size := fun i => hc.length_mac key.1 _
  obtain ⟨r, hr, hend⟩ := derive_ends hsize hpos hout hK (fun k i d hd => hmacBlock_eq hc hp hd)
  refine ⟨r, hr, ?_⟩
  rcases hend with ⟨h0, -⟩ | ⟨-, hbytes, hcounters⟩
  · exact exact_of_failed h0
  · intro _
    have hm := (blocks_lt_iff hsize).2 hmax
    refine ⟨⟨_, by rw [hbytes, stream_small hm]⟩, ?_, by rw [hcounters]; exact nodup_countersOf hm⟩
    rw [hbytes, List.length_take, length_stream hK]
    exact Nat.min_eq_left (le_blocks_mul hsize)

theorem derive_plain {mac : Bytes → Bytes → Bytes} (hmac : ∀ key msg, (mac key msg).length = size)
    (key : Bytes × Nat) (parts : List (Bytes × Nat)) :
    ∃ r, derive (plainHmac mac) key parts out outLen = some r ∧ r.ret = 1 ∧
      Complete (fun i => mac (key.1.take (toInt key.2).toNat) (beBytes 4 i ++ cutMessage parts)) outLen size r := by
  obtain ⟨r, hr, hend⟩ := derive_ends hsize hpos hout (fun i => hmac (key.1.take (toInt key.2).toNat) _)
    (fun k i d hd => (Option.some.inj ((hmacBlock_plain mac key parts k i).symm.trans hd)).symm)
  refine ⟨r, hr, hend.resolve_left ?_⟩
  rintro ⟨-, h | ⟨k, i, hnone⟩⟩
  · cases h
  · rw [hmacBlock_plain] at hnone
    cases hnone

/-- **Both derivations behind their checks are exact exactly when the counter does not wrap around and every length is
an `int`.** -/
theorem derive_exact_iff {key : Bytes × Nat} {parts : List (Bytes × Nat)} (hw : ∀ p ∈ key :: parts, Whole p) :
    (∀ h : Hmac, h.Correct size →
        ∃ r, derive h key parts out outLen = some r ∧ Exact h key.1 (messageOf parts) outLen r) ↔
      outLen ≤ (2 ^ 32 - 1) * size ∧ ∀ p ∈ key :: parts, p.2 < 2 ^ 31 := by
  constructor
  · intro hall
    constructor
    · -- any MAC shows a counter that came back to zero
      have hmac : ∀ key msg : Bytes, (lengthMac size 0 0 key msg).length = size := fun _ _ => List.length_replicate
      obtain ⟨r, hr, h1, -, hcounters⟩ := derive_plain hsize hpos hout hmac key parts
      obtain ⟨r', hr', hexact⟩ := hall _ (plainHmac_correct hmac)
      obtain rfl := Option.some.inj (hr.symm.trans hr')
      refine (blocks_lt_iff hsize).1 (Nat.lt_of_not_le fun hle => ?_)
      have hzero := (hexact h1).2.2.2
      rw [hcounters] at hzero
      exact hzero (zero_mem_countersOf hle)
    · -- the MAC that tells the full lengths apart is asked about shorter ones
      intro p hp
      refine Nat.lt_of_not_le fun hbig => ?_
      have hmac : ∀ k m : Bytes, (lengthMac size key.1.length (4 + (messageOf parts).length) k m).length = size :=
        fun _ _ => List.length_replicate
      obtain ⟨r, hr, h1, hbytes, -⟩ := derive_plain hsize hpos hout hmac key parts
      obtain ⟨r', hr', hexact⟩ := hall _ (plainHmac_correct hmac)
      obtain rfl := Option.some.inj (hr.symm.trans hr')
      obtain ⟨⟨m, hm⟩, hlen, -⟩ := hexact h1
      obtain ⟨b, rest, hb⟩ := List.exists_cons_of_ne_nil (List.length_pos_iff.1 (by omega : 0 < r.out.length))
      have hshort : ¬ ((key.1.take (toInt key.2).toNat).length = key.1.length ∧
          (cutMessage parts).length = (messageOf parts).length) := by
        rintro ⟨hkey, hmsg⟩
        rcases List.mem_cons.1 hp with rfl | hp
        · exact absurd hkey (Nat.ne_of_lt (length_take_lt (hw _ List.mem_cons_self) hbig))
        · exact absurd hmsg (Nat.ne_of_lt (length_cutMessage_lt hp (hw p (List.mem_cons_of_mem _ hp)) hbig))
      have hzero : b = 0 := by
        refine eq_of_mem_stream (fun i c hc => ?_) (List.mem_of_mem_take (hbytes ▸ hb ▸ List.mem_cons_self))
        rw [lengthMac, if_neg (fun h => hshort ⟨h.1, by
          have := h.2; rw [List.length_append, length_beBytes] at this; omega⟩)] at hc
        exact List.eq_of_mem_replicate hc
      have hone : b = 1 := by
        obtain ⟨j, -, hj⟩ := List.mem_flatMap.1 (List.mem_of_mem_take (hm ▸ hb ▸ List.mem_cons_self))
        simp only [K, plainHmac, lengthMac] at hj
        rw [if_pos ⟨trivial, by rw [List.length_append, length_beBytes]⟩] at hj
        exact List.eq_of_mem_replicate hj
      rw [hzero] at hone
      cases hone
  · rintro ⟨hmax, hsmall⟩ h hc
    exact derive_exact hsize hpos hout hc (fun p hp => ⟨hw p hp, hsmall p hp⟩) hmax

end Derive

/-! ## The two functions -/

/-- A pointer is null, or points to so many bytes. -/
def Holds (p : Option Bytes) (n : Nat) : Prop := ∀ b, p = some b → b.length = n

/-- The salt of the derivation: one block of zeros for none. -/
def fullSalt (d : Digest) (salt : Option Bytes) : Bytes :=
  if salt.getD [] = [] then List.replicate d.blockSize.toNat 0 else salt.getD []

/-- When `KBKDF_ctr_hmac` is exact: it refuses, or its lengths are `int`s and the counter has a value for each block.
Where `out_len` is so close to 2^64 that its sum with the digest size wraps around, it does not refuse. -/
def KbkdfExact (d : Digest) (out key info : Option Bytes) (outLen keyLen infoLen : Nat) : Prop :=
  out = none ∨ key = none ∨ outLen = 0 ∨ keyLen = 0 ∨
    ((2 ^ 32 - 1) * d.size.toNat < outLen ∧ outLen + d.size.toNat ≤ 2 ^ 64) ∨
    (outLen ≤ (2 ^ 32 - 1) * d.size.toNat ∧ keyLen < 2 ^ 31 ∧ (info ≠ none → infoLen < 2 ^ 31))

/-- When `SSKDF_hmac` is exact; it does not count its blocks. -/
def SskdfExact (d : Digest) (out secret info salt : Option Bytes) (outLen secretLen infoLen saltLen : Nat) : Prop :=
  out = none ∨ secret = none ∨ outLen = 0 ∨ secretLen = 0 ∨
    ((salt = none ∨ saltLen = 0) ∧ (d.blockSize ≤ 0 ∨ 144 < d.blockSize)) ∨
    (outLen ≤ (2 ^ 32 - 1) * d.size.toNat ∧ secretLen < 2 ^ 31 ∧ (info ≠ none → infoLen < 2 ^ 31) ∧
      (salt ≠ none → saltLen < 2 ^ 31))

theorem refused_exact (out : Option Bytes) (h : Hmac) (key msg : Bytes) (outLen : Nat) :
    ∃ r, refused out = some r ∧ Exact h key msg outLen r := ⟨_, rfl, exact_of_failed rfl⟩

theorem infoPart_whole {info : Option Bytes} {infoLen : Nat} (hinfo : Holds info infoLen) :
    (∀ p ∈ infoPart info infoLen, Whole p) ∧ messageOf (infoPart info infoLen) = info.getD [] ∧
      ((∀ p ∈ infoPart info infoLen, p.2 < 2 ^ 31) ↔ (info ≠ none → infoLen < 2 ^ 31)) := by
  cases info with
  | none => simp [infoPart, messageOf]
  | some b =>
    have hb := hinfo b rfl
    unfold infoPart
    simp only
    split
    · simp [Whole, messageOf, hb]
    · have : b = [] := List.length_eq_zero_iff.1 (by omega)
      simp [messageOf, this]
      omega

/-- The block count of `KBKDF_ctr_hmac` as its check has it. -/
theorem overCount_iff {size outLen : Nat} (h1 : 1 ≤ size) (hmax : size ≤ 64) (h64 : outLen < 2 ^ 64) :
    0xFFFFFFFF < (outLen + size - 1) % 2 ^ 64 / size ↔ (2 ^ 32 - 1) * size < outLen ∧ outLen + size ≤ 2 ^ 64 := by
  by_cases hfit : outLen + size - 1 < 2 ^ 64
  · rw [Nat.mod_eq_of_lt hfit, Nat.lt_iff_add_one_le, Nat.le_div_iff_mul_le (by omega)]
    omega
  · have hwrap : (outLen + size - 1) % 2 ^ 64 / size = 0 := Nat.div_eq_of_lt (by omega)
    rw [hwrap]
    omega

theorem defaultSalt_cases {d : Digest} {s : Bytes × Nat} (h : (if d.blockSize ≤ 0 ∨ 144 < d.blockSize then none
    else some (List.replicate d.blockSize.toNat (0 : UInt8), d.blockSize.toNat)) = some s) :
    Whole s ∧ s.1 = List.replicate d.blockSize.toNat 0 ∧ s.2 < 2 ^ 31 := by
  split at h
  · cases h
  · rename_i hblock
    obtain rfl := Option.some.inj h
    exact ⟨List.length_replicate, rfl, show d.blockSize.toNat < 2 ^ 31 by omega⟩

theorem saltOf_some {d : Digest} {salt : Option Bytes} {saltLen : Nat} (hsalt : Holds salt saltLen) {s : Bytes × Nat}
    (h : saltOf d salt saltLen = some s) :
    Whole s ∧ s.1 = fullSalt d salt ∧ (s.2 < 2 ^ 31 ↔ (salt ≠ none → saltLen < 2 ^ 31)) := by
  cases salt with
  | none =>
    obtain ⟨hwhole, hzeros, hsmall⟩ := defaultSalt_cases h
    exact ⟨hwhole, hzeros, iff_of_true hsmall (fun hne => absurd rfl hne)⟩
  | some b =>
    have hb := hsalt b rfl
    simp only [saltOf] at h
    split at h
    · rename_i h0
      obtain ⟨hwhole, hzeros, hsmall⟩ := defaultSalt_cases h
      have hnil : b = [] := List.length_eq_zero_iff.1 (by omega)
      refine ⟨hwhole, ?_, iff_of_true hsmall (fun _ => by omega)⟩
      rw [hzeros, hnil]
      rfl
    · rename_i h0
      obtain rfl := Option.some.inj h
      refine ⟨hb, ?_, ⟨fun hs _ => hs, fun hs => hs (by simp)⟩⟩
      rw [fullSalt, Option.getD_some, if_neg (List.length_pos_iff.1 (by omega))]

theorem saltOf_none {d : Digest} {salt : Option Bytes} {saltLen : Nat} :
    saltOf d salt saltLen = none ↔ (salt = none ∨ saltLen = 0) ∧ (d.blockSize ≤ 0 ∨ 144 < d.blockSize) := by
  have hzeros : ∀ s : Bytes × Nat, (if d.blockSize ≤ 0 ∨ 144 < d.blockSize then none else some s) = none ↔
      d.blockSize ≤ 0 ∨ 144 < d.blockSize := fun s => by
    by_cases hbad : d.blockSize ≤ 0 ∨ 144 < d.blockSize
    · rw [if_pos hbad]
      exact iff_of_true rfl hbad
    · rw [if_neg hbad]
      exact iff_of_false nofun hbad
  cases salt with
  | none => simp only [saltOf, hzeros, true_or, true_and]
  | some b =>
    by_cases h0 : saltLen = 0
    · simp only [saltOf, h0, if_true, hzeros, or_true, true_and]
    · simp [saltOf, h0]

section Functions

variable {d : Digest} (hd : 1 ≤ d.size ∧ d.size ≤ 64) {out info : Option Bytes} {outLen infoLen : Nat}
  (hout : Holds out outLen) (hinfo : Holds info infoLen)
include hd hout hinfo

theorem kbkdf_exact_iff {key : Option Bytes} {keyLen : Nat} (h64 : outLen < 2 ^ 64) (hkey : Holds key keyLen) :
    (∀ h : Hmac, h.Correct d.size.toNat →
        ∃ r, kbkdfCtrHmac h out outLen (some d) key keyLen info infoLen = some r ∧
          Exact h (key.getD []) (info.getD []) outLen r) ↔
      KbkdfExact d out key info outLen keyLen infoLen := by
  obtain ⟨hwhole, hmsg, hsmall⟩ := infoPart_whole hinfo
  cases out with
  | none => exact iff_of_true (fun h _ => refused_exact none h _ _ _) (.inl rfl)
  | some o =>
  cases key with
  | none => exact iff_of_true (fun h _ => refused_exact (some o) h _ _ _) (.inr (.inl rfl))
  | some k =>
  by_cases h0 : outLen = 0 ∨ keyLen = 0
  · refine iff_of_true (fun h _ => ?_) (.inr (.inr (h0.imp_right fun h => .inl h)))
    simp only [kbkdfCtrHmac, if_pos h0]
    exact refused_exact (some o) h _ _ _
  have hdsize : ¬ (d.size ≤ 0 ∨ 64 < d.size) := by omega
  have hsize : 1 ≤ d.size.toNat := by omega
  have hcount := overCount_iff hsize (by omega) h64
  by_cases hn : 0xFFFFFFFF < (outLen + d.size.toNat - 1) % 2 ^ 64 / d.size.toNat
  · refine iff_of_true (fun h _ => ?_) (.inr (.inr (.inr (.inr (.inl (hcount.1 hn))))))
    simp only [kbkdfCtrHmac, if_neg h0, if_neg hdsize, if_pos hn]
    exact refused_exact (some o) h _ _ _
  · have hparts : ∀ p ∈ (k, keyLen) :: infoPart info infoLen, Whole p :=
      List.forall_mem_cons.2 ⟨hkey k rfl, hwhole⟩
    have hderive := derive_exact_iff hsize (by omega : 0 < outLen) (hout o rfl) hparts
    simp only [kbkdfCtrHmac, if_neg h0, if_neg hdsize, if_neg hn, Option.getD_some, ← hmsg]
    rw [hderive, List.forall_mem_cons, hsmall]
    constructor
    · rintro ⟨hmax, hk, hi⟩
      exact .inr (.inr (.inr (.inr (.inr ⟨hmax, hk, hi⟩))))
    · rintro (h | h | h | h | h | ⟨hmax, hk, hi⟩)
      · cases h
      · cases h
      · exact absurd (.inl h) h0
      · exact absurd (.inr h) h0
      · exact absurd (hcount.2 h) hn
      · exact ⟨hmax, hk, hi⟩

theorem sskdf_exact_iff {secret salt : Option Bytes} {secretLen saltLen : Nat} (hsecret : Holds secret secretLen)
    (hsalt : Holds salt saltLen) :
    (∀ h : Hmac, h.Correct d.size.toNat →
        ∃ r, sskdfHmac h out outLen (some d) secret secretLen info infoLen salt saltLen = some r ∧
          Exact h (fullSalt d salt) (secret.getD [] ++ info.getD []) outLen r) ↔
      SskdfExact d out secret info salt outLen secretLen infoLen saltLen := by
  obtain ⟨hwhole, hmsg, hsmall⟩ := infoPart_whole hinfo
  cases out with
  | none => exact iff_of_true (fun h _ => refused_exact none h _ _ _) (.inl rfl)
  | some o =>
  cases secret with
  | none => exact iff_of_true (fun h _ => refused_exact (some o) h _ _ _) (.inr (.inl rfl))
  | some z =>
  by_cases h0 : outLen = 0 ∨ secretLen = 0
  · refine iff_of_true (fun h _ => ?_) (.inr (.inr (h0.imp_right fun h => .inl h)))
    simp only [sskdfHmac, if_pos h0]
    exact refused_exact (some o) h _ _ _
  have hdsize : ¬ (d.size ≤ 0 ∨ 64 < d.size) := by omega
  have hsize : 1 ≤ d.size.toNat := by omega
  cases hs : saltOf d salt saltLen with
  | none =>
    refine iff_of_true (fun h _ => ?_) (.inr (.inr (.inr (.inr (.inl ?_)))))
    · simp only [sskdfHmac, if_neg h0, if_neg hdsize, hs]
      exact refused_exact (some o) h _ _ _
    · exact saltOf_none.1 hs
  | some s =>
    obtain ⟨hsw, hfull, hssmall⟩ := saltOf_some hsalt hs
    have hparts : ∀ p ∈ s :: (z, secretLen) :: infoPart info infoLen, Whole p :=
      List.forall_mem_cons.2 ⟨hsw, List.forall_mem_cons.2 ⟨hsecret z rfl, hwhole⟩⟩
    have hderive := derive_exact_iff hsize (by omega : 0 < outLen) (hout o rfl) hparts
    have hmessage : messageOf ((z, secretLen) :: infoPart info infoLen) = z ++ info.getD [] := by
      rw [← hmsg]; rfl
    simp only [sskdfHmac, if_neg h0, if_neg hdsize, hs, Option.getD_some, ← hmessage, ← hfull]
    rw [hderive, List.forall_mem_cons, List.forall_mem_cons, hsmall, hssmall]
    constructor
    · rintro ⟨hmax, ht, hz, hi⟩
      exact .inr (.inr (.inr (.inr (.inr ⟨hmax, hz, hi, ht⟩))))
    · rintro (h | h | h | h | h | ⟨hmax, hz, hi, ht⟩)
      · cases h
      · cases h
      · exact absurd (.inl h) h0
      · exact absurd (.inr h) h0
      · rw [saltOf_none.2 h] at hs
        cases hs
      · exact ⟨hmax, ht, hz, hi⟩

end Functions

/-- **Both derivations are the NIST ones for the lengths that fit**, over every digest, every pointer and length, and
every HMAC that is correct for the `int` it receives. -/
theorem kdf_exact_iff (d : Digest) (hd : 1 ≤ d.size ∧ d.size ≤ 64) (out key secret info salt : Option Bytes)
    (outLen keyLen secretLen infoLen saltLen : Nat) (h64 : outLen < 2 ^ 64) (hout : Holds out outLen)
    (hkey : Holds key keyLen) (hsecret : Holds secret secretLen) (hinfo : Holds info infoLen)
    (hsalt : Holds salt saltLen) :
    ((∀ h : Hmac, h.Correct d.size.toNat →
        ∃ r, kbkdfCtrHmac h out outLen (some d) key keyLen info infoLen = some r ∧
          Exact h (key.getD []) (info.getD []) outLen r) ↔ KbkdfExact d out key info outLen keyLen infoLen) ∧
    ((∀ h : Hmac, h.Correct d.size.toNat →
        ∃ r, sskdfHmac h out outLen (some d) secret secretLen info infoLen salt saltLen = some r ∧
          Exact h (fullSalt d salt) (secret.getD [] ++ info.getD []) outLen r) ↔
      SskdfExact d out secret info salt outLen secretLen infoLen saltLen) :=
  ⟨kbkdf_exact_iff hd hout hinfo h64 hkey, sskdf_exact_iff hd hout hinfo hsecret hsalt⟩

def sha256 : Digest := ⟨32, 64⟩

/-- Seventy bytes, in three blocks of SHA-256, with an info and with a salt of its own or none. -/
theorem kdf_exact_sha256 :
    (∀ h : Hmac, h.Correct 32 →
      ∃ r, kbkdfCtrHmac h (some (List.replicate 70 0)) 70 (some sha256) (some [7, 8, 9]) 3 (some [1, 2]) 2 = some r ∧
        Exact h [7, 8, 9] [1, 2] 70 r) ∧
    (∀ h : Hmac, h.Correct 32 →
      ∃ r, sskdfHmac h (some (List.replicate 70 0)) 70 (some sha256) (some [4, 5]) 2 (some [1, 2]) 2 (some [3]) 1 =
          some r ∧ Exact h [3] [4, 5, 1, 2] 70 r) ∧
    ∀ h : Hmac, h.Correct 32 →
      ∃ r, sskdfHmac h (some (List.replicate 70 0)) 70 (some sha256) (some [4, 5]) 2 none 0 none 0 = some r ∧
        Exact h (List.replicate 64 0) [4, 5] 70 r := by
  have hout : Holds (some (List.replicate 70 0)) 70 := by rintro b ⟨⟩; rfl
  have hkey : Holds (some [7, 8, 9]) 3 := by rintro b ⟨⟩; rfl
  have hsecret : Holds (some [4, 5]) 2 := by rintro b ⟨⟩; rfl
  have hinfo : Holds (some [1, 2]) 2 := by rintro b ⟨⟩; rfl
  have hsalt : Holds (some [3]) 1 := by rintro b ⟨⟩; rfl
  obtain ⟨hkbkdf, hsalted⟩ := kdf_exact_iff sha256 (by decide) _ _ _ _ _ 70 3 2 2 1 (by decide) hout hkey hsecret hinfo
    hsalt
  obtain ⟨-, hplain⟩ := kdf_exact_iff sha256 (by decide) _ _ _ none none 70 3 2 0 0 (by decide) hout hkey hsecret nofun
    nofun
  refine ⟨hkbkdf.2 (.inr (.inr (.inr (.inr (.inr ?_))))), hsalted.2 (.inr (.inr (.inr (.inr (.inr ?_))))),
    hplain.2 (.inr (.inr (.inr (.inr (.inr ?_)))))⟩
  · exact ⟨by decide, by decide, by decide⟩
  · exact ⟨by decide, by decide, by decide, by decide⟩
  · exact ⟨by decide, by decide, by decide, by decide⟩

/-- **A key of 2^32 + 1 bytes is used as its first byte.** -/
theorem kbkdf_long_key :
    ¬ ∀ h : Hmac, h.Correct 32 →
      ∃ r, kbkdfCtrHmac h (some [0]) 1 (some sha256) (some (List.replicate (2 ^ 32 + 1) 0)) (2 ^ 32 + 1) none 0 = some r ∧
        Exact h (List.replicate (2 ^ 32 + 1) 0) [] 1 r := by
  intro hall
  have hkey : Holds (some (List.replicate (2 ^ 32 + 1) 0)) (2 ^ 32 + 1) := by
    rintro b ⟨⟩
    exact List.length_replicate
  have hcond := (kbkdf_exact_iff (d := sha256) (by decide) (by rintro b ⟨⟩; rfl : Holds (some [0]) 1)
    (nofun : Holds none 0) (by decide) hkey).1 hall
  rcases hcond with h | h | h | h | ⟨h, -⟩ | ⟨-, h, -⟩
  · cases h
  · cases h
  · cases h
  · cases h
  · exact absurd h (by decide)
  · exact absurd h (by decide)

end Kdf
end Wolf
