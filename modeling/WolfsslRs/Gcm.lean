import WolfsslRs.CMemory
/-!
# Gcm — the Galois/Counter Mode of NIST SP 800-38D, over any block function

`gctr` is counter mode with a 32-bit counter, `ghash` the universal hash over GF(2^128), `ae` authenticated encryption and
`ad` authenticated decryption.  Strings are of whole bytes.
-/
namespace Wolf
namespace Gcm

variable {E : Bytes → Bytes}

/-! ## Blocks -/

/-- The number of blocks, the last of which may be short. -/
def blockCount (len : Nat) : Nat := (len + 15) / 16

/-- Zeros up to a whole number of blocks. -/
def zeroPad (x : Bytes) : Bytes := x ++ List.replicate (16 * blockCount x.length - x.length) 0

theorem blockCount_of_pos {len : Nat} (h : 0 < len) : blockCount len = blockCount (len - 16) + 1 := by
  unfold blockCount
  omega

theorem zeroPad_block {x : Bytes} (h : x.length = 16) : zeroPad x = x := by
  rw [zeroPad, h]
  exact List.append_nil x

/-! ## The hash -/

def reduction : BitVec 128 := 0xe1 <<< 120

/-- The product of two blocks, bit by bit of the first. -/
def mulBlock (x y : BitVec 128) : BitVec 128 :=
  let step : BitVec 128 × BitVec 128 → Nat → BitVec 128 × BitVec 128 := fun (z, v) i =>
    (if x.getMsbD i then z ^^^ v else z, if v.getLsbD 0 then v >>> 1 ^^^ reduction else v >>> 1)
  ((List.range 128).foldl step (0, y)).1

example : mulBlock 0x0388dace60b6a392f328c2b971b2fe78 0x66e94bd4ef8a2c3b884cfa59ca342b2e =
    0x5e2ec746917062882c85b0685353deb7 := by decide +kernel

def ofBlock (b : Bytes) : BitVec 128 := BitVec.ofNat 128 (beNat b)

def ghashBlocks (h : BitVec 128) : Nat → BitVec 128 → Bytes → BitVec 128
  | 0, y, _ => y
  | n + 1, y, x => ghashBlocks h n (mulBlock (y ^^^ ofBlock (x.take 16)) h) (x.drop 16)

/-- **GHASH** of whole blocks. -/
def ghash (h x : Bytes) : Bytes := beBytes 16 (ghashBlocks (ofBlock h) (x.length / 16) 0 x).toNat

theorem length_ghash (h x : Bytes) : (ghash h x).length = 16 := length_beBytes _ _

/-! ## Counter mode -/

/-- The next counter block: only the last 32 bits count. -/
def inc32 (cb : Bytes) : Bytes := cb.take 12 ++ beBytes 4 (beNat (cb.drop 12) + 1)

def gctrBlocks (E : Bytes → Bytes) : Nat → Bytes → Bytes → Bytes
  | 0, _, _ => []
  | n + 1, cb, x => xorBytes (x.take 16) (E cb) ++ gctrBlocks E n (inc32 cb) (x.drop 16)

/-- **GCTR** from an initial counter block. -/
def gctr (E : Bytes → Bytes) (icb x : Bytes) : Bytes := gctrBlocks E (blockCount x.length) icb x

/-- The blocks that the block function is applied to. -/
def counterBlocks : Nat → Bytes → List Bytes
  | 0, _ => []
  | n + 1, cb => cb :: counterBlocks n (inc32 cb)

theorem inc32_append {iv : Bytes} (hiv : iv.length = 12) (k : Nat) :
    inc32 (iv ++ beBytes 4 k) = iv ++ beBytes 4 (k + 1) := by
  rw [inc32, List.take_left' hiv, List.drop_left' hiv, beNat_beBytes]
  congr 1
  rw [← beBytes_mod 4 (k % 256 ^ 4 + 1) 4 (Nat.le_refl 4), ← beBytes_mod 4 (k + 1) 4 (Nat.le_refl 4), Nat.mod_add_mod]

theorem length_inc32 {cb : Bytes} (h : cb.length = 16) : (inc32 cb).length = 16 := by
  rw [inc32, List.length_append, List.length_take, length_beBytes, h]
  rfl

/-- **The counter blocks of a 96-bit initial value**, by their numbers. -/
theorem counterBlocks_append {iv : Bytes} (hiv : iv.length = 12) : (n k : Nat) →
    counterBlocks n (iv ++ beBytes 4 k) = (List.range n).map fun i => iv ++ beBytes 4 (k + i)
  | 0, _ => rfl
  | n + 1, k => by
    rw [counterBlocks, inc32_append hiv, counterBlocks_append hiv n (k + 1), List.range_succ_eq_map, List.map_cons,
      List.map_map]
    congr 1
    apply List.map_congr_left
    intro i _
    rw [Function.comp_apply, Nat.succ_eq_add_one, Nat.add_right_comm, Nat.add_assoc k i 1]

theorem gctr_nil (E : Bytes → Bytes) (cb : Bytes) : gctr E cb [] = [] := rfl

theorem gctr_of_ne_nil (E : Bytes → Bytes) (cb : Bytes) {x : Bytes} (hx : x ≠ []) :
    gctr E cb x = xorBytes (x.take 16) (E cb) ++ gctr E (inc32 cb) (x.drop 16) := by
  rw [gctr, blockCount_of_pos (List.length_pos_of_ne_nil hx), gctrBlocks, gctr, List.length_drop]

section

variable (hE : ∀ b : Bytes, b.length = 16 → (E b).length = 16)
include hE

theorem length_xor_block {cb : Bytes} (hcb : cb.length = 16) (x : Bytes) :
    (xorBytes (x.take 16) (E cb)).length = min 16 x.length := by
  rw [length_xorBytes, hE cb hcb, List.length_take]
  omega

theorem length_gctr {cb : Bytes} (hcb : cb.length = 16) (x : Bytes) : (gctr E cb x).length = x.length := by
  by_cases hx : x = []
  · subst hx
    rfl
  · have hpos := List.length_pos_of_ne_nil hx
    rw [gctr_of_ne_nil E cb hx, List.length_append, length_xor_block hE hcb, length_gctr (length_inc32 hcb) (x.drop 16),
      List.length_drop]
    omega
termination_by x.length
decreasing_by
  rw [List.length_drop]
  omega

theorem take_drop_gctr {cb : Bytes} (hcb : cb.length = 16) (x : Bytes) :
    (gctr E cb x).take 16 = xorBytes (x.take 16) (E cb) ∧ (gctr E cb x).drop 16 = gctr E (inc32 cb) (x.drop 16) := by
  by_cases hx : x = []
  · subst hx
    exact ⟨rfl, rfl⟩
  · have hlen := length_xor_block hE hcb x
    rw [gctr_of_ne_nil E cb hx]
    by_cases hlong : 16 ≤ x.length
    · rw [Nat.min_eq_left hlong] at hlen
      exact ⟨List.take_left' hlen, List.drop_left' hlen⟩
    · have hshort : x.length ≤ 16 := by omega
      rw [Nat.min_eq_right hshort] at hlen
      rw [List.drop_eq_nil_of_le hshort, gctr_nil, List.append_nil]
      exact ⟨List.take_of_length_le (hlen ▸ hshort), List.drop_eq_nil_of_le (hlen ▸ hshort)⟩

/-- **Counter mode is its own inverse.** -/
theorem gctr_gctr {cb : Bytes} (hcb : cb.length = 16) (x : Bytes) : gctr E cb (gctr E cb x) = x := by
  by_cases hx : x = []
  · rw [hx, gctr_nil, gctr_nil]
  · have hpos := List.length_pos_of_ne_nil hx
    have hne : gctr E cb x ≠ [] := by
      apply List.ne_nil_of_length_pos
      rw [length_gctr hE hcb]
      exact hpos
    obtain ⟨hfirst, hrest⟩ := take_drop_gctr hE hcb x
    have hmask : (x.take 16).length ≤ (E cb).length := by rw [hE cb hcb, List.length_take]; omega
    rw [gctr_of_ne_nil E cb hne, hfirst, hrest, gctr_gctr (length_inc32 hcb) (x.drop 16),
      xorBytes_xorBytes_of_le _ _ hmask, List.take_append_drop]
termination_by x.length
decreasing_by
  rw [List.length_drop]
  omega

end

/-! ## Authenticated encryption -/

def hashKey (E : Bytes → Bytes) : Bytes := E (List.replicate 16 0)

/-- The block before the first counter block. -/
def preCounter (E : Bytes → Bytes) (iv : Bytes) : Bytes :=
  if iv.length = 12 then iv ++ beBytes 4 1
  else ghash (hashKey E) (zeroPad iv ++ List.replicate 8 0 ++ beBytes 8 (8 * iv.length))

def lengths (a c : Bytes) : Bytes := beBytes 8 (8 * a.length) ++ beBytes 8 (8 * c.length)

def tag (E : Bytes → Bytes) (iv a c : Bytes) : Bytes :=
  gctr E (preCounter E iv) (ghash (hashKey E) (zeroPad a ++ zeroPad c ++ lengths a c))

/-- **GCM-AE**: the ciphertext and the tag of 128 bits, of which a shorter tag is the front. -/
def ae (E : Bytes → Bytes) (iv a p : Bytes) : Bytes × Bytes :=
  let c := gctr E (inc32 (preCounter E iv)) p
  (c, tag E iv a c)

/-- **GCM-AD**, for tags of 128 bits. -/
def ad (E : Bytes → Bytes) (iv a c t : Bytes) : Option Bytes :=
  if t = tag E iv a c then some (gctr E (inc32 (preCounter E iv)) c) else none

theorem length_preCounter (E : Bytes → Bytes) (iv : Bytes) : (preCounter E iv).length = 16 := by
  unfold preCounter
  split
  · rename_i hiv
    rw [List.length_append, hiv, length_beBytes]
  · exact length_ghash _ _

theorem tag_eq (iv a c : Bytes) : tag E iv a c =
    xorBytes (ghash (hashKey E) (zeroPad a ++ zeroPad c ++ lengths a c)) (E (preCounter E iv)) := by
  unfold tag
  have hlen := length_ghash (hashKey E) (zeroPad a ++ zeroPad c ++ lengths a c)
  generalize ghash (hashKey E) (zeroPad a ++ zeroPad c ++ lengths a c) = s at hlen
  have hne : s ≠ [] := by
    rintro rfl
    cases hlen
  rw [gctr_of_ne_nil _ _ hne, List.take_of_length_le (Nat.le_of_eq hlen), List.drop_eq_nil_of_le (Nat.le_of_eq hlen),
    gctr_nil, List.append_nil]

section

variable (hE : ∀ b : Bytes, b.length = 16 → (E b).length = 16)
include hE

theorem length_tag (iv a c : Bytes) : (tag E iv a c).length = 16 :=
  (length_gctr hE (length_preCounter E iv) _).trans (length_ghash _ _)

theorem length_ae (iv a p : Bytes) : (ae E iv a p).1.length = p.length :=
  length_gctr hE (length_inc32 (length_preCounter E iv)) p

/-- **What was encrypted is decrypted.** -/
theorem ad_ae (iv a p : Bytes) : ad E iv a (ae E iv a p).1 (ae E iv a p).2 = some p := by
  unfold ad ae
  rw [if_pos rfl, gctr_gctr hE (length_inc32 (length_preCounter E iv))]

end

end Gcm
end Wolf
