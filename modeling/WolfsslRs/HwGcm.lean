import Mathlib.Data.List.Nodup
import WolfsslRs.Gcm
import WolfsslRs.HwCbc
import WolfsslRs.Program
/-!
# HwGcm — AES-256-GCM of the Caliptra backend (wolfcrypt-dpe-hw)

The backend runs the counter mode and the tag of GCM itself, over the block function of the `aes` crate and the hash of the
`ghash` crate.  The state of its functions is the blocks they have given to the block function so far: those of one
operation are all different (`gcm_blocks_distinct`), and what comes out is what the standard says (`gcm_256_standard`).
-/
namespace Wolf
namespace DpeHw

open Program

abbrev FixedBytes (n : Nat) := { b : Bytes // b.length = n }

/-- The `ghash` crate: padded updates hash the pieces, each with zeros up to a whole number of blocks. -/
structure GHash where
  State : Type
  new : Bytes → State
  updatePadded : State → Bytes → State
  finalize : State → Bytes
  finalize_updates : ∀ (h : Bytes) (pieces : List Bytes), h.length = 16 →
    finalize (pieces.foldl updatePadded (new h)) = Gcm.ghash h (pieces.flatMap Gcm.zeroPad)

/-- How a function can end without an answer: by an index outside a slice, or by a write outside a C buffer. -/
inductive Halt where
  | indexOutOfBounds
  | undefinedBehaviour
  deriving DecidableEq

/-- A function, with the blocks given to `encrypt_block` so far. -/
abbrev Hw := EStateM Halt (List Bytes)

def index (b : Bytes) (i : Nat) : Hw UInt8 :=
  match b[i]? with
  | some v => pure v
  | none => throw .indexOutOfBounds

def setIndex (b : Bytes) (i : Nat) (v : UInt8) : Hw Bytes :=
  if i < b.length then pure (b.set i v) else throw .indexOutOfBounds

def aesGcmAuthE : Int := -180

section Code

variable (cipher : Aes256) (ghash : GHash) (key : FixedBytes 32)

def encryptBlock (block : Bytes) : Hw Bytes := do
  modify (· ++ [block])
  pure (cipher.encrypt key.val block)

def xorBlock (input ks : Bytes) (pos : Nat) : (n i : Nat) → Bytes → Hw Bytes
  | 0, _, output => pure output
  | n + 1, i, output => do
    let a ← index input (pos + i)
    let k ← index ks i
    xorBlock input ks pos n (i + 1) (← setIndex output (pos + i) (a ^^^ k))

/-- `wrapping_add` on the last four bytes. -/
def nextCounter (counter : Bytes) : Bytes :=
  let ctrVal : UInt32 := UInt32.ofNat (beNat (slice counter 12 4))
  splice counter 12 (beBytes 4 (ctrVal + 1).toNat)

def ctrLoop (input counter : Bytes) (pos : Nat) (output : Bytes) : Hw Bytes :=
  if pos < input.length then do
    let ks ← encryptBlock cipher key counter
    let blockLen := min (input.length - pos) 16
    let output ← xorBlock input ks pos blockLen 0 output
    ctrLoop input (nextCounter counter) (pos + blockLen) output
  else pure output
termination_by input.length - pos

def gcmCtrProcess (iv : FixedBytes 12) (input output : Bytes) : Hw Bytes :=
  ctrLoop cipher key input (iv.val ++ [0, 0, 0, 2]) 0 output

/-- The lengths in bits; `wrapping_mul` on 64 bits. -/
def lenBlock (aad ciphertext : Bytes) : Bytes :=
  let aadBits : UInt64 := UInt64.ofNat aad.length * 8
  let ctBits : UInt64 := UInt64.ofNat ciphertext.length * 8
  beBytes 8 aadBits.toNat ++ beBytes 8 ctBits.toNat

def computeGcmAuthTag (iv : FixedBytes 12) (aad ciphertext : Bytes) : Hw Bytes := do
  let h ← encryptBlock cipher key (List.replicate 16 0)
  let mac := ghash.updatePadded (ghash.new h) aad
  let mac := ghash.updatePadded mac ciphertext
  let mac := ghash.updatePadded mac (lenBlock aad ciphertext)
  let ghashOut := ghash.finalize mac
  let j0 ← encryptBlock cipher key (iv.val ++ [0, 0, 0, 1])
  pure (xorBytes j0 ghashOut)

def gcmEncrypt256 (iv : FixedBytes 12) (aad plaintext out tagOut : Bytes) (tagSz : Nat) : Hw (Bytes × Bytes) := do
  let out ← gcmCtrProcess cipher key iv plaintext out
  let tag ← computeGcmAuthTag cipher ghash key iv aad out
  -- `tag_out` is a pointer: here the buffer behind it
  match memcpy tagOut 0 tag 0 (min tagSz 16) with
  | some tagOut => pure (out, tagOut)
  | none => throw .undefinedBehaviour

def gcmDecrypt256 (iv : FixedBytes 12) (aad ciphertext out : Bytes) (expectedTag : FixedBytes 16) :
    Hw (Int × Bytes) := do
  let computedTag ← computeGcmAuthTag cipher ghash key iv aad ciphertext
  if computedTag ≠ expectedTag.val then pure (aesGcmAuthE, out)
  else do
    let out ← gcmCtrProcess cipher key iv ciphertext out
    pure (0, out)

end Code

/-! ## Counter mode -/

section Ctr

variable (cipher : Aes256) (key : FixedBytes 32)

theorem logs_index {b : Bytes} {i : Nat} (h : i < b.length) : Logs (index b i) b[i] [] := by
  unfold index
  rw [List.getElem?_eq_getElem h]
  exact .pure _

theorem logs_setIndex {b : Bytes} {i : Nat} (h : i < b.length) (v : UInt8) :
    Logs (setIndex b i v) (splice b i [v]) [] := by
  unfold setIndex
  rw [if_pos h, List.set_eq_take_append_cons_drop, if_pos h, splice, List.append_assoc]
  exact .pure _

theorem slice_cons {b : Bytes} {i : Nat} (h : i < b.length) (n : Nat) : slice b i (n + 1) = b[i] :: slice b (i + 1) n := by
  rw [slice, List.drop_eq_getElem_cons h, List.take_succ_cons, slice]

theorem logs_xorBlock (input ks : Bytes) (pos : Nat) : (n i : Nat) → (output : Bytes) →
    pos + i + n ≤ input.length → i + n ≤ ks.length → pos + i + n ≤ output.length →
    Logs (xorBlock input ks pos n i output)
      (splice output (pos + i) (xorBytes (slice input (pos + i) n) (slice ks i n))) []
  | 0, i, output, _, _, _ => by
    have hsame : splice output (pos + i) (xorBytes (slice input (pos + i) 0) (slice ks i 0)) = output := by
      simp [slice, splice, xorBytes]
    rw [hsame]
    exact .pure _
  | n + 1, i, output, hin, hks, hout => by
    have hi : pos + i < input.length := by omega
    have hk : i < ks.length := by omega
    have ho : pos + i < output.length := by omega
    have hlen : (splice output (pos + i) [input[pos + i] ^^^ ks[i]]).length = output.length := length_splice ho
    have hrest := logs_xorBlock input ks pos n (i + 1) (splice output (pos + i) [input[pos + i] ^^^ ks[i]])
      (by omega) (by omega) (by omega)
    have hjoin : ∀ y, splice (splice output (pos + i) [input[pos + i] ^^^ ks[i]]) (pos + (i + 1)) y =
        splice output (pos + i) ((input[pos + i] ^^^ ks[i]) :: y) := fun _ => splice_beside ho
    rw [hjoin] at hrest
    rw [slice_cons hi, slice_cons hk]
    exact (logs_index hi).bind ((logs_index hk).bind ((logs_setIndex ho _).bind hrest))

theorem nextCounter_eq {counter : Bytes} (h : counter.length = 16) : nextCounter counter = Gcm.inc32 counter := by
  have hdrop : slice counter 12 4 = counter.drop 12 :=
    List.take_of_length_le (by rw [List.length_drop]; omega)
  have hnum : ∀ n : Nat, beBytes 4 (UInt32.ofNat n + 1).toNat = beBytes 4 (n + 1) := by
    intro n
    rw [← beBytes_mod 4 (n + 1) 4 (Nat.le_refl 4)]
    congr 1
    simp
  change splice counter 12 (beBytes 4 (UInt32.ofNat (beNat (slice counter 12 4)) + 1).toNat) = _
  have hend : counter.drop (12 + 4) = [] := List.drop_eq_nil_of_le (Nat.le_of_eq h)
  rw [hdrop, hnum, Gcm.inc32, splice, length_beBytes, hend, List.append_nil]

/-- A block of the loop masks the next block of the input, or what there is of it. -/
theorem masked_eq (input ks : Bytes) (pos : Nat) :
    xorBytes (slice input pos (min (input.length - pos) 16)) (slice ks 0 (min (input.length - pos) 16)) =
      xorBytes ((input.drop pos).take 16) ks := by
  have htake : slice input pos (min (input.length - pos) 16) = (input.drop pos).take 16 := by
    rw [slice, List.take_eq_take_iff, List.length_drop]
    omega
  have hlen : ((input.drop pos).take 16).length = min (input.length - pos) 16 := by
    rw [List.length_take, List.length_drop]
    omega
  rw [htake, slice_zero, ← hlen, xorBytes_take]

/-- **The counter loop**, from any block on: GCTR of the rest of the input, over the rest of the output. -/
theorem logs_ctrLoop (input counter output : Bytes) (pos : Nat) (hcounter : counter.length = 16)
    (hpos : pos ≤ input.length) (hout : input.length ≤ output.length) :
    Logs (ctrLoop cipher key input counter pos output)
      (splice output pos (Gcm.gctr (cipher.encrypt key.val) counter (input.drop pos)))
      (Gcm.counterBlocks (Gcm.blockCount (input.length - pos)) counter) := by
  rw [ctrLoop]
  by_cases hlt : pos < input.length
  · have hks := cipher.length_encrypt key.val counter hcounter
    have hne : input.drop pos ≠ [] := List.ne_nil_of_length_pos (by rw [List.length_drop]; omega)
    have hblock := logs_xorBlock input (cipher.encrypt key.val counter) pos (min (input.length - pos) 16) 0 output
      (by omega) (by omega) (by omega)
    rw [Nat.add_zero, masked_eq] at hblock
    have hlen : (xorBytes ((input.drop pos).take 16) (cipher.encrypt key.val counter)).length =
        min (input.length - pos) 16 := by
      rw [length_xorBytes, hks, List.length_take, List.length_drop]
      omega
    have hfits : pos + (xorBytes ((input.drop pos).take 16) (cipher.encrypt key.val counter)).length ≤ output.length := by
      omega
    have hrest := logs_ctrLoop input (nextCounter counter)
      (splice output pos (xorBytes ((input.drop pos).take 16) (cipher.encrypt key.val counter)))
      (pos + min (input.length - pos) 16) (nextCounter_eq hcounter ▸ Gcm.length_inc32 hcounter) (by omega)
      (by rw [length_splice hfits]; exact hout)
    have hdrop : input.drop (pos + min (input.length - pos) 16) = (input.drop pos).drop 16 := by
      rw [List.drop_drop, List.drop_eq_drop_iff]
      omega
    have hcount : Gcm.blockCount (input.length - pos) =
        Gcm.blockCount (input.length - (pos + min (input.length - pos) 16)) + 1 := by
      rw [Gcm.blockCount_of_pos (by omega)]
      congr 2
      omega
    rw [hdrop, ← hlen, splice_beside hfits, hlen, nextCounter_eq hcounter, ← Gcm.gctr_of_ne_nil _ _ hne] at hrest
    rw [if_pos hlt, hcount]
    exact Logs.bind (fun _ => rfl) (hblock.bind (nextCounter_eq hcounter ▸ hrest))
  · have hend : pos = input.length := by omega
    rw [if_neg hlt, hend, Nat.sub_self, List.drop_length, Gcm.gctr_nil, splice, List.append_nil, List.length_nil,
      Nat.add_zero, List.take_append_drop]
    exact .pure _
termination_by input.length - pos

/-- The block of the hash key, the one of the tag, and those of counter mode. -/
def zeroBlock : Bytes := List.replicate 16 0

def j0Block (iv : FixedBytes 12) : Bytes := iv.val ++ beBytes 4 1

def ctrBlocks (iv : FixedBytes 12) (len : Nat) : List Bytes :=
  (List.range (Gcm.blockCount len)).map fun i => iv.val ++ beBytes 4 (2 + i)

theorem preCounter_eq (E : Bytes → Bytes) (iv : FixedBytes 12) : Gcm.preCounter E iv.val = j0Block iv := if_pos iv.property

theorem logs_gcmCtrProcess (iv : FixedBytes 12) {input output : Bytes} (hout : input.length ≤ output.length) :
    Logs (gcmCtrProcess cipher key iv input output)
      (splice output 0 (Gcm.gctr (cipher.encrypt key.val) (Gcm.inc32 (j0Block iv)) input))
      (ctrBlocks iv input.length) := by
  have hlen : (iv.val ++ beBytes 4 2).length = 16 := by rw [List.length_append, iv.property, length_beBytes]
  have hloop := logs_ctrLoop cipher key input (iv.val ++ beBytes 4 2) output 0 hlen (Nat.zero_le _) hout
  rw [Gcm.counterBlocks_append iv.property, List.drop_zero] at hloop
  rw [j0Block, Gcm.inc32_append iv.property]
  exact hloop

end Ctr

/-! ## The tag -/

theorem bits_toNat {n : Nat} (h : n < 2 ^ 32) : (UInt64.ofNat n * 8).toNat = 8 * n := by
  rw [UInt64.toNat_mul, UInt64.toNat_ofNat']
  change n % 2 ^ 64 * 8 % 2 ^ 64 = 8 * n
  omega

theorem lenBlock_eq {aad ciphertext : Bytes} (haad : aad.length < 2 ^ 32) (hct : ciphertext.length < 2 ^ 32) :
    lenBlock aad ciphertext = Gcm.lengths aad ciphertext := by
  change beBytes 8 (UInt64.ofNat aad.length * 8).toNat ++ beBytes 8 (UInt64.ofNat ciphertext.length * 8).toNat = _
  rw [bits_toNat haad, bits_toNat hct, Gcm.lengths]

section Tag

variable {cipher : Aes256} {ghash : GHash} {key : FixedBytes 32} {iv : FixedBytes 12} {aad ciphertext : Bytes}
  (haad : aad.length < 2 ^ 32)
include haad

theorem logs_computeGcmAuthTag (hct : ciphertext.length < 2 ^ 32) :
    Logs (computeGcmAuthTag cipher ghash key iv aad ciphertext) (Gcm.tag (cipher.encrypt key.val) iv.val aad ciphertext)
      [zeroBlock, j0Block iv] := by
  have hkey : (cipher.encrypt key.val zeroBlock).length = 16 := cipher.length_encrypt key.val zeroBlock rfl
  have hblock : (Gcm.lengths aad ciphertext).length = 16 := by
    rw [Gcm.lengths, List.length_append, length_beBytes, length_beBytes]
  have hhash : ghash.finalize ([aad, ciphertext, lenBlock aad ciphertext].foldl ghash.updatePadded
      (ghash.new (cipher.encrypt key.val zeroBlock))) = Gcm.ghash (Gcm.hashKey (cipher.encrypt key.val))
        (Gcm.zeroPad aad ++ Gcm.zeroPad ciphertext ++ Gcm.lengths aad ciphertext) := by
    rw [ghash.finalize_updates _ _ hkey, lenBlock_eq haad hct, List.flatMap_cons, List.flatMap_cons, List.flatMap_cons,
      List.flatMap_nil, Gcm.zeroPad_block hblock, List.append_nil, ← List.append_assoc]
    rfl
  rw [Gcm.tag_eq, preCounter_eq, xorBytes_comm, ← hhash]
  exact Logs.bind (l := [zeroBlock]) (fun _ => rfl) (Logs.bind (l := [j0Block iv]) (fun _ => rfl) (Logs.pure _))

end Tag

/-! ## The two operations -/

section Operations

variable {cipher : Aes256} {ghash : GHash} {key : FixedBytes 32} {iv : FixedBytes 12} {aad : Bytes}
  (haad : aad.length < 2 ^ 32)
include haad

/-- **Encryption**: counter mode first, then the tag of what came out. -/
theorem logs_gcmEncrypt256 {plaintext out tagOut : Bytes} {tagSz : Nat} (hplain : plaintext.length < 2 ^ 32)
    (hout : out.length = plaintext.length) (htag : min tagSz 16 ≤ tagOut.length) :
    let spec := Gcm.ae (cipher.encrypt key.val) iv.val aad plaintext
    Logs (gcmEncrypt256 cipher ghash key iv aad plaintext out tagOut tagSz)
      (spec.1, spec.2.take (min tagSz 16) ++ tagOut.drop (min tagSz 16))
      (ctrBlocks iv plaintext.length ++ [zeroBlock, j0Block iv]) := by
  intro spec
  have hlen : spec.1.length = plaintext.length := Gcm.length_ae (cipher.length_encrypt key.val) iv.val aad plaintext
  have htaglen : spec.2.length = 16 := Gcm.length_tag (cipher.length_encrypt key.val) iv.val aad spec.1
  have hctr : Logs (gcmCtrProcess cipher key iv plaintext out) spec.1 (ctrBlocks iv plaintext.length) := by
    have hrun := logs_gcmCtrProcess cipher key iv (Nat.le_of_eq hout.symm)
    rw [← preCounter_eq (cipher.encrypt key.val)] at hrun
    rw [← splice_whole (hout.trans hlen.symm)]
    exact hrun
  have htagged : Logs (computeGcmAuthTag cipher ghash key iv aad spec.1) spec.2 [zeroBlock, j0Block iv] :=
    logs_computeGcmAuthTag haad (hlen ▸ hplain)
  have hcopied : memcpy tagOut 0 spec.2 0 (min tagSz 16) =
      some (spec.2.take (min tagSz 16) ++ tagOut.drop (min tagSz 16)) := by
    rw [memcpy, if_pos ⟨by omega, by omega⟩, slice_zero, splice_zero, List.length_take, htaglen]
    congr 3
    omega
  refine hctr.bind (htagged.bind (m := []) ?_)
  rw [hcopied]
  exact .pure _

theorem logs_gcmDecrypt256_of_ne {ciphertext out : Bytes} {tag : FixedBytes 16} (hct : ciphertext.length < 2 ^ 32)
    (hne : tag.val ≠ Gcm.tag (cipher.encrypt key.val) iv.val aad ciphertext) :
    Logs (gcmDecrypt256 cipher ghash key iv aad ciphertext out tag) (aesGcmAuthE, out) [zeroBlock, j0Block iv] := by
  refine (logs_computeGcmAuthTag haad hct).bind (m := []) ?_
  rw [if_pos hne.symm]
  exact .pure _

/-- **Decryption** under the right tag: the tag first, then counter mode. -/
theorem logs_gcmDecrypt256_of_eq {ciphertext out : Bytes} {tag : FixedBytes 16} (hct : ciphertext.length < 2 ^ 32)
    (heq : tag.val = Gcm.tag (cipher.encrypt key.val) iv.val aad ciphertext) (hout : ciphertext.length ≤ out.length) :
    Logs (gcmDecrypt256 cipher ghash key iv aad ciphertext out tag)
      (0, splice out 0 (Gcm.gctr (cipher.encrypt key.val) (Gcm.inc32 (j0Block iv)) ciphertext))
      (zeroBlock :: j0Block iv :: ctrBlocks iv ciphertext.length) := by
  refine (logs_computeGcmAuthTag haad hct).bind ?_
  rw [if_neg (not_not_intro heq.symm)]
  exact (logs_gcmCtrProcess cipher key iv hout).map fun out => (0, out)

/-- Decryption answers as the standard's does, for every ciphertext and every tag. -/
theorem answers_gcmDecrypt256 {ciphertext out : Bytes} {tag : FixedBytes 16} (hct : ciphertext.length < 2 ^ 32)
    (hout : ciphertext.length ≤ out.length) :
    Answers (gcmDecrypt256 cipher ghash key iv aad ciphertext out tag)
      (match Gcm.ad (cipher.encrypt key.val) iv.val aad ciphertext tag.val with
        | some plaintext => (0, splice out 0 plaintext)
        | none => (aesGcmAuthE, out)) := by
  unfold Gcm.ad
  by_cases heq : tag.val = Gcm.tag (cipher.encrypt key.val) iv.val aad ciphertext
  · rw [if_pos heq, preCounter_eq]
    exact ⟨_, logs_gcmDecrypt256_of_eq haad hct heq hout⟩
  · rw [if_neg heq]
    exact ⟨_, logs_gcmDecrypt256_of_ne haad hct heq⟩

end Operations

/-- **AES-256-GCM of the backend is that of the standard**: encryption gives its ciphertext and its tag, of which it
writes what the caller asks for; decryption under that tag gives the plaintext back, and under any other tag it fails
and leaves the buffer. -/
theorem gcm_256_standard (cipher : Aes256) (ghash : GHash) (key : FixedBytes 32) (iv : FixedBytes 12)
    (aad plaintext : Bytes) (haad : aad.length < 2 ^ 32) (hplain : plaintext.length < 2 ^ 32) :
    let spec := Gcm.ae (cipher.encrypt key.val) iv.val aad plaintext
    (∀ out tagOut tagSz, out.length = plaintext.length → min tagSz 16 ≤ tagOut.length →
      Answers (gcmEncrypt256 cipher ghash key iv aad plaintext out tagOut tagSz)
        (spec.1, spec.2.take (min tagSz 16) ++ tagOut.drop (min tagSz 16))) ∧
    (∀ out (tag : FixedBytes 16), plaintext.length ≤ out.length → tag.val = spec.2 →
      Answers (gcmDecrypt256 cipher ghash key iv aad spec.1 out tag) (0, plaintext ++ out.drop plaintext.length)) ∧
    (∀ out (tag : FixedBytes 16), tag.val ≠ spec.2 →
      Answers (gcmDecrypt256 cipher ghash key iv aad spec.1 out tag) (aesGcmAuthE, out)) := by
  intro spec
  have hlen : spec.1.length = plaintext.length := Gcm.length_ae (cipher.length_encrypt key.val) iv.val aad plaintext
  have hct : spec.1.length < 2 ^ 32 := hlen ▸ hplain
  refine ⟨fun out tagOut tagSz hout htag => ⟨_, logs_gcmEncrypt256 haad hplain hout htag⟩, ?_, ?_⟩
  · intro out tag hout htag
    have hanswer : Answers (gcmDecrypt256 cipher ghash key iv aad spec.1 out tag) _ :=
      answers_gcmDecrypt256 haad hct (hlen ▸ hout)
    rw [htag, Gcm.ad_ae (cipher.length_encrypt key.val)] at hanswer
    rw [← splice_zero]
    exact hanswer
  · exact fun out tag hne => ⟨_, logs_gcmDecrypt256_of_ne haad hct hne⟩

/-- The hash of the standard, piece after piece. -/
def standardGHash : GHash where
  State := Bytes × Bytes
  new h := (h, [])
  updatePadded mac x := (mac.1, mac.2 ++ Gcm.zeroPad x)
  finalize mac := Gcm.ghash mac.1 mac.2
  finalize_updates h pieces _ := by
    have hfold : ∀ (pieces : List Bytes) (mac : Bytes × Bytes),
        pieces.foldl (fun mac x => (mac.1, mac.2 ++ Gcm.zeroPad x)) mac =
          (mac.1, mac.2 ++ pieces.flatMap Gcm.zeroPad) := by
      intro pieces
      induction pieces with
      | nil => intro mac; rw [List.foldl_nil, List.flatMap_nil, List.append_nil]
      | cons x pieces ih => intro mac; rw [List.foldl_cons, ih, List.flatMap_cons, List.append_assoc]
    rw [hfold, List.nil_append]

/-- Twenty bytes, a block and a part of one, with a tag of twelve bytes; and a tag that is wrong. -/
theorem gcm_256_standard_sample :
    let key : FixedBytes 32 := ⟨List.replicate 32 7, rfl⟩
    let iv : FixedBytes 12 := ⟨List.replicate 12 9, rfl⟩
    let text : Bytes := List.replicate 20 5
    let spec := Gcm.ae (flipCipher.encrypt key.val) iv.val [1, 2] text
    Answers (gcmEncrypt256 flipCipher standardGHash key iv [1, 2] text (List.replicate 20 0) (List.replicate 16 0) 12)
      (spec.1, spec.2.take 12 ++ List.replicate 4 0) ∧
    (∀ tag : FixedBytes 16, tag.val = spec.2 →
      Answers (gcmDecrypt256 flipCipher standardGHash key iv [1, 2] spec.1 (List.replicate 20 0) tag) (0, text)) ∧
    (∀ tag : FixedBytes 16, tag.val ≠ spec.2 →
      Answers (gcmDecrypt256 flipCipher standardGHash key iv [1, 2] spec.1 (List.replicate 20 0) tag)
        (aesGcmAuthE, List.replicate 20 0)) := by
  intro key iv text spec
  obtain ⟨henc, hdec, hrefuse⟩ :=
    gcm_256_standard flipCipher standardGHash key iv [1, 2] text (by decide) (by decide)
  exact ⟨henc _ _ 12 rfl (by decide), fun tag htag => hdec _ tag (by decide) htag, fun tag hne => hrefuse _ tag hne⟩

/-! ## The blocks of one operation -/

/-- **The last 32 bits number the blocks.** -/
theorem numbers_of_blocks (iv : FixedBytes 12) {len : Nat} (hlen : len < 2 ^ 32) :
    (zeroBlock :: j0Block iv :: ctrBlocks iv len).map (fun b => beNat (b.drop 12)) =
      List.range (Gcm.blockCount len + 2) := by
  have hnumber : ∀ i, i < Gcm.blockCount len → beNat ((iv.val ++ beBytes 4 (2 + i)).drop 12) = 2 + i := by
    intro i hi
    unfold Gcm.blockCount at hi
    rw [List.drop_left' iv.property, beNat_beBytes]
    omega
  have hj0 : beNat ((j0Block iv).drop 12) = 1 := by
    rw [j0Block, List.drop_left' iv.property]
    rfl
  have hctr : (ctrBlocks iv len).map (fun b => beNat (b.drop 12)) = (List.range (Gcm.blockCount len)).map (2 + ·) := by
    rw [ctrBlocks, List.map_map]
    apply List.map_congr_left
    intro i hi
    exact hnumber i (List.mem_range.1 hi)
  rw [List.map_cons, List.map_cons, hctr, hj0, Nat.add_comm _ 2, List.range_add]
  rfl

theorem blocks_nodup (iv : FixedBytes 12) {len : Nat} (hlen : len < 2 ^ 32) :
    (zeroBlock :: j0Block iv :: ctrBlocks iv len).Nodup := by
  apply List.Nodup.of_map (fun b : Bytes => beNat (b.drop 12))
  rw [numbers_of_blocks iv hlen]
  exact List.nodup_range

/-- **The blocks of an operation are all different**: they are the zero block, the block of the tag and the counter
blocks, numbered 0, 1, 2 and so on in their last 32 bits without a wrap; and the lengths are whole in their 64 bits. -/
theorem gcm_blocks_distinct (cipher : Aes256) (ghash : GHash) (key : FixedBytes 32) (iv : FixedBytes 12)
    (aad text : Bytes) (haad : aad.length < 2 ^ 32) (htext : text.length < 2 ^ 32) :
    let blocks := zeroBlock :: j0Block iv :: ctrBlocks iv text.length
    (∀ out tagOut tagSz, out.length = text.length → min tagSz 16 ≤ tagOut.length →
      ∃ result used, Logs (gcmEncrypt256 cipher ghash key iv aad text out tagOut tagSz) result used ∧
        used.Nodup ∧ used.Perm blocks) ∧
    (∀ out tag, text.length ≤ out.length →
      ∃ result used, Logs (gcmDecrypt256 cipher ghash key iv aad text out tag) result used ∧
        used.Nodup ∧ used.Sublist blocks) ∧
    (blocks.map (fun b => beNat (b.drop 12)) = List.range (Gcm.blockCount text.length + 2) ∧
      Gcm.blockCount text.length + 2 < 2 ^ 32) ∧
    beNat ((lenBlock aad text).take 8) = 8 * aad.length ∧ beNat ((lenBlock aad text).drop 8) = 8 * text.length := by
  intro blocks
  have hnodup := blocks_nodup iv htext
  refine ⟨?_, ?_, ⟨numbers_of_blocks iv htext, ?_⟩, ?_⟩
  · intro out tagOut tagSz hout htag
    have hperm : (ctrBlocks iv text.length ++ [zeroBlock, j0Block iv]).Perm blocks := List.perm_append_comm
    exact ⟨_, _, logs_gcmEncrypt256 haad htext hout htag, hperm.nodup_iff.2 hnodup, hperm⟩
  · intro out tag hout
    by_cases heq : tag.val = Gcm.tag (cipher.encrypt key.val) iv.val aad text
    · exact ⟨_, _, logs_gcmDecrypt256_of_eq haad htext heq hout, hnodup, List.Sublist.refl _⟩
    · have hsub : [zeroBlock, j0Block iv].Sublist blocks := List.sublist_append_left _ (ctrBlocks iv text.length)
      exact ⟨_, _, logs_gcmDecrypt256_of_ne haad htext heq, hsub.nodup hnodup, hsub⟩
  · unfold Gcm.blockCount
    omega
  · rw [lenBlock_eq haad htext, Gcm.lengths, List.take_left' (length_beBytes _ _), List.drop_left' (length_beBytes _ _),
      beNat_beBytes, beNat_beBytes]
    constructor
    · omega
    · omega

theorem gcm_blocks_distinct_sample :
    let key : FixedBytes 32 := ⟨List.replicate 32 7, rfl⟩
    let iv : FixedBytes 12 := ⟨List.replicate 12 0, rfl⟩
    (∃ result used, Logs (gcmEncrypt256 flipCipher standardGHash key iv [] (List.replicate 33 5) (List.replicate 33 0)
        (List.replicate 16 0) 16) result used ∧ used.Nodup) ∧
      (zeroBlock :: j0Block iv :: ctrBlocks iv 33).map (fun b => beNat (b.drop 12)) = [0, 1, 2, 3, 4] := by
  intro key iv
  obtain ⟨henc, -, ⟨hnumbers, -⟩, -⟩ :=
    gcm_blocks_distinct flipCipher standardGHash key iv [] (List.replicate 33 5) (by decide) (by decide)
  obtain ⟨result, used, hrun, hnodup, -⟩ := henc (List.replicate 33 0) (List.replicate 16 0) 16 rfl (by decide)
  exact ⟨⟨result, used, hrun, hnodup⟩, hnumbers⟩

end DpeHw
end Wolf
