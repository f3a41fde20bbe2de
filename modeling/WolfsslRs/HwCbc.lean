import WolfsslRs.Cbc
import WolfsslRs.HwHash
/-!
# HwCbc — AES-CBC callbacks of the Caliptra backend (wolfcrypt-dpe-hw)

wolfCrypt hands the backend pieces of a message that belong to one AES object, whose `reg` carries the chaining value from
one piece to the next.  The backend takes it from the end of the output or, decrypting, from the end of the input, and
looks there after the cipher has run: where both are one buffer, the input it finds is the plaintext.
-/
namespace Wolf
namespace DpeHw

open Cbc (lastOf)

/-- The `aes` crate: AES-256 under a key, a pair of inverse functions on blocks. -/
structure Aes256 where
  encrypt : Bytes → Bytes → Bytes
  decrypt : Bytes → Bytes → Bytes
  length_encrypt : ∀ key b : Bytes, b.length = 16 → (encrypt key b).length = 16
  length_decrypt : ∀ key b : Bytes, b.length = 16 → (decrypt key b).length = 16
  decrypt_encrypt : ∀ key b : Bytes, b.length = 16 → decrypt key (encrypt key b) = b

/-- The part of wolfCrypt's `Aes` that is read and written. -/
structure Aes where
  devKey : Bytes
  keylen : Nat
  reg : Bytes
  deriving DecidableEq, Repr

/-- The memory the callbacks work on, the AES object apart (`none` for a null pointer), and the dispatch counter. -/
structure CbcState where
  aes : Option Aes
  mem : Bytes
  aesDispatchCount : Nat
  deriving DecidableEq, Repr

section Dispatch

variable (cipher : Aes256)

/-- `encrypt_padded_b2b_mut` without padding: whole blocks only. -/
def cbcEncrypt256 (key iv input : Bytes) : Option Bytes :=
  if input.length % 16 = 0 then some (Cbc.encrypt 16 (cipher.encrypt key) (input.length / 16) iv input) else none

def cbcDecrypt256 (key iv input : Bytes) : Option Bytes :=
  if input.length % 16 = 0 then some (Cbc.decrypt 16 (cipher.decrypt key) (input.length / 16) iv input) else none

/-- `enc` is `enc != 0`; `in_` and `out` are places in memory, `none` for a null pointer. -/
def dispatchAescbc (enc : Bool) (in_ out : Option Nat) (sz : Nat) (s : CbcState) : Int × CbcState :=
  match s.aes with
  | none => (cryptocbUnavailable, s)
  | some aes =>
    if aes.keylen ≠ 32 then (cryptocbUnavailable, s)
    else if sz = 0 ∨ sz % 16 ≠ 0 then (cryptocbUnavailable, s)
    else
      match in_, out with
      | some i, some o =>
        let key := aes.devKey.take 32
        let iv := aes.reg.take 16
        let input := slice s.mem i sz
        match if enc then cbcEncrypt256 cipher key iv input else cbcDecrypt256 cipher key iv input with
        | none => (cryptocbUnavailable, s)
        | some output =>
          let mem := splice s.mem o output
          -- both slices are looked at where they lie now
          let lastCt := if enc then lastOf 16 (slice mem o sz) else lastOf 16 (slice mem i sz)
          (0, ⟨some { aes with reg := lastCt ++ aes.reg.drop 16 }, mem, s.aesDispatchCount + 1⟩)
      | _, _ => (cryptocbUnavailable, s)

/-- A message dispatched in pieces of `ns` blocks, one after another, on one AES object. -/
def dispatchChunks (enc : Bool) : List Nat → Nat → Nat → CbcState → CbcState
  | [], _, _, s => s
  | n :: ns, i, o, s =>
    dispatchChunks enc ns (i + 16 * n) (o + 16 * n) (dispatchAescbc cipher enc (some i) (some o) (16 * n) s).2

/-- **The output of a message dispatched in pieces.** -/
def chunkedOutput (enc : Bool) (ns : List Nat) (i o : Nat) (s : CbcState) : Bytes :=
  slice (dispatchChunks cipher enc ns i o s).mem o (16 * ns.sum)

/-- **The output of the whole message dispatched at once.** -/
def wholeOutput (enc : Bool) (n i o : Nat) (s : CbcState) : Bytes :=
  slice (dispatchAescbc cipher enc (some i) (some o) (16 * n) s).2.mem o (16 * n)

end Dispatch

/-- **An AES object with a 256-bit key, and the buffers of a message of `n` blocks**: one buffer or two that do not
meet. -/
structure Placed (inPlace : Bool) (n i o : Nat) (s : CbcState) (aes : Aes) : Prop where
  aes_eq : s.aes = some aes
  keylen : aes.keylen = 32
  reg : aes.reg.length = 16
  input : i + 16 * n ≤ s.mem.length
  output : o + 16 * n ≤ s.mem.length
  apart : if inPlace then i = o else i + 16 * n ≤ o ∨ o + 16 * n ≤ i

/-! ## What the register makes of a message -/

section Register

variable (cipher : Aes256) (enc : Bool) (key : Bytes)

/-- The cipher on `n` blocks. -/
def cbc (n : Nat) (iv input : Bytes) : Bytes :=
  if enc then Cbc.encrypt 16 (cipher.encrypt key) n iv input else Cbc.decrypt 16 (cipher.decrypt key) n iv input

/-- The register after a piece: the end of the output, or of the input while there still is one. -/
def nextReg (inPlace : Bool) (input output : Bytes) : Bytes :=
  if enc || inPlace then lastOf 16 output else lastOf 16 input

/-- **The output of a message in pieces**, each chained from the register the one before it left. -/
def pieces (inPlace : Bool) : List Nat → Bytes → Bytes → Bytes
  | [], _, _ => []
  | n :: ns, iv, m =>
    let output := cbc cipher enc key n iv (m.take (16 * n))
    output ++ pieces inPlace ns (nextReg enc inPlace (m.take (16 * n)) output) (m.drop (16 * n))

theorem length_cbc {n : Nat} {iv m : Bytes} (hiv : iv.length = 16) (hm : m.length = 16 * n) :
    (cbc cipher enc key n iv m).length = 16 * n := by
  unfold cbc
  split
  · exact Cbc.length_encrypt (cipher.length_encrypt key) n iv m hiv hm
  · exact Cbc.length_decrypt (cipher.length_decrypt key) n iv m hiv hm

theorem length_nextReg (inPlace : Bool) {n : Nat} {input output : Bytes} (hn : 0 < n) (hin : input.length = 16 * n)
    (hout : output.length = 16 * n) : (nextReg enc inPlace input output).length = 16 := by
  unfold nextReg
  split
  · exact Cbc.length_lastOf (by omega)
  · exact Cbc.length_lastOf (by omega)

variable {cipher enc key}

/-- **Chained from the end of the ciphertext, the pieces make up the whole.** -/
theorem pieces_eq_cbc {inPlace : Bool} (h : enc = true ∨ inPlace = false) : ∀ (ns : List Nat), (∀ n ∈ ns, 0 < n) →
    ∀ iv m : Bytes, iv.length = 16 → m.length = 16 * ns.sum → pieces cipher enc key inPlace ns iv m =
      cbc cipher enc key ns.sum iv m
  | [], _, iv, m, _, _ => by cases enc <;> rfl
  | n :: ns, hpos, iv, m, hiv, hm => by
    have hn : 0 < n := hpos n List.mem_cons_self
    rw [List.sum_cons] at hm ⊢
    have htake : (m.take (16 * n)).length = 16 * n := by rw [List.length_take]; omega
    have hdrop : (m.drop (16 * n)).length = 16 * ns.sum := by rw [List.length_drop]; omega
    have hout := length_cbc cipher enc key hiv htake
    have hreg := length_nextReg enc inPlace hn htake hout
    rw [pieces, pieces_eq_cbc h ns (fun k hk => hpos k (List.mem_cons_of_mem _ hk)) _ _ hreg hdrop]
    conv => rhs; rw [← List.take_append_drop (16 * n) m]
    cases enc with
    | true =>
      have hlast : nextReg true inPlace (m.take (16 * n)) (cbc cipher true key n iv (m.take (16 * n))) =
          lastOf 16 (iv ++ cbc cipher true key n iv (m.take (16 * n))) := (Cbc.lastOf_append (by omega)).symm
      rw [hlast]
      exact (Cbc.encrypt_append (cipher.length_encrypt key) ns.sum _ n iv _ hiv htake).symm
    | false =>
      have hplace : inPlace = false := by simpa using h
      have hlast : nextReg false inPlace (m.take (16 * n)) (cbc cipher false key n iv (m.take (16 * n))) =
          lastOf 16 (iv ++ m.take (16 * n)) := by
        rw [hplace]
        exact (Cbc.lastOf_append (by omega)).symm
      rw [hlast]
      exact (Cbc.decrypt_append ns.sum _ n iv _ hiv htake).symm

end Register

/-! ## The dispatch -/

section Dispatched

variable {cipher : Aes256} {enc inPlace : Bool} {n k i o : Nat} {s : CbcState} {aes : Aes}

theorem Placed.first (h : Placed inPlace (n + k) i o s aes) : Placed inPlace n i o s aes := by
  have hi := h.input
  have ho := h.output
  have hapart := h.apart
  rw [Nat.mul_add] at hi ho hapart
  refine ⟨h.aes_eq, h.keylen, h.reg, by omega, by omega, ?_⟩
  cases inPlace with
  | true => exact hapart
  | false =>
    simp only [Bool.false_eq_true, if_false] at hapart ⊢
    omega

/-- What one dispatch does to the memory and the register. -/
def dispatched (cipher : Aes256) (enc inPlace : Bool) (n i o : Nat) (s : CbcState) (aes : Aes) : CbcState :=
  let input := slice s.mem i (16 * n)
  let output := cbc cipher enc (aes.devKey.take 32) n aes.reg input
  ⟨some { aes with reg := nextReg enc inPlace input output }, splice s.mem o output, s.aesDispatchCount + 1⟩

theorem length_output (cipher : Aes256) (enc : Bool) (h : Placed inPlace n i o s aes) :
    (cbc cipher enc (aes.devKey.take 32) n aes.reg (slice s.mem i (16 * n))).length = 16 * n :=
  length_cbc cipher enc _ h.reg (length_slice_of_le h.input)

/-- **One dispatch**: the cipher runs over the input, and the register is read where the buffers lie. -/
theorem dispatchAescbc_placed (h : Placed inPlace n i o s aes) (hn : 0 < n) :
    dispatchAescbc cipher enc (some i) (some o) (16 * n) s = (0, dispatched cipher enc inPlace n i o s aes) := by
  have hin : (slice s.mem i (16 * n)).length = 16 * n := length_slice_of_le h.input
  have hout := length_output cipher enc h
  have hsz : ¬(16 * n = 0 ∨ 16 * n % 16 ≠ 0) := by omega
  have hran : (if enc then cbcEncrypt256 cipher (aes.devKey.take 32) aes.reg (slice s.mem i (16 * n))
      else cbcDecrypt256 cipher (aes.devKey.take 32) aes.reg (slice s.mem i (16 * n))) =
      some (cbc cipher enc (aes.devKey.take 32) n aes.reg (slice s.mem i (16 * n))) := by
    unfold cbcEncrypt256 cbcDecrypt256 cbc
    rw [hin, if_pos (Nat.mul_mod_right 16 n), if_pos (Nat.mul_mod_right 16 n), Nat.mul_div_cancel_left n (by decide)]
    cases enc <;> rfl
  have hreg : aes.reg.take 16 = aes.reg := List.take_of_length_le (Nat.le_of_eq h.reg)
  have hrest : aes.reg.drop 16 = [] := List.drop_eq_nil_of_le (Nat.le_of_eq h.reg)
  simp only [dispatchAescbc, h.aes_eq, h.keylen, ne_eq, not_true_eq_false, if_false, if_neg hsz, hreg, hran, hrest,
    List.append_nil, dispatched]
  generalize cbc cipher enc (aes.devKey.take 32) n aes.reg (slice s.mem i (16 * n)) = output at hout
  have ho : o + output.length ≤ s.mem.length := by rw [hout]; exact h.output
  have hwritten : slice (splice s.mem o output) o (16 * n) = output := slice_splice hout.symm ho
  -- the input is found again only where the output did not go over it
  have hfound : (if enc then lastOf 16 (slice (splice s.mem o output) o (16 * n))
      else lastOf 16 (slice (splice s.mem o output) i (16 * n))) =
      nextReg enc inPlace (slice s.mem i (16 * n)) output := by
    have hapart := h.apart
    cases enc with
    | true => rw [hwritten]; rfl
    | false =>
      cases inPlace with
      | true =>
        cases (show i = o from hapart)
        rw [hwritten]; rfl
      | false =>
        simp only [Bool.false_eq_true, if_false] at hapart
        have hkept : slice (splice s.mem o output) i (16 * n) = slice s.mem i (16 * n) :=
          slice_splice_beside ho (by rw [hout]; exact hapart)
        rw [hkept]; rfl
  rw [hfound]

/-- After a piece, the rest of the message lies as the whole did, and its input is as it was. -/
theorem Placed.rest (cipher : Aes256) (enc : Bool) (h : Placed inPlace (n + k) i o s aes) (hn : 0 < n) :
    ∃ aes', Placed inPlace k (i + 16 * n) (o + 16 * n) (dispatched cipher enc inPlace n i o s aes) aes' ∧
      aes'.devKey = aes.devKey ∧
      aes'.reg = nextReg enc inPlace (slice s.mem i (16 * n))
        (cbc cipher enc (aes.devKey.take 32) n aes.reg (slice s.mem i (16 * n))) ∧
      slice (dispatched cipher enc inPlace n i o s aes).mem (i + 16 * n) (16 * k) =
        slice s.mem (i + 16 * n) (16 * k) := by
  have hfirst := h.first
  have hout := length_output cipher enc hfirst
  have hlen := length_nextReg enc inPlace hn (length_slice_of_le hfirst.input) hout
  have hi := h.input
  have ho := h.output
  have hapart := h.apart
  rw [Nat.mul_add] at hi ho hapart
  simp only [dispatched]
  generalize cbc cipher enc (aes.devKey.take 32) n aes.reg (slice s.mem i (16 * n)) = output at hout hlen
  have hfits : o + output.length ≤ s.mem.length := by rw [hout]; exact hfirst.output
  have hmem := length_splice hfits
  refine ⟨_, ⟨rfl, h.keylen, hlen, by simp only; omega, by simp only; omega, ?_⟩, rfl, rfl, ?_⟩
  · cases inPlace with
    | true => exact congrArg (· + 16 * n) hapart
    | false =>
      simp only [Bool.false_eq_true, if_false] at hapart ⊢
      omega
  · apply slice_splice_beside hfits
    rw [hout]
    cases inPlace with
    | true =>
      cases (show i = o from hapart)
      exact .inr (Nat.le_refl _)
    | false =>
      simp only [Bool.false_eq_true, if_false] at hapart
      omega

/-- **A message in pieces writes what the register makes of it.** -/
theorem dispatchChunks_mem (cipher : Aes256) (enc inPlace : Bool) : ∀ (ns : List Nat), (∀ n ∈ ns, 0 < n) →
    ∀ (i o : Nat) (s : CbcState) (aes : Aes), Placed inPlace ns.sum i o s aes →
      (dispatchChunks cipher enc ns i o s).mem =
          splice s.mem o (pieces cipher enc (aes.devKey.take 32) inPlace ns aes.reg (slice s.mem i (16 * ns.sum))) ∧
        (pieces cipher enc (aes.devKey.take 32) inPlace ns aes.reg (slice s.mem i (16 * ns.sum))).length = 16 * ns.sum
  | [], _, i, o, s, aes, h => by
    refine ⟨?_, rfl⟩
    rw [dispatchChunks, pieces, splice, List.append_nil, List.length_nil, Nat.add_zero, List.take_append_drop]
  | n :: ns, hpos, i, o, s, aes, h => by
    have hn : 0 < n := hpos n List.mem_cons_self
    rw [List.sum_cons] at h
    have hout := length_output cipher enc h.first
    have hin : (slice s.mem i (16 * n)).length = 16 * n := length_slice_of_le h.first.input
    obtain ⟨aes', hrest, hkey, hreg, hinput⟩ := h.rest cipher enc hn
    obtain ⟨hmem, hlen⟩ := dispatchChunks_mem cipher enc inPlace ns (fun k hk => hpos k (List.mem_cons_of_mem _ hk)) _ _ _
      aes' hrest
    rw [hkey, hreg, hinput] at hmem hlen
    rw [dispatchChunks, dispatchAescbc_placed h.first hn, List.sum_cons, Nat.mul_add, slice_add, pieces,
      List.take_left' hin, List.drop_left' hin, List.length_append, hout, hlen]
    refine ⟨?_, rfl⟩
    rw [hmem]
    simp only [dispatched]
    have hfits := h.first.output
    rw [← hout] at hfits
    rw [← splice_beside hfits, hout]

theorem chunkedOutput_eq {ns : List Nat} (hpos : ∀ n ∈ ns, 0 < n) (h : Placed inPlace ns.sum i o s aes) :
    chunkedOutput cipher enc ns i o s =
      pieces cipher enc (aes.devKey.take 32) inPlace ns aes.reg (slice s.mem i (16 * ns.sum)) := by
  obtain ⟨hmem, hlen⟩ := dispatchChunks_mem cipher enc inPlace ns hpos i o s aes h
  rw [chunkedOutput, hmem]
  apply slice_splice hlen.symm
  rw [hlen]
  exact h.output

theorem wholeOutput_eq (h : Placed inPlace n i o s aes) :
    wholeOutput cipher enc n i o s = cbc cipher enc (aes.devKey.take 32) n aes.reg (slice s.mem i (16 * n)) := by
  have hout := length_output cipher enc h
  cases n with
  | zero => rw [List.eq_nil_of_length_eq_zero hout, wholeOutput, slice, List.take_zero]
  | succ n =>
    rw [wholeOutput, dispatchAescbc_placed h (Nat.succ_pos n)]
    apply slice_splice hout.symm
    rw [hout]
    exact h.output

end Dispatched

/-! ## Pieces and the whole -/

/-- A block cipher that flips the lowest bit of every byte. -/
def flipCipher : Aes256 where
  encrypt _ b := xorBytes b (List.replicate 16 1)
  decrypt _ b := xorBytes b (List.replicate 16 1)
  length_encrypt _ b h := by rw [length_xorBytes, h, List.length_replicate]; rfl
  length_decrypt _ b h := by rw [length_xorBytes, h, List.length_replicate]; rfl
  decrypt_encrypt _ b h := xorBytes_xorBytes b _ (by rw [h, List.length_replicate])

theorem decrypt_zeros (key : Bytes) : ∀ n : Nat,
    Cbc.decrypt 16 (flipCipher.decrypt key) n (List.replicate 16 0) (List.replicate (16 * n) 0) = List.replicate (16 * n) 1
  | 0 => rfl
  | n + 1 => by
    have hblock : (List.replicate (16 * (n + 1)) (0 : UInt8)).take 16 = List.replicate 16 0 := by
      rw [List.take_replicate]
      congr 1
    have hrest : (List.replicate (16 * (n + 1)) (0 : UInt8)).drop 16 = List.replicate (16 * n) 0 := by
      rw [List.drop_replicate]
      congr 1
    have hflip : xorBytes (flipCipher.decrypt key (List.replicate 16 0)) (List.replicate 16 0) = List.replicate 16 1 :=
      rfl
    rw [Cbc.decrypt, hblock, hrest, decrypt_zeros key n, hflip, List.replicate_append_replicate]
    congr 1
    omega

/-- A message of zeros, to be decrypted in place from a register of zeros. -/
def zeroMessage (n : Nat) : CbcState := ⟨some ⟨[], 32, List.replicate 16 0⟩, List.replicate (16 * n) 0, 0⟩

theorem zeroMessage_placed (n : Nat) : Placed true n 0 0 (zeroMessage n) ⟨[], 32, List.replicate 16 0⟩ where
  aes_eq := rfl
  keylen := rfl
  reg := rfl
  input := by simp [zeroMessage]
  output := by simp [zeroMessage]
  apart := rfl

/-- In place, the second piece is chained from the plaintext of the first. -/
theorem zero_mem_pieces (key : Bytes) (n k : Nat) (ns : List Nat) (hn : 0 < n) :
    0 ∈ pieces flipCipher false key true (n :: (k + 1) :: ns) (List.replicate 16 0)
      (List.replicate (16 * (n + (k + 1 + ns.sum))) 0) := by
  have hfirst : (List.replicate (16 * (n + (k + 1 + ns.sum))) (0 : UInt8)).take (16 * n) = List.replicate (16 * n) 0 := by
    rw [List.take_replicate]
    congr 1
    omega
  have hrest : (List.replicate (16 * (n + (k + 1 + ns.sum))) (0 : UInt8)).drop (16 * n) =
      List.replicate (16 * (k + 1 + ns.sum)) 0 := by
    rw [List.drop_replicate]
    congr 1
    omega
  have hblock : ((List.replicate (16 * (k + 1 + ns.sum)) (0 : UInt8)).take (16 * (k + 1))).take 16 =
      List.replicate 16 0 := by
    rw [List.take_replicate, List.take_replicate]
    congr 1
    omega
  have hreg : nextReg false true (List.replicate (16 * n) 0) (List.replicate (16 * n) 1) = List.replicate 16 1 := by
    simp only [nextReg, Bool.or_true, if_true, lastOf, List.length_replicate, List.drop_replicate]
    congr 1
    omega
  have hcbc : cbc flipCipher false key n (List.replicate 16 0) (List.replicate (16 * n) 0) = List.replicate (16 * n) 1 :=
    decrypt_zeros key n
  rw [pieces, hfirst, hrest, hcbc, hreg, pieces]
  apply List.mem_append_right
  apply List.mem_append_left
  simp only [cbc, Bool.false_eq_true, if_false, Cbc.decrypt]
  rw [hblock]
  apply List.mem_append_left
  have hblank : xorBytes (flipCipher.decrypt key (List.replicate 16 0)) (List.replicate 16 1) = List.replicate 16 0 := rfl
  rw [hblank]
  decide

/-- **Zeros decrypted in place in two pieces or more do not come out as the whole.** -/
theorem zeroMessage_pieces_differ {n k : Nat} {ns : List Nat} (hpos : ∀ j ∈ n :: (k + 1) :: ns, 0 < j) :
    chunkedOutput flipCipher false (n :: (k + 1) :: ns) 0 0 (zeroMessage (n :: (k + 1) :: ns).sum) ≠
      wholeOutput flipCipher false (n :: (k + 1) :: ns).sum 0 0 (zeroMessage (n :: (k + 1) :: ns).sum) := by
  have hp := zeroMessage_placed (n :: (k + 1) :: ns).sum
  have hmsg : slice (zeroMessage (n :: (k + 1) :: ns).sum).mem 0 (16 * (n :: (k + 1) :: ns).sum) =
      List.replicate (16 * (n :: (k + 1) :: ns).sum) 0 := by
    rw [slice_zero, zeroMessage, List.take_replicate, Nat.min_self]
  rw [chunkedOutput_eq hpos hp, wholeOutput_eq hp, hmsg]
  intro heq
  have hzero := zero_mem_pieces ([].take 32) n k ns (hpos n List.mem_cons_self)
  have hones : cbc flipCipher false ([].take 32) (n :: (k + 1) :: ns).sum (List.replicate 16 0)
      (List.replicate (16 * (n :: (k + 1) :: ns).sum) 0) = List.replicate (16 * (n :: (k + 1) :: ns).sum) 1 :=
    decrypt_zeros _ _
  rw [hones, List.sum_cons, List.sum_cons] at heq
  rw [heq] at hzero
  exact absurd (List.eq_of_mem_replicate hzero) (by decide)

/-- **When a message in pieces comes out as the whole**, for every key, register and message: exactly when it is encrypted,
or the buffers are apart, or there is no second piece. -/
theorem chunked_eq_whole_iff (enc inPlace : Bool) (ns : List Nat) (hpos : ∀ n ∈ ns, 0 < n) :
    (∀ (cipher : Aes256) (s : CbcState) (aes : Aes) (i o : Nat), Placed inPlace ns.sum i o s aes →
      chunkedOutput cipher enc ns i o s = wholeOutput cipher enc ns.sum i o s) ↔
      enc = true ∨ inPlace = false ∨ ns.length ≤ 1 := by
  constructor
  · intro h
    cases enc with
    | true => exact .inl rfl
    | false =>
      cases inPlace with
      | false => exact .inr (.inl rfl)
      | true =>
        match ns, hpos with
        | [], _ => exact .inr (.inr (Nat.zero_le 1))
        | [_], _ => exact .inr (.inr (Nat.le_refl 1))
        | n :: 0 :: ns, hpos => exact absurd (hpos 0 (by simp)) (Nat.lt_irrefl 0)
        | n :: (k + 1) :: ns, hpos =>
          exact absurd (h flipCipher _ _ 0 0 (zeroMessage_placed _)) (zeroMessage_pieces_differ hpos)
  · rintro hcond cipher s aes i o hp
    rw [chunkedOutput_eq hpos hp, wholeOutput_eq hp]
    have hin : (slice s.mem i (16 * ns.sum)).length = 16 * ns.sum := length_slice_of_le hp.input
    rcases hcond with henc | hplace | hlen
    · exact pieces_eq_cbc (.inl henc) ns hpos _ _ hp.reg hin
    · exact pieces_eq_cbc (.inr hplace) ns hpos _ _ hp.reg hin
    · match ns, hlen with
      | [], _ => cases enc <;> rfl
      | [n], _ =>
        rw [List.sum_singleton] at hin ⊢
        rw [pieces, pieces, List.append_nil, List.take_of_length_le (Nat.le_of_eq hin)]

theorem chunked_eq_whole_apart :
    let s : CbcState := ⟨some ⟨List.replicate 32 7, 32, List.replicate 16 9⟩, List.replicate 96 5, 0⟩
    chunkedOutput flipCipher false [1, 2] 0 48 s = wholeOutput flipCipher false 3 0 48 s :=
  (chunked_eq_whole_iff false false [1, 2] (by decide)).2 (.inr (.inl rfl)) flipCipher _ _ 0 48
    ⟨rfl, rfl, rfl, by decide, by decide, by decide⟩

/-- Two blocks decrypted in place, one at a time: the second is chained from the plaintext of the first. -/
theorem in_place_pieces_differ :
    chunkedOutput flipCipher false [1, 1] 0 0 (zeroMessage 2) = List.replicate 16 1 ++ List.replicate 16 0 ∧
      wholeOutput flipCipher false 2 0 0 (zeroMessage 2) = List.replicate 32 1 := by decide

end DpeHw
end Wolf
