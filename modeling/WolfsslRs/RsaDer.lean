import WolfsslRs.Der
import WolfsslRs.CMemory
import WolfsslRs.Program
/-!
# RsaDer — the DER helpers of wolfcrypt's RSA keys

`build_pkcs1_public_key_der` writes a public key, `extract_iqmp_from_pkcs1_der` reads the ninth INTEGER of a private
one; both stand on a few helpers for lengths and INTEGERs.  A `usize` has `w` bits: a checked addition that does not
fit is a `None`, an unchecked one a panic, and so is an index or a range outside its slice.
-/
namespace Wolf
namespace Rsa

open Program

/-- How a helper is left without a value. -/
inductive Stop where
  | absent | panicked
  deriving DecidableEq, Repr

section Arithmetic

variable (w : Nat)

def checkedAdd (x y : Nat) : Except Stop Nat := if x + y < 2 ^ w then .ok (x + y) else .error .absent

def add (x y : Nat) : Except Stop Nat := if x + y < 2 ^ w then .ok (x + y) else .error .panicked

/-- `usize::checked_shl`: only the shift is checked, the bits that leave are lost. -/
def checkedShl (x k : Nat) : Except Stop Nat := if k < w then .ok ((x <<< k) % 2 ^ w) else .error .absent

/-- `Vec::with_capacity`, which takes at most `isize::MAX` bytes. -/
def withCapacity (n : Nat) : Except Stop Unit := if n < 2 ^ (w - 1) then .ok () else .error .panicked

end Arithmetic

/-- `*data.get(pos)?`. -/
def get (data : Bytes) (pos : Nat) : Except Stop UInt8 :=
  match data[pos]? with
  | none => .error .absent
  | some b => .ok b

/-- `data[pos]`. -/
def index (data : Bytes) (pos : Nat) : Except Stop UInt8 :=
  match data[pos]? with
  | none => .error .panicked
  | some b => .ok b

/-- `&data[start..fin]`. -/
def range (data : Bytes) (start fin : Nat) : Except Stop Bytes :=
  if start ≤ fin ∧ fin ≤ data.length then .ok (slice data start (fin - start)) else .error .panicked

/-! ## Writing -/

def derPushLength (len : Nat) : Except Stop Bytes :=
  if len < 0x80 then .ok [UInt8.ofNat len]
  else if len < 0x100 then .ok [0x81, UInt8.ofNat len]
  else if len < 0x10000 then .ok [0x82, UInt8.ofNat (len >>> 8), UInt8.ofNat len]
  else if len < 0x1000000 then .ok [0x83, UInt8.ofNat (len >>> 16), UInt8.ofNat (len >>> 8), UInt8.ofNat len]
  else .error .panicked

/-- The bytes from the first that is not zero on, the last byte if all are. -/
def significant (bytes : Bytes) : Bytes :=
  match bytes.findIdx? (· != 0) with
  | some i => bytes.drop i
  | none => bytes.drop (bytes.length - 1)

def derEncodeUnsignedInteger (w : Nat) (bytes : Bytes) : Except Stop Bytes :=
  if bytes.isEmpty then .ok [0x02, 0x01, 0x00]
  else do
    let first ← index (significant bytes) 0
    let pad : Bytes := if first &&& 0x80 ≠ 0 then [0x00] else []
    let valueLen ← add w (significant bytes).length pad.length
    let capacity ← add w valueLen 4
    withCapacity w capacity
    let length ← derPushLength valueLen
    .ok (0x02 :: (length ++ pad ++ significant bytes))

def buildPkcs1PublicKeyDer (w : Nat) (n e : Bytes) : Except Stop Bytes := do
  let nDer ← derEncodeUnsignedInteger w n
  let eDer ← derEncodeUnsignedInteger w e
  let contentLen ← add w nDer.length eDer.length
  let capacity ← add w contentLen 10
  withCapacity w capacity
  let length ← derPushLength contentLen
  .ok (0x30 :: (length ++ nDer ++ eDer))

/-! ## Reading -/

/-- `for i in 0..n { len = len.checked_shl(8)? | *data.get(pos + 1 + i)? }`, with `k` bytes left. -/
def derReadLenBytes (w : Nat) (data : Bytes) (pos : Nat) : Nat → Nat → Nat → Except Stop Nat
  | _, 0, len => .ok len
  | i, k + 1, len => do
    let shifted ← checkedShl w len 8
    let next ← add w pos 1
    let place ← add w next i
    let b ← get data place
    derReadLenBytes w data pos (i + 1) k (shifted ||| b.toNat)

def derReadLongLen (w : Nat) (data : Bytes) (pos n : Nat) : Except Stop (Nat × Nat) :=
  if n = 0 ∨ 4 < n then .error .absent
  else do
    let next ← checkedAdd w pos 1
    let fin ← checkedAdd w next n
    if data.length < fin then .error .absent
    else do
      let len ← derReadLenBytes w data pos 0 n 0
      let consumed ← add w 1 n
      .ok (len, consumed)

def derReadLen (w : Nat) (data : Bytes) (pos : Nat) : Except Stop (Nat × Nat) := do
  let b ← get data pos
  if b < 0x80 then .ok (b.toNat, 1)
  else derReadLongLen w data pos (b &&& 0x7f).toNat

def derReadInt (w : Nat) (data : Bytes) (pos : Nat) : Except Stop Bytes := do
  let tag ← get data pos
  if tag ≠ 0x02 then .error .absent
  else do
    let next ← checkedAdd w pos 1
    let head ← derReadLen w data next
    let start ← checkedAdd w next head.2
    let fin ← checkedAdd w start head.1
    if data.length < fin then .error .absent
    else do
      let val ← range data start fin
      -- `while val.len() > 1 && val[0] == 0`
      .ok (Der.trimZeros val)

def derSkipInt (w : Nat) (data : Bytes) (pos : Nat) : Except Stop Nat := do
  let tag ← get data pos
  if tag ≠ 0x02 then .error .absent
  else do
    let next ← checkedAdd w pos 1
    let head ← derReadLen w data next
    let start ← checkedAdd w next head.2
    let fin ← checkedAdd w start head.1
    if data.length < fin then .error .absent else .ok fin

/-- How `extract_iqmp_from_pkcs1_der` is left: by `WolfCryptError::Ffi`, or by a panic. -/
inductive Exit where
  | ffi (code : Int) (func : String)
  | panicked
  deriving DecidableEq, Repr

def err : Exit := .ffi (-1) "extract_iqmp_from_pkcs1_der"

/-- `.ok_or_else(err)?`. -/
def okOrErr {α : Type} : Except Stop α → Except Exit α
  | .ok a => .ok a
  | .error .absent => .error err
  | .error .panicked => .error .panicked

def skipInts (w : Nat) (der : Bytes) : Nat → Nat → Except Exit Nat
  | 0, pos => .ok pos
  | k + 1, pos => do
    let pos ← okOrErr (derSkipInt w der pos)
    skipInts w der k pos

def extractIqmpFromPkcs1Der (w : Nat) (der : Bytes) : Except Exit Bytes :=
  if der.length ≤ 0 then .error err
  else do
    let tag ← okOrErr (index der 0)
    if tag ≠ 0x30 then .error err
    else do
      let pos ← okOrErr (checkedAdd w 0 1)
      let head ← okOrErr (derReadLen w der pos)
      let pos ← okOrErr (checkedAdd w pos head.2)
      let pos ← skipInts w der 8 pos
      okOrErr (derReadInt w der pos)

/-! ## What is written is the encoding of the values -/

/-- The widths a `usize` has. -/
def IsUsize (w : Nat) : Prop := w = 32 ∨ w = 64

theorem IsUsize.bounds {w : Nat} (hw : IsUsize w) : 8 < w ∧ 2 ^ 31 ≤ 2 ^ (w - 1) ∧ 2 ^ (w - 1) + 2 ^ 31 ≤ 2 ^ w := by
  rcases hw with rfl | rfl <;> decide

theorem derPushLength_eq {len : Nat} (h : len < 2 ^ 24) : derPushLength len = .ok (Der.lengthOctets len) := by
  unfold derPushLength
  by_cases h1 : len < 0x80
  · rw [if_pos h1, Der.lengthOctets_short h1]
  by_cases h2 : len < 0x100
  · rw [if_neg h1, if_pos h2, Der.lengthOctets_two (by omega) h2]
  by_cases h3 : len < 0x10000
  · rw [if_neg h1, if_neg h2, if_pos h3, Der.lengthOctets_three (by omega) h3, Nat.shiftRight_eq_div_pow]
  have h4 : len < 0x1000000 := h
  rw [if_neg h1, if_neg h2, if_neg h3, if_pos h4, Der.lengthOctets_long (k := 2) (by omega) (by omega) (by omega)]
  simp only [beBytes, Nat.shiftRight_eq_div_pow, Nat.pow_zero, Nat.div_one]
  rfl

theorem significant_eq : ∀ {bytes : Bytes}, bytes ≠ [] → significant bytes = Der.trimZeros bytes
  | b :: bs, _ => by
    by_cases hb : b = 0
    · subst hb
      cases bs with
      | nil => rfl
      | cons c cs =>
        have ih := significant_eq (List.cons_ne_nil c cs)
        have hstep : significant (0 :: c :: cs) = significant (c :: cs) := by
          unfold significant
          rw [List.findIdx?_cons]
          cases (c :: cs).findIdx? (· != 0) with
          | none => rfl
          | some i => rfl
        rw [hstep, ih, Der.trimZeros]
    · have hfirst : (b != 0) = true := by simpa using hb
      rw [Der.trimZeros_cons hb, significant, List.findIdx?_cons, if_pos hfirst]
      rfl

theorem toNat_and_low (b : UInt8) : (b &&& 0x7f).toNat = b.toNat % 128 := by
  rw [UInt8.toNat_and]
  exact Nat.and_two_pow_sub_one_eq_mod b.toNat 7

theorem add_eq {w x y : Nat} (h : x + y < 2 ^ w) : add w x y = .ok (x + y) := if_pos h

theorem checkedAdd_eq {w x y : Nat} (h : x + y < 2 ^ w) : checkedAdd w x y = .ok (x + y) := if_pos h

theorem withCapacity_eq {w n : Nat} (h : n < 2 ^ (w - 1)) : withCapacity w n = .ok () := if_pos h

theorem contents_eq {n : Nat} {c : UInt8} {cs : Bytes} (h : Der.unsignedBytes n = c :: cs) :
    Der.contents n = (if c &&& 0x80 ≠ 0 then [0x00] else []) ++ (c :: cs) := by
  rw [Der.contents, h, List.headD_cons]
  by_cases hc : c &&& 0x80 ≠ 0
  · rw [if_pos hc, if_pos ((and_high c).1 hc)]
    rfl
  · rw [if_neg hc, if_neg (fun h => hc ((and_high c).2 h))]
    rfl

/-- **An INTEGER is written for the value of the bytes**, whatever zeros they have in front. -/
theorem derEncodeUnsignedInteger_eq {w : Nat} (hw : IsUsize w) (bytes : Bytes)
    (hsize : (Der.contents (beNat bytes)).length < 2 ^ 24) :
    derEncodeUnsignedInteger w bytes = .ok (Der.integer (beNat bytes)) := by
  obtain ⟨-, h31, hfit⟩ := hw.bounds
  cases bytes with
  | nil => rfl
  | cons b bs =>
    have hsig : significant (b :: bs) = Der.unsignedBytes (beNat (b :: bs)) := by
      rw [significant_eq (List.cons_ne_nil b bs), Der.trimZeros_eq (List.cons_ne_nil b bs)]
    generalize beNat (b :: bs) = n at hsize hsig
    cases hn : Der.unsignedBytes n with
    | nil => exact absurd hn (Der.unsignedBytes_ne_nil n)
    | cons c cs =>
      have hcontents := contents_eq hn
      have hlen := congrArg List.length hcontents
      rw [List.length_append] at hlen
      have hne : ¬ (b :: bs).isEmpty = true := Bool.false_ne_true
      rw [derEncodeUnsignedInteger, if_neg hne, hsig, hn, Der.integer, Der.element, hcontents]
      refine bind_ok.2 ⟨c, rfl, bind_ok.2 ⟨_, add_eq (by omega), bind_ok.2 ⟨_, add_eq (by omega), ?_⟩⟩⟩
      refine bind_ok.2 ⟨(), withCapacity_eq (by omega), bind_ok.2 ⟨_, derPushLength_eq (by omega), ?_⟩⟩
      rw [List.length_append, Nat.add_comm, List.append_assoc]

theorem buildPkcs1PublicKeyDer_eq {w : Nat} (hw : IsUsize w) {n e : Bytes}
    (hsize : (Der.integer (beNat n)).length + (Der.integer (beNat e)).length < 2 ^ 24) :
    buildPkcs1PublicKeyDer w n e = .ok (Der.sequence [Der.integer (beNat n), Der.integer (beNat e)]) := by
  obtain ⟨-, h31, hfit⟩ := hw.bounds
  have hn := Der.length_element 0x02 (Der.contents (beNat n))
  have he := Der.length_element 0x02 (Der.contents (beNat e))
  rw [← Der.integer] at hn he
  refine bind_ok.2 ⟨_, derEncodeUnsignedInteger_eq hw n (by omega), ?_⟩
  refine bind_ok.2 ⟨_, derEncodeUnsignedInteger_eq hw e (by omega), ?_⟩
  refine bind_ok.2 ⟨_, add_eq (by omega), bind_ok.2 ⟨_, add_eq (by omega), ?_⟩⟩
  refine bind_ok.2 ⟨(), withCapacity_eq (by omega), bind_ok.2 ⟨_, derPushLength_eq (by omega), ?_⟩⟩
  simp [Der.sequence, Der.element]

/-! ## Encodings are read back -/

theorem get_append {pre post : Bytes} {b : UInt8} : get (pre ++ b :: post) pre.length = .ok b := by
  rw [get, List.getElem?_append_right (Nat.le_refl _), Nat.sub_self]
  rfl

/-- The loop adds the bytes it reads to the number it has, most significant first. -/
theorem derReadLenBytes_eq {w : Nat} (h8 : 8 < w) {data : Bytes} {pos : Nat} (hdata : data.length < 2 ^ w) :
    ∀ (mid pre post : Bytes) (i len : Nat), data = pre ++ mid ++ post → pre.length = pos + 1 + i →
      (len + 1) * 256 ^ mid.length ≤ 2 ^ w →
      derReadLenBytes w data pos i mid.length len = .ok (len * 256 ^ mid.length + beNat mid)
  | [], pre, post, i, len, _, _, _ => by simp [derReadLenBytes, beNat]
  | b :: mid, pre, post, i, len, hd, hpre, hfit => by
    have hpow : 0 < 256 ^ mid.length := Nat.pow_pos (by decide)
    have hlen : data.length = pre.length + (mid.length + 1) + post.length := by
      rw [hd, List.length_append, List.length_append, List.length_cons]
    have hshift : (len + 1) * 256 ≤ 2 ^ w := by
      rw [List.length_cons, Nat.pow_succ', ← Nat.mul_assoc] at hfit
      exact Nat.le_trans (Nat.le_mul_of_pos_right _ hpow) hfit
    have hnext : (len <<< 8) % 2 ^ w ||| b.toNat = len * 256 + b.toNat := by
      have hb := b.toNat_lt
      rw [Nat.mod_eq_of_lt (by rw [Nat.shiftLeft_eq]; omega), ← Nat.shiftLeft_add_eq_or_of_lt hb, Nat.shiftLeft_eq]
    have hget : get data (pos + 1 + i) = .ok b := by
      rw [hd, ← hpre, List.append_assoc]
      exact get_append
    have ih := derReadLenBytes_eq h8 hdata mid (pre ++ [b]) post (i + 1) (len * 256 + b.toNat) (by rw [hd]; simp)
      (by rw [List.length_append, hpre]; rfl) (by
        have hb : b.toNat + 1 ≤ 256 := b.toNat_lt
        rw [List.length_cons, Nat.pow_succ', ← Nat.mul_assoc] at hfit
        exact Nat.le_trans (Nat.mul_le_mul_right _ (by omega)) hfit)
    rw [List.length_cons, derReadLenBytes]
    refine bind_ok.2 ⟨_, if_pos h8, bind_ok.2 ⟨_, add_eq (by omega), bind_ok.2 ⟨_, add_eq (by omega), ?_⟩⟩⟩
    refine bind_ok.2 ⟨b, hget, ?_⟩
    rw [hnext, ih, beNat, Nat.pow_succ', Nat.add_mul, Nat.mul_assoc, Nat.add_assoc]

/-- **A length in the fewest bytes is read back**, with the number of its octets. -/
theorem derReadLen_eq {w : Nat} (hw : IsUsize w) {pre post : Bytes} {n : Nat} (hn : n < 2 ^ 24)
    (hdata : (pre ++ Der.lengthOctets n ++ post).length < 2 ^ w) :
    derReadLen w (pre ++ Der.lengthOctets n ++ post) pre.length = .ok (n, (Der.lengthOctets n).length) := by
  obtain ⟨h8, h31, hfit⟩ := hw.bounds
  by_cases hshort : n < 128
  · have hoct : Der.lengthOctets n = [UInt8.ofNat n] := if_pos hshort
    have hnat : (UInt8.ofNat n).toNat = n := by rw [UInt8.toNat_ofNat']; omega
    rw [hoct, List.append_assoc]
    refine bind_ok.2 ⟨_, get_append, ?_⟩
    rw [if_pos (by rw [UInt8.lt_iff_toNat_lt, hnat]; exact hshort), hnat]
    rfl
  · have hoct : Der.lengthOctets n = UInt8.ofNat (128 + Der.width n) :: Der.magnitude n := if_neg hshort
    have hwidth : Der.width n ≤ 3 := Der.width_le (by omega)
    have hpos : Der.width n ≠ 0 := fun h => by
      have := Der.lt_pow_width n
      rw [h] at this
      omega
    have hnat : (UInt8.ofNat (128 + Der.width n)).toNat = 128 + Der.width n := by rw [UInt8.toNat_ofNat']; omega
    have hlow : (UInt8.ofNat (128 + Der.width n) &&& 0x7f).toNat = Der.width n := by
      rw [toNat_and_low, hnat]; omega
    have hmag : (Der.magnitude n).length = Der.width n := length_beBytes _ _
    have hlen : (pre ++ Der.lengthOctets n ++ post).length = pre.length + 1 + Der.width n + post.length := by
      rw [hoct, List.length_append, List.length_append, List.length_cons, hmag]; omega
    have hbytes : derReadLenBytes w (pre ++ Der.lengthOctets n ++ post) pre.length 0 (Der.width n) 0 = .ok n := by
      have h := derReadLenBytes_eq h8 hdata (Der.magnitude n) (pre ++ [UInt8.ofNat (128 + Der.width n)]) post 0 0
        (by rw [hoct]; simp) (by rw [List.length_append]; rfl) (by
          rw [hmag, Nat.zero_add, Nat.one_mul]
          exact Nat.le_trans (Nat.pow_le_pow_right (by decide) hwidth) (by omega))
      rw [hmag, Der.beNat_magnitude, Nat.zero_mul, Nat.zero_add] at h
      exact h
    have hget : get (pre ++ Der.lengthOctets n ++ post) pre.length = .ok (UInt8.ofNat (128 + Der.width n)) := by
      rw [hoct, List.append_assoc]
      exact get_append
    refine bind_ok.2 ⟨_, hget, ?_⟩
    rw [if_neg (by rw [UInt8.lt_iff_toNat_lt, hnat]; exact Nat.not_lt.2 (Nat.le_add_right _ _)), hlow, derReadLongLen,
      if_neg (by omega)]
    refine bind_ok.2 ⟨_, checkedAdd_eq (by omega), bind_ok.2 ⟨_, checkedAdd_eq (by omega), ?_⟩⟩
    rw [if_neg (by omega)]
    refine bind_ok.2 ⟨n, hbytes, bind_ok.2 ⟨_, add_eq (by omega), ?_⟩⟩
    rw [hoct, List.length_cons, hmag, Nat.add_comm]

section Integers

variable {w : Nat} (hw : IsUsize w) {pre post : Bytes} {n : Nat} (hn : (Der.contents n).length < 2 ^ 24)
  (hdata : (pre ++ Der.integer n ++ post).length < 2 ^ w)
include hw hn hdata

theorem derReadLen_integer :
    get (pre ++ Der.integer n ++ post) pre.length = .ok 0x02 ∧
      derReadLen w (pre ++ Der.integer n ++ post) (pre.length + 1) =
        .ok ((Der.contents n).length, (Der.lengthOctets (Der.contents n).length).length) := by
  have hsplit : pre ++ Der.integer n ++ post =
      (pre ++ [0x02]) ++ Der.lengthOctets (Der.contents n).length ++ (Der.contents n ++ post) := by
    simp [Der.integer, Der.element]
  constructor
  · rw [Der.integer, Der.element, List.append_assoc]
    exact get_append
  · rw [hsplit] at hdata ⊢
    have h := derReadLen_eq hw hn hdata
    rw [List.length_append] at h
    exact h

/-- **An INTEGER is skipped as a whole.** -/
theorem derSkipInt_eq :
    derSkipInt w (pre ++ Der.integer n ++ post) pre.length = .ok (pre.length + (Der.integer n).length) := by
  obtain ⟨htag, hhead⟩ := derReadLen_integer hw hn hdata
  have hint := Der.length_element 0x02 (Der.contents n)
  rw [← Der.integer] at hint
  have hlen : (pre ++ Der.integer n ++ post).length = pre.length + (Der.integer n).length + post.length := by
    rw [List.length_append, List.length_append]
  refine bind_ok.2 ⟨_, htag, ?_⟩
  rw [if_neg (not_not.2 rfl)]
  refine bind_ok.2 ⟨_, checkedAdd_eq (by omega), bind_ok.2 ⟨_, hhead, ?_⟩⟩
  refine bind_ok.2 ⟨_, checkedAdd_eq (by omega), bind_ok.2 ⟨_, checkedAdd_eq (by omega), ?_⟩⟩
  rw [if_neg (by omega), hint]
  congr 1
  omega

/-- **An INTEGER is read as the fewest bytes of its value.** -/
theorem derReadInt_eq : derReadInt w (pre ++ Der.integer n ++ post) pre.length = .ok (Der.unsignedBytes n) := by
  obtain ⟨htag, hhead⟩ := derReadLen_integer hw hn hdata
  have hint := Der.length_element 0x02 (Der.contents n)
  rw [← Der.integer] at hint
  have hlen : (pre ++ Der.integer n ++ post).length = pre.length + (Der.integer n).length + post.length := by
    rw [List.length_append, List.length_append]
  have hsplit : pre ++ Der.integer n ++ post =
      (pre ++ 0x02 :: Der.lengthOctets (Der.contents n).length) ++ (Der.contents n ++ post) := by
    simp [Der.integer, Der.element]
  have hrange : ∀ start fin : Nat, start = pre.length + 1 + (Der.lengthOctets (Der.contents n).length).length →
      fin = start + (Der.contents n).length →
      range (pre ++ Der.integer n ++ post) start fin = .ok (Der.contents n) := by
    rintro start fin hstart rfl
    rw [range, if_pos (by omega), Nat.add_sub_cancel_left, hsplit, slice, List.drop_left' (by
      rw [List.length_append, List.length_cons, hstart]; omega), List.take_left]
  refine bind_ok.2 ⟨_, htag, ?_⟩
  rw [if_neg (not_not.2 rfl)]
  refine bind_ok.2 ⟨_, checkedAdd_eq (by omega), bind_ok.2 ⟨_, hhead, ?_⟩⟩
  refine bind_ok.2 ⟨_, checkedAdd_eq (by omega), bind_ok.2 ⟨_, checkedAdd_eq (by omega), ?_⟩⟩
  rw [if_neg (by omega)]
  refine bind_ok.2 ⟨_, hrange _ _ rfl rfl, ?_⟩
  rw [Der.trimZeros_contents]

end Integers

/-- **A public key is written in DER for the values of its numbers**, both INTEGERs are read back where they stand, and
zeros in front of the numbers do not matter. -/
theorem pkcs1_public_key_der (w : Nat) (hw : IsUsize w) (n e : Bytes)
    (hsize : (Der.integer (beNat n)).length + (Der.integer (beNat e)).length < 2 ^ 24) :
    ∃ der, buildPkcs1PublicKeyDer w n e = .ok der ∧
      der = Der.sequence [Der.integer (beNat n), Der.integer (beNat e)] ∧
      derReadInt w der (der.length - (Der.integer (beNat e)).length - (Der.integer (beNat n)).length) =
        .ok (Der.unsignedBytes (beNat n)) ∧
      derReadInt w der (der.length - (Der.integer (beNat e)).length) = .ok (Der.unsignedBytes (beNat e)) ∧
      ∀ n' e' : Bytes, beNat n' = beNat n → beNat e' = beNat e → buildPkcs1PublicKeyDer w n' e' = .ok der := by
  obtain ⟨-, h31, hfit⟩ := hw.bounds
  have hn := Der.length_element 0x02 (Der.contents (beNat n))
  have he := Der.length_element 0x02 (Der.contents (beNat e))
  rw [← Der.integer] at hn he
  obtain ⟨pre, hpre, hder⟩ : ∃ pre : Bytes, pre.length ≤ 5 ∧
      Der.sequence [Der.integer (beNat n), Der.integer (beNat e)] =
        pre ++ Der.integer (beNat n) ++ Der.integer (beNat e) := by
    refine ⟨0x30 :: Der.lengthOctets [Der.integer (beNat n), Der.integer (beNat e)].flatten.length, ?_, ?_⟩
    · refine Nat.succ_le_succ (Der.length_lengthOctets_le (k := 3) ?_)
      simp only [List.flatten_cons, List.flatten_nil, List.append_nil, List.length_append]
      exact hsize
    · simp [Der.sequence, Der.element]
  have hlen : (pre ++ Der.integer (beNat n) ++ Der.integer (beNat e)).length =
      pre.length + (Der.integer (beNat n)).length + (Der.integer (beNat e)).length := by
    rw [List.length_append, List.length_append]
  refine ⟨_, buildPkcs1PublicKeyDer_eq hw hsize, rfl, ?_, ?_, fun n' e' hn he => ?_⟩
  · rw [hder, hlen, Nat.add_sub_cancel, Nat.add_sub_cancel]
    exact derReadInt_eq hw (by omega) (by omega)
  · have h : derReadInt w (pre ++ Der.integer (beNat n) ++ Der.integer (beNat e) ++ [])
        (pre ++ Der.integer (beNat n)).length = .ok (Der.unsignedBytes (beNat e)) :=
      derReadInt_eq hw (by omega) (by rw [List.append_nil]; omega)
    rw [List.append_nil] at h
    rw [hder, hlen, Nat.add_sub_cancel, ← List.length_append]
    exact h
  · rw [← hn, ← he] at hsize ⊢
    exact buildPkcs1PublicKeyDer_eq hw hsize

theorem pkcs1_public_key_der_leading_zero :
    ∃ der, buildPkcs1PublicKeyDer 64 [0x00, 0xc5] [0x01, 0x00, 0x01] = .ok der ∧
      der = Der.sequence [Der.integer (beNat [0x00, 0xc5]), Der.integer (beNat [0x01, 0x00, 0x01])] ∧
      derReadInt 64 der (der.length - (Der.integer (beNat [0x01, 0x00, 0x01])).length -
        (Der.integer (beNat [0x00, 0xc5])).length) = .ok (Der.unsignedBytes (beNat [0x00, 0xc5])) ∧
      derReadInt 64 der (der.length - (Der.integer (beNat [0x01, 0x00, 0x01])).length) =
        .ok (Der.unsignedBytes (beNat [0x01, 0x00, 0x01])) ∧
      ∀ n' e' : Bytes, beNat n' = beNat [0x00, 0xc5] → beNat e' = beNat [0x01, 0x00, 0x01] →
        buildPkcs1PublicKeyDer 64 n' e' = .ok der :=
  pkcs1_public_key_der 64 (.inr rfl) [0x00, 0xc5] [0x01, 0x00, 0x01] (by decide +kernel)

/-! ## Nothing is read outside the input -/

/-- A helper that does not panic. -/
abbrev Calm {α : Type} (P : α → Prop) (r : Except Stop α) : Prop := Ends (· = Stop.absent) P r

theorem calm_get (data : Bytes) (pos : Nat) : Calm (fun _ => pos < data.length) (get data pos) := by
  unfold get
  cases h : data[pos]? with
  | none => rfl
  | some b => exact (List.getElem?_eq_some_iff.1 h).1

theorem calm_checkedAdd (w x y : Nat) : Calm (· = x + y) (checkedAdd w x y) := by
  unfold checkedAdd
  split
  · rfl
  · rfl

theorem calm_add {w x y : Nat} (h : x + y < 2 ^ w) : Calm (· = x + y) (add w x y) := ends_of_eq (if_pos h) rfl

theorem calm_derReadLenBytes {w : Nat} {data : Bytes} (hdata : data.length < 2 ^ w) (pos : Nat) :
    ∀ (k i len : Nat), pos + 1 + i + k ≤ data.length → Calm (fun _ => True) (derReadLenBytes w data pos i k len)
  | 0, _, _, _ => trivial
  | k + 1, i, len, h => by
    have hshift : Calm (fun _ => True) (checkedShl w len 8) := by
      unfold checkedShl
      split
      · trivial
      · rfl
    refine ends_bind hshift fun shifted _ => ends_bind (calm_add (by omega)) fun next hnext => ?_
    subst hnext
    refine ends_bind (calm_add (by omega)) fun place _ => ends_bind (calm_get data place) fun b _ => ?_
    exact calm_derReadLenBytes hdata pos k (i + 1) _ (by omega)

theorem calm_derReadLen {w : Nat} (hw : IsUsize w) {data : Bytes} (hdata : data.length < 2 ^ w) (pos : Nat) :
    Calm (fun _ => True) (derReadLen w data pos) := by
  obtain ⟨-, h31, hfit⟩ := hw.bounds
  refine ends_bind (calm_get data pos) fun b _ => ?_
  split
  · trivial
  · unfold derReadLongLen
    split
    · rfl
    · refine ends_bind (calm_checkedAdd w pos 1) fun next hnext => ?_
      refine ends_bind (calm_checkedAdd w next _) fun fin hfin => ?_
      split
      · rfl
      · refine ends_bind (calm_derReadLenBytes hdata pos _ 0 0 (by omega)) fun len _ => ?_
        exact ends_bind (calm_add (by omega)) fun _ _ => trivial

theorem calm_derSkipInt {w : Nat} (hw : IsUsize w) {data : Bytes} (hdata : data.length < 2 ^ w) (pos : Nat) :
    Calm (fun _ => True) (derSkipInt w data pos) := by
  refine ends_bind (calm_get data pos) fun tag _ => ?_
  split
  · rfl
  · refine ends_bind (calm_checkedAdd w pos 1) fun next _ => ends_bind (calm_derReadLen hw hdata next) fun head _ => ?_
    refine ends_bind (calm_checkedAdd w next head.2) fun start _ => ?_
    refine ends_bind (calm_checkedAdd w start head.1) fun fin _ => ?_
    split
    · rfl
    · trivial

theorem calm_derReadInt {w : Nat} (hw : IsUsize w) {data : Bytes} (hdata : data.length < 2 ^ w) (pos : Nat) :
    Calm (fun _ => True) (derReadInt w data pos) := by
  refine ends_bind (calm_get data pos) fun tag _ => ?_
  split
  · rfl
  · refine ends_bind (calm_checkedAdd w pos 1) fun next _ => ends_bind (calm_derReadLen hw hdata next) fun head _ => ?_
    refine ends_bind (calm_checkedAdd w next head.2) fun start _ => ?_
    refine ends_bind (calm_checkedAdd w start head.1) fun fin hfin => ?_
    split
    · rfl
    · have hrange : range data start fin = .ok (slice data start (fin - start)) := if_pos (by omega)
      exact ends_bind (ends_of_eq hrange trivial : Calm (fun _ => True) _) fun _ _ => trivial

/-- `Ok`, or the error of `extract_iqmp_from_pkcs1_der`. -/
abbrev Answers {α : Type} (P : α → Prop) (r : Except Exit α) : Prop := Ends (· = err) P r

theorem answers_okOrErr {α : Type} {P : α → Prop} {r : Except Stop α} (h : Calm P r) : Answers P (okOrErr r) := by
  cases r with
  | ok a => exact h
  | error e =>
    obtain rfl : e = .absent := h
    rfl

theorem answers_skipInts {w : Nat} (hw : IsUsize w) {der : Bytes} (hder : der.length < 2 ^ w) :
    ∀ (k pos : Nat), Answers (fun _ => True) (skipInts w der k pos)
  | 0, _ => trivial
  | k + 1, pos => ends_bind (answers_okOrErr (calm_derSkipInt hw hder pos)) fun pos _ => answers_skipInts hw hder k pos

theorem answers_extract {w : Nat} (hw : IsUsize w) {der : Bytes} (hder : der.length < 2 ^ w) :
    Answers (fun _ => True) (extractIqmpFromPkcs1Der w der) := by
  unfold extractIqmpFromPkcs1Der
  split
  · rfl
  · have hindex : Calm (fun _ => True) (index der 0) := by
      unfold index
      rw [List.getElem?_eq_getElem (by omega)]
      trivial
    refine ends_bind (answers_okOrErr hindex) fun tag _ => ?_
    split
    · rfl
    · refine ends_bind (answers_okOrErr (calm_checkedAdd w 0 1)) fun pos _ => ?_
      refine ends_bind (answers_okOrErr (calm_derReadLen hw hder pos)) fun head _ => ?_
      refine ends_bind (answers_okOrErr (calm_checkedAdd w pos head.2)) fun pos _ => ?_
      refine ends_bind (answers_skipInts hw hder 8 pos) fun pos _ => ?_
      exact answers_okOrErr (calm_derReadInt hw hder pos)

theorem skipInts_eq {w : Nat} (hw : IsUsize w) : ∀ (ns : List Nat) (pre post : Bytes),
    (∀ n ∈ ns, (Der.contents n).length < 2 ^ 24) → (pre ++ (ns.map Der.integer).flatten ++ post).length < 2 ^ w →
      skipInts w (pre ++ (ns.map Der.integer).flatten ++ post) ns.length pre.length =
        .ok (pre ++ (ns.map Der.integer).flatten).length
  | [], pre, post, _, _ => by simp [skipInts]
  | n :: ns, pre, post, hns, hdata => by
    have hsplit : pre ++ ((n :: ns).map Der.integer).flatten ++ post =
        pre ++ Der.integer n ++ ((ns.map Der.integer).flatten ++ post) := by simp
    have hsplit' : pre ++ Der.integer n ++ ((ns.map Der.integer).flatten ++ post) =
        (pre ++ Der.integer n) ++ (ns.map Der.integer).flatten ++ post := by simp
    rw [hsplit] at hdata ⊢
    have hskip := derSkipInt_eq hw (hns n List.mem_cons_self) hdata
    rw [hsplit'] at hdata hskip ⊢
    have ih := skipInts_eq hw ns (pre ++ Der.integer n) post (fun m hm => hns m (List.mem_cons_of_mem _ hm)) hdata
    rw [List.length_cons, skipInts, hskip]
    rw [List.length_append] at ih
    refine Eq.trans ih ?_
    simp

theorem extract_integers {w : Nat} (hw : IsUsize w) {first : List Nat} {iqmp : Nat} (h8 : first.length = 8)
    (hsize : ((first ++ [iqmp]).map Der.integer).flatten.length < 2 ^ 24) :
    extractIqmpFromPkcs1Der w (Der.sequence ((first ++ [iqmp]).map Der.integer)) = .ok (Der.unsignedBytes iqmp) := by
  obtain ⟨-, h31, hfit⟩ := hw.bounds
  generalize hcontent : ((first ++ [iqmp]).map Der.integer).flatten = content at hsize
  have hder : Der.sequence ((first ++ [iqmp]).map Der.integer) = [0x30] ++ Der.lengthOctets content.length ++ content := by
    rw [Der.sequence, hcontent, Der.element]
    rfl
  have hsplit : content = (first.map Der.integer).flatten ++ Der.integer iqmp := by rw [← hcontent]; simp
  have hsmall : ∀ n ∈ first ++ [iqmp], (Der.contents n).length < 2 ^ 24 := fun n hn => by
    have hle := Der.length_integer_le hn
    have hlen := Der.length_element 0x02 (Der.contents n)
    rw [hcontent] at hle
    rw [← Der.integer] at hlen
    omega
  have hoct := Der.length_lengthOctets_le (k := 3) hsize
  have hdata : ([0x30] ++ Der.lengthOctets content.length ++ content).length < 2 ^ w := by
    rw [List.length_append, List.length_append, List.length_singleton]
    omega
  have hskip := skipInts_eq hw first ([0x30] ++ Der.lengthOctets content.length) (Der.integer iqmp)
    (fun n hn => hsmall n (List.mem_append_left _ hn)) (by rw [List.append_assoc, ← hsplit]; exact hdata)
  have hread : derReadInt w ([0x30] ++ Der.lengthOctets content.length ++ (first.map Der.integer).flatten ++
      Der.integer iqmp ++ []) ([0x30] ++ Der.lengthOctets content.length ++ (first.map Der.integer).flatten).length =
        .ok (Der.unsignedBytes iqmp) :=
    derReadInt_eq hw (hsmall iqmp (List.mem_append_right _ List.mem_cons_self)) (by
      rw [List.append_nil, List.append_assoc, ← hsplit]; exact hdata)
  rw [List.append_nil, List.append_assoc, ← hsplit] at hread
  have hpos : ([0x30] ++ Der.lengthOctets content.length).length = 1 + (Der.lengthOctets content.length).length := by
    rw [List.length_append, List.length_singleton]
  rw [h8, List.append_assoc, ← hsplit, hpos] at hskip
  have hhead : derReadLen w ([0x30] ++ Der.lengthOctets content.length ++ content) 1 =
      .ok (content.length, (Der.lengthOctets content.length).length) := derReadLen_eq hw hsize hdata
  rw [hder, extractIqmpFromPkcs1Der, if_neg (by simp)]
  refine bind_ok.2 ⟨0x30, rfl, ?_⟩
  rw [if_neg (not_not.2 rfl)]
  refine bind_ok.2 ⟨1, congrArg okOrErr (checkedAdd_eq (by omega)), bind_ok.2 ⟨_, congrArg okOrErr hhead, ?_⟩⟩
  refine bind_ok.2 ⟨_, congrArg okOrErr (checkedAdd_eq (by omega)), bind_ok.2 ⟨_, hskip, ?_⟩⟩
  exact congrArg okOrErr hread

/-- **The ninth INTEGER is found wherever there is one, and no input makes the search panic.** -/
theorem iqmp_extracted (w : Nat) (hw : IsUsize w) :
    (∀ der : Bytes, der.length < 2 ^ (w - 1) → Answers (fun _ => True) (extractIqmpFromPkcs1Der w der)) ∧
    ∀ (first : List Nat) (iqmp : Nat), first.length = 8 →
      ((first ++ [iqmp]).map Der.integer).flatten.length < 2 ^ 24 →
        extractIqmpFromPkcs1Der w (Der.sequence ((first ++ [iqmp]).map Der.integer)) = .ok (Der.unsignedBytes iqmp) := by
  obtain ⟨-, h31, hfit⟩ := hw.bounds
  exact ⟨fun der hder => answers_extract hw (by omega), fun first iqmp h8 hsize => extract_integers hw h8 hsize⟩

theorem iqmp_extracted_32 :
    (∀ der : Bytes, der.length < 2 ^ 31 → Answers (fun _ => True) (extractIqmpFromPkcs1Der 32 der)) ∧
    extractIqmpFromPkcs1Der 32 (Der.sequence (([0, 3233, 17, 413, 61, 53, 53, 49] ++ [38]).map Der.integer)) =
      .ok (Der.unsignedBytes 38) :=
  ⟨(iqmp_extracted 32 (.inl rfl)).1, (iqmp_extracted 32 (.inl rfl)).2 [0, 3233, 17, 413, 61, 53, 53, 49] 38 rfl
    (by decide +kernel)⟩

end Rsa
end Wolf
