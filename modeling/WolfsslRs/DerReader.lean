import WolfsslRs.Der
import WolfsslRs.Reader
/-!
# DerReader — the DER reader of wolfcrypt-ring-compat

`io/der.rs` takes elements off an `untrusted::Reader`: a tag in one byte, a length in at most three, the value; on top of
it the INTEGERs that are not negative.  A reader is a program whose state is what it has not read yet; a nested reader
over a value has to use all of it.  What each of them accepts is stated against `Der`, where every length and every
number has one spelling.
-/
namespace Wolf
namespace Io

open Program Reader

/-- How a read is left without an answer: by `error::Unspecified`, or at a debug assertion. -/
inductive Stop where
  | unspecified | panicked
  deriving DecidableEq, Repr

/-- A program over an `untrusted::Reader`. -/
abbrev Read (α : Type) := EStateM Stop Bytes α

def readByte : Read UInt8 := do
  match ← get with
  | [] => throw .unspecified
  | b :: bs =>
    set bs
    pure b

def readBytes (num : Nat) : Read Bytes := Subtype.val <$> take .unspecified num

def atEnd : Read Bool := List.isEmpty <$> get

def readBytesToEnd : Read Bytes := rest

/-- `Input::read_all`: a reader over all of the input, which has to reach its end. -/
def readAll {α : Type} (input : Bytes) (read : Read α) : Read α :=
  match read.run input with
  | .ok a left => if left = [] then pure a else throw .unspecified
  | .error e _ => throw e

/-! ## Elements -/

inductive Tag where
  | boolean | integer | bitString | octetString | null | oid | sequence | utcTime | generalizedTime
  | contextSpecificConstructed0 | contextSpecificConstructed1 | contextSpecificConstructed3
  deriving DecidableEq, Repr

def constructed : UInt8 := (1 : UInt8) <<< 5

def contextSpecific : UInt8 := (2 : UInt8) <<< 6

def Tag.toByte : Tag → UInt8
  | .boolean => 0x01
  | .integer => 0x02
  | .bitString => 0x03
  | .octetString => 0x04
  | .null => 0x05
  | .oid => 0x06
  | .sequence => constructed ||| 0x10
  | .utcTime => 0x17
  | .generalizedTime => 0x18
  | .contextSpecificConstructed0 => contextSpecific ||| constructed
  | .contextSpecificConstructed1 => contextSpecific ||| constructed ||| 1
  | .contextSpecificConstructed3 => contextSpecific ||| constructed ||| 3

/-- The length of an element, in one of the three forms there are. -/
def readLength : Read Nat := do
  let n ← readByte
  if n &&& 0x80 = 0 then pure n.toNat
  else if n = 0x81 then do
    let secondByte ← readByte
    if secondByte < 128 then throw .unspecified else pure secondByte.toNat
  else if n = 0x82 then do
    let secondByte ← readByte
    let thirdByte ← readByte
    let combined := (secondByte.toNat <<< 8) ||| thirdByte.toNat
    if combined < 256 then throw .unspecified else pure combined
  else throw .unspecified

def readTagAndGetValue : Read (UInt8 × Bytes) := do
  let tag ← readByte
  if tag &&& 0x1F = 0x1F then throw .unspecified
  else do
    let length ← readLength
    let inner ← readBytes length
    pure (tag, inner)

def expectTagAndGetValue (tag : Tag) : Read Bytes := do
  let (actualTag, inner) ← readTagAndGetValue
  if tag.toByte.toNat ≠ actualTag.toNat then throw .unspecified else pure inner

/-- `nested`, where every error is the one given. -/
def nested {α : Type} (tag : Tag) (read : Read α) : Read α := do
  let inner ← expectTagAndGetValue tag
  readAll inner read

def bitStringWithNoUnusedBits : Read Bytes :=
  nested .bitString do
    let unusedBitsAtEnd ← readByte
    if unusedBitsAtEnd ≠ 0 then throw .unspecified else readBytesToEnd

/-! ## INTEGERs -/

/-- The input, without a zero in front, is at least `minValue`. -/
def checkMinimum (input : Bytes) (minValue : UInt8) : Read Unit :=
  readAll input do
    let firstByte ← readByte
    let ended ← atEnd
    if ended ∧ firstByte < minValue then throw .unspecified
    else do
      let _ ← readBytesToEnd
      pure ()

/-- A leading zero is only allowed when the value's high bit is set. -/
def checkHighBit (r : Bytes) : Read Unit :=
  readAll r do
    let secondByte ← readByte
    if secondByte &&& 0x80 = 0 then throw .unspecified
    else do
      let _ ← readBytesToEnd
      pure ()

/-- The closure of `nonnegative_integer` over the value. -/
def integerBytes (value : Bytes) (minValue : UInt8) : Read Bytes := do
  let firstByte ← readByte
  if firstByte = 0 then do
    let ended ← atEnd
    if ended then if 0 < minValue then throw .unspecified else pure value
    else do
      let r ← readBytesToEnd
      checkHighBit r
      checkMinimum r minValue
      pure r
  else if firstByte &&& 0x80 ≠ 0 then throw .unspecified
  else do
    let _ ← readBytesToEnd
    checkMinimum value minValue
    pure value

def nonnegativeInteger (minValue : UInt8) : Read Bytes := do
  let value ← expectTagAndGetValue .integer
  readAll value (integerBytes value minValue)

def smallNonnegativeInteger : Read UInt8 := do
  let value ← nonnegativeInteger 0
  readAll value readByte

/-- A serialized positive integer. -/
structure Positive where
  input : Bytes
  deriving DecidableEq, Repr

/-- The two `debug_assert!`s are there or not by the build. -/
def Positive.newNonEmptyWithoutLeadingZeros (debugAssertions : Bool) (input : Bytes) : Except Stop Positive :=
  if debugAssertions ∧ ¬ (input ≠ [] ∧ (input.length = 1 ∨ input.head? ≠ some 0)) then .error .panicked
  else .ok ⟨input⟩

def positiveInteger (debugAssertions : Bool) : Read Positive := do
  let input ← nonnegativeInteger 1
  orThrow (Positive.newNonEmptyWithoutLeadingZeros debugAssertions input)

/-! ## What the readers take -/

section Rules

variable {α : Type} {n : Nat}

/-- The one error of every reader here. -/
def Refused : Stop → Prop := (· = .unspecified)

theorem reads_readByte : Reads Refused n readByte (fun b w => w = [b])
  | [], _ => rfl
  | b :: _, _ => ⟨[b], rfl, rfl⟩

theorem restores_readByte (b : UInt8) : Restores readByte [b] b := fun _ => rfl

theorem reads_readBytes {num : Nat} : Reads Refused n (readBytes num) (fun a w => a = w ∧ w.length = num) :=
  reads_map (reads_take rfl) fun b _ hb => ⟨hb, hb ▸ b.2⟩

theorem restores_readBytes (w : Bytes) : Restores (readBytes w.length) w w :=
  restores_map (restores_take w rfl)

/-- A nested reader takes nothing off the outer one. -/
theorem reads_readAll {input : Bytes} {read : Read α} {P D : α → Bytes → Prop} (hread : Reads Refused input.length read D)
    (h : ∀ a, D a input → P a []) : Reads Refused n (readAll input read) P := by
  have hrun := hread input (Nat.le_refl _)
  unfold wp at hrun
  unfold readAll
  cases hr : read.run input with
  | error e left =>
    rw [hr] at hrun
    exact reads_throw hrun
  | ok a left =>
    rw [hr] at hrun
    obtain ⟨w, hw, hD⟩ := hrun
    by_cases hleft : left = []
    · rw [hleft, List.append_nil] at hw
      rw [← hw] at hD
      simp only [if_pos hleft]
      exact reads_pure (h a hD)
    · simp only [if_neg hleft]
      exact reads_throw rfl

theorem restores_readAll {input : Bytes} {read : Read α} {a : α} (h : read.run input = .ok a []) :
    Restores (readAll input read) [] a := by
  intro left
  rw [readAll, h]
  rfl

end Rules

/-! ## Elements are read as DER writes them -/

theorem combined_eq (b c : UInt8) : (b.toNat <<< 8) ||| c.toNat = b.toNat * 256 + c.toNat := by
  rw [← Nat.shiftLeft_add_eq_or_of_lt c.toNat_lt, Nat.shiftLeft_eq]

theorem lengthOctets_one_byte {b : UInt8} (hb : b &&& 0x80 = 0) : Der.lengthOctets b.toNat = [b] := by
  have hlt := mt (and_high b).2 (not_not.2 hb)
  rw [UInt8.not_le, UInt8.lt_iff_toNat_lt] at hlt
  rw [Der.lengthOctets_short hlt, UInt8.ofNat_toNat]

theorem lengthOctets_two_bytes {c : UInt8} (hc : ¬ c < 128) : Der.lengthOctets c.toNat = [0x81, c] := by
  rw [UInt8.not_lt, UInt8.le_iff_toNat_le] at hc
  rw [Der.lengthOctets_two hc c.toNat_lt, UInt8.ofNat_toNat]

theorem lengthOctets_three_bytes {c d : UInt8} (h : ¬ c.toNat * 256 + d.toNat < 256) :
    Der.lengthOctets (c.toNat * 256 + d.toNat) = [0x82, c, d] := by
  have hc := c.toNat_lt
  have hd := d.toNat_lt
  have hhigh : UInt8.ofNat ((c.toNat * 256 + d.toNat) / 2 ^ 8) = c := by
    rw [show (c.toNat * 256 + d.toNat) / 2 ^ 8 = c.toNat by omega, UInt8.ofNat_toNat]
  have hlow : UInt8.ofNat (c.toNat * 256 + d.toNat) = d := by
    apply UInt8.toNat.inj
    rw [UInt8.toNat_ofNat']
    omega
  rw [Der.lengthOctets_three (by omega) (by omega), hhigh, hlow]

theorem reads_readLength {n : Nat} :
    Reads Refused n readLength (fun k w => k < 65536 ∧ w = Der.lengthOctets k) := by
  refine reads_bind reads_readByte fun b w hw => ?_
  subst hw
  have hb := b.toNat_lt
  by_cases hshort : b &&& 0x80 = 0
  · rw [if_pos hshort]
    exact reads_pure ⟨by omega, (lengthOctets_one_byte hshort).symm⟩
  rw [if_neg hshort]
  by_cases h81 : b = 0x81
  · rw [if_pos h81]
    refine reads_bind reads_readByte fun c w hw => ?_
    subst hw h81
    have hc := c.toNat_lt
    by_cases hsmall : c < 128
    · rw [if_pos hsmall]
      exact reads_throw rfl
    · rw [if_neg hsmall]
      exact reads_pure ⟨by omega, (lengthOctets_two_bytes hsmall).symm⟩
  rw [if_neg h81]
  by_cases h82 : b = 0x82
  · rw [if_pos h82]
    refine reads_bind reads_readByte fun c w hw => ?_
    subst hw h82
    refine reads_bind reads_readByte fun d w hw => ?_
    subst hw
    have hc := c.toNat_lt
    have hd := d.toNat_lt
    rw [combined_eq]
    by_cases hsmall : c.toNat * 256 + d.toNat < 256
    · simp only [if_pos hsmall]
      exact reads_throw rfl
    · simp only [if_neg hsmall]
      exact reads_pure ⟨by omega, (lengthOctets_three_bytes hsmall).symm⟩
  · rw [if_neg h82]
    exact reads_throw rfl

theorem restores_readLength {k : Nat} (hk : k < 65536) : Restores readLength (Der.lengthOctets k) k := by
  by_cases hshort : k < 128
  · have hbyte : (UInt8.ofNat k).toNat = k := by rw [UInt8.toNat_ofNat', Nat.mod_eq_of_lt (by omega)]
    have hbit : UInt8.ofNat k &&& 0x80 = 0 := by
      by_contra hbit
      have := UInt8.le_iff_toNat_le.1 ((and_high _).1 hbit)
      rw [hbyte] at this
      exact absurd hshort (Nat.not_lt.2 this)
    rw [Der.lengthOctets_short hshort]
    refine restores_end (restores_readByte _) ?_
    rw [if_pos hbit, hbyte]
    exact restores_pure
  by_cases htwo : k < 256
  · have hbyte : (UInt8.ofNat k).toNat = k := by rw [UInt8.toNat_ofNat', Nat.mod_eq_of_lt htwo]
    have hge : ¬ UInt8.ofNat k < 128 := by
      rw [UInt8.lt_iff_toNat_lt, hbyte]
      exact hshort
    rw [Der.lengthOctets_two (by omega) htwo]
    refine restores_bind (u := [0x81]) (v := [UInt8.ofNat k]) (restores_readByte _) ?_
    refine restores_end (restores_readByte _) ?_
    rw [if_neg hge, hbyte]
    exact restores_pure
  · have hhigh : (UInt8.ofNat (k / 2 ^ 8)).toNat = k / 2 ^ 8 := by
      rw [UInt8.toNat_ofNat', Nat.mod_eq_of_lt (by omega)]
    have hlow : (UInt8.ofNat k).toNat = k % 256 := UInt8.toNat_ofNat'
    have hcombined : ((UInt8.ofNat (k / 2 ^ 8)).toNat <<< 8) ||| (UInt8.ofNat k).toNat = k := by
      rw [combined_eq, hhigh, hlow]
      omega
    rw [Der.lengthOctets_three (by omega) hk]
    refine restores_bind (u := [0x82]) (v := [UInt8.ofNat (k / 2 ^ 8), UInt8.ofNat k]) (restores_readByte _) ?_
    refine restores_bind (u := [UInt8.ofNat (k / 2 ^ 8)]) (v := [UInt8.ofNat k]) (restores_readByte _) ?_
    refine restores_end (restores_readByte _) ?_
    simp only [hcombined, if_neg htwo]
    exact restores_pure

/-- The tag number stands in the tag byte itself. -/
def LowTagNumber (tag : UInt8) : Prop := tag &&& 0x1F ≠ 0x1F

theorem reads_readTagAndGetValue {n : Nat} : Reads Refused n readTagAndGetValue (fun a w =>
    LowTagNumber a.1 ∧ a.2.length < 65536 ∧ w = Der.element a.1 a.2) := by
  refine reads_bind reads_readByte fun tag w hw => ?_
  subst hw
  by_cases htag : tag &&& 0x1F = 0x1F
  · rw [if_pos htag]
    exact reads_throw rfl
  rw [if_neg htag]
  refine reads_bind reads_readLength fun k u hu => ?_
  obtain ⟨hk, rfl⟩ := hu
  refine reads_bind reads_readBytes fun inner v hv => ?_
  obtain ⟨rfl, rfl⟩ := hv
  refine reads_pure ⟨htag, hk, ?_⟩
  rw [List.append_nil]
  rfl

theorem restores_readTagAndGetValue {tag : UInt8} {value : Bytes} (htag : LowTagNumber tag)
    (hlen : value.length < 65536) : Restores readTagAndGetValue (Der.element tag value) (tag, value) := by
  refine restores_bind (u := [tag]) (v := Der.lengthOctets value.length ++ value) (restores_readByte tag) ?_
  rw [if_neg htag]
  refine restores_bind (restores_readLength hlen) (restores_end (restores_readBytes value) ?_)
  exact restores_pure

theorem run_readTagAndGetValue_ok {input left value : Bytes} {tag : UInt8} :
    readTagAndGetValue.run input = .ok (tag, value) left ↔
      LowTagNumber tag ∧ value.length < 65536 ∧ input = Der.element tag value ++ left := by
  constructor
  · intro h
    obtain ⟨w, rfl, htag, hlen, rfl⟩ := reads_ok reads_readTagAndGetValue h
    exact ⟨htag, hlen, rfl⟩
  · rintro ⟨htag, hlen, rfl⟩
    exact restores_readTagAndGetValue htag hlen left

/-- **An element is accepted exactly as DER writes it**, with a tag in one byte and a value below 65536 bytes: it is
taken off the input as a whole, in one spelling only, and everything else is refused with the one error. -/
theorem read_tag_and_get_value_exact (input : Bytes) :
    (∀ tag value left, readTagAndGetValue.run input = .ok (tag, value) left ↔
      LowTagNumber tag ∧ value.length < 65536 ∧ input = Der.element tag value ++ left) ∧
    (∀ e left, readTagAndGetValue.run input = .error e left → e = .unspecified) ∧
    (∀ input' a left left', readTagAndGetValue.run input = .ok a left → readTagAndGetValue.run input' = .ok a left' →
      ∃ w, input = w ++ left ∧ input' = w ++ left') := by
  refine ⟨fun tag value left => run_readTagAndGetValue_ok, fun e left h => ?_, ?_⟩
  · exact reads_error (F := Refused) reads_readTagAndGetValue h
  · rintro input' ⟨tag, value⟩ left left' h h'
    exact ⟨_, (run_readTagAndGetValue_ok.1 h).2.2, (run_readTagAndGetValue_ok.1 h').2.2⟩

/-- A length of 127 in two bytes is not the shortest. -/
example : readTagAndGetValue.run (0x04 :: 0x81 :: 0x7F :: List.replicate 127 0) =
    .error .unspecified (List.replicate 127 0) := rfl

theorem reads_expectTagAndGetValue {n : Nat} {tag : Tag} : Reads Refused n (expectTagAndGetValue tag) (fun inner w =>
    inner.length < 65536 ∧ w = Der.element tag.toByte inner) := by
  refine reads_bind reads_readTagAndGetValue fun a w hw => ?_
  obtain ⟨actualTag, inner⟩ := a
  obtain ⟨-, hlen, rfl⟩ := hw
  by_cases htag : tag.toByte.toNat ≠ actualTag.toNat
  · simp only [if_pos htag]
    exact reads_throw rfl
  · have heq : actualTag = tag.toByte := UInt8.toNat.inj (not_not.1 htag).symm
    simp only [if_neg htag]
    refine reads_pure ⟨hlen, ?_⟩
    rw [List.append_nil, heq]

theorem lowTagNumber_toByte (tag : Tag) : LowTagNumber tag.toByte := by
  unfold LowTagNumber
  cases tag <;> decide

theorem restores_expectTagAndGetValue (tag : Tag) {inner : Bytes} (hlen : inner.length < 65536) :
    Restores (expectTagAndGetValue tag) (Der.element tag.toByte inner) inner := by
  refine restores_end (restores_readTagAndGetValue (lowTagNumber_toByte tag) hlen) ?_
  simp only [ne_eq, not_true_eq_false, if_false]
  exact restores_pure

/-- **A BIT STRING is accepted with whole bytes only**, after a byte that says so. -/
theorem run_bitStringWithNoUnusedBits_ok {input left bits : Bytes} :
    bitStringWithNoUnusedBits.run input = .ok bits left ↔
      bits.length + 1 < 65536 ∧ input = Der.element 0x03 (0 :: bits) ++ left := by
  have hbits {n : Nat} : Reads Refused n (do
      let unusedBitsAtEnd ← readByte
      if unusedBitsAtEnd ≠ 0 then throw .unspecified else readBytesToEnd) (fun bits w => w = 0 :: bits) := by
    refine reads_bind reads_readByte fun b w hb => ?_
    subst hb
    by_cases hb : b ≠ 0
    · rw [if_pos hb]
      exact reads_throw rfl
    · rw [if_neg hb, not_not.1 hb]
      exact reads_mono reads_rest fun a w ha => congrArg (0 :: ·) ha.symm
  constructor
  · intro h
    obtain ⟨inner, mid, hinner, hread⟩ := run_bind_ok.1 h
    obtain ⟨_, rfl, hlen, rfl⟩ := reads_ok reads_expectTagAndGetValue hinner
    obtain ⟨w, rfl, rfl, rfl⟩ := reads_ok (P := fun bits w => w = [] ∧ inner = 0 :: bits)
      (reads_readAll hbits fun a ha => ⟨rfl, ha⟩) hread
    exact ⟨hlen, rfl⟩
  · rintro ⟨hlen, rfl⟩
    have hlen : (0 :: bits).length < 65536 := hlen
    refine restores_end (restores_expectTagAndGetValue .bitString hlen) (restores_readAll ?_) left
    rfl

/-! ## INTEGERs are read as DER writes them -/

/-- Without a zero in front, only a number of one byte can be too small. -/
theorem minimum_iff {b : UInt8} {bs : Bytes} (hb : b ≠ 0) (minValue : UInt8) :
    (bs.isEmpty = true ∧ b < minValue) ↔ beNat (b :: bs) < minValue.toNat := by
  cases bs with
  | nil => simp [beNat, UInt8.lt_iff_toNat_lt]
  | cons c bs =>
    have hle : 256 ^ (c :: bs).length ≤ beNat (b :: c :: bs) := Der.pow_le_beNat hb
    have hpos : 0 < 256 ^ bs.length := Nat.pow_pos (by decide)
    have hmin := minValue.toNat_lt
    rw [List.length_cons, Nat.pow_succ] at hle
    exact iff_of_false (fun h => Bool.noConfusion h.1) (by omega)

/-- The end of both checks: leave with the error, or read on to the end. -/
theorem run_unless {c : Prop} [Decidable c] (bs : Bytes) :
    EStateM.run (if c then throw .unspecified else do
      let _ ← readBytesToEnd
      pure () : Read Unit) bs = if c then .error .unspecified bs else .ok () [] := by
  by_cases hc : c
  · rw [if_pos hc, if_pos hc]
    rfl
  · rw [if_neg hc, if_neg hc]
    rfl

theorem readAll_unless {c : Prop} [Decidable c] {input left : Bytes} {read : Read Unit}
    (h : read.run input = if c then .error .unspecified left else .ok () []) :
    readAll input read = if c then throw .unspecified else pure () := by
  unfold readAll
  rw [h]
  by_cases hc : c
  · simp only [if_pos hc]
  · simp only [if_neg hc, if_true]

theorem checkMinimum_eq {b : UInt8} {bs : Bytes} (hb : b ≠ 0) (minValue : UInt8) :
    checkMinimum (b :: bs) minValue =
      if beNat (b :: bs) < minValue.toNat then throw .unspecified else pure () := by
  have hcheck : checkMinimum (b :: bs) minValue =
      if bs.isEmpty = true ∧ b < minValue then throw .unspecified else pure () := readAll_unless (run_unless bs)
  rw [hcheck]
  simp only [minimum_iff hb]

theorem checkHighBit_eq (b : UInt8) (bs : Bytes) :
    checkHighBit (b :: bs) = if b &&& 0x80 = 0 then throw .unspecified else pure () :=
  readAll_unless (run_unless bs)

/-- The bytes are the contents DER writes for the number they spell. -/
def Canonical (value : Bytes) : Prop := Der.contents (beNat value) = value

theorem canonical_iff {value : Bytes} {v : Nat} : value = Der.contents v ↔ Canonical value ∧ beNat value = v := by
  constructor
  · rintro rfl
    rw [Canonical, Der.beNat_contents]
    exact ⟨rfl, rfl⟩
  · rintro ⟨hcanonical, rfl⟩
    exact hcanonical.symm

theorem canonical_zero_cons_iff {c : UInt8} {cs : Bytes} : Canonical (0 :: c :: cs) ↔ c &&& 0x80 ≠ 0 := by
  have hzero : beNat (0 :: c :: cs) = beNat (c :: cs) := by simp [beNat]
  rw [and_high]
  refine ⟨Der.contents_minimal, fun hc => ?_⟩
  have hc0 : c ≠ 0 := by
    rintro rfl
    exact absurd hc (by decide)
  rw [Canonical, hzero, Der.contents_cons hc0, if_pos hc]

theorem canonical_cons_iff {b : UInt8} {bs : Bytes} (hb : b ≠ 0) : Canonical (b :: bs) ↔ ¬ b &&& 0x80 ≠ 0 := by
  rw [and_high, Canonical, Der.contents_cons hb]
  by_cases hhigh : 128 ≤ b
  · rw [if_pos hhigh]
    exact iff_of_false (fun h => hb (List.cons.inj h).1.symm) (not_not.2 hhigh)
  · rw [if_neg hhigh]
    exact iff_of_true rfl hhigh

/-- **What the closure over a value is to answer**: for canonical contents that are large enough the bytes of the number,
and an error for all others. -/
def IntegerAnswer (value : Bytes) (minValue : UInt8) (answer : EStateM.Result Stop Bytes Bytes) : Prop :=
  (Canonical value ∧ minValue.toNat ≤ beNat value ∧ answer = .ok (Der.unsignedBytes (beNat value)) []) ∨
  (¬ (Canonical value ∧ minValue.toNat ≤ beNat value) ∧ ∃ left, answer = .error .unspecified left)

theorem integerAnswer_of_not_canonical {value left : Bytes} {minValue : UInt8} (h : ¬ Canonical value) :
    IntegerAnswer value minValue (.error .unspecified left) := .inr ⟨fun hc => h hc.1, left, rfl⟩

theorem integerAnswer_of_canonical {value : Bytes} (minValue : UInt8) (h : Canonical value) :
    IntegerAnswer value minValue (if beNat value < minValue.toNat then .error .unspecified []
      else .ok (Der.unsignedBytes (beNat value)) []) := by
  by_cases hmin : beNat value < minValue.toNat
  · rw [if_pos hmin]
    exact .inr ⟨fun hc => absurd hmin (Nat.not_lt.2 hc.2), [], rfl⟩
  · rw [if_neg hmin]
    exact .inl ⟨h, Nat.not_lt.1 hmin, rfl⟩

/-- The end of both branches for a number without a zero in front. -/
theorem run_checkMinimum {b : UInt8} {bs : Bytes} (hb : b ≠ 0) (minValue : UInt8) :
    EStateM.run (do
      checkMinimum (b :: bs) minValue
      pure (b :: bs)) [] = if beNat (b :: bs) < minValue.toNat then .error .unspecified []
        else .ok (Der.unsignedBytes (beNat (b :: bs))) [] := by
  rw [checkMinimum_eq hb, Der.unsignedBytes_cons hb]
  by_cases hmin : beNat (b :: bs) < minValue.toNat
  · rw [if_pos hmin, if_pos hmin]
    rfl
  · rw [if_neg hmin, if_neg hmin]
    rfl

theorem integerBytes_zero (minValue : UInt8) : IntegerAnswer [0] minValue ((integerBytes [0] minValue).run [0]) := by
  have hrun : (integerBytes [0] minValue).run [0] =
      if beNat [0] < minValue.toNat then .error .unspecified [] else .ok (Der.unsignedBytes (beNat [0])) [] := by
    show EStateM.run (if 0 < minValue then throw Stop.unspecified else pure [0]) [] = if 0 < minValue.toNat then _ else _
    simp only [UInt8.lt_iff_toNat_lt]
    show EStateM.run (if 0 < minValue.toNat then _ else _) [] = _
    split <;> rfl
  rw [hrun]
  exact integerAnswer_of_canonical minValue rfl

theorem integerBytes_zero_cons (c : UInt8) (cs : Bytes) (minValue : UInt8) :
    IntegerAnswer (0 :: c :: cs) minValue ((integerBytes (0 :: c :: cs) minValue).run (0 :: c :: cs)) := by
  have hzero : beNat (0 :: c :: cs) = beNat (c :: cs) := by simp [beNat]
  have hrun : (integerBytes (0 :: c :: cs) minValue).run (0 :: c :: cs) = EStateM.run (do
      checkHighBit (c :: cs)
      checkMinimum (c :: cs) minValue
      pure (c :: cs)) [] := rfl
  rw [hrun, checkHighBit_eq]
  by_cases hhigh : c &&& 0x80 = 0
  · rw [if_pos hhigh]
    exact integerAnswer_of_not_canonical fun h => canonical_zero_cons_iff.1 h hhigh
  · have hc0 : c ≠ 0 := by
      rintro rfl
      exact hhigh rfl
    have hcanonical : Canonical (0 :: c :: cs) := canonical_zero_cons_iff.2 hhigh
    have hanswer := integerAnswer_of_canonical minValue hcanonical
    rw [hzero, ← run_checkMinimum hc0] at hanswer
    rw [if_neg hhigh]
    exact hanswer

theorem integerBytes_cons {b : UInt8} (hb : b ≠ 0) (bs : Bytes) (minValue : UInt8) :
    IntegerAnswer (b :: bs) minValue ((integerBytes (b :: bs) minValue).run (b :: bs)) := by
  have hrun : (integerBytes (b :: bs) minValue).run (b :: bs) = EStateM.run (if b &&& 0x80 ≠ 0 then
      throw .unspecified else do
        let _ ← readBytesToEnd
        checkMinimum (b :: bs) minValue
        pure (b :: bs)) bs := by
    show EStateM.run (if b = 0 then _ else _) bs = _
    rw [if_neg hb]
  rw [hrun]
  by_cases hhigh : b &&& 0x80 ≠ 0
  · rw [if_pos hhigh]
    exact integerAnswer_of_not_canonical fun h => (canonical_cons_iff hb).1 h hhigh
  · have hcanonical : Canonical (b :: bs) := (canonical_cons_iff hb).2 hhigh
    have hanswer := integerAnswer_of_canonical minValue hcanonical
    rw [← run_checkMinimum hb] at hanswer
    rw [if_neg hhigh]
    exact hanswer

theorem integerBytes_answer (value : Bytes) (minValue : UInt8) :
    IntegerAnswer value minValue ((integerBytes value minValue).run value) := by
  cases value with
  | nil => exact integerAnswer_of_not_canonical (by unfold Canonical; decide)
  | cons b bs =>
    by_cases hb : b = 0
    · subst hb
      cases bs with
      | nil => exact integerBytes_zero minValue
      | cons c cs => exact integerBytes_zero_cons c cs minValue
    · exact integerBytes_cons hb bs minValue

/-- What the readers of INTEGERs are about: `w` is the INTEGER of a number that is at least `minValue`. -/
def IntegerOf (minValue : UInt8) (v : Nat) (w : Bytes) : Prop :=
  minValue.toNat ≤ v ∧ (Der.contents v).length < 65536 ∧ w = Der.integer v

theorem reads_nonnegativeInteger {n : Nat} {minValue : UInt8} : Reads Refused n (nonnegativeInteger minValue)
    (fun x w => ∃ v, IntegerOf minValue v w ∧ x = Der.unsignedBytes v) := by
  refine reads_bind reads_expectTagAndGetValue fun value w hw => ?_
  obtain ⟨hlen, rfl⟩ := hw
  rcases integerBytes_answer value minValue with ⟨hcanonical, hmin, hrun⟩ | ⟨-, left, hrun⟩
  · rw [readAll, hrun]
    refine reads_pure ⟨beNat value, ⟨hmin, ?_, ?_⟩, rfl⟩
    · rw [hcanonical]
      exact hlen
    · rw [Der.integer, hcanonical, List.append_nil]
      rfl
  · rw [readAll, hrun]
    exact reads_throw rfl

theorem restores_nonnegativeInteger {minValue : UInt8} {v : Nat} {w : Bytes} (h : IntegerOf minValue v w) :
    Restores (nonnegativeInteger minValue) w (Der.unsignedBytes v) := by
  obtain ⟨hmin, hlen, rfl⟩ := h
  obtain ⟨hcanonical, hval⟩ := canonical_iff.1 (rfl : Der.contents v = Der.contents v)
  refine restores_end (restores_expectTagAndGetValue .integer hlen) (restores_readAll ?_)
  rcases integerBytes_answer (Der.contents v) minValue with ⟨-, -, hrun⟩ | ⟨hnot, -⟩
  · rw [hrun, hval]
  · exact absurd ⟨hcanonical, hval.symm ▸ hmin⟩ hnot

theorem run_nonnegativeInteger_ok {minValue : UInt8} {input left x : Bytes} :
    (nonnegativeInteger minValue).run input = .ok x left ↔
      ∃ v w, IntegerOf minValue v w ∧ input = w ++ left ∧ x = Der.unsignedBytes v := by
  constructor
  · intro h
    obtain ⟨w, rfl, v, hv, rfl⟩ := reads_ok reads_nonnegativeInteger h
    exact ⟨v, w, hv, rfl, rfl⟩
  · rintro ⟨v, w, hv, rfl, rfl⟩
    exact restores_nonnegativeInteger hv left

theorem unsignedBytes_eq_singleton {v : Nat} {b : UInt8} : Der.unsignedBytes v = [b] ↔ v = b.toNat := by
  have hone : beNat [b] = b.toNat := by simp [beNat]
  constructor
  · intro h
    rw [← Der.beNat_unsignedBytes v, h, hone]
  · rintro rfl
    by_cases hb : b = 0
    · subst hb
      rfl
    · rw [← hone, Der.unsignedBytes_cons hb]

/-- A version number: the INTEGER of one byte. -/
theorem run_smallNonnegativeInteger_ok {input left : Bytes} {b : UInt8} :
    smallNonnegativeInteger.run input = .ok b left ↔ input = Der.integer b.toNat ++ left := by
  have hbyte := unsignedBytes_eq_singleton.2 (rfl : b.toNat = b.toNat)
  have hsmall : (Der.contents b.toNat).length < 65536 := by
    rw [Der.contents, hbyte]
    split <;> simp
  constructor
  · intro h
    obtain ⟨x, mid, hx, hread⟩ := run_bind_ok.1 h
    obtain ⟨v, w, ⟨-, -, rfl⟩, rfl, rfl⟩ := run_nonnegativeInteger_ok.1 hx
    obtain ⟨w, hw, hone⟩ := reads_ok (P := fun a w => w = [] ∧ Der.unsignedBytes v = [a])
      (reads_readAll reads_readByte fun a ha => ⟨rfl, ha⟩) hread
    rw [hone.1, List.nil_append] at hw
    rw [unsignedBytes_eq_singleton.1 hone.2, hw]
  · rintro rfl
    have hinteger : IntegerOf 0 b.toNat (Der.integer b.toNat) := ⟨Nat.zero_le _, hsmall, rfl⟩
    refine restores_end (restores_nonnegativeInteger hinteger) (restores_readAll ?_) left
    rw [hbyte]
    rfl

/-- The debug assertions hold of every positive number. -/
theorem newNonEmptyWithoutLeadingZeros_eq (debugAssertions : Bool) {v : Nat} (hv : v ≠ 0) :
    Positive.newNonEmptyWithoutLeadingZeros debugAssertions (Der.magnitude v) = .ok ⟨Der.magnitude v⟩ := by
  refine if_neg fun h => h.2 ⟨Der.magnitude_ne_nil hv, .inr ?_⟩
  cases hmag : Der.magnitude v with
  | nil => exact absurd hmag (Der.magnitude_ne_nil hv)
  | cons b bs => exact fun hb => Der.magnitude_head hmag (Option.some.inj hb)

theorem unsignedBytes_of_ne {v : Nat} (hv : v ≠ 0) : Der.unsignedBytes v = Der.magnitude v := if_neg hv

theorem integerOf_one {v : Nat} {w : Bytes} (h : IntegerOf 1 v w) : v ≠ 0 := Nat.ne_of_gt h.1

theorem reads_positiveInteger {n : Nat} (debugAssertions : Bool) : Reads Refused n (positiveInteger debugAssertions)
    (fun p w => ∃ v, IntegerOf 1 v w ∧ p = ⟨Der.magnitude v⟩) := by
  refine reads_bind reads_nonnegativeInteger fun x w hx => ?_
  obtain ⟨v, hv, rfl⟩ := hx
  rw [unsignedBytes_of_ne (integerOf_one hv), newNonEmptyWithoutLeadingZeros_eq debugAssertions (integerOf_one hv)]
  refine reads_pure ⟨v, ?_, rfl⟩
  rw [List.append_nil]
  exact hv

theorem restores_positiveInteger (debugAssertions : Bool) {v : Nat} {w : Bytes} (h : IntegerOf 1 v w) :
    Restores (positiveInteger debugAssertions) w ⟨Der.magnitude v⟩ := by
  refine restores_end (restores_nonnegativeInteger h) (restores_orThrow ?_)
  rw [unsignedBytes_of_ne (integerOf_one h)]
  exact newNonEmptyWithoutLeadingZeros_eq debugAssertions (integerOf_one h)

theorem run_positiveInteger_ok {debugAssertions : Bool} {input left : Bytes} {p : Positive} :
    (positiveInteger debugAssertions).run input = .ok p left ↔
      ∃ v w, IntegerOf 1 v w ∧ input = w ++ left ∧ p = ⟨Der.magnitude v⟩ := by
  constructor
  · intro h
    obtain ⟨w, rfl, v, hv, rfl⟩ := reads_ok (reads_positiveInteger debugAssertions) h
    exact ⟨v, w, hv, rfl, rfl⟩
  · rintro ⟨v, w, hv, rfl, rfl⟩
    exact restores_positiveInteger debugAssertions hv left

/-- **A positive INTEGER is accepted exactly as DER writes it**, in every build, and given back in the fewest bytes; no
other input is, and no number has a second encoding that is. -/
theorem positive_integer_exact (debugAssertions : Bool) :
    (∀ input p left, (positiveInteger debugAssertions).run input = .ok p left ↔
      ∃ v, 1 ≤ v ∧ (Der.contents v).length < 65536 ∧ input = Der.integer v ++ left ∧ p.input = Der.magnitude v) ∧
    (∀ input p left, (positiveInteger debugAssertions).run input = .ok p left →
      ∃ b bs, p.input = b :: bs ∧ b ≠ 0) ∧
    (∀ input e left, (positiveInteger debugAssertions).run input = .error e left → e = .unspecified) ∧
    (∀ v, 1 ≤ v → (Der.contents v).length < 65536 →
      ∃! w, ∃ p, (positiveInteger debugAssertions).run w = .ok p [] ∧ beNat p.input = v) := by
  refine ⟨fun input p left => ?_, fun input p left h => ?_, fun input e left h => ?_, fun v hv hlen => ?_⟩
  · rw [run_positiveInteger_ok]
    constructor
    · rintro ⟨v, w, ⟨hv, hlen, rfl⟩, rfl, rfl⟩
      exact ⟨v, hv, hlen, rfl, rfl⟩
    · rintro ⟨v, hv, hlen, rfl, hp⟩
      exact ⟨v, _, ⟨hv, hlen, rfl⟩, rfl, congrArg Positive.mk hp⟩
  · obtain ⟨v, w, hv, -, rfl⟩ := run_positiveInteger_ok.1 h
    cases hmag : Der.magnitude v with
    | nil => exact absurd hmag (Der.magnitude_ne_nil (integerOf_one hv))
    | cons b bs => exact ⟨b, bs, rfl, Der.magnitude_head hmag⟩
  · exact reads_error (F := Refused) (reads_positiveInteger debugAssertions) h
  · refine ⟨Der.integer v, ⟨⟨Der.magnitude v⟩, ?_, Der.beNat_magnitude v⟩, ?_⟩
    · exact run_positiveInteger_ok.2 ⟨v, _, ⟨hv, hlen, rfl⟩, (List.append_nil _).symm, rfl⟩
    · rintro w ⟨p, hrun, hval⟩
      obtain ⟨v', w', ⟨-, -, rfl⟩, rfl, rfl⟩ := run_positiveInteger_ok.1 hrun
      rw [List.append_nil, ← hval, Der.beNat_magnitude]

/-- Zero is refused, and so is a zero in front of a clear high bit. -/
example : (positiveInteger true).run [0x02, 0x01, 0x00] = .error .unspecified [] ∧
    (positiveInteger true).run [0x02, 0x02, 0x00, 0x7F] = .error .unspecified [] := ⟨rfl, rfl⟩

end Io
end Wolf
