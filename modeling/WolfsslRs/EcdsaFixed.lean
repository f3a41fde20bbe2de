import WolfsslRs.DerReader
import WolfsslRs.RingVerify
import WolfsslRs.Rust
/-!
# EcdsaFixed — ECDSA signatures of fixed width and in DER

A signature is two numbers.  wolfSSL writes and reads them in DER; the fixed form is each of them in as many bytes as the
curve's scalars have, zeros in front.  `wolfcrypt-ring-compat` converts both ways with wolfSSL's big numbers, `wolfcrypt`
from DER with `wc_ecc_sig_to_rs`.  Both put a number of `k` bytes at the offset `n - k`; what happens where `k` is more
than `n` is the question.
-/
namespace Wolf
namespace Ring

open Rust

/-! ## wolfSSL -/

/-- wolfSSL's big numbers and ECDSA signatures; `none` is a null pointer, or a call that has failed. -/
structure EcdsaSsl (Bn Sig : Type) where
  bin2bn : Bytes → Int → Option Bn
  numBytes : Bn → Nat
  /-- the bytes `BN_bn2bin` writes, which it counts -/
  bn2bin : Bn → Bytes
  sigNew : Option Sig
  sigSet0 : Sig → Bn → Bn → Option Sig
  sigGet0R : Sig → Option Bn
  sigGet0S : Sig → Option Bn
  i2d : Sig → Option Bytes
  d2i : Bytes → Int → Option Sig

/-- `signature::MAX_LEN`. -/
def maxLen : Nat := 1024

structure Signature where
  value : Bytes
  len : Nat
  deriving DecidableEq, Repr

/-- `Signature::as_ref`. -/
def Signature.asRef (signature : Signature) : Except Failure Bytes :=
  orExit .panicked (upTo signature.value signature.len)

namespace EcdsaSsl

variable {Bn Sig : Type} (ssl : EcdsaSsl Bn Sig) (build : Build)

/-- The `TryFrom<&[u8]>` of a `BIGNUM`. -/
def tryFrom (bytes : Bytes) : Except Failure Bn := orExit .unspecified (ssl.bin2bn bytes (asI32 bytes.length))

def toBeBytes (bn : Bn) : Except Failure Bytes := do
  let bnBytes := ssl.numBytes bn
  orExit .panicked (build.withCapacity bnBytes)
  let byteVec := ssl.bn2bin bn
  orExit .panicked (build.debugAssert (byteVec.length = bnBytes))
  pure byteVec

def ecdsaSigFromFixed (algId : EcdsaAlgorithmID) (signature : Bytes) : Except Failure Sig := do
  let numSizeBytes := algId.privateKeySize
  if signature.length ≠ 2 * numSizeBytes then throw .unspecified
  else
    let rBn ← ssl.tryFrom (signature.take numSizeBytes)
    let sBn ← ssl.tryFrom (signature.drop numSizeBytes)
    let ecdsaSig ← orExit .unspecified ssl.sigNew
    orExit .unspecified (ssl.sigSet0 ecdsaSig rBn sBn)

def convertFixedSignature (algId : EcdsaAlgorithmID) (signature : Bytes) : Except Failure Bytes := do
  let sig ← ssl.ecdsaSigFromFixed algId signature
  orExit .unspecified (ssl.i2d sig)

end EcdsaSsl

/-- The closure `ecdsa_asn1_to_fixed` fills a signature with: the offsets are differences of `usize`. -/
def fillFixed (build : Build) (expectedNumberSize : Nat) (rBuffer sBuffer : Bytes) : Option Bytes := do
  let rStart ← build.sub expectedNumberSize rBuffer.length
  let sStart ← build.sub (2 * expectedNumberSize) sBuffer.length
  let slice ← copyFromSlice (List.replicate maxLen 0) rStart expectedNumberSize rBuffer
  copyFromSlice slice sStart (2 * expectedNumberSize) sBuffer

def EcdsaSsl.ecdsaAsn1ToFixed {Bn Sig : Type} (ssl : EcdsaSsl Bn Sig) (build : Build) (algId : EcdsaAlgorithmID)
    (sig : Bytes) : Except Failure Signature := do
  let expectedNumberSize := algId.privateKeySize
  let ecdsaSig ← orExit .unspecified (ssl.d2i sig (asI32 sig.length))
  let rBn ← orExit .unspecified (ssl.sigGet0R ecdsaSig)
  let rBuffer ← ssl.toBeBytes build rBn
  let sBn ← orExit .unspecified (ssl.sigGet0S ecdsaSig)
  let sBuffer ← ssl.toBeBytes build sBn
  let value ← orExit .panicked (fillFixed build expectedNumberSize rBuffer sBuffer)
  pure ⟨value, 2 * expectedNumberSize⟩

/-! ## What is assumed of wolfSSL -/

/-- The DER of an ECDSA signature. -/
def derSignature (r s : Nat) : Bytes := Der.sequence [Der.integer r, Der.integer s]

/-- The two numbers wolfSSL reads from a signature. -/
def EcdsaSsl.numbers {Bn Sig : Type} (ssl : EcdsaSsl Bn Sig) (value : Bn → Nat) (sig : Bytes) : Option (Nat × Nat) := do
  let ecdsaSig ← ssl.d2i sig (asI32 sig.length)
  let rBn ← ssl.sigGet0R ecdsaSig
  let sBn ← ssl.sigGet0S ecdsaSig
  pure (value rBn, value sBn)

/-- **The routines are those of numbers and of DER**: a big number is written without zeros in front and counted in an
`int`; numbers of at most the 66 bytes a scalar has are read, put together, written in DER and read back. -/
structure EcdsaSsl.Correct {Bn Sig : Type} (ssl : EcdsaSsl Bn Sig) (value : Bn → Nat) : Prop where
  bn2bin_eq : ∀ bn, ssl.bn2bin bn = Der.magnitude (value bn)
  numBytes_eq : ∀ bn, ssl.numBytes bn = (ssl.bn2bin bn).length
  numBytes_lt : ∀ bn, ssl.numBytes bn < 2 ^ 31
  bin2bn_eq : ∀ bytes : Bytes, bytes.length ≤ 66 → ∃ bn, ssl.bin2bn bytes bytes.length = some bn ∧ value bn = beNat bytes
  i2d_eq : ∀ r s, value r < 256 ^ 66 → value s < 256 ^ 66 → ∃ empty sig, ssl.sigNew = some empty ∧
    ssl.sigSet0 empty r s = some sig ∧ ssl.i2d sig = some (derSignature (value r) (value s))
  d2i_eq : ∀ r s, r < 256 ^ 66 → s < 256 ^ 66 → ssl.numbers value (derSignature r s) = some (r, s)

/-! ## Filling the fixed form -/

/-- **A number laid against the end of its field**: the zeros before it make it the number of the field's width. -/
theorem copyFromSlice_magnitude {front : Bytes} {n m v start stop : Nat} (hv : v < 256 ^ n) (hn : n ≤ m)
    (hstart : start = front.length + (n - Der.width v)) (hstop : stop = front.length + n) :
    copyFromSlice (front ++ List.replicate m 0) start stop (Der.magnitude v) =
      some (front ++ beBytes n v ++ List.replicate (m - n) 0) := by
  have hwidth := Der.width_le hv
  subst hstart hstop
  rw [copyFromSlice_of (by rw [Der.length_magnitude]; omega) (by rw [List.length_append, List.length_replicate]; omega)]
  have hskip : n - Der.width v + Der.width v = n := by omega
  rw [splice, Der.length_magnitude, Nat.add_assoc, hskip, List.take_length_add_append, List.drop_length_add_append,
    List.take_replicate, List.drop_replicate, Nat.min_eq_left (by omega), Der.beBytes_eq_zeros_append hv]
  simp only [List.append_assoc]

theorem copyFromSlice_magnitude_first {n m v : Nat} (hv : v < 256 ^ n) (hn : n ≤ m) :
    copyFromSlice (List.replicate m 0) (n - Der.width v) n (Der.magnitude v) =
      some (beBytes n v ++ List.replicate (m - n) 0) :=
  @copyFromSlice_magnitude [] n m v _ _ hv hn (Nat.zero_add _).symm (Nat.zero_add _).symm

theorem privateKeySize_le (algId : EcdsaAlgorithmID) : algId.privateKeySize ≤ 66 := by
  cases algId <;> decide

section Fill

variable {build : Build} {n r s : Nat}

theorem fillFixed_fits (hn : n ≤ 66) (hr : r < 256 ^ n) (hs : s < 256 ^ n) :
    fillFixed build n (Der.magnitude r) (Der.magnitude s) =
      some (beBytes n r ++ beBytes n s ++ List.replicate (maxLen - n - n) 0) := by
  have hrw := Der.width_le hr
  have hsw := Der.width_le hs
  have hmax : 2 * n ≤ maxLen := by unfold maxLen; omega
  have hsecond : copyFromSlice (beBytes n r ++ List.replicate (maxLen - n) 0) (2 * n - Der.width s) (2 * n)
      (Der.magnitude s) = some (beBytes n r ++ beBytes n s ++ List.replicate (maxLen - n - n) 0) :=
    copyFromSlice_magnitude hs (by omega) (by rw [length_beBytes]; omega) (by rw [length_beBytes]; omega)
  simp only [fillFixed, Der.length_magnitude, sub_of_le hrw, sub_of_le (show Der.width s ≤ 2 * n by omega)]
  show (copyFromSlice _ _ _ _).bind _ = _
  rw [copyFromSlice_magnitude_first hr (by omega)]
  exact hsecond

/-- **Where the closure panics**: a first number longer than its field, or a second one longer than both. -/
theorem fillFixed_eq_none_iff (build : Build) (rBuffer sBuffer : Bytes) (hn : n ≤ 66) (hr : rBuffer.length < build.usizeSize)
    (hs : sBuffer.length < build.usizeSize) :
    fillFixed build n rBuffer sBuffer = none ↔ n < rBuffer.length ∨ 2 * n < sBuffer.length := by
  have hmax : 2 * n ≤ maxLen := by unfold maxLen; omega
  unfold fillFixed
  by_cases hrn : n < rBuffer.length
  · refine iff_of_true ?_ (.inl hrn)
    rcases sub_of_lt build n hrn (by omega) with hsub | ⟨start, hsub, hlt⟩
    · rw [hsub]
      rfl
    · rw [hsub]
      show (build.sub _ _).bind _ = none
      cases build.sub (2 * n) sBuffer.length with
      | none => rfl
      | some sStart => exact congrArg (Option.bind · _) (copyFromSlice_of_lt hlt)
  · have hcopy : copyFromSlice (List.replicate maxLen 0) (n - rBuffer.length) n rBuffer =
        some (splice (List.replicate maxLen 0) (n - rBuffer.length) rBuffer) :=
      copyFromSlice_of (by omega) (by rw [List.length_replicate]; omega)
    have hlen : (splice (List.replicate maxLen 0) (n - rBuffer.length) rBuffer).length = maxLen := by
      rw [length_splice (by rw [List.length_replicate]; omega), List.length_replicate]
    rw [sub_of_le (Nat.not_lt.1 hrn)]
    by_cases hsn : 2 * n < sBuffer.length
    · refine iff_of_true ?_ (.inr hsn)
      rcases sub_of_lt build (2 * n) hsn (by omega) with hsub | ⟨start, hsub, hlt⟩
      · rw [hsub]
        rfl
      · rw [hsub]
        show (copyFromSlice _ _ _ _).bind _ = none
        rw [hcopy]
        exact copyFromSlice_of_lt hlt
    · refine iff_of_false ?_ (not_or.2 ⟨hrn, hsn⟩)
      rw [sub_of_le (Nat.not_lt.1 hsn)]
      show (copyFromSlice _ _ _ _).bind _ ≠ none
      rw [hcopy, Option.bind_some, copyFromSlice_of (by omega) (by omega)]
      exact Option.some_ne_none _

end Fill

/-! ## The conversions of wolfcrypt-ring-compat -/

section Conversions

variable {Bn Sig : Type} {ssl : EcdsaSsl Bn Sig} {value : Bn → Nat} {build : Build} {algId : EcdsaAlgorithmID}

theorem toBeBytes_eq (hssl : ssl.Correct value) (bn : Bn) : ssl.toBeBytes build bn = .ok (Der.magnitude (value bn)) := by
  have hcapacity : ssl.numBytes bn ≤ build.isizeMax := by
    have hlt := hssl.numBytes_lt bn
    have hmax := two_pow_31_le build
    omega
  simp only [EcdsaSsl.toBeBytes, withCapacity_of_le hcapacity, debugAssert_of (hssl.numBytes_eq bn).symm]
  exact congrArg Except.ok (hssl.bn2bin_eq bn)

theorem width_lt (hssl : ssl.Correct value) (bn : Bn) : Der.width (value bn) < build.usizeSize := by
  have hlt := hssl.numBytes_lt bn
  rw [hssl.numBytes_eq, hssl.bn2bin_eq, Der.length_magnitude] at hlt
  have hmax := two_pow_31_le build
  have hsize := isizeMax_lt build
  omega

/-- **The conversion from DER is the closure on the numbers read**, whatever their size. -/
theorem ecdsaAsn1ToFixed_eq (hssl : ssl.Correct value) (sig : Bytes) :
    ssl.ecdsaAsn1ToFixed build algId sig =
      orExit .unspecified (ssl.numbers value sig) >>= fun rs =>
        (orExit .panicked (fillFixed build algId.privateKeySize (Der.magnitude rs.1) (Der.magnitude rs.2))).map
          fun filled => ⟨filled, 2 * algId.privateKeySize⟩ := by
  unfold EcdsaSsl.ecdsaAsn1ToFixed EcdsaSsl.numbers
  simp only [toBeBytes_eq hssl, orExit_bind, bind_assoc, ok_bind]
  rfl

theorem numbers_lt (build : Build) (hssl : ssl.Correct value) {sig : Bytes} {r s : Nat} (h : ssl.numbers value sig = some (r, s)) :
    Der.width r < build.usizeSize ∧ Der.width s < build.usizeSize := by
  unfold EcdsaSsl.numbers at h
  simp only [Option.bind_eq_bind, Option.bind_eq_some_iff, Option.pure_def, Option.some.injEq, Prod.mk.injEq] at h
  obtain ⟨-, -, rBn, -, sBn, -, rfl, rfl⟩ := h
  exact ⟨width_lt hssl rBn, width_lt hssl sBn⟩

/-- **The numbers that panic.** -/
theorem ecdsaAsn1ToFixed_panics_iff (hssl : ssl.Correct value) {sig : Bytes} {r s : Nat}
    (h : ssl.numbers value sig = some (r, s)) :
    ssl.ecdsaAsn1ToFixed build algId sig = .error .panicked ↔
      algId.privateKeySize < Der.width r ∨ 2 * algId.privateKeySize < Der.width s := by
  obtain ⟨hr, hs⟩ := numbers_lt build hssl h
  have hnone := fillFixed_eq_none_iff build (Der.magnitude r) (Der.magnitude s) (privateKeySize_le algId)
    (by rwa [Der.length_magnitude]) (by rwa [Der.length_magnitude])
  rw [Der.length_magnitude, Der.length_magnitude] at hnone
  rw [ecdsaAsn1ToFixed_eq hssl, h, ← hnone, orExit_some, ok_bind]
  cases fillFixed build algId.privateKeySize (Der.magnitude r) (Der.magnitude s) with
  | none => exact iff_of_true rfl rfl
  | some filled => exact iff_of_false (fun h => nomatch h) (Option.some_ne_none _)

theorem tryFrom_eq (hssl : ssl.Correct value) (bytes : Bytes) (h : bytes.length ≤ 66) :
    ∃ bn, ssl.tryFrom bytes = .ok bn ∧ value bn = beNat bytes := by
  obtain ⟨bn, hbn, hval⟩ := hssl.bin2bn_eq bytes h
  refine ⟨bn, ?_, hval⟩
  rw [EcdsaSsl.tryFrom, asI32_of_lt (by omega), hbn]
  rfl

/-- Two numbers in as many bytes each as the curve's scalars have. -/
def fixedSignature (algId : EcdsaAlgorithmID) (r s : Nat) : Bytes :=
  beBytes algId.privateKeySize r ++ beBytes algId.privateKeySize s

theorem length_fixedSignature (algId : EcdsaAlgorithmID) (r s : Nat) :
    (fixedSignature algId r s).length = 2 * algId.privateKeySize := by
  rw [fixedSignature, List.length_append, length_beBytes, length_beBytes, Nat.two_mul]

theorem convertFixedSignature_fixed (hssl : ssl.Correct value) {r s : Nat} (hr : r < 256 ^ algId.privateKeySize)
    (hs : s < 256 ^ algId.privateKeySize) :
    ssl.convertFixedSignature algId (fixedSignature algId r s) = .ok (derSignature r s) := by
  have hn := privateKeySize_le algId
  have hsize : 256 ^ algId.privateKeySize ≤ 256 ^ 66 := Nat.pow_le_pow_right (by decide) hn
  have hlen := length_fixedSignature algId r s
  have htake : (fixedSignature algId r s).take algId.privateKeySize = beBytes algId.privateKeySize r := by
    simp [fixedSignature]
  have hdrop : (fixedSignature algId r s).drop algId.privateKeySize = beBytes algId.privateKeySize s := by
    simp [fixedSignature]
  obtain ⟨rBn, hrBn, hrv⟩ := tryFrom_eq hssl (beBytes algId.privateKeySize r) (by rwa [length_beBytes])
  obtain ⟨sBn, hsBn, hsv⟩ := tryFrom_eq hssl (beBytes algId.privateKeySize s) (by rwa [length_beBytes])
  rw [beNat_beBytes, Nat.mod_eq_of_lt hr] at hrv
  rw [beNat_beBytes, Nat.mod_eq_of_lt hs] at hsv
  obtain ⟨empty, sig, hempty, hset, hi2d⟩ := hssl.i2d_eq rBn sBn (by omega) (by omega)
  simp only [EcdsaSsl.convertFixedSignature, EcdsaSsl.ecdsaSigFromFixed, hlen, htake, hdrop, hrBn, hsBn, hempty,
    ne_eq, not_true_eq_false, if_false, ok_bind, orExit_some, hset, hi2d, hrv, hsv]

theorem asRef_fill {r s : Nat} (hr : r < 256 ^ algId.privateKeySize) (hs : s < 256 ^ algId.privateKeySize) :
    ((orExit Failure.panicked (fillFixed build algId.privateKeySize (Der.magnitude r) (Der.magnitude s))).map
      fun filled => (⟨filled, 2 * algId.privateKeySize⟩ : Signature)) >>= Signature.asRef =
      .ok (fixedSignature algId r s) := by
  have hlen := length_fixedSignature algId r s
  rw [fillFixed_fits (privateKeySize_le algId) hr hs, orExit_some]
  show orExit Failure.panicked (upTo (fixedSignature algId r s ++ List.replicate _ 0) (2 * algId.privateKeySize)) = _
  rw [upTo_of_le (by rw [List.length_append]; omega), List.take_left' hlen]
  rfl

/-- **The fixed form comes back from DER as it was**, zeros in front included. -/
theorem fixed_roundtrip (hssl : ssl.Correct value) {r s : Nat} (hr : r < 256 ^ algId.privateKeySize)
    (hs : s < 256 ^ algId.privateKeySize) :
    (do
      let der ← ssl.convertFixedSignature algId (fixedSignature algId r s)
      let signature ← ssl.ecdsaAsn1ToFixed build algId der
      signature.asRef) = .ok (fixedSignature algId r s) := by
  have hsize : 256 ^ algId.privateKeySize ≤ 256 ^ 66 := Nat.pow_le_pow_right (by decide) (privateKeySize_le algId)
  rw [convertFixedSignature_fixed hssl hr hs, ok_bind, ecdsaAsn1ToFixed_eq hssl,
    hssl.d2i_eq r s (by omega) (by omega), orExit_some, ok_bind]
  exact asRef_fill hr hs

/-- **A signature is handled**: no panic, and the error where a number does not fit its field. -/
def EcdsaSsl.Handles (ssl : EcdsaSsl Bn Sig) (value : Bn → Nat) (build : Build) (algId : EcdsaAlgorithmID) (sig : Bytes) :
    Prop :=
  ssl.ecdsaAsn1ToFixed build algId sig ≠ .error .panicked ∧
    ∀ r s, ssl.numbers value sig = some (r, s) → algId.privateKeySize < Der.width r ∨ algId.privateKeySize < Der.width s →
      ssl.ecdsaAsn1ToFixed build algId sig = .error .unspecified

/-- **No number that does not fit is ever refused.** -/
theorem handles_iff (hssl : ssl.Correct value) (sig : Bytes) :
    ssl.Handles value build algId sig ↔ ∀ r s, ssl.numbers value sig = some (r, s) →
      Der.width r ≤ algId.privateKeySize ∧ Der.width s ≤ algId.privateKeySize := by
  constructor
  · rintro ⟨-, hwide⟩ r s h
    by_contra hfits
    have herr := hwide r s h (by omega)
    rw [ecdsaAsn1ToFixed_eq hssl, h, orExit_some, ok_bind] at herr
    cases hfill : fillFixed build algId.privateKeySize (Der.magnitude r) (Der.magnitude s) with
    | none =>
      rw [hfill] at herr
      cases herr
    | some filled =>
      rw [hfill] at herr
      cases herr
  · intro hfits
    refine ⟨fun hpanic => ?_, fun r s h hwide => absurd (hfits r s h) (by omega)⟩
    cases hnum : ssl.numbers value sig with
    | none =>
      rw [ecdsaAsn1ToFixed_eq hssl, hnum] at hpanic
      cases hpanic
    | some rs =>
      obtain ⟨r, s⟩ := rs
      have hwide := (ecdsaAsn1ToFixed_panics_iff hssl hnum).1 hpanic
      have := hfits r s hnum
      omega

end Conversions

end Ring

/-! ## The conversion of wolfcrypt -/

namespace EcdsaNative

open Rust

inductive WolfCryptError where
  | ffi (code : Int) (func : String)
  | allocFailed | invalidInput | signatureInvalid
  deriving DecidableEq, Repr

inductive Failure where
  | error (e : WolfCryptError)
  | panicked
  deriving DecidableEq, Repr

/-- The types that implement `EcdsaCurve`. -/
inductive Curve where
  | p256 | p384 | p521
  deriving DecidableEq, Repr

def Curve.fieldSize : Curve → Nat
  | .p256 => 32
  | .p384 => 48
  | .p521 => 66

/-- What `wc_ecc_sig_to_rs` leaves: its code, the two buffers and the two lengths. -/
structure RsOutput where
  rc : Int
  r : Bytes
  rLen : Nat
  s : Bytes
  sLen : Nat

/-- `wc_ecc_sig_to_rs` on a signature and its length, and the buffers with theirs. -/
abbrev SigToRs := (sig : Bytes) → (sigLen : Nat) → (r : Bytes) → (rLen : Nat) → (s : Bytes) → (sLen : Nat) → RsOutput

def derToFixedRs (sigToRs : SigToRs) (build : Build) (curve : Curve) (der : Bytes) (derLen : Nat) :
    Except Failure Bytes :=
  let fieldSize := curve.fieldSize
  let out := sigToRs der derLen (List.replicate fieldSize 0) fieldSize (List.replicate fieldSize 0) fieldSize
  if out.rc ≠ 0 then .error (.error (.ffi out.rc "wc_ecc_sig_to_rs"))
  else if out.rLen > fieldSize ∨ out.sLen > fieldSize then .error (.error .invalidInput)
  else orExit .panicked do
    let combined := List.replicate (2 * fieldSize) 0
    let rPad ← build.sub fieldSize out.rLen
    let combined ← copyFromSlice combined rPad fieldSize (← upTo out.r out.rLen)
    let sPad ← build.sub fieldSize out.sLen
    copyFromSlice combined (← build.add fieldSize sPad) combined.length (← upTo out.s out.sLen)

/-- **`wc_ecc_sig_to_rs` stays inside the buffers, and what it reports as read is the signature's numbers** without zeros
in front; `decode` is how wolfCrypt reads DER. -/
structure Correct (sigToRs : SigToRs) (decode : Bytes → Option (Nat × Nat)) : Prop where
  length_r : ∀ sig sigLen r rLen s sLen, (sigToRs sig sigLen r rLen s sLen).r.length = r.length
  length_s : ∀ sig sigLen r rLen s sLen, (sigToRs sig sigLen r rLen s sLen).s.length = s.length
  reads : ∀ sig sigLen r rLen s sLen, (sigToRs sig sigLen r rLen s sLen).rc = 0 →
    ∃ rv sv, decode (sig.take sigLen) = some (rv, sv) ∧
      (sigToRs sig sigLen r rLen s sLen).rLen = Der.width rv ∧ (sigToRs sig sigLen r rLen s sLen).sLen = Der.width sv ∧
      (Der.width rv ≤ r.length → (sigToRs sig sigLen r rLen s sLen).r.take (Der.width rv) = Der.magnitude rv) ∧
      (Der.width sv ≤ s.length → (sigToRs sig sigLen r rLen s sLen).s.take (Der.width sv) = Der.magnitude sv)

/-- **What the conversion answers**: an error, or the two numbers, which then fit. -/
theorem derToFixedRs_cases {sigToRs : SigToRs} {decode : Bytes → Option (Nat × Nat)} (h : Correct sigToRs decode)
    (build : Build) (curve : Curve) (der : Bytes) (derLen : Nat) :
    (∃ e, derToFixedRs sigToRs build curve der derLen = .error (.error e)) ∨
    ∃ r s, decode (der.take derLen) = some (r, s) ∧ r < 256 ^ curve.fieldSize ∧ s < 256 ^ curve.fieldSize ∧
      derToFixedRs sigToRs build curve der derLen =
        .ok (beBytes curve.fieldSize r ++ beBytes curve.fieldSize s) := by
  have hfield : curve.fieldSize ≤ 66 := by cases curve <;> decide
  have hr := h.length_r der derLen (List.replicate curve.fieldSize 0) curve.fieldSize
    (List.replicate curve.fieldSize 0) curve.fieldSize
  have hs := h.length_s der derLen (List.replicate curve.fieldSize 0) curve.fieldSize
    (List.replicate curve.fieldSize 0) curve.fieldSize
  have hreads := h.reads der derLen (List.replicate curve.fieldSize 0) curve.fieldSize
    (List.replicate curve.fieldSize 0) curve.fieldSize
  simp only [derToFixedRs]
  generalize sigToRs der derLen (List.replicate curve.fieldSize 0) curve.fieldSize
    (List.replicate curve.fieldSize 0) curve.fieldSize = out at hr hs hreads ⊢
  generalize curve.fieldSize = n at *
  by_cases hrc : out.rc ≠ 0
  · exact .inl ⟨_, if_pos hrc⟩
  rw [if_neg hrc]
  by_cases hlong : out.rLen > n ∨ out.sLen > n
  · exact .inl ⟨_, if_pos hlong⟩
  rw [if_neg hlong]
  obtain ⟨rv, sv, hdecode, hrLen, hsLen, hrTake, hsTake⟩ := hreads (not_not.1 hrc)
  rw [List.length_replicate] at hr hs hrTake hsTake
  rw [hrLen, hsLen] at hlong ⊢
  have hrw : Der.width rv ≤ n := by omega
  have hsw : Der.width sv ≤ n := by omega
  refine .inr ⟨rv, sv, hdecode, Der.width_le_iff.1 hrw, Der.width_le_iff.1 hsw, ?_⟩
  have hfirst := Ring.copyFromSlice_magnitude_first (Der.width_le_iff.1 hrw) (show n ≤ 2 * n by omega)
  have hsecond : copyFromSlice (beBytes n rv ++ List.replicate (2 * n - n) 0) (n + (n - Der.width sv))
      (beBytes n rv ++ List.replicate (2 * n - n) 0).length (Der.magnitude sv) =
      some (beBytes n rv ++ beBytes n sv ++ List.replicate (2 * n - n - n) 0) :=
    Ring.copyFromSlice_magnitude (Der.width_le_iff.1 hsw) (by omega) (by rw [length_beBytes])
      (by rw [List.length_append, length_beBytes, List.length_replicate]; omega)
  have hadd : build.add n (n - Der.width sv) = some (n + (n - Der.width sv)) := by
    have := two_pow_31_le build
    have := isizeMax_lt build
    exact add_of_lt (by omega)
  simp only [sub_of_le hrw, sub_of_le hsw, upTo_of_le (show Der.width rv ≤ out.r.length by omega),
    upTo_of_le (show Der.width sv ≤ out.s.length by omega), hrTake hrw, hsTake hsw, Option.bind_eq_bind,
    Option.bind_some, hfirst, hadd, hsecond, orExit_some]
  rw [show 2 * n - n - n = 0 by omega, List.replicate_zero, List.append_nil]

end EcdsaNative

/-! ## A wolfSSL that reads DER as `io/der.rs` does -/

namespace Ring

open Program Reader Rust

/-- A number without zeros in front, of fewer bytes than an `int` counts. -/
structure BigNum where
  bytes : Bytes
  minimal : bytes.head? ≠ some 0
  short : bytes.length < 2 ^ 31

def BigNum.value (bn : BigNum) : Nat := beNat bn.bytes

theorem head?_dropWhile_zero : ∀ bs : Bytes, (bs.dropWhile (· == 0)).head? ≠ some 0
  | [] => by simp
  | b :: bs => by
    by_cases hb : b = 0
    · rw [List.dropWhile_cons_of_pos (by simpa using hb)]
      exact head?_dropWhile_zero bs
    · rw [List.dropWhile_cons_of_neg (by simpa using hb)]
      simpa using hb

def BigNum.ofBytes (bytes : Bytes) : Option BigNum :=
  if h : (bytes.dropWhile (· == 0)).length < 2 ^ 31 then some ⟨_, head?_dropWhile_zero bytes, h⟩ else none

theorem BigNum.ofBytes_eq (bytes : Bytes) (h : bytes.length < 2 ^ 31) :
    ∃ bn, BigNum.ofBytes bytes = some bn ∧ bn.value = beNat bytes := by
  have hle := (List.dropWhile_sublist (l := bytes) (fun b : UInt8 => b == 0)).length_le
  refine ⟨_, dif_pos (by omega), ?_⟩
  show beNat (bytes.dropWhile (· == 0)) = beNat bytes
  rw [← Der.magnitude_beNat, Der.beNat_magnitude]

theorem BigNum.bytes_eq (bn : BigNum) : bn.bytes = Der.magnitude bn.value := by
  rw [BigNum.value, Der.magnitude_beNat]
  obtain ⟨bytes, hmin, -⟩ := bn
  cases bytes with
  | nil => rfl
  | cons b bs => rw [List.dropWhile_cons_of_neg (by simpa using hmin)]

def readNumbers : Io.Read (Bytes × Bytes) :=
  Io.nested .sequence do
    let r ← Io.nonnegativeInteger 0
    let s ← Io.nonnegativeInteger 0
    pure (r, s)

/-- The numbers of a DER signature. -/
def decodeNumbers (sig : Bytes) : Option (Bytes × Bytes) :=
  match readNumbers.run sig with
  | .ok rs _ => some rs
  | .error _ _ => none

theorem length_integer_lt {v : Nat} (h : v < 256 ^ 66) :
    (Der.contents v).length < 65536 ∧ (Der.integer v).length < 256 := by
  have hcontents : (Der.contents v).length ≤ 67 := Der.length_contents_le h
  have hoctets : (Der.lengthOctets (Der.contents v).length).length ≤ 2 :=
    Der.length_lengthOctets_le (k := 1) (by omega)
  rw [Der.integer, Der.length_element]
  omega

theorem length_derSignature_lt {r s : Nat} (hr : r < 256 ^ 66) (hs : s < 256 ^ 66) :
    [Der.integer r, Der.integer s].flatten.length < 512 ∧ (derSignature r s).length < 1024 := by
  have hbody : [Der.integer r, Der.integer s].flatten.length < 512 := by
    have := (length_integer_lt hr).2
    have := (length_integer_lt hs).2
    simp only [List.flatten_cons, List.flatten_nil, List.append_nil, List.length_append]
    omega
  have hoctets := Der.length_lengthOctets_le (n := [Der.integer r, Der.integer s].flatten.length) (k := 2) (by omega)
  refine ⟨hbody, ?_⟩
  rw [derSignature, Der.sequence, Der.length_element]
  omega

theorem decodeNumbers_derSignature {r s : Nat} (hr : r < 256 ^ 66) (hs : s < 256 ^ 66) :
    decodeNumbers (derSignature r s) = some (Der.unsignedBytes r, Der.unsignedBytes s) := by
  have hrInt : Io.IntegerOf 0 r (Der.integer r) := ⟨Nat.zero_le _, (length_integer_lt hr).1, rfl⟩
  have hsInt : Io.IntegerOf 0 s (Der.integer s) := ⟨Nat.zero_le _, (length_integer_lt hs).1, rfl⟩
  have hbody : Restores (do
      let r ← Io.nonnegativeInteger 0
      let s ← Io.nonnegativeInteger 0
      pure (r, s) : Io.Read (Bytes × Bytes)) (Der.integer r ++ Der.integer s)
      (Der.unsignedBytes r, Der.unsignedBytes s) :=
    restores_bind (Io.restores_nonnegativeInteger hrInt)
      (restores_end (Io.restores_nonnegativeInteger hsInt) restores_pure)
  have hread : Restores readNumbers (derSignature r s) (Der.unsignedBytes r, Der.unsignedBytes s) := by
    have hlen := (length_derSignature_lt hr hs).1
    refine restores_end (Io.restores_expectTagAndGetValue .sequence (by omega)) (Io.restores_readAll ?_)
    simpa using restores_run hbody
  rw [decodeNumbers, restores_run hread]

def derSsl : EcdsaSsl BigNum (Option (BigNum × BigNum)) where
  bin2bn bytes len := BigNum.ofBytes (bytes.take len.toNat)
  numBytes bn := bn.bytes.length
  bn2bin bn := bn.bytes
  sigNew := some none
  sigSet0 _ r s := some (some (r, s))
  sigGet0R sig := sig.map (·.1)
  sigGet0S sig := sig.map (·.2)
  i2d sig := sig.map fun rs => derSignature rs.1.value rs.2.value
  d2i bytes len := do
    let (r, s) ← decodeNumbers (bytes.take len.toNat)
    pure (some (← BigNum.ofBytes r, ← BigNum.ofBytes s))

theorem length_unsignedBytes_lt {v : Nat} (h : v < 256 ^ 66) : (Der.unsignedBytes v).length < 2 ^ 31 := by
  unfold Der.unsignedBytes
  split
  · decide
  · have := Der.width_le h
    rw [Der.length_magnitude]
    omega

theorem derSsl_correct : derSsl.Correct BigNum.value where
  bn2bin_eq := BigNum.bytes_eq
  numBytes_eq _ := rfl
  numBytes_lt bn := bn.short
  bin2bn_eq bytes h := by
    obtain ⟨bn, hbn, hval⟩ := BigNum.ofBytes_eq bytes (by omega)
    exact ⟨bn, by simpa [derSsl] using hbn, hval⟩
  i2d_eq r s _ _ := ⟨none, some (r, s), rfl, rfl, rfl⟩
  d2i_eq r s hr hs := by
    have hlen := (length_derSignature_lt hr hs).2
    obtain ⟨rBn, hrBn, hrv⟩ := BigNum.ofBytes_eq _ (length_unsignedBytes_lt hr)
    obtain ⟨sBn, hsBn, hsv⟩ := BigNum.ofBytes_eq _ (length_unsignedBytes_lt hs)
    rw [Der.beNat_unsignedBytes] at hrv hsv
    simp [EcdsaSsl.numbers, derSsl, asI32_of_lt (show (derSignature r s).length < 2 ^ 31 by omega),
      decodeNumbers_derSignature hr hs, hrBn, hsBn, hrv, hsv]

/-- `wc_ecc_sig_to_rs` on top of the same reader, with the codes of wolfCrypt for DER it cannot read and for buffers that
are too small. -/
def derToRs : EcdsaNative.SigToRs := fun sig sigLen r rLen s sLen =>
  match decodeNumbers (sig.take sigLen) with
  | none => ⟨-140, r, rLen, s, sLen⟩
  | some (rBytes, sBytes) =>
    let rMin := rBytes.dropWhile (· == 0)
    let sMin := sBytes.dropWhile (· == 0)
    if rMin.length ≤ r.length ∧ sMin.length ≤ s.length then
      ⟨0, splice r 0 rMin, rMin.length, splice s 0 sMin, sMin.length⟩
    else ⟨-132, r, rLen, s, sLen⟩

def decodeValues (sig : Bytes) : Option (Nat × Nat) := (decodeNumbers sig).map fun rs => (beNat rs.1, beNat rs.2)

theorem derToRs_correct : EcdsaNative.Correct derToRs decodeValues where
  length_r sig sigLen r rLen s sLen := by
    simp only [derToRs]
    split
    · rfl
    · split
      · rename_i h; exact length_splice (by omega)
      · rfl
  length_s sig sigLen r rLen s sLen := by
    simp only [derToRs]
    split
    · rfl
    · split
      · rename_i h; exact length_splice (by omega)
      · rfl
  reads sig sigLen r rLen s sLen hrc := by
    simp only [derToRs, decodeValues] at hrc ⊢
    cases hdecode : decodeNumbers (sig.take sigLen) with
    | none => simp [hdecode] at hrc
    | some rs =>
      obtain ⟨rBytes, sBytes⟩ := rs
      simp only [hdecode] at hrc ⊢
      by_cases hfits : (rBytes.dropWhile (· == 0)).length ≤ r.length ∧ (sBytes.dropWhile (· == 0)).length ≤ s.length
      · simp only [if_pos hfits] at hrc ⊢
        refine ⟨beNat rBytes, beNat sBytes, rfl, ?_⟩
        simp only [← Der.length_magnitude, Der.magnitude_beNat, take_splice_zero, implies_true, and_self]
      · simp [if_neg hfits] at hrc

/-- **The conversions between DER and the fixed form.**  Every pair of numbers of the curve's width comes back from DER
as it was, and the conversion of `wolfcrypt` never panics and refuses every number that does not fit.  The one of
`wolfcrypt-ring-compat` handles exactly the signatures whose numbers both fit: where one does not, it panics or answers
with bytes that are not the signature's. -/
theorem ecdsa_fixed_exact {Bn Sig : Type} (build : Build) (ssl : EcdsaSsl Bn Sig) (value : Bn → Nat)
    (hssl : ssl.Correct value) (sigToRs : EcdsaNative.SigToRs) (decode : Bytes → Option (Nat × Nat))
    (hrs : EcdsaNative.Correct sigToRs decode) (algId : EcdsaAlgorithmID) :
    (∀ r s, r < 2 ^ (8 * algId.privateKeySize) → s < 2 ^ (8 * algId.privateKeySize) →
      (do
        let der ← ssl.convertFixedSignature algId (fixedSignature algId r s)
        let signature ← ssl.ecdsaAsn1ToFixed build algId der
        signature.asRef) = .ok (fixedSignature algId r s)) ∧
    (∀ sig, ssl.Handles value build algId sig ↔ ∀ r s, ssl.numbers value sig = some (r, s) →
      Der.width r ≤ algId.privateKeySize ∧ Der.width s ≤ algId.privateKeySize) ∧
    (∀ curve der derLen,
      EcdsaNative.derToFixedRs sigToRs build curve der derLen ≠ .error .panicked ∧
      ∀ r s, decode (der.take derLen) = some (r, s) → curve.fieldSize < Der.width r ∨ curve.fieldSize < Der.width s →
        ∃ e, EcdsaNative.derToFixedRs sigToRs build curve der derLen = .error (.error e)) := by
  refine ⟨fun r s hr hs => ?_, fun sig => handles_iff hssl sig, fun curve der derLen => ?_⟩
  · rw [Nat.pow_mul] at hr hs
    exact fixed_roundtrip hssl hr hs
  · rcases EcdsaNative.derToFixedRs_cases hrs build curve der derLen with ⟨e, he⟩ | ⟨r, s, hdecode, hr, hs, hok⟩
    · exact ⟨by rw [he]; simp, fun _ _ _ _ => ⟨e, he⟩⟩
    · refine ⟨by rw [hok]; simp, fun r' s' hdecode' hwide => ?_⟩
      rw [hdecode, Option.some.injEq, Prod.mk.injEq] at hdecode'
      obtain ⟨rfl, rfl⟩ := hdecode'
      have := Der.width_le hr
      have := Der.width_le hs
      omega

/-- The hypotheses are those of `derSsl` and `derToRs`; a signature whose numbers fit is handled. -/
theorem ecdsa_fixed_exact_der : derSsl.Handles BigNum.value .release .p256 (derSignature 5 7) := by
  refine ((ecdsa_fixed_exact .release derSsl BigNum.value derSsl_correct derToRs decodeValues derToRs_correct
    .p256).2.1 _).2 fun r s h => ?_
  rw [derSsl_correct.d2i_eq 5 7 (by decide) (by decide)] at h
  cases h
  exact ⟨Der.width_le (by decide), Der.width_le (by decide)⟩

/-- **2²⁵⁶ in a P-256 signature is not refused**: as the first number it panics in debug and release builds, and as the
second it comes back as the fixed form of other numbers. -/
theorem wide_number_not_refused :
    derSsl.ecdsaAsn1ToFixed .debug .p256 (derSignature (2 ^ 256) 7) = .error .panicked ∧
    derSsl.ecdsaAsn1ToFixed .release .p256 (derSignature (2 ^ 256) 7) = .error .panicked ∧
    derSsl.ecdsaAsn1ToFixed .release .p256 (derSignature 5 (2 ^ 256)) >>= Signature.asRef =
      .ok (fixedSignature .p256 1 0) := by
  have hread {r s : Nat} (hr : r < 256 ^ 66) (hs : s < 256 ^ 66) := derSsl_correct.d2i_eq r s hr hs
  have hwidth : Der.width (2 ^ 256) = 33 := Der.width_eq (k := 32) (by decide) (by decide)
  refine ⟨?_, ?_, ?_⟩
  · rw [ecdsaAsn1ToFixed_panics_iff derSsl_correct (hread (by decide) (by decide)), hwidth]
    decide
  · rw [ecdsaAsn1ToFixed_panics_iff derSsl_correct (hread (by decide) (by decide)), hwidth]
    decide
  · rw [ecdsaAsn1ToFixed_eq derSsl_correct, hread (by decide) (by decide), orExit_some, ok_bind, Der.magnitude,
      Der.magnitude, hwidth, Der.width_eq (k := 0) (by decide) (by decide)]
    decide +kernel

end Ring
end Wolf
