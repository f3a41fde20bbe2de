import WolfsslRs.Program
import WolfsslRs.RingVerify
import WolfsslRs.Rust
/-!
# Hkdf — the HKDF of wolfcrypt-ring-compat

A `Prk` keeps what the derivation starts from, `expand` adds the info, `fill` hands everything to wolfCrypt.  The info is
a list of slices that `concatenate_info` joins in a buffer on the stack or, from 81 bytes on, on the heap.  The lengths
wolfCrypt is given are the low 32 bits of those of the slices.
-/
namespace Wolf
namespace Hkdf

open Wolf.Ring (Failure DigestAlgorithm)
open Program Rust

/-! ## The algorithms -/

/-- The algorithms there are constants for. -/
inductive Algorithm where
  | sha1ForLegacyUseOnly | sha256 | sha384 | sha512
  deriving DecidableEq, Repr

def Algorithm.digestAlgorithm : Algorithm → DigestAlgorithm
  | .sha1ForLegacyUseOnly => .sha1
  | .sha256 => .sha256
  | .sha384 => .sha384
  | .sha512 => .sha512

/-- `WC_HASH_TYPE_*`. -/
inductive HashType where
  | sha | sha256 | sha384 | sha512
  deriving DecidableEq, Repr

/-- `digest::match_wc_hash_type`, which panics on the others. -/
def matchWcHashType : DigestAlgorithm → Option HashType
  | .sha1 => some .sha
  | .sha256 => some .sha256
  | .sha384 => some .sha384
  | .sha512 => some .sha512
  | _ => none

def Algorithm.hashType : Algorithm → HashType
  | .sha1ForLegacyUseOnly => .sha
  | .sha256 => .sha256
  | .sha384 => .sha384
  | .sha512 => .sha512

theorem matchWcHashType_eq (algorithm : Algorithm) :
    matchWcHashType algorithm.digestAlgorithm = some algorithm.hashType := by
  cases algorithm <;> rfl

/-! ## Keys and output -/

def maxHkdfPrkLen : Nat := 64

def hkdfInfoDefaultCapacityLen : Nat := 80

inductive PrkMode where
  | expand (keyBytes : Bytes) (keyLen : Nat) (length_keyBytes : keyBytes.length = maxHkdfPrkLen)
      (keyLen_le : keyLen ≤ maxHkdfPrkLen)
  | extractExpand (secret salt : Bytes)

structure Prk where
  algorithm : Algorithm
  mode : PrkMode

structure Salt where
  algorithm : Algorithm
  bytes : Bytes

def Salt.extract (salt : Salt) (secret : Bytes) : Prk := ⟨salt.algorithm, .extractExpand secret salt.bytes⟩

def Prk.tryNewLessSafe (algorithm : Algorithm) (value : Bytes) : Except Failure Prk :=
  if h : value.length > maxHkdfPrkLen then .error .unspecified
  else
    have hle : 0 + value.length ≤ (List.replicate maxHkdfPrkLen (0 : UInt8)).length := by
      rw [List.length_replicate]; omega
    .ok ⟨algorithm, .expand (splice (List.replicate maxHkdfPrkLen 0) 0 value) value.length
      (by rw [length_splice hle, List.length_replicate]) (Nat.not_lt.1 h)⟩

/-- The lengths of keys and of output; `len` is what the `KeyType` answers. -/
structure Okm where
  prk : Prk
  info : List Bytes
  len : Nat

def Prk.expand (prk : Prk) (info : List Bytes) (len : Nat) : Except Failure Okm :=
  if len > 255 * prk.algorithm.digestAlgorithm.outputLen then .error .unspecified else .ok ⟨prk, info, len⟩

/-! ## Joining the info -/

section Concatenate

variable (build : Build)

/-- `info.iter().map(|s| s.len()).sum()`, from `acc` on. -/
def sumLen : List Bytes → (acc : Nat) → Option Nat
  | [], acc => some acc
  | slice :: info, acc => do sumLen info (← build.add acc slice.length)

/-- The loop over the buffer on the stack. -/
def copySlices : List Bytes → (stackBuf : Bytes) → (pos : Nat) → Option Bytes
  | [], stackBuf, _ => some stackBuf
  | slice :: info, stackBuf, pos => do
    let stop ← build.add pos slice.length
    let stackBuf ← copyFromSlice stackBuf pos stop slice
    copySlices info stackBuf (← build.add pos slice.length)

/-- The loop over the one on the heap: a vector has at most `isize::MAX` bytes. -/
def extendFromSlices : List Bytes → (heapBuf : Bytes) → Option Bytes
  | [], heapBuf => some heapBuf
  | slice :: info, heapBuf =>
    if heapBuf.length + slice.length ≤ build.isizeMax then extendFromSlices info (heapBuf ++ slice) else none

/-- `concatenate_info`: the bytes its closure is called with. -/
def concatenateInfo (info : List Bytes) : Option Bytes := do
  let infoLen ← sumLen build info 0
  if infoLen ≤ hkdfInfoDefaultCapacityLen then
    let stackBuf ← copySlices build info (List.replicate hkdfInfoDefaultCapacityLen 0) 0
    upTo stackBuf infoLen
  else
    build.withCapacity infoLen
    extendFromSlices build info []

end Concatenate

/-! ## Filling the output -/

/-- wolfCrypt's two functions, on the buffers and the lengths they are given; `none` is a code that is not zero, else
the bytes written to the output. -/
structure HkdfSsl where
  hkdfExpand : HashType → (key : Bytes) → (keyLen : Nat) → (info : Bytes) → (infoLen outLen : Nat) → Option Bytes
  hkdf : HashType → (secret : Bytes) → (secretLen : Nat) → (salt : Bytes) → (saltLen : Nat) → (info : Bytes) →
    (infoLen outLen : Nat) → Option Bytes

def PrkMode.fill (mode : PrkMode) (ssl : HkdfSsl) (algorithm : Algorithm) (out info : Bytes) : Except Failure Bytes := do
  let hashType ← orExit .panicked (matchWcHashType algorithm.digestAlgorithm)
  let written ← orExit .unspecified <|
    match mode with
    | .expand keyBytes keyLen _ _ =>
      ssl.hkdfExpand hashType keyBytes (asU32 keyLen) info (asU32 info.length) (asU32 out.length)
    | .extractExpand secret salt =>
      ssl.hkdf hashType secret (asU32 secret.length) salt (asU32 salt.length) info (asU32 info.length) (asU32 out.length)
  pure (splice out 0 written)

def Okm.fill (okm : Okm) (build : Build) (ssl : HkdfSsl) (out : Bytes) : Except Failure Bytes := do
  if out.length ≠ okm.len then throw .unspecified
  else
    let infoBytes ← orExit .panicked (concatenateInfo build okm.info)
    okm.prk.mode.fill ssl okm.prk.algorithm out infoBytes

/-! ## HKDF -/

/-- HKDF-Extract and HKDF-Expand. -/
structure Functions where
  extract : HashType → (salt secret : Bytes) → Bytes
  expand : HashType → (prk info : Bytes) → (len : Nat) → Bytes
  length_expand : ∀ hash prk info len, (expand hash prk info len).length = len

/-- **wolfCrypt is correct for the lengths it is given.** -/
structure HkdfSsl.Correct (ssl : HkdfSsl) (fns : Functions) : Prop where
  hkdfExpand_eq : ∀ hash key keyLen info infoLen outLen written,
    ssl.hkdfExpand hash key keyLen info infoLen outLen = some written →
      written = fns.expand hash (key.take keyLen) (info.take infoLen) outLen
  hkdf_eq : ∀ hash secret secretLen salt saltLen info infoLen outLen written,
    ssl.hkdf hash secret secretLen salt saltLen info infoLen outLen = some written →
      written = fns.expand hash (fns.extract hash (salt.take saltLen) (secret.take secretLen)) (info.take infoLen) outLen

/-- What a key derives. -/
def PrkMode.output (fns : Functions) (hash : HashType) (info : Bytes) (len : Nat) : PrkMode → Bytes
  | .expand keyBytes keyLen _ _ => fns.expand hash (keyBytes.take keyLen) info len
  | .extractExpand secret salt => fns.expand hash (fns.extract hash salt secret) info len

/-- The key as wolfCrypt sees it. -/
def PrkMode.seen : PrkMode → PrkMode
  | .expand keyBytes keyLen hlen hle => .expand keyBytes keyLen hlen hle
  | .extractExpand secret salt =>
    .extractExpand (secret.take (asU32 secret.length)) (salt.take (asU32 salt.length))

/-! ## Both buffers hold the slices in order -/

section Buffers

variable {build : Build}

theorem sumLen_eq : ∀ {info : List Bytes} {acc : Nat}, acc + info.flatten.length < build.usizeSize →
    sumLen build info acc = some (acc + info.flatten.length)
  | [], _, _ => rfl
  | slice :: info, acc, h => by
    rw [List.flatten_cons, List.length_append] at h ⊢
    rw [sumLen, add_of_lt (by omega)]
    show sumLen build info (acc + slice.length) = _
    rw [sumLen_eq (by omega), Nat.add_assoc]

theorem copySlices_eq : ∀ {info : List Bytes} {stackBuf : Bytes} {pos : Nat},
    pos + info.flatten.length ≤ stackBuf.length → stackBuf.length < build.usizeSize →
    copySlices build info stackBuf pos = some (splice stackBuf pos info.flatten)
  | [], stackBuf, pos, _, _ => by simp [copySlices, splice]
  | slice :: info, stackBuf, pos, hle, hlt => by
    rw [List.flatten_cons, List.length_append] at hle
    have hlen : (splice stackBuf pos slice).length = stackBuf.length := length_splice (by omega)
    rw [copySlices, add_of_lt (by omega)]
    show (copyFromSlice stackBuf pos (pos + slice.length) slice).bind _ = _
    rw [copyFromSlice_of rfl (by omega)]
    show copySlices build info (splice stackBuf pos slice) (pos + slice.length) = _
    rw [copySlices_eq (by omega) (by omega), splice_beside (by omega), List.flatten_cons]

/-- The loop over the stack cannot leave the buffer. -/
theorem copySlices_some : ∀ {info : List Bytes} {stackBuf out : Bytes} {pos : Nat}, pos ≤ stackBuf.length →
    copySlices build info stackBuf pos = some out → pos + info.flatten.length ≤ stackBuf.length
  | [], _, _, _, hpos, _ => by simpa using hpos
  | slice :: info, stackBuf, out, pos, hpos, h => by
    rw [copySlices] at h
    obtain ⟨stop, hstop, h⟩ := Option.bind_eq_some_iff.1 h
    obtain ⟨stackBuf', hcopy, h⟩ := Option.bind_eq_some_iff.1 h
    rw [hstop] at h
    unfold copyFromSlice at hcopy
    by_cases hin : pos ≤ stop ∧ stop ≤ stackBuf.length ∧ slice.length = stop - pos
    · rw [if_pos hin, Option.some.injEq] at hcopy
      have hlen : stackBuf'.length = stackBuf.length := by rw [← hcopy, length_splice (by omega)]
      have := copySlices_some (by omega) h
      rw [List.flatten_cons, List.length_append]
      omega
    · rw [if_neg hin] at hcopy
      cases hcopy

theorem extendFromSlices_eq : ∀ {info : List Bytes} {heapBuf : Bytes},
    heapBuf.length + info.flatten.length ≤ build.isizeMax →
    extendFromSlices build info heapBuf = some (heapBuf ++ info.flatten)
  | [], heapBuf, _ => by simp [extendFromSlices]
  | slice :: info, heapBuf, h => by
    rw [List.flatten_cons, List.length_append] at h
    rw [extendFromSlices, if_pos (by omega), extendFromSlices_eq (by rw [List.length_append]; omega),
      List.flatten_cons, List.append_assoc]

theorem extendFromSlices_some : ∀ {info : List Bytes} {heapBuf out : Bytes}, heapBuf.length ≤ build.isizeMax →
    extendFromSlices build info heapBuf = some out → heapBuf.length + info.flatten.length ≤ build.isizeMax
  | [], _, _, hle, _ => by simpa using hle
  | slice :: info, heapBuf, out, _, h => by
    rw [extendFromSlices] at h
    by_cases hin : heapBuf.length + slice.length ≤ build.isizeMax
    · rw [if_pos hin] at h
      have := extendFromSlices_some (by rw [List.length_append]; omega) h
      rw [List.length_append] at this
      rw [List.flatten_cons, List.length_append]
      omega
    · rw [if_neg hin] at h
      cases h

/-- **Stack or heap, the closure is called with the slices in order.** -/
theorem concatenateInfo_eq {info : List Bytes} (h : info.flatten.length ≤ build.isizeMax) :
    concatenateInfo build info = some info.flatten := by
  have hsize := isizeMax_lt build
  have hmin := two_pow_31_le build
  have hsum : sumLen build info 0 = some info.flatten.length := by
    rw [sumLen_eq (by omega), Nat.zero_add]
  unfold concatenateInfo
  rw [hsum]
  show (if _ then _ else _) = _
  by_cases hstack : info.flatten.length ≤ hkdfInfoDefaultCapacityLen
  · have hbuf : (List.replicate hkdfInfoDefaultCapacityLen (0 : UInt8)).length = 80 := List.length_replicate
    have hcap : hkdfInfoDefaultCapacityLen = 80 := rfl
    rw [if_pos hstack, copySlices_eq (by omega) (by omega)]
    show upTo _ _ = _
    rw [upTo_of_le (by rw [length_splice (by omega)]; omega), take_splice_zero]
  · rw [if_neg hstack, withCapacity_of_le h]
    exact extendFromSlices_eq (by simpa using h)

/-- **More than `isize::MAX` bytes of info panic**, with and without overflow checks. -/
theorem concatenateInfo_eq_none {info : List Bytes} (h : build.isizeMax < info.flatten.length) :
    concatenateInfo build info = none := by
  have hmin := two_pow_31_le build
  rw [Option.eq_none_iff_forall_ne_some]
  intro out hout
  obtain ⟨infoLen, -, hout⟩ := Option.bind_eq_some_iff.1 hout
  by_cases hstack : infoLen ≤ hkdfInfoDefaultCapacityLen
  · rw [if_pos hstack] at hout
    obtain ⟨stackBuf, hcopy, -⟩ := Option.bind_eq_some_iff.1 hout
    have hle := copySlices_some (Nat.zero_le _) hcopy
    have hcap : hkdfInfoDefaultCapacityLen = 80 := rfl
    rw [List.length_replicate] at hle
    omega
  · rw [if_neg hstack] at hout
    obtain ⟨⟨⟩, -, hextend⟩ := Option.bind_eq_some_iff.1 hout
    have := extendFromSlices_some (Nat.zero_le _) hextend
    rw [List.length_nil] at this
    omega

end Buffers

/-! ## What `fill` answers -/

/-- The secret and the salt have lengths of 32 bits. -/
def PrkMode.Short : PrkMode → Prop
  | .expand .. => True
  | .extractExpand secret salt => secret.length < 2 ^ 32 ∧ salt.length < 2 ^ 32

theorem seen_of_short : ∀ {mode : PrkMode}, mode.Short → mode.seen = mode
  | .expand .., _ => rfl
  | .extractExpand secret salt, h => by
    rw [PrkMode.seen, take_asU32_eq_iff.2 h.1, take_asU32_eq_iff.2 h.2]

theorem length_output (fns : Functions) (hash : HashType) (info : Bytes) (len : Nat) :
    ∀ mode : PrkMode, (mode.output fns hash info len).length = len
  | .expand .. => fns.length_expand ..
  | .extractExpand .. => fns.length_expand ..

/-- The wolfCrypt that always succeeds. -/
def Functions.ssl (fns : Functions) : HkdfSsl where
  hkdfExpand hash key keyLen info infoLen outLen :=
    some (fns.expand hash (key.take keyLen) (info.take infoLen) outLen)
  hkdf hash secret secretLen salt saltLen info infoLen outLen :=
    some (fns.expand hash (fns.extract hash (salt.take saltLen) (secret.take secretLen)) (info.take infoLen) outLen)

theorem Functions.ssl_correct (fns : Functions) : fns.ssl.Correct fns where
  hkdfExpand_eq _ _ _ _ _ _ _ h := (Option.some.inj h).symm
  hkdf_eq _ _ _ _ _ _ _ _ _ h := (Option.some.inj h).symm

section Fill

variable {ssl : HkdfSsl} {fns : Functions} {algorithm : Algorithm} {mode : PrkMode} {out info : Bytes}

theorem asU32_keyLen {n : Nat} (h : n ≤ maxHkdfPrkLen) : asU32 n = n :=
  asU32_eq_iff.2 (Nat.lt_of_le_of_lt h (by decide))

/-- **The output is that of what wolfCrypt saw.** -/
theorem fill_ok (hssl : ssl.Correct fns) (hout : out.length < 2 ^ 32) {filled : Bytes}
    (h : mode.fill ssl algorithm out info = .ok filled) :
    filled = mode.seen.output fns algorithm.hashType (info.take (asU32 info.length)) out.length := by
  unfold PrkMode.fill at h
  rw [matchWcHashType_eq, asU32_eq_iff.2 hout] at h
  simp only [orExit_some, ok_bind, bind_ok, orExit_eq_ok] at h
  obtain ⟨written, hwritten, h⟩ := h
  cases h
  have heq : written = mode.seen.output fns algorithm.hashType (info.take (asU32 info.length)) out.length := by
    cases mode with
    | expand keyBytes keyLen hlen hle =>
      simp only [asU32_keyLen hle] at hwritten
      exact hssl.hkdfExpand_eq _ _ _ _ _ _ _ hwritten
    | extractExpand secret salt => exact hssl.hkdf_eq _ _ _ _ _ _ _ _ _ hwritten
  rw [splice_whole (by rw [heq, length_output]), heq]

theorem fill_ssl (fns : Functions) (hout : out.length < 2 ^ 32) : mode.fill fns.ssl algorithm out info =
    .ok (mode.seen.output fns algorithm.hashType (info.take (asU32 info.length)) out.length) := by
  have hok : ∃ filled, mode.fill fns.ssl algorithm out info = .ok filled := by
    unfold PrkMode.fill
    rw [matchWcHashType_eq]
    cases mode <;> exact ⟨_, rfl⟩
  obtain ⟨filled, hfilled⟩ := hok
  rw [hfilled, fill_ok fns.ssl_correct hout hfilled]

theorem fill_ne_panicked : mode.fill ssl algorithm out info ≠ .error .panicked := by
  unfold PrkMode.fill
  rw [matchWcHashType_eq]
  simp only [orExit_some, ok_bind]
  generalize (match mode with
    | .expand keyBytes keyLen _ _ =>
      ssl.hkdfExpand algorithm.hashType keyBytes (asU32 keyLen) info (asU32 info.length) (asU32 out.length)
    | .extractExpand secret salt => ssl.hkdf algorithm.hashType secret (asU32 secret.length) salt
        (asU32 salt.length) info (asU32 info.length) (asU32 out.length)) = answer
  cases answer <;> simp [pure, Except.pure]

end Fill

/-! ## Exactness -/

/-- HKDF with one bit of output: whether the input is the one that is marked. -/
def marking (salt secret prk info : Bytes) : Functions where
  extract _ salt' secret' := if salt' = salt ∧ secret' = secret then prk else 0 :: prk
  expand _ prk' info' len := List.replicate len (if prk' = prk ∧ info' = info then 1 else 0)
  length_expand _ _ _ _ := List.length_replicate

theorem replicate_mark_inj {len : Nat} (hlen : len ≠ 0) {p q : Prop} [Decidable p] [Decidable q]
    (h : List.replicate len (if p then (1 : UInt8) else 0) = List.replicate len (if q then 1 else 0)) : p ↔ q := by
  rw [List.replicate_right_inj hlen] at h
  by_cases hp : p <;> by_cases hq : q <;> simp_all

/-- **Only the whole input is derived from**: where a length is cut, some HKDF tells. -/
theorem short_of_output {mode : PrkMode} (hash : HashType) {info : Bytes} {len : Nat} (hlen : len ≠ 0)
    (h : ∀ fns : Functions, mode.seen.output fns hash (info.take (asU32 info.length)) len =
      mode.output fns hash info len) : info.length < 2 ^ 32 ∧ mode.Short := by
  cases mode with
  | expand keyBytes keyLen hkey hle =>
    have hmark := h (marking [] [] (keyBytes.take keyLen) info)
    have hiff := replicate_mark_inj hlen hmark
    exact ⟨take_asU32_eq_iff.1 (hiff.2 ⟨rfl, rfl⟩).2, trivial⟩
  | extractExpand secret salt =>
    have hmark := h (marking salt secret [] info)
    have hiff := replicate_mark_inj hlen hmark
    obtain ⟨hextract, hinfo⟩ := hiff.2 ⟨if_pos ⟨rfl, rfl⟩, rfl⟩
    refine ⟨take_asU32_eq_iff.1 hinfo, ?_⟩
    by_cases hsame : salt.take (asU32 salt.length) = salt ∧ secret.take (asU32 secret.length) = secret
    · exact ⟨take_asU32_eq_iff.1 hsame.2, take_asU32_eq_iff.1 hsame.1⟩
    · simp only [marking, if_neg hsame] at hextract
      cases hextract

/-- **`fill` is sound**: with every correct wolfCrypt it returns, and an answer is the output for the slices in order and
for all of the key. -/
def Okm.Sound (okm : Okm) (build : Build) (out : Bytes) : Prop :=
  ∀ (ssl : HkdfSsl) (fns : Functions), ssl.Correct fns → okm.fill build ssl out ≠ .error .panicked ∧
    ∀ filled, okm.fill build ssl out = .ok filled →
      filled = okm.prk.mode.output fns okm.prk.algorithm.hashType okm.info.flatten okm.len

theorem outputLen_le (algorithm : Algorithm) : algorithm.digestAlgorithm.outputLen ≤ 64 := by
  cases algorithm <;> decide

theorem len_lt {prk : Prk} {info : List Bytes} {len : Nat} {okm : Okm} (h : prk.expand info len = .ok okm) :
    okm = ⟨prk, info, len⟩ ∧ len < 2 ^ 32 := by
  have hle := outputLen_le prk.algorithm
  unfold Prk.expand at h
  split at h
  · cases h
  · cases h
    exact ⟨rfl, by omega⟩

/-- **When `fill` is sound.**  A buffer of another length is refused; for one of the length given to `expand`, the info
must fit an allocation, and the info, the secret and the salt must each have a length of 32 bits unless no output is
asked for. -/
theorem okm_fill_sound_iff (build : Build) (prk : Prk) (info : List Bytes) (len : Nat) (okm : Okm)
    (hokm : prk.expand info len = .ok okm) (out : Bytes) :
    (out.length ≠ len → ∀ ssl, okm.fill build ssl out = .error .unspecified) ∧
    (out.length = len → (okm.Sound build out ↔
      info.flatten.length ≤ build.isizeMax ∧ (len = 0 ∨ info.flatten.length < 2 ^ 32 ∧ prk.mode.Short))) := by
  obtain ⟨rfl, hlen⟩ := len_lt hokm
  refine ⟨fun hne ssl => if_pos hne, fun hout => ?_⟩
  have hfill (ssl : HkdfSsl) : Okm.fill ⟨prk, info, len⟩ build ssl out =
      orExit .panicked (concatenateInfo build info) >>= prk.mode.fill ssl prk.algorithm out := if_neg (not_not.2 hout)
  constructor
  · intro hsound
    have hfits : info.flatten.length ≤ build.isizeMax := by
      by_contra hlong
      have hpanic := (hsound _ _ (marking [] [] [] []).ssl_correct).1
      rw [hfill, concatenateInfo_eq_none (by omega)] at hpanic
      exact hpanic rfl
    refine ⟨hfits, ?_⟩
    by_cases hzero : len = 0
    · exact .inl hzero
    · refine .inr (short_of_output prk.algorithm.hashType hzero fun fns => ?_)
      have hanswer := (hsound _ _ fns.ssl_correct).2
      rw [hfill, concatenateInfo_eq hfits, orExit_some, ok_bind, fill_ssl fns (by omega), hout] at hanswer
      exact hanswer _ rfl
  · rintro ⟨hfits, hshort⟩ ssl fns hssl
    rw [hfill, concatenateInfo_eq hfits, orExit_some, ok_bind]
    refine ⟨fill_ne_panicked, fun filled hfilled => ?_⟩
    rw [fill_ok hssl (by omega) hfilled, hout]
    rcases hshort with rfl | ⟨hinfo, hmode⟩
    · have hnil {bs : Bytes} (hbs : bs.length = 0) : bs = [] := List.eq_nil_of_length_eq_zero hbs
      rw [hnil (length_output ..), hnil (length_output ..)]
    · rw [seen_of_short hmode, take_asU32_eq_iff.2 hinfo]

/-- A salt, a secret and an info of a few bytes. -/
theorem okm_fill_sound_short :
    (⟨Salt.extract ⟨.sha256, [1]⟩ [2], [[3], [4]], 2⟩ : Okm).Sound .release [0, 0] :=
  ((okm_fill_sound_iff .release (Salt.extract ⟨.sha256, [1]⟩ [2]) [[3], [4]] 2 _ rfl [0, 0]).2 rfl).2
    ⟨by decide, .inr ⟨by decide, by decide, by decide⟩⟩

theorem fill_marking_of_length (slice : Bytes) (h : slice.length = 2 ^ 32) :
    Okm.fill ⟨Salt.extract ⟨.sha256, [1]⟩ [2], [slice], 1⟩ .release (marking [1] [2] [] []).ssl [0] = .ok [1] ∧
    (Salt.extract ⟨.sha256, [1]⟩ [2]).mode.output (marking [1] [2] [] []) .sha256 [slice].flatten 1 = [0] := by
  have hone : [slice].flatten = slice := by simp
  have hcut : slice.take (asU32 slice.length) = [] := by
    rw [h]
    exact List.take_zero
  have hne : slice ≠ [] := by
    rintro rfl
    exact absurd h (by decide)
  constructor
  · have hfits : [slice].flatten.length ≤ Build.release.isizeMax := by
      rw [hone, h]
      decide
    show orExit Failure.panicked (concatenateInfo .release [slice]) >>= _ = _
    rw [concatenateInfo_eq hfits, orExit_some, ok_bind, fill_ssl _ (by decide), hone, hcut]
    rfl
  · rw [hone]
    show List.replicate 1 (if _ ∧ slice = [] then (1 : UInt8) else 0) = [0]
    rw [if_neg fun h => hne h.2]
    rfl

theorem fill_of_length {slice : Bytes} (h : slice.length = 2 ^ 62) (ssl : HkdfSsl) (prk : Prk) :
    Okm.fill ⟨prk, [slice, slice], 1⟩ .release ssl [0] = .error .panicked := by
  have hlong : Build.release.isizeMax < [slice, slice].flatten.length := by
    rw [List.flatten_cons, List.flatten_cons, List.flatten_nil, List.append_nil, List.length_append, h]
    decide
  show orExit Failure.panicked (concatenateInfo .release [slice, slice]) >>= _ = _
  rw [concatenateInfo_eq_none hlong]
  rfl

/-- **4 GiB of info derive the key of no info at all, and `isize::MAX + 1` bytes panic.** -/
theorem long_info_not_derived_from :
    Okm.fill ⟨Salt.extract ⟨.sha256, [1]⟩ [2], [List.replicate (2 ^ 32) 0], 1⟩ .release
      (marking [1] [2] [] []).ssl [0] = .ok [1] ∧
    (Salt.extract ⟨.sha256, [1]⟩ [2]).mode.output (marking [1] [2] [] []) .sha256
      [List.replicate (2 ^ 32) 0].flatten 1 = [0] ∧
    Okm.fill ⟨Salt.extract ⟨.sha256, [1]⟩ [2], [List.replicate (2 ^ 62) 0, List.replicate (2 ^ 62) 0], 1⟩ .release
      (marking [1] [2] [] []).ssl [0] = .error .panicked :=
  have hderived := fill_marking_of_length (List.replicate (2 ^ 32) 0) List.length_replicate
  ⟨hderived.1, hderived.2, fill_of_length List.length_replicate _ _⟩

end Hkdf
end Wolf
