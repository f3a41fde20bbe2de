import WolfsslRs.Bytes
import WolfsslRs.Program
/-!
# Dpe — the crypto of a DPE instance (`wolfcrypt-dpe`)

An instance derives CDIs and keys with HKDF and ECDSA, keeps exported CDIs under random handles, and signs with an alias
key.  What wolfCrypt computes is a parameter, and which of its calls fail is given with every call of the instance, so that
an instance is followed through any failures.  A failing random number generator is an error only where it is initialised;
a failing block panics (`rng_failure_reported_iff`).
-/
namespace Wolf
namespace Dpe

open Program

/-! ## Errors -/

/-- `CryptoError`, the variants this crate raises. -/
inductive CryptoError where
  | cryptoLibError (code : Nat)
  | exportedCdiHandleDuplicateCdi
  | exportedCdiHandleLimitExceeded
  | invalidExportedCdiHandle
  | mismatchedAlgorithm
  deriving DecidableEq, Repr

inductive Exit where
  | error (e : CryptoError)
  | panic (message : String)
  deriving DecidableEq, Repr

def errGeneral : Nat := 0x010000
def errRngFailure : Nat := 0x030000
def errAliasNotSet : Nat := 0x040000
def errInvalidPubkey : Nat := 0x050000
def errInvalidSignature : Nat := 0x070000

/-- `WolfCryptError`: with the code of a C function, or without. -/
inductive WolfCryptError where
  | ffi (code : Int)
  | other
  deriving DecidableEq, Repr

def fromWolfcrypt : WolfCryptError → Exit
  | .ffi code => .error (.cryptoLibError (errGeneral ||| ((-code) % 0x10000).toNat))
  | .other => .error (.cryptoLibError errGeneral)

/-- `check`, with the conversion of its error. -/
def check (rc : Int) : Except Exit Unit := if rc = 0 then .ok () else .error (fromWolfcrypt (.ffi rc))

/-! ## Algorithms, keys and signatures -/

/-- `SignatureAlgorithm`: ECDSA with P-256 or P-384. -/
inductive SignatureAlgorithm where
  | bit256
  | bit384
  deriving DecidableEq, Repr

def hkdfOutputSize : SignatureAlgorithm → Nat
  | .bit256 => 32
  | .bit384 => 48

def curveSize : SignatureAlgorithm → Nat
  | .bit256 => 32
  | .bit384 => 48

structure PubKey where
  alg : SignatureAlgorithm
  x : Bytes
  y : Bytes
  deriving DecidableEq, Repr

structure Signature where
  alg : SignatureAlgorithm
  r : Bytes
  s : Bytes
  deriving DecidableEq, Repr

inductive SignData where
  | digest (digest : Bytes)
  | raw (data : Bytes)
  | mu
  deriving DecidableEq, Repr

/-- What wolfCrypt computes: HKDF with the hash of the algorithm (salt, key material, info, length), the public point of
a key, and signatures. -/
structure WolfCrypt where
  hkdf : SignatureAlgorithm → Bytes → Bytes → Bytes → Nat → Bytes
  publicPoint : SignatureAlgorithm → Bytes → Bytes
  sign : SignatureAlgorithm → Bytes → SignData → Bytes

/-- What wolfCrypt answers in the course of one call: its return codes, and the blocks of random bytes, by the number of
the block. -/
structure Env where
  extractRc : Int
  expandRc : Int
  importKey : Option WolfCryptError
  verifyingKey : Option WolfCryptError
  sign : Option WolfCryptError
  initRng : Int
  generate : Nat → Int × (Nat → UInt8)

def orError (e : Option WolfCryptError) : Except Exit Unit :=
  match e with
  | none => .ok ()
  | some e => .error (fromWolfcrypt e)

section
variable (alg : SignatureAlgorithm) (W : WolfCrypt) (env : Env)

/-- `hkdf_extract_expand`; a failing extraction panics. -/
def hkdfExtractExpand (salt ikm info : Bytes) (outputLen : Nat) : Except Exit Bytes :=
  if env.extractRc ≠ 0 then .error (.panic "wc_HKDF_Extract failed (invalid hash type)") else do
    check env.expandRc
    .ok (W.hkdf alg salt ikm info outputLen)

def hkdfDeriveCdi (measurement info : Bytes) : Except Exit Bytes :=
  hkdfExtractExpand alg W env info measurement measurement (hkdfOutputSize alg)

def hkdfGetPrivKey (cdi label info : Bytes) : Except Exit Bytes :=
  hkdfExtractExpand alg W env info cdi label (hkdfOutputSize alg)

def parseUncompressedPubkey (pubBytes : Bytes) : Except Exit PubKey :=
  let size := curveSize alg
  if pubBytes.length ≠ 1 + 2 * size ∨ pubBytes.head? ≠ some 0x04 then .error (.error (.cryptoLibError errInvalidPubkey))
  else .ok ⟨alg, (pubBytes.drop 1).take size, (pubBytes.drop (1 + size)).take size⟩

def pubkeyToUncompressed (pubKey : PubKey) : Bytes := 0x04 :: (pubKey.x ++ pubKey.y)

def parseFixedSignature (sigBytes : Bytes) : Except Exit Signature :=
  let size := curveSize alg
  if sigBytes.length ≠ 2 * size then .error (.error (.cryptoLibError errInvalidSignature))
  else .ok ⟨alg, sigBytes.take size, sigBytes.drop size⟩

def ecdsaDeriveKeyPair (cdi label info : Bytes) : Except Exit (Bytes × PubKey) := do
  let privBytes ← hkdfGetPrivKey alg W env cdi label info
  orError env.importKey
  orError env.verifyingKey
  let pubKey ← parseUncompressedPubkey alg (W.publicPoint alg privBytes)
  .ok (privBytes, pubKey)

/-- An imported key, as `CachedSigningKey` keeps it. -/
structure CachedSigningKey where
  alg : SignatureAlgorithm
  privKey : Bytes
  pubBytes : Bytes
  deriving DecidableEq, Repr

def CachedSigningKey.new (privKey : Bytes) (pubKey : PubKey) : Except Exit CachedSigningKey := do
  orError env.importKey
  .ok ⟨alg, privKey, pubkeyToUncompressed pubKey⟩

/-- `sign_p256` and `sign_p384`: a failure is an error for a digest, and a panic of `Signer::sign` for a message. -/
def CachedSigningKey.sign (key : CachedSigningKey) (data : SignData) : Except Exit Signature :=
  match data with
  | .digest _ => do
    orError env.sign
    parseFixedSignature key.alg (W.sign key.alg key.privKey data)
  | .raw _ =>
    if env.sign ≠ none then .error (.panic "signature operation failed")
    else parseFixedSignature key.alg (W.sign key.alg key.privKey data)
  | .mu => .error (.error .mismatchedAlgorithm)

def signWithKey (data : SignData) (privKey : Bytes) (pubKey : PubKey) : Except Exit Signature := do
  let key ← CachedSigningKey.new alg env privKey pubKey
  key.sign W env data

end

/-! ## Random bytes -/

def chunkSize : Nat := 65536

/-- The lengths of the pieces of `chunks_mut`. -/
def chunkLens (len : Nat) : List Nat :=
  List.replicate (len / chunkSize) chunkSize ++ if len % chunkSize = 0 then [] else [len % chunkSize]

/-- The loop of `try_fill_bytes`, from the block `i` on: a failing block panics. -/
def fillChunks (generate : Nat → Int × (Nat → UInt8)) : Nat → List Nat → Except Exit Bytes
  | _, [] => .ok []
  | i, len :: lens =>
    if (generate i).1 ≠ 0 then
      .error (.panic ("wolfCrypt wc_RNG_GenerateBlock failed: " ++ toString (generate i).1))
    else do
      let rest ← fillChunks generate (i + 1) lens
      .ok ((List.range len).map (generate i).2 ++ rest)

/-- Every block of the given lengths, from the block `i` on, is generated. -/
def Generated (generate : Nat → Int × (Nat → UInt8)) (i : Nat) (lens : List Nat) : Prop :=
  ∀ j < lens.length, (generate (i + j)).1 = 0

theorem generated_cons {generate : Nat → Int × (Nat → UInt8)} {i len : Nat} {lens : List Nat} :
    Generated generate i (len :: lens) ↔ (generate i).1 = 0 ∧ Generated generate (i + 1) lens := by
  unfold Generated
  constructor
  · intro h
    refine ⟨h 0 (Nat.zero_lt_succ _), fun j hj => ?_⟩
    have hnext := h (j + 1) (Nat.succ_lt_succ hj)
    rw [← hnext, Nat.add_assoc, Nat.add_comm 1 j]
  · rintro ⟨hfirst, hrest⟩ j hj
    cases j with
    | zero => exact hfirst
    | succ j =>
      have hnext := hrest j (Nat.lt_of_succ_lt_succ hj)
      rw [← hnext, Nat.add_assoc, Nat.add_comm 1 j]

/-- **The loop ends with as many bytes as were asked for if every block is generated**, and else it panics. -/
theorem fillChunks_spec (generate : Nat → Int × (Nat → UInt8)) : ∀ (lens : List Nat) (i : Nat),
    (Generated generate i lens → ∃ bytes, fillChunks generate i lens = .ok bytes ∧ bytes.length = lens.sum) ∧
    (¬ Generated generate i lens → ∃ message, fillChunks generate i lens = .error (.panic message))
  | [], i => ⟨fun _ => ⟨[], rfl, rfl⟩, fun h => absurd (fun j hj => absurd hj (Nat.not_lt_zero j)) h⟩
  | len :: lens, i => by
    obtain ⟨hok, hpanic⟩ := fillChunks_spec generate lens (i + 1)
    rw [generated_cons]
    unfold fillChunks
    constructor
    · rintro ⟨hfirst, hrest⟩
      obtain ⟨bytes, hbytes, hlen⟩ := hok hrest
      rw [if_neg (not_not.2 hfirst), hbytes]
      refine ⟨_, rfl, ?_⟩
      rw [List.length_append, List.length_map, List.length_range, hlen, List.sum_cons]
    · intro hnot
      by_cases hfirst : (generate i).1 = 0
      · obtain ⟨message, hmessage⟩ := hpanic fun hrest => hnot ⟨hfirst, hrest⟩
        rw [if_neg (not_not.2 hfirst), hmessage]
        exact ⟨message, rfl⟩
      · rw [if_pos hfirst]
        exact ⟨_, rfl⟩

theorem chunkLens_sum (len : Nat) : (chunkLens len).sum = len := by
  have hdiv := Nat.div_add_mod len chunkSize
  unfold chunkLens
  rw [List.sum_append, List.sum_replicate_nat, Nat.mul_comm]
  split
  · rename_i hmod
    rw [List.sum_nil]
    omega
  · rw [List.sum_singleton]
    omega

theorem length_of_fillChunks {generate : Nat → Int × (Nat → UInt8)} {i : Nat} {lens : List Nat} {bytes : Bytes}
    (h : fillChunks generate i lens = .ok bytes) : bytes.length = lens.sum := by
  obtain ⟨hok, hpanic⟩ := fillChunks_spec generate lens i
  by_cases hgen : Generated generate i lens
  · obtain ⟨bytes', hbytes', hlen⟩ := hok hgen
    rw [h] at hbytes'
    rw [Except.ok.inj hbytes']
    exact hlen
  · obtain ⟨message, hmessage⟩ := hpanic hgen
    rw [h] at hmessage
    cases hmessage

def fillBytes (env : Env) (len : Nat) : Except Exit { x : Bytes // x.length = len } :=
  match h : fillChunks env.generate 0 (chunkLens len) with
  | .ok bytes => .ok ⟨bytes, (length_of_fillChunks h).trans (chunkLens_sum len)⟩
  | .error e => .error e

/-! ## Instances -/

def maxCdiHandles : Nat := 1

def maxExportedCdiSize : Nat := 32

abbrev Handle := { x : Bytes // x.length = maxExportedCdiSize }

structure WolfRng where
  devId : Int
  deriving DecidableEq, Repr

/-- `WolfCryptDpeImpl`, for one curve. -/
structure WolfCryptDpe where
  exportCdiSlots : List (Bytes × Handle)
  aliasSigningKey : Option CachedSigningKey
  aliasPubKey : Option PubKey
  rng : Option WolfRng
  rngDevId : Int
  deriving DecidableEq

def softwareDrbgDevId : Int := -2

/-- `new_with_rng_dev_id`, and `new` with the software generator. -/
def WolfCryptDpe.new (rngDevId : Int) : WolfCryptDpe := ⟨[], none, none, none, rngDevId⟩

def lift {α : Type} (r : Except Exit α) : EStateM Exit WolfCryptDpe α :=
  match r with
  | .ok a => pure a
  | .error e => throw e

section
variable (alg : SignatureAlgorithm) (W : WolfCrypt) (env : Env)

def randBytes (len : Nat) : EStateM Exit WolfCryptDpe { x : Bytes // x.length = len } := do
  let s ← get
  match s.rng with
  | some _ => lift (fillBytes env len)
  | none =>
    if env.initRng ≠ 0 then throw (.error (.cryptoLibError errRngFailure)) else do
      modify fun s => { s with rng := some ⟨s.rngDevId⟩ }
      lift (fillBytes env len)

def deriveCdi (measurement info : Bytes) : EStateM Exit WolfCryptDpe Bytes :=
  lift (hkdfDeriveCdi alg W env measurement info)

def deriveExportedCdi (measurement info : Bytes) : EStateM Exit WolfCryptDpe Handle := do
  let cdi ← lift (hkdfDeriveCdi alg W env measurement info)
  let s ← get
  if cdi ∈ s.exportCdiSlots.map Prod.fst then throw (.error .exportedCdiHandleDuplicateCdi)
  else if maxCdiHandles ≤ s.exportCdiSlots.length then throw (.error .exportedCdiHandleLimitExceeded)
  else do
    let handle ← randBytes env maxExportedCdiSize
    modify fun s => { s with exportCdiSlots := s.exportCdiSlots ++ [(cdi, handle)] }
    pure handle

def deriveKeyPair (cdi label info : Bytes) : EStateM Exit WolfCryptDpe (Bytes × PubKey) :=
  lift (ecdsaDeriveKeyPair alg W env cdi label info)

/-- The loop over all slots, which goes on when it has found one. -/
def findSlot (exportedHandle : Handle) (slots : List (Bytes × Handle)) : Option Bytes :=
  slots.foldl (fun found slot => if slot.2 = exportedHandle then some slot.1 else found) none

def deriveKeyPairExported (exportedHandle : Handle) (label info : Bytes) :
    EStateM Exit WolfCryptDpe (Bytes × PubKey) := do
  let s ← get
  match findSlot exportedHandle s.exportCdiSlots with
  | none => throw (.error .invalidExportedCdiHandle)
  | some cdi => lift (ecdsaDeriveKeyPair alg W env cdi label info)

def setAliasKey (privKey : Bytes) (pubKey : PubKey) : EStateM Exit WolfCryptDpe Unit := do
  let cached ← lift (CachedSigningKey.new alg env privKey pubKey)
  modify fun s => { s with aliasSigningKey := some cached, aliasPubKey := some pubKey }

def signWithAlias (data : SignData) : EStateM Exit WolfCryptDpe Signature := do
  let s ← get
  match s.aliasSigningKey with
  | none => throw (.error (.cryptoLibError errAliasNotSet))
  | some cached => lift (cached.sign W env data)

def signWithDerived (data : SignData) (privKey : Bytes) (pubKey : PubKey) : EStateM Exit WolfCryptDpe Signature :=
  lift (signWithKey alg W env data privKey pubKey)

end

/-! ## What a failing generator does -/

section
variable {alg : SignatureAlgorithm} {W : WolfCrypt} {env : Env} {s : WolfCryptDpe}

theorem fillBytes_spec (env : Env) (len : Nat) :
    (Generated env.generate 0 (chunkLens len) → ∃ x, fillBytes env len = .ok x) ∧
    (¬ Generated env.generate 0 (chunkLens len) → ∃ message, fillBytes env len = .error (.panic message)) := by
  obtain ⟨hok, hpanic⟩ := fillChunks_spec env.generate (chunkLens len) 0
  unfold fillBytes
  constructor
  · intro hgen
    obtain ⟨bytes, hbytes, -⟩ := hok hgen
    split
    · exact ⟨_, rfl⟩
    · rename_i e he
      rw [hbytes] at he
      cases he
  · intro hgen
    obtain ⟨message, hmessage⟩ := hpanic hgen
    split
    · rename_i bytes hbytes
      rw [hmessage] at hbytes
      cases hbytes
    · rename_i e he
      rw [hmessage] at he
      exact ⟨message, by rw [← Except.error.inj he]⟩

/-- The generator is yet to be initialised, and that fails. -/
def InitFails (env : Env) (s : WolfCryptDpe) : Prop := s.rng = none ∧ env.initRng ≠ 0

/-- The instance with its generator. -/
def WolfCryptDpe.seeded (s : WolfCryptDpe) : WolfCryptDpe := { s with rng := some (s.rng.getD ⟨s.rngDevId⟩) }

theorem lift_run {α : Type} (r : Except Exit α) (s : WolfCryptDpe) : (lift r).run s = match r with
    | .ok a => .ok a s
    | .error e => .error e s := by
  cases r <;> rfl

/-- **Asking for random bytes**: an error if the generator cannot be initialised, and else what its blocks come to. -/
theorem randBytes_run (env : Env) (len : Nat) (s : WolfCryptDpe) :
    (InitFails env s → (randBytes env len).run s = .error (.error (.cryptoLibError errRngFailure)) s) ∧
    (¬ InitFails env s → (randBytes env len).run s = (lift (fillBytes env len)).run s.seeded) := by
  obtain ⟨slots, aliasKey, aliasPub, rng, devId⟩ := s
  constructor
  · rintro ⟨hrng, hinit⟩
    cases hrng
    show (if env.initRng ≠ 0 then _ else _ : EStateM Exit WolfCryptDpe _).run _ = _
    rw [if_pos hinit]
    rfl
  · intro hnot
    cases rng with
    | some r => rfl
    | none =>
      have hinit : ¬ env.initRng ≠ 0 := fun h => hnot ⟨rfl, h⟩
      show (if env.initRng ≠ 0 then _ else _ : EStateM Exit WolfCryptDpe _).run _ = _
      rw [if_neg hinit]
      rfl

/-- What is asked of a call that needs random bytes: it ends well only if they were all generated, and else with the error
of the generator and the store as it was. -/
def Reports {α : Type} (generated : Prop) (s : WolfCryptDpe) : EStateM.Result Exit WolfCryptDpe α → Prop
  | .ok _ _ => generated
  | .error e s' => e = .error (.cryptoLibError errRngFailure) ∧ s'.exportCdiSlots = s.exportCdiSlots

/-- Every byte is generated, by a generator that was or could be initialised. -/
def AllGenerated (env : Env) (s : WolfCryptDpe) (len : Nat) : Prop :=
  ¬ InitFails env s ∧ Generated env.generate 0 (chunkLens len)

/-- The checks in front of the generator pass: the CDI is derived, is not in the store, and there is room. -/
def Admits (alg : SignatureAlgorithm) (W : WolfCrypt) (env : Env) (s : WolfCryptDpe) (measurement info : Bytes) : Prop :=
  ∃ cdi, hkdfDeriveCdi alg W env measurement info = .ok cdi ∧ cdi ∉ s.exportCdiSlots.map Prod.fst ∧
    s.exportCdiSlots.length < maxCdiHandles

/-- The CDI is stored under the handle, if there is one. -/
def stored (cdi : Bytes) : EStateM.Result Exit WolfCryptDpe Handle → EStateM.Result Exit WolfCryptDpe Handle
  | .ok handle s => .ok handle { s with exportCdiSlots := s.exportCdiSlots ++ [(cdi, handle)] }
  | .error e s => .error e s

/-- **Exporting a CDI**: an error, or a panic of the derivation, before anything is done; or random bytes, and the store. -/
theorem deriveExportedCdi_run (env : Env) (s : WolfCryptDpe) (measurement info : Bytes) :
    (∀ cdi, hkdfDeriveCdi alg W env measurement info = .ok cdi → cdi ∉ s.exportCdiSlots.map Prod.fst →
      s.exportCdiSlots.length < maxCdiHandles → (deriveExportedCdi alg W env measurement info).run s
        = stored cdi ((randBytes env maxExportedCdiSize).run s)) ∧
    (¬ Admits alg W env s measurement info → ∃ e, (deriveExportedCdi alg W env measurement info).run s = .error e s) := by
  constructor
  · intro cdi hcdi hnew hroom
    unfold deriveExportedCdi
    rw [hcdi]
    show (if _ then _ else if _ then _ else _ : EStateM Exit WolfCryptDpe _).run s = _
    rw [if_neg hnew, if_neg (Nat.not_le.2 hroom), EStateM.run_bind]
    cases (randBytes env maxExportedCdiSize).run s <;> rfl
  · intro hno
    unfold deriveExportedCdi
    cases hcdi : hkdfDeriveCdi alg W env measurement info with
    | error e => exact ⟨e, rfl⟩
    | ok cdi =>
      show ∃ e, (if cdi ∈ s.exportCdiSlots.map Prod.fst then throw (.error .exportedCdiHandleDuplicateCdi)
        else _ : EStateM Exit WolfCryptDpe _).run s = .error e s
      by_cases hold : cdi ∈ s.exportCdiSlots.map Prod.fst
      · rw [if_pos hold]
        exact ⟨_, rfl⟩
      · have hfull : maxCdiHandles ≤ s.exportCdiSlots.length :=
          Nat.not_lt.1 fun hroom => hno ⟨cdi, hcdi, hold, hroom⟩
        rw [if_neg hold, if_pos hfull]
        exact ⟨_, rfl⟩

theorem chunkLens_handle : chunkLens maxExportedCdiSize = [maxExportedCdiSize] := by decide

/-- A failing generator is reported, or panics. -/
theorem reports_randBytes (env : Env) (len : Nat) (s : WolfCryptDpe) :
    Reports (AllGenerated env s len) s ((randBytes env len).run s) ↔
      InitFails env s ∨ Generated env.generate 0 (chunkLens len) := by
  obtain ⟨hfails, hruns⟩ := randBytes_run env len s
  obtain ⟨hok, hpanic⟩ := fillBytes_spec env len
  by_cases hinit : InitFails env s
  · rw [hfails hinit]
    exact ⟨fun _ => .inl hinit, fun _ => ⟨rfl, rfl⟩⟩
  · rw [hruns hinit, lift_run]
    by_cases hgen : Generated env.generate 0 (chunkLens len)
    · obtain ⟨x, hx⟩ := hok hgen
      rw [hx]
      exact ⟨fun _ => .inr hgen, fun _ => ⟨hinit, hgen⟩⟩
    · obtain ⟨message, hmessage⟩ := hpanic hgen
      rw [hmessage]
      refine ⟨fun h => (nomatch h.1), fun h => ?_⟩
      exact absurd h (not_or.2 ⟨hinit, hgen⟩)

end

/-- **When a failing generator is reported.**  A request for random bytes ends well only if all of them were generated, and
else with the error of the generator and the store as it was, just when the generator cannot be initialised or every block
of the request is generated; the same of an export that gets as far as the generator, whose handle is one block.  An export
that does not get as far fails with the instance as it was. -/
theorem rng_failure_reported_iff (alg : SignatureAlgorithm) (W : WolfCrypt) (env : Env) (s : WolfCryptDpe) :
    (∀ len, Reports (AllGenerated env s len) s ((randBytes env len).run s) ↔
      InitFails env s ∨ ∀ i < (chunkLens len).length, (env.generate i).1 = 0) ∧
    (∀ measurement info, Admits alg W env s measurement info →
      (Reports (AllGenerated env s maxExportedCdiSize) s ((deriveExportedCdi alg W env measurement info).run s) ↔
        InitFails env s ∨ (env.generate 0).1 = 0)) ∧
    ∀ measurement info, ¬ Admits alg W env s measurement info →
      ∃ e, (deriveExportedCdi alg W env measurement info).run s = .error e s := by
  refine ⟨fun len => ?_, fun measurement info hadmits => ?_, fun measurement info hno => ?_⟩
  · rw [reports_randBytes]
    unfold Generated
    simp only [Nat.zero_add]
  · obtain ⟨cdi, hcdi, hnew, hroom⟩ := hadmits
    have hreports := reports_randBytes env maxExportedCdiSize s
    rw [chunkLens_handle, generated_cons] at hreports
    rw [(deriveExportedCdi_run env s measurement info).1 cdi hcdi hnew hroom]
    have hsame : ∀ r, Reports (AllGenerated env s maxExportedCdiSize) s (stored cdi r) ↔
        Reports (AllGenerated env s maxExportedCdiSize) s r := by
      intro r
      cases r <;> exact Iff.rfl
    rw [hsame, hreports]
    refine or_congr_right ⟨And.left, fun h => ⟨h, fun j hj => absurd hj (Nat.not_lt_zero j)⟩⟩
  · exact (deriveExportedCdi_run env s measurement info).2 hno

namespace Sample

/-- A derivation that can be followed: the salt and the key material, cut or filled up to the length. -/
def wolfCrypt : WolfCrypt where
  hkdf _ salt ikm _ len := (salt ++ ikm ++ List.replicate len 0).take len
  publicPoint alg privKey := 0x04 :: (privKey ++ List.replicate (curveSize alg) 0)
  sign alg _ _ := List.replicate (2 * curveSize alg) 0

/-- Calls that succeed, but for the generator: how it is initialised, and its blocks. -/
def env (initRng : Int) (generate : Nat → Int × (Nat → UInt8)) : Env := ⟨0, 0, none, none, none, initRng, generate⟩

end Sample

theorem rng_failure_reported_sample :
    Reports (AllGenerated (Sample.env 0 fun _ => (0, fun _ => 7)) (.new softwareDrbgDevId) 40) (.new softwareDrbgDevId)
      ((randBytes (Sample.env 0 fun _ => (0, fun _ => 7)) 40).run (.new softwareDrbgDevId)) ∧
    Reports (AllGenerated (Sample.env (-1) fun _ => (0, fun _ => 7)) (.new softwareDrbgDevId) maxExportedCdiSize)
      (.new softwareDrbgDevId)
      ((deriveExportedCdi .bit256 Sample.wolfCrypt (Sample.env (-1) fun _ => (0, fun _ => 7)) [1] [2]).run
        (.new softwareDrbgDevId)) := by
  constructor
  · obtain ⟨hrand, -⟩ := rng_failure_reported_iff .bit256 Sample.wolfCrypt (Sample.env 0 fun _ => (0, fun _ => 7))
      (.new softwareDrbgDevId)
    exact (hrand 40).2 (.inr fun _ _ => rfl)
  · obtain ⟨-, hexport, -⟩ := rng_failure_reported_iff .bit256 Sample.wolfCrypt (Sample.env (-1) fun _ => (0, fun _ => 7))
      (.new softwareDrbgDevId)
    refine (hexport [1] [2] ⟨_, rfl, List.not_mem_nil, by decide⟩).2 (.inl ⟨rfl, ?_⟩)
    decide

/-- A block that fails, in a generator that was initialised, panics; of an export as well. -/
theorem failing_block_panics :
    (randBytes (Sample.env 0 fun _ => (-199, fun _ => 0)) 1).run (.new softwareDrbgDevId)
      = .error (.panic "wolfCrypt wc_RNG_GenerateBlock failed: -199") (WolfCryptDpe.new softwareDrbgDevId).seeded ∧
    (deriveExportedCdi .bit256 Sample.wolfCrypt (Sample.env 0 fun _ => (-199, fun _ => 0)) [1] [2]).run
        (.new softwareDrbgDevId)
      = .error (.panic "wolfCrypt wc_RNG_GenerateBlock failed: -199") (WolfCryptDpe.new softwareDrbgDevId).seeded :=
  ⟨rfl, rfl⟩

end Dpe
end Wolf
