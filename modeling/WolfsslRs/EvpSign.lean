import WolfsslRs.Program
import WolfsslRs.RingVerify
import WolfsslRs.Rust
/-!
# EvpSign — signing and verifying a message with an `EVP_PKEY`

`LcPtr<EVP_PKEY>::sign` and `verify` drive a digest context of wolfSSL: set up, fed with the message, finished.  The two
feed it through different calls, `EVP_DigestSignUpdate` with a length of 32 bits and `EVP_DigestUpdate` with a `size_t`.
`Meaning` says what a context stands for: what was set up, and the bytes it has been fed.
-/
namespace Wolf
namespace Ring

open Program Rust

/-- The calls of wolfSSL; those that return a code answer `none` unless it is 1. -/
structure DigestSsl (Pkey Ctx : Type) where
  mdCtxNew : Option Ctx
  digestSignInit : Ctx → Option DigestAlgorithm → Pkey → Option Ctx
  digestVerifyInit : Ctx → Option DigestAlgorithm → Pkey → Option Ctx
  setRsaPadding : Ctx → Int → Option Ctx
  setRsaPssSaltlen : Ctx → Int → Option Ctx
  /-- `EVP_DigestSignFinal` without a buffer: the most bytes a signature has -/
  digestSignLength : Ctx → Option (Ctx × Nat)
  digestSignUpdate : Ctx → Bytes → (len : Nat) → Option Ctx
  digestSignFinal : Ctx → (buffer : Bytes) → (sigLen : Nat) → Option (Bytes × Nat)
  digestUpdate : Ctx → Bytes → (len : Nat) → Option Ctx
  digestVerifyFinal : Ctx → Bytes → Bool
  marshalRawPrivate : Pkey → Option Bytes
  marshalRawPublic : Pkey → Option Bytes
  /-- the signature and its length, zero where it has failed -/
  ed25519SignMsg : (privSeed pubKey message : Bytes) → Bytes × Nat
  ed25519VerifyMsg : (pubKey message signature : Bytes) → Bool

section Calls

variable {Pkey Ctx : Type} (evp : Evp Pkey) (ssl : DigestSsl Pkey Ctx) (build : Build)

/-- `configure_rsa_pkcs1_pss_padding`, with `RSA_PKCS1_PSS_PADDING` and `RSA_PSS_SALTLEN_DIGEST`. -/
def configureRsaPkcs1PssPadding (pctx : Ctx) : Option Ctx := do
  let pctx ← ssl.setRsaPadding pctx 6
  ssl.setRsaPssSaltlen pctx (-1)

/-- The pointer to the digest, null without one. -/
def evpMd (digest : Option DigestAlgorithm) : Verdict :=
  match digest with
  | some alg => matchDigestType evp alg
  | none => pure ()

def pad (paddingFn : Option (Ctx → Option Ctx)) (mdCtx : Ctx) : Except Failure Ctx :=
  match paddingFn with
  | some padFn => orExit .unspecified (padFn mdCtx)
  | none => pure mdCtx

/-- `sign` up to the last call: the context it finishes, and the room for the signature. -/
def signContext (key : Pkey) (message : Bytes) (digest : Option DigestAlgorithm)
    (paddingFn : Option (Ctx → Option Ctx)) : Except Failure (Ctx × Nat) := do
  let mdCtx ← orExit .unspecified ssl.mdCtxNew
  evpMd evp digest
  let mdCtx ← orExit .unspecified (ssl.digestSignInit mdCtx digest key)
  let mdCtx ← pad paddingFn mdCtx
  let (mdCtx, sigLen) ← orExit .unspecified (ssl.digestSignLength mdCtx)
  if sigLen = 0 then throw .unspecified
  else
    let mdCtx ← orExit .unspecified (ssl.digestSignUpdate mdCtx message (asU32 message.length))
    pure (mdCtx, sigLen)

def signEd25519 (key : Pkey) (message : Bytes) : Except Failure Bytes := do
  let privSeed ← orExit .unspecified (ssl.marshalRawPrivate key)
  let pubKey ← orExit .unspecified (ssl.marshalRawPublic key)
  let (signature, sigLen) := ssl.ed25519SignMsg privSeed pubKey message
  if sigLen = 0 then throw .unspecified else pure (signature.take sigLen)

/-- `LcPtr<EVP_PKEY>::sign`. -/
def sign (key : Pkey) (message : Bytes) (digest : Option DigestAlgorithm) (paddingFn : Option (Ctx → Option Ctx)) :
    Except Failure Bytes := do
  if evp.id key = .ed25519 then signEd25519 ssl key message
  else
    let (mdCtx, sigLen) ← signContext evp ssl key message digest paddingFn
    orExit .panicked (build.withCapacity sigLen)
    let (signature, sigLen) ← orExit .unspecified (ssl.digestSignFinal mdCtx (List.replicate sigLen 0) sigLen)
    pure (signature.take sigLen)

/-- `verify` up to the last call. -/
def verifyContext (key : Pkey) (msg : Bytes) (digest : Option DigestAlgorithm) (paddingFn : Option (Ctx → Option Ctx)) :
    Except Failure Ctx := do
  let mdCtx ← orExit .unspecified ssl.mdCtxNew
  evpMd evp digest
  let mdCtx ← orExit .unspecified (ssl.digestVerifyInit mdCtx digest key)
  let mdCtx ← pad paddingFn mdCtx
  orExit .unspecified (ssl.digestUpdate mdCtx msg msg.length)

def verifyEd25519 (key : Pkey) (msg signature : Bytes) : Verdict := do
  let pubKey ← orExit .unspecified (ssl.marshalRawPublic key)
  verdict (ssl.ed25519VerifyMsg pubKey msg signature)

/-- `LcPtr<EVP_PKEY>::verify`. -/
def verify (key : Pkey) (msg : Bytes) (digest : Option DigestAlgorithm) (paddingFn : Option (Ctx → Option Ctx))
    (signature : Bytes) : Verdict := do
  if evp.id key = .ed25519 then verifyEd25519 ssl key msg signature
  else
    let mdCtx ← verifyContext evp ssl key msg digest paddingFn
    verdict (ssl.digestVerifyFinal mdCtx signature)

end Calls

/-! ## What a context stands for -/

structure Meaning (Ctx : Type) where
  /-- key, digest and padding -/
  Setup : Type
  setup : Ctx → Setup
  absorbed : Ctx → Bytes
  Valid : Setup → (message signature : Bytes) → Prop

variable {Pkey Ctx : Type}

/-- **A padding function sets parameters only**, and the same ones whether a signature is made or verified. -/
structure Meaning.Pads (meaning : Meaning Ctx) (padFn : Ctx → Option Ctx) : Prop where
  absorbed_eq : ∀ c c', padFn c = some c' → meaning.absorbed c' = meaning.absorbed c
  setup_eq : ∀ c v c', meaning.setup v = meaning.setup c → padFn c = some c' →
    ∃ v', padFn v = some v' ∧ meaning.setup v' = meaning.setup c'

/-- **The calls are correct for the length they are given.** -/
structure DigestSsl.Correct (ssl : DigestSsl Pkey Ctx) (meaning : Meaning Ctx) : Prop where
  signInit : ∀ c digest key c', ssl.digestSignInit c digest key = some c' → meaning.absorbed c' = [] ∧
    ∃ v, ssl.digestVerifyInit c digest key = some v ∧ meaning.setup v = meaning.setup c'
  verifyInit : ∀ c digest key v, ssl.digestVerifyInit c digest key = some v → meaning.absorbed v = []
  setRsaPadding : ∀ n, meaning.Pads (ssl.setRsaPadding · n)
  setRsaPssSaltlen : ∀ n, meaning.Pads (ssl.setRsaPssSaltlen · n)
  signLength : ∀ c c' n, ssl.digestSignLength c = some (c', n) →
    meaning.absorbed c' = meaning.absorbed c ∧ meaning.setup c' = meaning.setup c
  signUpdate : ∀ c data len c', ssl.digestSignUpdate c data len = some c' →
    meaning.absorbed c' = meaning.absorbed c ++ data.take len ∧ meaning.setup c' = meaning.setup c
  signFinal : ∀ c buffer len sig n, ssl.digestSignFinal c buffer len = some (sig, n) →
    meaning.Valid (meaning.setup c) (meaning.absorbed c) (sig.take n)
  update : ∀ c data len, ∃ c', ssl.digestUpdate c data len = some c' ∧
    meaning.absorbed c' = meaning.absorbed c ++ data.take len ∧ meaning.setup c' = meaning.setup c
  verifyFinal : ∀ c sig, ssl.digestVerifyFinal c sig = true ↔ meaning.Valid (meaning.setup c) (meaning.absorbed c) sig

theorem Meaning.Pads.comp {meaning : Meaning Ctx} {p q : Ctx → Option Ctx} (hp : meaning.Pads p)
    (hq : meaning.Pads q) : meaning.Pads (fun c => p c >>= q) where
  absorbed_eq c c' h := by
    obtain ⟨d, hd, hc'⟩ := Option.bind_eq_some_iff.1 h
    rw [hq.absorbed_eq d c' hc', hp.absorbed_eq c d hd]
  setup_eq c v c' hv h := by
    obtain ⟨d, hd, hc'⟩ := Option.bind_eq_some_iff.1 h
    obtain ⟨w, hw, hwd⟩ := hp.setup_eq c v d hv hd
    obtain ⟨v', hv', heq⟩ := hq.setup_eq d w c' hwd hc'
    exact ⟨v', Option.bind_eq_some_iff.2 ⟨w, hw, hv'⟩, heq⟩

section Contexts

variable {evp : Evp Pkey} {ssl : DigestSsl Pkey Ctx} {meaning : Meaning Ctx} {build : Build} {key : Pkey}
  {message : Bytes} {digest : Option DigestAlgorithm} {paddingFn : Option (Ctx → Option Ctx)}

theorem pads_configureRsaPkcs1PssPadding (hssl : ssl.Correct meaning) :
    meaning.Pads (configureRsaPkcs1PssPadding ssl) :=
  (hssl.setRsaPadding 6).comp (hssl.setRsaPssSaltlen (-1))

theorem absorbed_pad (hpad : ∀ p ∈ paddingFn, meaning.Pads p) {c c' : Ctx} (h : pad paddingFn c = .ok c') :
    meaning.absorbed c' = meaning.absorbed c := by
  cases paddingFn with
  | none => cases h; rfl
  | some p => exact (hpad p rfl).absorbed_eq c c' (orExit_eq_ok.1 h)

theorem pad_same (hpad : ∀ p ∈ paddingFn, meaning.Pads p) {c v c' : Ctx} (hv : meaning.setup v = meaning.setup c)
    (h : pad paddingFn c = .ok c') : ∃ v', pad paddingFn v = .ok v' ∧ meaning.setup v' = meaning.setup c' := by
  cases paddingFn with
  | none =>
    cases h
    exact ⟨v, rfl, hv⟩
  | some p =>
    obtain ⟨v', hv', heq⟩ := (hpad p rfl).setup_eq c v c' hv (orExit_eq_ok.1 h)
    exact ⟨v', orExit_eq_ok.2 hv', heq⟩

/-- **What `sign` finishes**: a context fed with as many bytes of the message as the low 32 bits of its length say, set
up as `verify` sets up its own. -/
theorem signContext_ok (hssl : ssl.Correct meaning) (hpad : ∀ p ∈ paddingFn, meaning.Pads p) {c : Ctx} {n : Nat}
    (h : signContext evp ssl key message digest paddingFn = .ok (c, n)) :
    meaning.absorbed c = message.take (asU32 message.length) ∧
    ∀ msg, ∃ v, verifyContext evp ssl key msg digest paddingFn = .ok v ∧ meaning.absorbed v = msg ∧
      meaning.setup v = meaning.setup c := by
  unfold signContext at h
  simp only [bind_ok, orExit_eq_ok] at h
  obtain ⟨c₀, hnew, ⟨⟩, hmd, c₁, hinit, c₂, hc₂, ⟨c₃, sigLen⟩, hlength, h⟩ := h
  by_cases hzero : sigLen = 0
  · rw [if_pos hzero] at h
    cases h
  rw [if_neg hzero] at h
  simp only [bind_ok, orExit_eq_ok] at h
  obtain ⟨c₄, hupdate, h⟩ := h
  cases h
  obtain ⟨habs₁, v₁, hv₁, hsetup₁⟩ := hssl.signInit c₀ digest key c₁ hinit
  have habs₂ := absorbed_pad hpad hc₂
  obtain ⟨v₂, hv₂, hsetup₂⟩ := pad_same hpad hsetup₁ hc₂
  obtain ⟨habs₃, hsetup₃⟩ := hssl.signLength c₂ c₃ n hlength
  obtain ⟨habs₄, hsetup₄⟩ := hssl.signUpdate c₃ message _ c hupdate
  refine ⟨by rw [habs₄, habs₃, habs₂, habs₁, List.nil_append], fun msg => ?_⟩
  obtain ⟨v, hv, habs, hsetup⟩ := hssl.update v₂ msg msg.length
  refine ⟨v, ?_, ?_, ?_⟩
  · simp only [verifyContext, bind_ok, orExit_eq_ok]
    exact ⟨c₀, hnew, (), hmd, v₁, hv₁, v₂, hv₂, hv⟩
  · rw [habs, absorbed_pad hpad hv₂, hssl.verifyInit c₀ digest key v₁ hv₁, List.take_length, List.nil_append]
  · rw [hsetup, hsetup₂, hsetup₄, hsetup₃]

theorem absorbed_verifyContext (hssl : ssl.Correct meaning) (hpad : ∀ p ∈ paddingFn, meaning.Pads p) {v : Ctx}
    (h : verifyContext evp ssl key message digest paddingFn = .ok v) : meaning.absorbed v = message := by
  simp only [verifyContext, bind_ok, orExit_eq_ok] at h
  obtain ⟨c₀, -, ⟨⟩, -, v₁, hv₁, v₂, hv₂, hv⟩ := h
  obtain ⟨v', hv', habs, -⟩ := hssl.update v₂ message message.length
  rw [hv, Option.some.injEq] at hv'
  rw [hv', habs, absorbed_pad hpad hv₂, hssl.verifyInit c₀ digest key v₁ hv₁, List.take_length, List.nil_append]

theorem sign_inv (hkey : evp.id key ≠ .ed25519) {sig : Bytes}
    (h : sign evp ssl build key message digest paddingFn = .ok sig) :
    ∃ c n buffer k, signContext evp ssl key message digest paddingFn = .ok (c, n) ∧
      ssl.digestSignFinal c (List.replicate n 0) n = some (buffer, k) ∧ sig = buffer.take k := by
  unfold sign at h
  rw [if_neg hkey] at h
  simp only [bind_ok, orExit_eq_ok] at h
  obtain ⟨⟨c, n⟩, hcontext, ⟨⟩, -, ⟨buffer, k⟩, hfinal, h⟩ := h
  cases h
  exact ⟨c, n, buffer, k, hcontext, hfinal, rfl⟩

/-- **A signature is one of the bytes `sign` fed**: `verify` accepts it on them. -/
theorem verify_fed (hssl : ssl.Correct meaning) (hpad : ∀ p ∈ paddingFn, meaning.Pads p) (hkey : evp.id key ≠ .ed25519)
    {sig : Bytes} (h : sign evp ssl build key message digest paddingFn = .ok sig) :
    verify evp ssl key (message.take (asU32 message.length)) digest paddingFn sig = .ok () := by
  obtain ⟨c, n, buffer, k, hcontext, hfinal, rfl⟩ := sign_inv hkey h
  obtain ⟨habs, hverify⟩ := signContext_ok hssl hpad hcontext
  obtain ⟨v, hv, hvabs, hvsetup⟩ := hverify (message.take (asU32 message.length))
  have hvalid := hssl.signFinal c _ n buffer k hfinal
  have hok : ssl.digestVerifyFinal v (buffer.take k) = true := by
    rw [hssl.verifyFinal, hvsetup, hvabs, ← habs]
    exact hvalid
  rw [verify, if_neg hkey, hv, ok_bind, hok]
  rfl

end Contexts

/-- **Both sides cover the message**: what `sign` and `verify` feed is all of it, and what `sign` answers `verify`
accepts. -/
structure Covers (evp : Evp Pkey) (ssl : DigestSsl Pkey Ctx) (meaning : Meaning Ctx) (build : Build) (key : Pkey)
    (message : Bytes) (digest : Option DigestAlgorithm) (paddingFn : Option (Ctx → Option Ctx)) : Prop where
  signed : ∀ c n, signContext evp ssl key message digest paddingFn = .ok (c, n) → meaning.absorbed c = message
  verified : ∀ c, verifyContext evp ssl key message digest paddingFn = .ok c → meaning.absorbed c = message
  accepted : ∀ sig, sign evp ssl build key message digest paddingFn = .ok sig →
    verify evp ssl key message digest paddingFn sig = .ok ()

/-- **Signing and verifying agree below 4 GiB**: a signature is always accepted on the message up to the low 32 bits of
its length, and both sides cover the message exactly when that is all of it. -/
theorem sign_covers_iff (evp : Evp Pkey) (ssl : DigestSsl Pkey Ctx) (meaning : Meaning Ctx) (hssl : ssl.Correct meaning)
    (build : Build) (key : Pkey) (hkey : evp.id key ≠ .ed25519) (message : Bytes) (digest : Option DigestAlgorithm)
    (paddingFn : Option (Ctx → Option Ctx)) (hpad : ∀ p ∈ paddingFn, meaning.Pads p) (sig : Bytes)
    (hsign : sign evp ssl build key message digest paddingFn = .ok sig) :
    verify evp ssl key (message.take (asU32 message.length)) digest paddingFn sig = .ok () ∧
    (Covers evp ssl meaning build key message digest paddingFn ↔ message.length < 2 ^ 32) := by
  refine ⟨verify_fed hssl hpad hkey hsign, fun hcovers => ?_, fun hlen => ⟨?_, ?_, ?_⟩⟩
  · obtain ⟨c, n, buffer, k, hcontext, -, -⟩ := sign_inv hkey hsign
    rw [← take_asU32_eq_iff, ← (signContext_ok hssl hpad hcontext).1]
    exact hcovers.signed c n hcontext
  · intro c n hcontext
    rw [(signContext_ok hssl hpad hcontext).1]
    exact take_asU32_eq_iff.2 hlen
  · intro c hcontext
    exact absorbed_verifyContext hssl hpad hcontext
  · intro sig hsig
    have := verify_fed hssl hpad hkey hsig
    rwa [take_asU32_eq_iff.2 hlen] at this

/-! ## A scheme that tells messages apart -/

/-- A wolfSSL whose contexts are the bytes fed so far, and whose signature of a message is the message. -/
def copySsl : DigestSsl Unit Bytes where
  mdCtxNew := some []
  digestSignInit _ _ _ := some []
  digestVerifyInit _ _ _ := some []
  setRsaPadding c _ := some c
  setRsaPssSaltlen c _ := some c
  digestSignLength c := some (c, 64)
  digestSignUpdate c data len := some (c ++ data.take len)
  digestSignFinal c _ _ := some (c, c.length)
  digestUpdate c data len := some (c ++ data.take len)
  digestVerifyFinal c sig := decide (sig = c)
  marshalRawPrivate _ := none
  marshalRawPublic _ := none
  ed25519SignMsg _ _ _ := ([], 0)
  ed25519VerifyMsg _ _ _ := false

def copyMeaning : Meaning Bytes where
  Setup := Unit
  setup _ := ()
  absorbed := id
  Valid _ message signature := signature = message

theorem pads_some : copyMeaning.Pads some where
  absorbed_eq c c' h := by cases h; rfl
  setup_eq _ v _ _ _ := ⟨v, rfl, rfl⟩

theorem copySsl_correct : copySsl.Correct copyMeaning where
  signInit _ _ _ _ h := by cases h; exact ⟨rfl, [], rfl, rfl⟩
  verifyInit _ _ _ _ h := by cases h; rfl
  setRsaPadding _ := pads_some
  setRsaPssSaltlen _ := pads_some
  signLength _ _ _ h := by cases h; exact ⟨rfl, rfl⟩
  signUpdate _ _ _ _ h := by cases h; exact ⟨rfl, rfl⟩
  signFinal c _ _ _ _ h := by cases h; exact List.take_length
  update _ _ _ := ⟨_, rfl, rfl, rfl⟩
  verifyFinal _ _ := decide_eq_true_iff

/-- One EC key, and every digest. -/
def ecEvp : Evp Unit where
  d2iRsaPublicKey _ := none
  parsePublicKey _ := some ()
  newRawPublicKey _ _ := none
  id _ := .ec
  bits _ := 256
  hasGroup _ := true
  oct2point _ _ := some ()
  curve _ := some .prime256v1
  checkKey _ := true
  i2dEcdsaSig r s := some (r ++ s)
  hasMd _ := true

theorem sign_copySsl (build : Build) (message : Bytes) (digest : Option DigestAlgorithm) :
    sign ecEvp copySsl build () message digest none = .ok (message.take (asU32 message.length)) := by
  have hcapacity : build.withCapacity 64 = some () := by
    have := two_pow_31_le build
    exact withCapacity_of_le (by omega)
  have hcontext : signContext ecEvp copySsl () message digest none =
      .ok (message.take (asU32 message.length), 64) := by cases digest <;> rfl
  rw [sign, if_neg (by decide), hcontext]
  simp only [ok_bind, hcapacity, orExit_some]
  exact congrArg Except.ok List.take_length

theorem verify_copySsl (message sig : Bytes) (digest : Option DigestAlgorithm) :
    verify ecEvp copySsl () message digest none sig = verdict (decide (sig = message)) := by
  have hcontext : verifyContext ecEvp copySsl () message digest none = .ok message := by
    have : verifyContext ecEvp copySsl () message digest none = .ok (message.take message.length) := by
      cases digest <;> rfl
    rw [this, List.take_length]
  rw [verify, if_neg (by decide), hcontext]
  rfl

/-- The hypotheses hold of the scheme with the padding of RSA-PSS, and a short message is covered. -/
theorem sign_covers_iff_copySsl :
    Covers { ecEvp with id := fun _ => .rsa } copySsl copyMeaning .release () [0x61] (some .sha256)
      (some (configureRsaPkcs1PssPadding copySsl)) := by
  refine (sign_covers_iff _ copySsl copyMeaning copySsl_correct .release () (by decide) [0x61] (some .sha256) _ ?_
    [0x61] (by decide)).2.2 (by decide)
  intro p hp
  cases hp
  exact pads_configureRsaPkcs1PssPadding copySsl_correct

/-- **A message of 4 GiB is signed as the empty one**: `verify` refuses the signature on the message and accepts it on no
bytes at all. -/
theorem long_message_signed_as_empty :
    sign ecEvp copySsl .release () (List.replicate (2 ^ 32) 0) (some .sha256) none = .ok [] ∧
    verify ecEvp copySsl () (List.replicate (2 ^ 32) 0) (some .sha256) none [] = .error .unspecified ∧
    verify ecEvp copySsl () [] (some .sha256) none [] = .ok () := by
  have hne : ([] : Bytes) ≠ List.replicate (2 ^ 32) 0 := by
    intro h
    have := congrArg List.length h
    rw [List.length_replicate] at this
    exact absurd this (by decide)
  refine ⟨?_, ?_, ?_⟩
  · rw [sign_copySsl, List.length_replicate]
    exact congrArg Except.ok List.take_zero
  · rw [verify_copySsl, decide_eq_false hne]
    rfl
  · rw [verify_copySsl, decide_eq_true rfl]
    rfl

end Ring
end Wolf
