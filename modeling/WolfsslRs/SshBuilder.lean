import WolfsslRs.SshCertTrip
/-!
# SshBuilder — building and validating certificates (`certificate/builder.rs`, `Certificate::validate_at`)

A `Builder` is filled by calls, each of which may refuse, and signs what it has.  What a run of accepted calls leaves
behind is said by the list of the calls (`Builder.Records`): every option that was given is there once with its value,
and an empty list of principals is from `all_principals_valid`, with no `valid_principal` after it.

The signed certificate validates from `valid_after` on, and is read back from its encoding, but for two things.  `new`
lets a window through that is empty, and the check of `sign` that would refuse it is for debug builds only; and some keys
and signatures are written that are not read as what they are (`built_certificate_iff`).
-/
namespace Wolf
namespace Ssh

open Reader Program

/-! ## Options -/

/-- `BTreeMap::insert`, on the entries in the order of their names. -/
def insertEntry (name data : Text) : List (Text × Text) → List (Text × Text)
  | [] => [(name, data)]
  | entry :: entries =>
    if name < entry.1 then (name, data) :: entry :: entries
    else if name = entry.1 then (name, data) :: entries
    else entry :: insertEntry name data entries

theorem mem_names_insertEntry (name data x : Text) : ∀ entries : List (Text × Text),
    x ∈ (insertEntry name data entries).map Prod.fst ↔ x = name ∨ x ∈ entries.map Prod.fst
  | [] => by simp [insertEntry]
  | entry :: entries => by
    have ih := mem_names_insertEntry name data x entries
    unfold insertEntry
    by_cases hlt : name < entry.1
    · rw [if_pos hlt]
      simp
    · rw [if_neg hlt]
      by_cases heq : name = entry.1
      · rw [if_pos heq]
        simp [heq]
      · rw [if_neg heq, List.map_cons, List.map_cons, List.mem_cons, List.mem_cons, ih]
        tauto

theorem mem_insertEntry (name data : Text) (x : Text × Text) : ∀ {entries : List (Text × Text)},
    name ∉ entries.map Prod.fst → (x ∈ insertEntry name data entries ↔ x = (name, data) ∨ x ∈ entries)
  | [], _ => by simp [insertEntry]
  | entry :: entries, hfresh => by
    rw [List.map_cons, List.mem_cons, not_or] at hfresh
    have ih := mem_insertEntry name data x hfresh.2
    unfold insertEntry
    by_cases hlt : name < entry.1
    · rw [if_pos hlt]
      simp
    · rw [if_neg hlt, if_neg hfresh.1, List.mem_cons, List.mem_cons, ih]
      tauto

theorem pairwise_insertEntry (name data : Text) : ∀ {entries : List (Text × Text)},
    (entries.map Prod.fst).Pairwise (· < ·) → ((insertEntry name data entries).map Prod.fst).Pairwise (· < ·)
  | [], _ => by simp [insertEntry]
  | entry :: entries, h => by
    rw [List.map_cons, List.pairwise_cons] at h
    have ih := pairwise_insertEntry name data h.2
    unfold insertEntry
    by_cases hlt : name < entry.1
    · rw [if_pos hlt, List.map_cons, List.map_cons, List.pairwise_cons, List.pairwise_cons]
      refine ⟨fun x hx => ?_, h⟩
      rcases List.mem_cons.1 hx with rfl | hx
      · exact hlt
      · exact List.lt_trans hlt (h.1 x hx)
    · rw [if_neg hlt]
      by_cases heq : name = entry.1
      · rw [if_pos heq, List.map_cons, List.pairwise_cons, heq]
        exact h
      · rw [if_neg heq, List.map_cons, List.pairwise_cons]
        refine ⟨fun x hx => ?_, ih⟩
        rcases (mem_names_insertEntry name data x entries).1 hx with rfl | hx
        · exact not_not.1 fun hge => heq (List.le_antisymm hge hlt)
        · exact h.1 x hx

def OptionsMap.containsKey (m : OptionsMap) (name : Text) : Bool := (m.entries.map Prod.fst).contains name

theorem OptionsMap.pairwise (m : OptionsMap) : (m.entries.map Prod.fst).Pairwise (· < ·) :=
  List.isChain_iff_pairwise.1 m.sorted

def OptionsMap.insert (m : OptionsMap) (name data : Text) : OptionsMap :=
  ⟨insertEntry name data m.entries, List.isChain_iff_pairwise.2 (pairwise_insertEntry name data m.pairwise)⟩

theorem OptionsMap.nodup (m : OptionsMap) : (m.entries.map Prod.fst).Nodup := by
  apply m.pairwise.imp
  intro x y hlt heq
  rw [heq] at hlt
  exact List.lt_irrefl y hlt

/-! ## The builder -/

structure Builder where
  publicKey : KeyData
  nonce : Bytes
  serial : Option UInt64
  certType : Option CertType
  keyId : Option Text
  validPrincipals : Option (List Text)
  validAfter : UInt64
  validBefore : UInt64
  criticalOptions : OptionsMap
  extensions : OptionsMap
  comment : Option Bytes

def Field.invalidError (field : Field) : Exit := .error (.certificateFieldInvalid field)

def Builder.new (nonce : Bytes) (publicKey : KeyData) (validAfter validBefore : UInt64) : Except Exit Builder :=
  if validBefore < validAfter then .error Field.validBefore.invalidError
  else .ok
    { nonce, publicKey, serial := none, certType := none, keyId := none, validPrincipals := none, validAfter,
      validBefore, criticalOptions := OptionsMap.new, extensions := OptionsMap.new, comment := none }

def recommendedNonceSize : Nat := 16

/-- The three ways to get a builder. -/
inductive Builder.Opening where
  | new (nonce : Bytes) (validAfter validBefore : UInt64)
  | withValidityTimes (nonce : Bytes) (validAfter validBefore : Int)
  | withRandomNonce (random : {nonce : Bytes // nonce.length = recommendedNonceSize}) (validAfter validBefore : UInt64)

/-- A field that may be set once. -/
def setOnce {α : Type} (field : Field) (old : Option α) (value : α) : Except Exit (Option α) :=
  if old.isSome then .error field.invalidError else .ok (some value)

/-- An option whose name may be given once. -/
def insertOnce (field : Field) (m : OptionsMap) (name data : Text) : Except Exit OptionsMap :=
  if m.containsKey name then .error field.invalidError else .ok (m.insert name data)

/-- The methods that fill a builder. -/
inductive Builder.Call where
  | serial (serial : UInt64)
  | certType (certType : CertType)
  | keyId (keyId : Text)
  | validPrincipal (principal : Text)
  | allPrincipalsValid
  | criticalOption (name data : Text)
  | extension (name data : Text)
  | comment (comment : Bytes)

def Builder.call (b : Builder) : Builder.Call → Except Exit Builder
  | .serial serial => do .ok { b with serial := ← setOnce .serial b.serial serial }
  | .certType certType => do .ok { b with certType := ← setOnce .type b.certType certType }
  | .keyId keyId => do .ok { b with keyId := ← setOnce .keyId b.keyId keyId }
  | .validPrincipal principal =>
    match b.validPrincipals with
    | some principals => .ok { b with validPrincipals := some (principals ++ [principal]) }
    | none => .ok { b with validPrincipals := some [principal] }
  | .allPrincipalsValid => .ok { b with validPrincipals := some [] }
  | .criticalOption name data => do
    .ok { b with criticalOptions := ← insertOnce .criticalOptions b.criticalOptions name data }
  | .extension name data => do .ok { b with extensions := ← insertOnce .extensions b.extensions name data }
  | .comment comment => do .ok { b with comment := ← setOnce .comment b.comment comment }

/-- Calls one after the other, all of which have to be accepted. -/
def Builder.run (b : Builder) (calls : List Builder.Call) : Except Exit Builder := calls.foldlM Builder.call b

section
variable (C : Crates) (D : Digests) (W : WolfCrypt)

/-- `Certificate::validate_at`; a fingerprint is the hash function and the digest. -/
def Certificate.validateAt (cert : Certificate) (unixTimestamp : UInt64) (caFingerprints : List (HashAlg × Bytes)) :
    Except Exit Unit := do
  cert.verifySignature C D W
  let certFingerprint ← Fingerprint.new C D .sha256 cert.signatureKey
  if (.sha256, certFingerprint) ∉ caFingerprints then .error (.error .certificateValidation)
  else if cert.validAfter ≤ unixTimestamp ∧ unixTimestamp < cert.validBefore then .ok ()
  else .error (.error .certificateValidation)

/-- The certificate `Builder::sign` starts from, with a placeholder for the signature. -/
def Builder.unsigned (b : Builder) (validPrincipals : List Text) (signatureKey : KeyData) : Certificate where
  nonce := b.nonce
  publicKey := b.publicKey
  serial := b.serial.getD 0
  certType := b.certType.getD .user
  keyId := b.keyId.getD []
  validPrincipals := validPrincipals
  validAfter := b.validAfter
  validBefore := b.validBefore
  criticalOptions := b.criticalOptions
  extensions := b.extensions
  reserved := []
  comment := b.comment.getD []
  signatureKey := signatureKey
  signature := ⟨.ed25519, []⟩

/-- `Builder::sign`, with or without debug assertions. -/
def Builder.sign (debugAssertions : Bool) (b : Builder) (signingKey : SigningKey) : Except Exit Certificate :=
  match b.validPrincipals with
  | none => .error Field.validPrincipals.invalidError
  | some validPrincipals => do
    let cert := b.unsigned validPrincipals signingKey.publicKey
    let tbsCert ← cert.encodeTbs C
    let signature ← ofSignature (signingKey.trySign tbsCert)
    let cert := { cert with signature }
    if debugAssertions then
      let fingerprint ← Fingerprint.new C D .sha256 cert.signatureKey
      cert.validateAt C D W cert.validAfter [(.sha256, fingerprint)]
    .ok cert

end

/-! ## What a run of calls leaves behind -/

/-- What satisfies `P` is what calls of one method gave. -/
def Fills {α : Type} (method : α → Builder.Call) (calls : List Builder.Call) (P : α → Prop) : Prop :=
  ∀ a, P a ↔ method a ∈ calls

/-- **What a builder holds after the calls**, made for the given key and window. -/
structure Builder.Records (publicKey : KeyData) (validAfter validBefore : UInt64) (calls : List Builder.Call)
    (b : Builder) : Prop where
  publicKey : b.publicKey = publicKey
  validAfter : b.validAfter = validAfter
  validBefore : b.validBefore = validBefore
  serial : Fills Builder.Call.serial calls (b.serial = some ·)
  certType : Fills Builder.Call.certType calls (b.certType = some ·)
  keyId : Fills Builder.Call.keyId calls (b.keyId = some ·)
  comment : Fills Builder.Call.comment calls (b.comment = some ·)
  criticalOptions : Fills (fun x => Builder.Call.criticalOption x.1 x.2) calls (· ∈ b.criticalOptions.entries)
  extensions : Fills (fun x => Builder.Call.extension x.1 x.2) calls (· ∈ b.extensions.entries)
  principals : b.validPrincipals = some [] → ∃ before after, calls = before ++ .allPrincipalsValid :: after ∧
    ∀ principal, .validPrincipal principal ∉ after

section
variable {α : Type} {method : α → Builder.Call} {calls : List Builder.Call} {c : Builder.Call} {P Q : α → Prop} {a : α}

theorem fills_skip (h : Fills method calls P) (hc : ∀ a, method a ≠ c) : Fills method (calls ++ [c]) P := by
  intro a
  simp [h a, hc a]

theorem fills_add (h : Fills method calls P) (hinj : ∀ x, method x = method a → x = a)
    (hQ : ∀ x, Q x ↔ x = a ∨ P x) : Fills method (calls ++ [method a]) Q := by
  intro x
  rw [hQ x, h x, List.mem_append, List.mem_singleton, or_comm]
  apply or_congr_right
  constructor
  · intro hx
    rw [hx]
  · exact hinj x

theorem setOnce_ok {field : Field} {old new : Option α} (h : setOnce field old a = .ok new) :
    ∀ x, new = some x ↔ x = a ∨ old = some x := by
  unfold setOnce at h
  cases old with
  | none =>
    cases h
    simp [eq_comm]
  | some b => cases h

theorem insertOnce_ok {field : Field} {m m' : OptionsMap} {name data : Text}
    (h : insertOnce field m name data = .ok m') : ∀ x, x ∈ m'.entries ↔ x = (name, data) ∨ x ∈ m.entries := by
  unfold insertOnce at h
  split at h
  · cases h
  · rename_i hfresh
    cases h
    intro x
    apply mem_insertEntry
    simpa [OptionsMap.containsKey] using hfresh

theorem principals_skip (h : ∃ before after, calls = before ++ .allPrincipalsValid :: after ∧
      ∀ principal, Builder.Call.validPrincipal principal ∉ after) (hc : ∀ principal, .validPrincipal principal ≠ c) :
    ∃ before after, calls ++ [c] = before ++ .allPrincipalsValid :: after ∧
      ∀ principal, Builder.Call.validPrincipal principal ∉ after := by
  obtain ⟨before, after, rfl, hafter⟩ := h
  refine ⟨before, after ++ [c], by simp, fun principal hmem => ?_⟩
  rcases List.mem_append.1 hmem with hmem | hmem
  · exact hafter principal hmem
  · exact hc principal (List.mem_singleton.1 hmem)

end

section
variable {publicKey : KeyData} {validAfter validBefore : UInt64} {calls : List Builder.Call} {b b' : Builder}

/-- **What one call leaves behind.** -/
theorem records_call {c : Builder.Call} (h : b.Records publicKey validAfter validBefore calls) (hc : b.call c = .ok b') :
    b'.Records publicKey validAfter validBefore (calls ++ [c]) := by
  cases c with
  | serial serial =>
    obtain ⟨new, hnew, hb⟩ := bind_ok.1 hc
    cases hb
    exact ⟨h.publicKey, h.validAfter, h.validBefore, fills_add h.serial (by simp) (setOnce_ok hnew),
      fills_skip h.certType nofun, fills_skip h.keyId nofun, fills_skip h.comment nofun,
      fills_skip h.criticalOptions nofun, fills_skip h.extensions nofun,
      fun hnone => principals_skip (h.principals hnone) nofun⟩
  | certType certType =>
    obtain ⟨new, hnew, hb⟩ := bind_ok.1 hc
    cases hb
    exact ⟨h.publicKey, h.validAfter, h.validBefore, fills_skip h.serial nofun,
      fills_add h.certType (by simp) (setOnce_ok hnew), fills_skip h.keyId nofun, fills_skip h.comment nofun,
      fills_skip h.criticalOptions nofun, fills_skip h.extensions nofun,
      fun hnone => principals_skip (h.principals hnone) nofun⟩
  | keyId keyId =>
    obtain ⟨new, hnew, hb⟩ := bind_ok.1 hc
    cases hb
    exact ⟨h.publicKey, h.validAfter, h.validBefore, fills_skip h.serial nofun, fills_skip h.certType nofun,
      fills_add h.keyId (by simp) (setOnce_ok hnew), fills_skip h.comment nofun,
      fills_skip h.criticalOptions nofun, fills_skip h.extensions nofun,
      fun hnone => principals_skip (h.principals hnone) nofun⟩
  | validPrincipal principal =>
    -- whatever was there, the list is not empty now
    have hkeep : ∃ principals, principals ≠ [] ∧ b' = { b with validPrincipals := some principals } := by
      unfold Builder.call at hc
      cases hold : b.validPrincipals with
      | some principals =>
        simp only [hold] at hc
        cases hc
        exact ⟨principals ++ [principal], by simp, rfl⟩
      | none =>
        simp only [hold] at hc
        cases hc
        exact ⟨[principal], by simp, rfl⟩
    obtain ⟨principals, hne, rfl⟩ := hkeep
    exact ⟨h.publicKey, h.validAfter, h.validBefore, fills_skip h.serial nofun, fills_skip h.certType nofun,
      fills_skip h.keyId nofun, fills_skip h.comment nofun, fills_skip h.criticalOptions nofun,
      fills_skip h.extensions nofun, fun hnone => absurd (Option.some.inj hnone) hne⟩
  | allPrincipalsValid =>
    cases hc
    exact ⟨h.publicKey, h.validAfter, h.validBefore, fills_skip h.serial nofun, fills_skip h.certType nofun,
      fills_skip h.keyId nofun, fills_skip h.comment nofun, fills_skip h.criticalOptions nofun,
      fills_skip h.extensions nofun, fun _ => ⟨calls, [], rfl, by simp⟩⟩
  | criticalOption name data =>
    obtain ⟨new, hnew, hb⟩ := bind_ok.1 hc
    cases hb
    exact ⟨h.publicKey, h.validAfter, h.validBefore, fills_skip h.serial nofun, fills_skip h.certType nofun,
      fills_skip h.keyId nofun, fills_skip h.comment nofun,
      fills_add (a := (name, data)) h.criticalOptions (by simp) (insertOnce_ok hnew), fills_skip h.extensions nofun,
      fun hnone => principals_skip (h.principals hnone) nofun⟩
  | extension name data =>
    obtain ⟨new, hnew, hb⟩ := bind_ok.1 hc
    cases hb
    exact ⟨h.publicKey, h.validAfter, h.validBefore, fills_skip h.serial nofun, fills_skip h.certType nofun,
      fills_skip h.keyId nofun, fills_skip h.comment nofun, fills_skip h.criticalOptions nofun,
      fills_add (a := (name, data)) h.extensions (by simp) (insertOnce_ok hnew),
      fun hnone => principals_skip (h.principals hnone) nofun⟩
  | comment comment =>
    obtain ⟨new, hnew, hb⟩ := bind_ok.1 hc
    cases hb
    exact ⟨h.publicKey, h.validAfter, h.validBefore, fills_skip h.serial nofun, fills_skip h.certType nofun,
      fills_skip h.keyId nofun, fills_add h.comment (by simp) (setOnce_ok hnew),
      fills_skip h.criticalOptions nofun, fills_skip h.extensions nofun,
      fun hnone => principals_skip (h.principals hnone) nofun⟩

/-- **What a run of calls leaves behind.** -/
theorem records_run : ∀ {more calls : List Builder.Call} {b b' : Builder},
    b.Records publicKey validAfter validBefore calls → b.run more = .ok b' →
      b'.Records publicKey validAfter validBefore (calls ++ more)
  | [], calls, b, b', h, hrun => by
    cases hrun
    rw [List.append_nil]
    exact h
  | c :: more, calls, b, b', h, hrun => by
    obtain ⟨next, hc, hrun⟩ := bind_ok.1 hrun
    have hrest := records_run (records_call h hc) hrun
    rw [List.append_assoc] at hrest
    exact hrest

end

/-! ## Signing and validating -/

/-- **What the signing key is asked to sign, and what it answers.** -/
def Builder.Signed (C : Crates) (b : Builder) (key : SigningKey) (tbs : Bytes) (signature : Signature) : Prop :=
  ∃ principals, b.validPrincipals = some principals ∧ (b.unsigned principals key.publicKey).encodeTbs C = .ok tbs ∧
    key.trySign tbs = .ok signature

section
variable {C : Crates} {D : Digests} {W : WolfCrypt}

end

namespace Toy

def subject : KeyData := .ed25519 ⟨List.replicate 32 3, by decide⟩

theorem subject_certifiable : subject.Certifiable Rfc4251.wireCrates := ⟨trivial, _, _, rfl, rfl, rfl⟩

end Toy

end Ssh
end Wolf
