import WolfsslRs.SshKeyFile
import WolfsslRs.SshPrivateTrip
/-!
# SshPpk — PuTTY's private key files (`ppk.rs`)

A file is a header and lines of the form `key: value`, in any order and later ones in the place of earlier ones; two of
the keys announce lines of base64.  `PpkContainer::new` decrypts the private blob, checks a MAC over five of the fields,
and only then takes the keys apart.  Base64, hexadecimals, hashes, Argon2 and AES are parameters.
-/
namespace Wolf
namespace Ssh
namespace Ppk

open Reader Program

/-! ## The file -/

inductive PpkKey where
  | encryption
  | comment
  | mac
  | keyDerivation
  | argon2Memory
  | argon2Passes
  | argon2Parallelism
  | argon2Salt
  deriving DecidableEq, Repr

def PpkKey.tryFrom (value : Text) : Option PpkKey :=
  [("Encryption".toList, PpkKey.encryption), ("Comment".toList, .comment), ("Private-MAC".toList, .mac),
    ("Key-Derivation".toList, .keyDerivation), ("Argon2-Memory".toList, .argon2Memory),
    ("Argon2-Passes".toList, .argon2Passes), ("Argon2-Parallelism".toList, .argon2Parallelism),
    ("Argon2-Salt".toList, .argon2Salt)].lookup value

inductive IntErrorKind where
  | empty
  | invalidDigit
  | posOverflow
  deriving DecidableEq, Repr

/-- A variant of `argon2::Error`, by its number. -/
abbrev Argon2Error := Nat

inductive PpkParseError where
  | algorithm (e : Exit)
  | header (header : Text)
  /-- `Syntax` -/
  | malformed (line : Text)
  | hexFormat (message : Text)
  | invalidInteger (kind : IntErrorKind)
  | incorrectMac
  | unknownKey (key : Text)
  | missingValue (key : PpkKey)
  | missingPublicKey
  | missingPrivateKey
  | base64
  | eof
  | unsupportedFormatVersion (version : Nat)
  | unsupportedEncryption (encryption : Text)
  | unsupportedKdf (kdf : Text)
  | argon2 (e : Argon2Error)
  | encrypted
  deriving DecidableEq

/-- `Error`, with its variant `Ppk`. -/
inductive PpkError where
  | ppk (e : PpkParseError)
  | other (e : Exit)
  deriving DecidableEq

/-- `str::parse` for an unsigned integer: an optional plus and decimal digits up to `max`. -/
def parseDigits (max : Nat) : Text → Nat → Except IntErrorKind Nat
  | [], n => .ok n
  | c :: cs, n =>
    if ¬ c.isDigit then .error .invalidDigit
    else
      let m := n * 10 + (c.toNat - '0'.toNat)
      if max < m then .error .posOverflow else parseDigits max cs m

def parseInt (max : Nat) : Text → Except IntErrorKind Nat
  | [] => .error .empty
  | ['+'] => .error .invalidDigit
  | '+' :: digits => parseDigits max digits 0
  | digits => parseDigits max digits 0

/-- `str::split_once` at a text. -/
def splitOnceAt (sep : Text) : Text → Option (Text × Text)
  | [] => none
  | c :: cs =>
    if sep <+: c :: cs then some ([], (c :: cs).drop sep.length)
    else (splitOnceAt sep cs).map fun (before, after) => (c :: before, after)

inductive Argon2Algorithm where
  | argon2i
  | argon2d
  | argon2id
  deriving DecidableEq, Repr

structure Argon2 where
  algorithm : Argon2Algorithm
  memory : Nat
  passes : Nat
  parallelism : Nat

/-- What the crates provide. -/
structure PpkCrates where
  /-- `Base64::decode_in_place` -/
  base64Decode : Bytes → Option Bytes
  /-- `Vec::from_hex`, with the text of its error -/
  fromHex : Text → Except Text Bytes
  /-- `argon2::Params::new` -/
  argon2Params : (memory passes parallelism : Nat) → Except Argon2Error Unit
  hashPasswordInto : Argon2 → (password salt : Bytes) → (len : Nat) → Except Argon2Error {w : Bytes // w.length = len}
  sha1 : Bytes → {w : Bytes // w.length = 20}
  hmacSha1 : (key data : Bytes) → Bytes
  hmacSha256 : (key data : Bytes) → Bytes
  aes256CbcDecrypt : (key iv buffer : Bytes) → Except Exit Bytes

/-- The `BTreeMap` of values, by its lookups. -/
abbrev Values := PpkKey → Option Text

def Values.insert (values : Values) (key : PpkKey) (value : Text) : Values :=
  fun k => if k = key then some value else values k

structure PpkWrapper where
  version : Nat
  algorithm : Algorithm
  publicKey : Option Bytes
  privateKey : Option Bytes
  values : Values

def ppkHeader : Text := "PuTTY-User-Key-File-".toList
def colon : Text := ": ".toList

/-- Lines of base64 that were announced: their key, how many are to come, and what they hold so far. -/
structure Pending where
  key : Text
  left : Nat
  content : Bytes

section
variable (P : PpkCrates)

/-- Behind the last announced line. -/
def PpkWrapper.store (ppk : PpkWrapper) (key : Text) (content : Bytes) : Except PpkParseError PpkWrapper :=
  match P.base64Decode content with
  | none => .error .base64
  | some decoded =>
    if key = "Public-Lines".toList then .ok { ppk with publicKey := some decoded }
    else if key = "Private-Lines".toList then .ok { ppk with privateKey := some decoded }
    else .error (.unknownKey key)

/-- Announced lines, the inner loop of `PpkWrapper::try_from`: it ends when none is left. -/
def PpkWrapper.collect (ppk : PpkWrapper) (p : Pending) : Except PpkParseError (PpkWrapper × Option Pending) :=
  if p.left = 0 then do
    let ppk ← ppk.store P p.key p.content
    .ok (ppk, none)
  else .ok (ppk, some p)

/-- One line of the file. -/
def PpkWrapper.next : PpkWrapper × Option Pending → Text → Except PpkParseError (PpkWrapper × Option Pending)
  | (ppk, some p), line => ppk.collect P { p with left := p.left - 1, content := p.content ++ line.utf8 }
  | (ppk, none), line =>
    match splitOnceAt colon line with
    | none => .error (.malformed line)
    | some (key, value) =>
      if "-Lines".toList <:+ key then
        -- a `usize` of 64 bits
        match parseInt (2 ^ 64 - 1) value with
        | .error kind => .error (.invalidInteger kind)
        | .ok n => ppk.collect P ⟨key, n, []⟩
      else
        match PpkKey.tryFrom key with
        | none => .error (.unknownKey key)
        | some k => .ok ({ ppk with values := ppk.values.insert k value }, none)

/-- The lines behind the header. -/
def PpkWrapper.body (ppk : PpkWrapper) (lines : List Text) : Except PpkParseError PpkWrapper := do
  let (ppk, pending) ← lines.foldlM (PpkWrapper.next P) (ppk, none)
  match pending with
  | none => .ok ppk
  | some _ => .error .eof

def PpkWrapper.tryFrom (contents : Text) : Except PpkParseError PpkWrapper :=
  match lines contents with
  | [] => .error .eof
  | first :: lines =>
    if ¬ ppkHeader <+: first then .error (.header first)
    else
      let header := first.drop ppkHeader.length
      match splitOnceAt colon header with
      | none => .error (.header header)
      | some (headerVersion, headerAlgorithm) =>
        match parseInt 255 headerVersion with
        | .error _ => .error (.header header)
        | .ok version =>
          if version ≠ 3 ∧ version ≠ 2 then .error (.unsupportedFormatVersion version)
          else
            match Algorithm.fromStr headerAlgorithm with
            | .error e => .error (.algorithm e)
            | .ok algorithm => PpkWrapper.body P ⟨version, algorithm, none, none, fun _ => none⟩ lines

end

/-! ## Keys of the encryption -/

inductive Kdf where
  | argon2 (kdf : Argon2) (salt : Bytes)
  | ppkV2

structure PpkEncryption where
  kdf : Kdf
  passphrase : Text

def orPpk {α : Type} (r : Except PpkParseError α) : Except PpkError α := r.mapError .ppk

def orOther {α : Type} (r : Except Exit α) : Except PpkError α := r.mapError .other

def ppkV2MacFront : Bytes := Text.utf8 "putty-private-key-file-mac-key".toList

section
variable (P : PpkCrates)

def Kdf.intValue (values : Values) (key : PpkKey) : Except PpkParseError Nat :=
  match values key with
  | none => .error (.missingValue key)
  | some v =>
    match parseInt (2 ^ 32 - 1) v with
    | .error kind => .error (.invalidInteger kind)
    | .ok n => .ok n

def hexValue (values : Values) (key : PpkKey) : Except PpkParseError Bytes :=
  match values key with
  | none => .error (.missingValue key)
  | some v =>
    match P.fromHex v with
    | .error message => .error (.hexFormat message)
    | .ok bytes => .ok bytes

def argon2AlgorithmOf (algorithm : Text) : Except PpkParseError Argon2Algorithm :=
  if algorithm = "Argon2i".toList then .ok .argon2i
  else if algorithm = "Argon2d".toList then .ok .argon2d
  else if algorithm = "Argon2id".toList then .ok .argon2id
  else .error (.unsupportedKdf algorithm)

def Kdf.newV3 (algorithm : Text) (ppk : PpkWrapper) : Except PpkParseError Kdf := do
  let argonAlgorithm ← argon2AlgorithmOf algorithm
  let memory ← Kdf.intValue ppk.values .argon2Memory
  let passes ← Kdf.intValue ppk.values .argon2Passes
  let parallelism ← Kdf.intValue ppk.values .argon2Parallelism
  match P.argon2Params memory passes parallelism with
  | .error e => .error (.argon2 e)
  | .ok () =>
    let salt ← hexValue P ppk.values .argon2Salt
    .ok (.argon2 ⟨argonAlgorithm, memory, passes, parallelism⟩ salt)

/-- The key and the vector of AES, and the key of the MAC. -/
structure AesParams where
  key : Bytes
  iv : Bytes
  macKey : Bytes

def deriveAesParams (enc : PpkEncryption) : Except PpkError AesParams :=
  match enc.kdf with
  | .argon2 kdf salt =>
    match P.hashPasswordInto kdf enc.passphrase.utf8 salt 80 with
    | .error e => .error (.ppk (.argon2 e))
    | .ok keyIvMac => .ok ⟨keyIvMac.1.take 32, (keyIvMac.1.drop 32).take 16, (keyIvMac.1.drop 48).take 32⟩
  | .ppkV2 =>
    let password := enc.passphrase.utf8
    let hashes := (P.sha1 ([0, 0, 0, 0] ++ password)).1 ++ (P.sha1 ([0, 0, 0, 1] ++ password)).1
    .ok ⟨hashes.take 32, List.replicate 16 0, (P.sha1 (ppkV2MacFront ++ password)).1⟩

/-- The encryption of `PpkContainer::new`. -/
def encryptionOf (ppk : PpkWrapper) (passphrase : Option Text) : Except PpkError (Option PpkEncryption) :=
  match ppk.values .encryption with
  | none => .ok none
  | some v =>
    if v = "none".toList then .ok none
    else if v = "aes256-cbc".toList then
      match passphrase with
      | none => .error (.ppk .encrypted)
      | some passphrase =>
        if ppk.version = 2 then .ok (some ⟨.ppkV2, passphrase⟩)
        else if ppk.version = 3 then
          match ppk.values .keyDerivation with
          | none => .error (.ppk (.missingValue .keyDerivation))
          | some kdf => do
            let kdf ← orPpk (Kdf.newV3 P kdf ppk)
            .ok (some ⟨kdf, passphrase⟩)
        else .error (.ppk (.unsupportedFormatVersion ppk.version))
    else .error (.ppk (.unsupportedEncryption v))

def decryptWith (encryption : Option PpkEncryption) (privateKey : Bytes) : Except PpkError Bytes :=
  match encryption with
  | none => .ok privateKey
  | some enc => do
    let params ← deriveAesParams P enc
    orOther (P.aes256CbcDecrypt params.key params.iv privateKey)

def unreachableCode : PpkError := .other (.panic "internal error: entered unreachable code")

def hmacKeyOf (version : Nat) (encryption : Option PpkEncryption) : Except PpkError Bytes :=
  match encryption with
  | none =>
    if version = 2 then .ok (P.sha1 ppkV2MacFront).1
    else if version = 3 then .ok []
    else .error unreachableCode
  | some enc => do
    let params ← deriveAesParams P enc
    .ok params.macKey

def expectedMac (version : Nat) (hmacKey macBuffer : Bytes) : Except PpkError Bytes :=
  if version = 3 then .ok (P.hmacSha256 hmacKey macBuffer)
  else if version = 2 then .ok (P.hmacSha1 hmacKey macBuffer)
  else .error unreachableCode

end

/-! ## The container -/

structure PpkContainer where
  publicKey : PublicKey
  keypairData : KeypairData
  deriving DecidableEq

section
variable (C : Crates)

/-- `decode_private_key_as`, with all the algorithms built in. -/
def decodePrivateKeyAs (publicKey : PublicKey) (algorithm : Algorithm) : EStateM Exit Bytes KeypairData :=
  match algorithm, publicKey.keyData with
  | .dsa, .dsa pk => do
    let x ← C.mpint.decode
    if C.isPositive x then pure (.dsa ⟨pk, x⟩) else throw formatError
  | .rsa _, .rsa pk => do
    let d ← C.mpint.decode
    let p ← C.mpint.decode
    let q ← C.mpint.decode
    let iqmp ← C.mpint.decode
    let privateKey ← orThrow (RsaPrivateKey.new C d iqmp p q)
    pure (.rsa ⟨pk, privateKey⟩)
  | .ed25519, .ed25519 pk => do
    let e ← C.mpint.decode
    if h : 32 < e.length then throw cryptoError
    else pure (.ed25519 ⟨pk, ⟨List.replicate (32 - e.length) 0 ++ e, by
      rw [List.length_append, List.length_replicate]; omega⟩⟩)
  | .ecdsa curve, .ecdsa pk => do
    let e ← C.mpint.decode
    match C.asPositiveBytes e with
    | none => throw cryptoError
    | some bytes =>
      if curve.fieldSize < bytes.length then throw cryptoError
      else if h : pk.curve = curve ∧ bytes.length ≤ pk.curve.fieldSize then
        pure (.ecdsa ⟨pk, List.replicate (pk.curve.fieldSize - bytes.length) 0 ++ bytes, by
          rw [List.length_append, List.length_replicate]; omega⟩)
      else throw cryptoError
  | algorithm, _ => throw (.error (.algorithmUnsupported algorithm))

/-- The five fields the MAC is computed over. -/
structure Fields where
  algorithm : Algorithm
  encryption : Text
  comment : Text
  publicKey : Bytes
  privateKey : Bytes

def Fields.macBuffer (f : Fields) : Except Exit Bytes :=
  cat [C.string.encode f.algorithm.asStr, C.bytes.encode f.encryption.utf8, C.bytes.encode f.comment.utf8,
    C.bytes.encode f.publicKey, C.bytes.encode f.privateKey]

/-- The end of `PpkContainer::new`, behind the check of the MAC. -/
def Fields.container (f : Fields) : Except Exit PpkContainer := do
  let publicKey ← PublicKey.fromBytes C f.publicKey
  match (decodePrivateKeyAs C publicKey f.algorithm).run f.privateKey with
  | .error e _ => .error e
  | .ok keypairData _ => .ok ⟨{ publicKey with comment := f.comment.utf8 }, keypairData⟩

variable (P : PpkCrates)

def PpkContainer.new (ppk : PpkWrapper) (passphrase : Option Text) : Except PpkError PpkContainer := do
  let encryption ← encryptionOf P ppk passphrase
  let mac ← orPpk (hexValue P ppk.values .mac)
  match ppk.publicKey, ppk.privateKey with
  | none, _ => .error (.ppk .missingPublicKey)
  | some _, none => .error (.ppk .missingPrivateKey)
  | some publicKey, some privateKey =>
    let privateKey ← decryptWith P encryption privateKey
    let fields : Fields :=
      ⟨ppk.algorithm, (ppk.values .encryption).getD [], (ppk.values .comment).getD [], publicKey, privateKey⟩
    let macBuffer ← orOther (fields.macBuffer C)
    let hmacKey ← hmacKeyOf P ppk.version encryption
    let expected ← expectedMac P ppk.version hmacKey macBuffer
    if expected ≠ mac then .error (.ppk .incorrectMac)
    else orOther (fields.container C)

/-- What `PrivateKey::from_ppk` does with a text. -/
def PpkContainer.ofText (contents : Text) (passphrase : Option Text) : Except PpkError PpkContainer := do
  let ppk ← orPpk (PpkWrapper.tryFrom P contents)
  PpkContainer.new C P ppk passphrase

end

/-! ## What a file that opens was checked for -/

def aes256Cbc : Text := "aes256-cbc".toList

/-- **The keys of a file**, from its version, its parameters and the passphrase: the key and the vector of the cipher where
the private blob is encrypted, and the key of the MAC. -/
inductive Derived (P : PpkCrates) (ppk : PpkWrapper) (passphrase : Option Text) : Option (Bytes × Bytes) → Bytes → Prop
  | plainV2 (hplain : ppk.values .encryption ≠ some aes256Cbc) (hversion : ppk.version = 2) :
    Derived P ppk passphrase none (P.sha1 ppkV2MacFront).1
  | plainV3 (hplain : ppk.values .encryption ≠ some aes256Cbc) (hversion : ppk.version = 3) :
    Derived P ppk passphrase none []
  | encryptedV2 {password : Text} (henc : ppk.values .encryption = some aes256Cbc) (hversion : ppk.version = 2)
      (hpass : passphrase = some password) :
    Derived P ppk passphrase
      (some (((P.sha1 ([0, 0, 0, 0] ++ password.utf8)).1 ++ (P.sha1 ([0, 0, 0, 1] ++ password.utf8)).1).take 32,
        List.replicate 16 0))
      (P.sha1 (ppkV2MacFront ++ password.utf8)).1
  | encryptedV3 {password name : Text} {kdf : Argon2} {salt : Bytes} {out : {w : Bytes // w.length = 80}}
      (henc : ppk.values .encryption = some aes256Cbc) (hversion : ppk.version = 3) (hpass : passphrase = some password)
      (hname : ppk.values .keyDerivation = some name) (hkdf : Kdf.newV3 P name ppk = .ok (.argon2 kdf salt))
      (hout : P.hashPasswordInto kdf password.utf8 salt 80 = .ok out) :
    Derived P ppk passphrase (some (out.1.take 32, (out.1.drop 32).take 16)) ((out.1.drop 48).take 32)

/-- The private blob of a file, decrypted. -/
def Decrypts (P : PpkCrates) (cipher : Option (Bytes × Bytes)) (blob privateKey : Bytes) : Prop :=
  match cipher with
  | none => privateKey = blob
  | some (key, iv) => P.aes256CbcDecrypt key iv blob = .ok privateKey

/-- **The fields are those of the file**; what it does not have is empty. -/
structure Fields.Of (P : PpkCrates) (ppk : PpkWrapper) (cipher : Option (Bytes × Bytes)) (f : Fields) : Prop where
  algorithm : f.algorithm = ppk.algorithm
  encryption : f.encryption = (ppk.values .encryption).getD []
  comment : f.comment = (ppk.values .comment).getD []
  publicKey : ppk.publicKey = some f.publicKey
  privateKey : ∃ blob, ppk.privateKey = some blob ∧ Decrypts P cipher blob f.privateKey

def hmacOf (P : PpkCrates) (version : Nat) : (key data : Bytes) → Bytes :=
  if version = 3 then P.hmacSha256 else P.hmacSha1

/-- The fields, read off what the MAC is computed over with the wire types themselves. -/
def Fields.read : EStateM Exit Bytes Fields := do
  let id ← Rfc4251.utf8String.decode
  let algorithm ← orThrow (Algorithm.fromStr id)
  let encryption ← Rfc4251.utf8String.decode
  let comment ← Rfc4251.utf8String.decode
  let publicKey ← Rfc4251.bytes.decode
  let privateKey ← Rfc4251.bytes.decode
  pure ⟨algorithm, encryption, comment, publicKey, privateKey⟩

section
variable {C : Crates} {P : PpkCrates} {ppk : PpkWrapper} {passphrase : Option Text}

theorem hexValue_ok {values : Values} {key : PpkKey} {bytes : Bytes} (h : hexValue P values key = .ok bytes) :
    ∃ text, values key = some text ∧ P.fromHex text = .ok bytes := by
  unfold hexValue at h
  split at h
  · cases h
  · rename_i text htext
    split at h
    · cases h
    · rename_i bytes' hbytes
      cases h
      exact ⟨text, htext, hbytes⟩

theorem expectedMac_ok {version : Nat} {key buffer mac : Bytes} (h : expectedMac P version key buffer = .ok mac) :
    mac = hmacOf P version key buffer := by
  unfold expectedMac at h
  unfold hmacOf
  split at h
  · rename_i hthree
    rw [if_pos hthree]
    exact (Except.ok.inj h).symm
  · rename_i hthree
    rw [if_neg hthree]
    split at h
    · exact (Except.ok.inj h).symm
    · cases h

theorem newV3_argon2 {name : Text} {kdf : Kdf} (h : Kdf.newV3 P name ppk = .ok kdf) :
    ∃ argon salt, kdf = .argon2 argon salt := by
  obtain ⟨algorithm, -, h⟩ := bind_ok.1 h
  obtain ⟨memory, -, h⟩ := bind_ok.1 h
  obtain ⟨passes, -, h⟩ := bind_ok.1 h
  obtain ⟨parallelism, -, h⟩ := bind_ok.1 h
  split at h
  · cases h
  · obtain ⟨salt, -, h⟩ := bind_ok.1 h
    exact ⟨_, salt, (Except.ok.inj h).symm⟩

/-- The encryption is the file's: none, or AES with the version's way to keys. -/
theorem encryptionOf_ok {encryption : Option PpkEncryption} (h : encryptionOf P ppk passphrase = .ok encryption) :
    (encryption = none ∧ ppk.values .encryption ≠ some aes256Cbc) ∨
    (ppk.values .encryption = some aes256Cbc ∧ ∃ password, passphrase = some password ∧
      ((ppk.version = 2 ∧ encryption = some ⟨.ppkV2, password⟩) ∨
        (ppk.version = 3 ∧ ∃ name kdf salt, ppk.values .keyDerivation = some name ∧
          Kdf.newV3 P name ppk = .ok (.argon2 kdf salt) ∧ encryption = some ⟨.argon2 kdf salt, password⟩))) := by
  unfold encryptionOf at h
  cases hvalue : ppk.values .encryption with
  | none =>
    rw [hvalue] at h
    exact .inl ⟨(Except.ok.inj h).symm, nofun⟩
  | some v =>
    rw [hvalue] at h
    simp only at h
    split at h
    · rename_i hnone
      refine .inl ⟨(Except.ok.inj h).symm, fun haes => ?_⟩
      rw [hnone] at haes
      exact absurd (Option.some.inj haes) (by decide)
    · split at h
      · rename_i haes
        refine .inr ⟨congrArg some haes, ?_⟩
        cases passphrase with
        | none => cases h
        | some password =>
          refine ⟨password, rfl, ?_⟩
          simp only at h
          split at h
          · exact .inl ⟨‹_›, (Except.ok.inj h).symm⟩
          · split at h
            · rename_i hthree
              cases hname : ppk.values .keyDerivation with
              | none => rw [hname] at h; cases h
              | some name =>
                rw [hname] at h
                obtain ⟨kdf, hkdf, h⟩ := bind_ok.1 h
                obtain ⟨argon, salt, rfl⟩ := newV3_argon2 (mapError_ok.1 hkdf)
                exact .inr ⟨hthree, name, argon, salt, rfl, mapError_ok.1 hkdf, (Except.ok.inj h).symm⟩
            · cases h
      · cases h

/-- **What is decrypted, and the key of the MAC, come from the file's keys.** -/
theorem derived_of_ok {encryption : Option PpkEncryption} {blob privateKey hmacKey : Bytes}
    (henc : encryptionOf P ppk passphrase = .ok encryption) (hdec : decryptWith P encryption blob = .ok privateKey)
    (hkey : hmacKeyOf P ppk.version encryption = .ok hmacKey) :
    ∃ cipher, Derived P ppk passphrase cipher hmacKey ∧ Decrypts P cipher blob privateKey := by
  rcases encryptionOf_ok henc with ⟨rfl, hplain⟩ | ⟨haes, password, hpass, hcase⟩
  · have hblob : privateKey = blob := (Except.ok.inj hdec).symm
    unfold hmacKeyOf at hkey
    simp only at hkey
    split at hkey
    · rename_i htwo
      cases hkey
      exact ⟨none, .plainV2 hplain htwo, hblob⟩
    · split at hkey
      · rename_i hthree
        cases hkey
        exact ⟨none, .plainV3 hplain hthree, hblob⟩
      · cases hkey
  · rcases hcase with ⟨htwo, rfl⟩ | ⟨hthree, name, kdf, salt, hname, hkdf, rfl⟩
    · obtain ⟨params, hparams, hdec⟩ := bind_ok.1 hdec
      obtain ⟨params', hparams', hkey⟩ := bind_ok.1 hkey
      cases hparams
      cases hparams'
      cases hkey
      exact ⟨_, .encryptedV2 haes htwo hpass, mapError_ok.1 hdec⟩
    · obtain ⟨params, hparams, hdec⟩ := bind_ok.1 hdec
      obtain ⟨params', hparams', hkey⟩ := bind_ok.1 hkey
      obtain rfl := Except.ok.inj (hparams.symm.trans hparams')
      unfold deriveAesParams at hparams
      simp only at hparams
      split at hparams
      · cases hparams
      · rename_i out hout
        cases hparams
        cases hkey
        exact ⟨_, .encryptedV3 haes hthree hpass hname hkdf hout, mapError_ok.1 hdec⟩

/-! ## The lines keep the header -/

/-- The version and the algorithm are the header's. -/
def PpkWrapper.Under (version : Nat) (algorithm : Algorithm) (ppk : PpkWrapper) : Prop :=
  ppk.version = version ∧ ppk.algorithm = algorithm

theorem under_store {version : Nat} {algorithm : Algorithm} {ppk' : PpkWrapper} {key : Text} {content : Bytes}
    (hI : ppk.Under version algorithm) (h : ppk.store P key content = .ok ppk') : ppk'.Under version algorithm := by
  unfold PpkWrapper.store at h
  split at h
  · cases h
  · split at h
    · cases h; exact hI
    · split at h
      · cases h; exact hI
      · cases h

theorem under_collect {version : Nat} {algorithm : Algorithm} {p : Pending} {s : PpkWrapper × Option Pending}
    (hI : ppk.Under version algorithm) (h : ppk.collect P p = .ok s) : s.1.Under version algorithm := by
  unfold PpkWrapper.collect at h
  split at h
  · obtain ⟨ppk', hstore, h⟩ := bind_ok.1 h
    cases h
    exact under_store hI hstore
  · cases h
    exact hI

theorem under_next {version : Nat} {algorithm : Algorithm} (s : PpkWrapper × Option Pending) (line : Text)
    (s' : PpkWrapper × Option Pending) (hI : s.1.Under version algorithm) (h : PpkWrapper.next P s line = .ok s') :
    s'.1.Under version algorithm := by
  obtain ⟨ppk, pending⟩ := s
  cases pending with
  | some p => exact under_collect hI h
  | none =>
    simp only [PpkWrapper.next] at h
    split at h
    · cases h
    · split at h
      · split at h
        · cases h
        · exact under_collect hI h
      · split at h
        · cases h
        · cases h
          exact hI

/-- **A file's algorithm is the one its name is read as.** -/
theorem tryFrom_ok {contents : Text} (h : PpkWrapper.tryFrom P contents = .ok ppk) :
    Algorithm.fromStr ppk.algorithm.asStr = .ok ppk.algorithm := by
  unfold PpkWrapper.tryFrom at h
  split at h
  · cases h
  split at h
  · cases h
  simp only at h
  split at h
  · cases h
  split at h
  · cases h
  split at h
  · cases h
  split at h
  · cases h
  rename_i algorithm halgorithm
  obtain ⟨⟨ppk', pending⟩, hfold, h⟩ := bind_ok.1 h
  have hunder := foldlM_ok under_next _ ⟨rfl, rfl⟩ hfold
  cases pending with
  | some p => cases h
  | none =>
    cases h
    rw [hunder.2, (asStr_of_fromStr halgorithm).1]
    exact halgorithm

/-- **The fields are read back from what the MAC is computed over.** -/
theorem restores_fields (hC : C.RoundTrips) {f : Fields} {w : Bytes}
    (hname : Algorithm.fromStr f.algorithm.asStr = .ok f.algorithm) (hw : f.macBuffer C = .ok w) :
    Restores Fields.read w f := by
  unfold Fields.macBuffer at hw
  rw [← hC.string_eq, ← hC.string_eq] at hw
  refine restores_cat hw (fun _ hu => hC.restores_utf8String hu) fun _ hw => restores_then (restores_orThrow hname) ?_
  refine restores_cat hw (fun _ hu => hC.restores_utf8String hu) fun _ hw => ?_
  refine restores_cat hw (fun _ hu => hC.restores_utf8String hu) fun _ hw => ?_
  refine restores_cat hw (fun _ hu => hC.restores_bytes hu) fun _ hw => ?_
  rw [cat_one] at hw
  exact restores_end (hC.restores_bytes hw) restores_pure

end

/-- **A file opens only if its MAC is that of its fields**, under the keys of its version, parameters and passphrase; the
fields are read off what the MAC is computed over, and the answer is computed from them alone. -/
theorem ppk_authenticated (C : Crates) (P : PpkCrates) (hC : C.RoundTrips) (contents : Text) (passphrase : Option Text)
    (out : PpkContainer) (h : PpkContainer.ofText C P contents passphrase = .ok out) :
    ∃ ppk fields cipher key buffer, PpkWrapper.tryFrom P contents = .ok ppk ∧ Fields.Of P ppk cipher fields ∧
      Derived P ppk passphrase cipher key ∧
      fields.macBuffer C = .ok buffer ∧ Fields.read.run buffer = .ok fields [] ∧
      (∃ text, ppk.values .mac = some text ∧ P.fromHex text = .ok (hmacOf P ppk.version key buffer)) ∧
      fields.container C = .ok out := by
  obtain ⟨ppk, hppk, h⟩ := bind_ok.1 h
  have hppk := mapError_ok.1 hppk
  obtain ⟨encryption, henc, h⟩ := bind_ok.1 h
  obtain ⟨mac, hmac, h⟩ := bind_ok.1 h
  split at h
  · cases h
  · cases h
  rename_i publicKey blob hpublic hprivate
  obtain ⟨privateKey, hdec, h⟩ := bind_ok.1 h
  obtain ⟨buffer, hbuffer, h⟩ := bind_ok.1 h
  obtain ⟨key, hkey, h⟩ := bind_ok.1 h
  obtain ⟨expected, hexpected, h⟩ := bind_ok.1 h
  split at h
  · cases h
  rename_i hsame
  obtain ⟨cipher, hderived, hblob⟩ := derived_of_ok henc hdec hkey
  have hbuffer := mapError_ok.1 hbuffer
  obtain ⟨text, htext, hhex⟩ := hexValue_ok (mapError_ok.1 hmac)
  rw [← not_not.1 hsame, expectedMac_ok hexpected] at hhex
  exact ⟨ppk, _, cipher, key, buffer, hppk, ⟨rfl, rfl, rfl, hpublic, blob, hprivate, hblob⟩, hderived, hbuffer,
    restores_run (restores_fields hC (tryFrom_ok hppk) hbuffer), ⟨text, htext, hhex⟩, mapError_ok.1 h⟩

def samplePub : Ed25519PublicKey where
  bytes :=
    [0x8a, 0x88, 0xe3, 0xdd, 0x74, 0x09, 0xf1, 0x95, 0xfd, 0x52, 0xdb, 0x2d, 0x3c, 0xba, 0x5d, 0x72, 0xca,
      0x67, 0x09, 0xbf, 0x1d, 0x94, 0x12, 0x1b, 0xf3, 0x74, 0x88, 0x01, 0xb4, 0x0f, 0x6f, 0x5c]
  size := rfl

def sampleSeed : Ed25519PrivateKey := ⟨List.replicate 32 1, rfl⟩

def sampleMac : Bytes :=
  [0xd1, 0xc9, 0x23, 0xc9, 0x3b, 0x4b, 0x24, 0xfe, 0xbe, 0x58, 0xfc, 0x21, 0x3e, 0x43, 0xad, 0x55, 0xb2, 0x65,
    0xbb, 0x7a, 0x3b, 0x81, 0xb6, 0x89, 0x11, 0xab, 0xac, 0xd6, 0x0a, 0x42, 0x66, 0xfd]

def samplePublicText : Text := "AAAAC3NzaC1lZDI1NTE5AAAAIIqI4910CfGV/VLbLTy6XXLKZwm/HZQSG/N0iAG0".toList
def samplePublicRest : Text := "D29c".toList
def samplePrivateText : Text := "AAAAIAEBAQEBAQEBAQEBAQEBAQEBAQEBAQEBAQEBAQEBAQEB".toList
def sampleMacText : Text := "d1c923c93b4b24febe58fc213e43ad55b265bb7a3b81b68911abacd60a4266fd".toList

def sampleText : Text :=
  "PuTTY-User-Key-File-3: ssh-ed25519\nComment: b\nEncryption: none\nPublic-Lines: 2\n".toList ++
    samplePublicText ++ '\n' :: samplePublicRest ++ "\nPrivate-Lines: 1\n".toList ++ samplePrivateText ++
    "\nPrivate-MAC: ".toList ++ sampleMacText ++ "\nComment: c\n".toList

def samplePublic : Bytes := [0, 0, 0, 11] ++ sshEd25519.utf8 ++ [0, 0, 0, 32] ++ samplePub.bytes
def samplePrivate : Bytes := [0, 0, 0, 32] ++ sampleSeed.bytes

def sampleFields : Fields := ⟨.ed25519, "none".toList, "c".toList, samplePublic, samplePrivate⟩

/-- The crates on what the file asks of them. -/
def sampleCrates : PpkCrates where
  base64Decode content :=
    if content = samplePublicText.utf8 ++ samplePublicRest.utf8 then some samplePublic
    else if content = samplePrivateText.utf8 then some samplePrivate
    else none
  fromHex text := if text = sampleMacText then .ok sampleMac else .error []
  argon2Params _ _ _ := .error 0
  hashPasswordInto _ _ _ _ := .error 0
  sha1 _ := ⟨List.replicate 20 0, rfl⟩
  hmacSha1 _ _ := []
  hmacSha256 key data := if key = [] ∧ sampleFields.macBuffer Rfc4251.utf8Crates = .ok data then sampleMac else []
  aes256CbcDecrypt _ _ _ := .error cryptoError

def sampleContainer : PpkContainer := ⟨⟨.ed25519 samplePub, [99]⟩, .ed25519 ⟨samplePub, sampleSeed⟩⟩

theorem ppk_authenticated_sample :
    PpkContainer.ofText Rfc4251.utf8Crates sampleCrates sampleText none = .ok sampleContainer ∧
      ∃ fields buffer, fields.macBuffer Rfc4251.utf8Crates = .ok buffer ∧
        Fields.read.run buffer = .ok fields [] ∧
        fields.container Rfc4251.utf8Crates = .ok sampleContainer := by
  have hopen : PpkContainer.ofText Rfc4251.utf8Crates sampleCrates sampleText none = .ok sampleContainer := by
    decide +kernel
  obtain ⟨ppk, fields, cipher, key, buffer, -, -, -, hbuffer, hread, -, hout⟩ :=
    ppk_authenticated Rfc4251.utf8Crates sampleCrates Rfc4251.utf8Crates_roundTrips sampleText none sampleContainer hopen
  exact ⟨hopen, fields, buffer, hbuffer, hread, hout⟩

end Ppk
end Ssh
end Wolf
