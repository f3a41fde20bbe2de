import WolfsslRs.SshKeyFile
/-!
# SshKnownHosts — lines of hosts and a key (`known_hosts.rs`)

The hosts of a line are patterns between commas, or one hashed name.  Nothing asks for a pattern to have a character in it,
so a comma at the front, or two in a row, make an empty pattern, which is not always written so that it is read again; and
nothing asks for a hash of twenty bytes, so that a shorter one is filled up with zeros (`known_hosts_round_trip_iff`).
-/
namespace Wolf
namespace Ssh

open Reader Program Delimited

namespace KnownHosts

inductive Marker where
  | certAuthority
  | revoked
  deriving DecidableEq

def Marker.asStr : Marker → Text
  | .certAuthority => "@cert-authority".toList
  | .revoked => "@revoked".toList

def Marker.fromStr (s : Text) : Except Exit Marker :=
  if s = "@cert-authority".toList then .ok .certAuthority
  else if s = "@revoked".toList then .ok .revoked
  else .error formatError

def hashLen : Nat := 20

inductive HostPatterns where
  | patterns (names : List Text)
  | hashedName (salt : Bytes) (hash : { x : Bytes // x.length = hashLen })
  deriving DecidableEq

/-- What `base64ct` provides for whole texts, besides. -/
structure HostCrates extends TextCrates where
  base64Decode : Text → Except Exit Bytes

/-- **What is assumed of it**: the bytes are those that the text was made from, whichever text is decoded. -/
structure HostCrates.Canonical (T : HostCrates) : Prop extends TextCrates.RoundTrips T.toTextCrates,
    TextCrates.Lawful T.toTextCrates where
  decode_encode : ∀ x, T.base64Decode (T.base64Encode x) = .ok x
  canonical : ∀ t x, T.base64Decode t = .ok x → t = T.base64Encode x

def magicHashPrefix : Text := "|1|".toList

def stripFront (front s : Text) : Option Text := if front <+: s then some (s.drop front.length) else none

section
variable (T : HostCrates)

/-- `Base64::decode` into a buffer of zeros: what is longer than the buffer is an error, and the rest of it stays as it is. -/
def decodeInto (s : Text) (len : Nat) : Except Exit { x : Bytes // x.length = len } := do
  let bytes ← T.base64Decode s
  if h : bytes.length ≤ len then
    .ok ⟨bytes ++ List.replicate (len - bytes.length) 0, by rw [List.length_append, List.length_replicate]; omega⟩
  else .error (.error (.encoding .base64))

def HostPatterns.fromStr (s : Text) : Except Exit HostPatterns :=
  match stripFront magicHashPrefix s with
  | some s =>
    match splitOnce '|' s with
    | none => .error formatError
    | some (salt, hashStr) => do
      let salt ← T.base64Decode salt
      let hash ← decodeInto T hashStr hashLen
      .ok (.hashedName salt hash)
  | none =>
    if s.isEmpty then .error formatError
    else .ok (.patterns (splitTerminator ',' s))

def HostPatterns.toString : HostPatterns → Text
  | .patterns names => [','].intercalate names
  | .hashedName salt hash => magicHashPrefix ++ T.base64Encode salt ++ '|' :: T.base64Encode hash.1

structure Entry where
  marker : Option Marker
  hostPatterns : HostPatterns
  publicKey : PublicKey
  deriving DecidableEq

variable (C : Crates)

/-- The marker, if the line begins with an `@`, and the rest of the line. -/
def splitMarker (line : Text) : Except Exit (Option Marker × Text) :=
  if ['@'] <+: line then
    match splitOnce ' ' line with
    | none => .error formatError
    | some (markerStr, line) => do .ok (some (← Marker.fromStr markerStr), line)
  else .ok (none, line)

def Entry.fromStr (line : Text) : Except Exit Entry := do
  let (marker, line) ← splitMarker line
  match splitOnce ' ' line with
  | none => .error formatError
  | some (hostsStr, publicKeyStr) => do
    let hostPatterns ← HostPatterns.fromStr T hostsStr
    let publicKey ← PublicKey.fromOpenssh C T.toTextCrates publicKeyStr
    .ok ⟨marker, hostPatterns, publicKey⟩

def Entry.toString (entry : Entry) : Except Exit Text := do
  let s := match entry.marker with
    | some marker => marker.asStr ++ [' ']
    | none => []
  let key ← entry.publicKey.toString C T.toTextCrates
  .ok (s ++ HostPatterns.toString T entry.hostPatterns ++ ' ' :: key)

end

/-! ## Fields of a line -/

theorem Marker.fromStr_ok {s : Text} {marker : Marker} : Marker.fromStr s = .ok marker ↔ s = marker.asStr := by
  unfold Marker.fromStr
  constructor
  · intro h
    split at h
    · rename_i hs
      cases h
      exact hs
    · split at h
      · rename_i hs
        cases h
        exact hs
      · cases h
  · rintro rfl
    cases marker <;> rfl

def markerText : Option Marker → Text
  | some marker => marker.asStr ++ [' ']
  | none => []

/-- The fields that a line is split into. -/
structure Fields (line : Text) (marker : Option Marker) (hosts key : Text) : Prop where
  parts : line = markerText marker ++ hosts ++ ' ' :: key
  oneField : ' ' ∉ hosts
  unmarked : marker = none → ¬ ['@'] <+: line

section
variable {C : Crates} {T : HostCrates}

/-- **What an accepted line is.** -/
theorem fromStr_ok {line : Text} {entry : Entry} : Entry.fromStr T C line = .ok entry ↔ ∃ hosts key,
    Fields line entry.marker hosts key ∧ HostPatterns.fromStr T hosts = .ok entry.hostPatterns ∧
      PublicKey.fromOpenssh C T.toTextCrates key = .ok entry.publicKey := by
  constructor
  · intro h
    obtain ⟨⟨marker, rest⟩, hmarker, h⟩ := bind_ok.1 h
    dsimp only at h
    split at h
    · cases h
    · rename_i hosts key hsplit
      obtain ⟨hostPatterns, hhosts, h⟩ := bind_ok.1 h
      obtain ⟨publicKey, hkey, h⟩ := bind_ok.1 h
      cases h
      obtain ⟨rfl, hspace⟩ := splitOnce_eq_some.1 hsplit
      refine ⟨hosts, key, ?_, hhosts, hkey⟩
      unfold splitMarker at hmarker
      split at hmarker
      · split at hmarker
        · cases hmarker
        · rename_i markerStr rest hline
          obtain ⟨marker, hmarkerStr, hmarker⟩ := bind_ok.1 hmarker
          cases hmarker
          obtain ⟨rfl, -⟩ := splitOnce_eq_some.1 hline
          rw [Marker.fromStr_ok.1 hmarkerStr]
          exact ⟨by simp [markerText], hspace, nofun⟩
      · rename_i hat
        cases hmarker
        exact ⟨rfl, hspace, fun _ => hat⟩
  · rintro ⟨hosts, key, ⟨rfl, hspace, hunmarked⟩, hhosts, hkey⟩
    have hrest : splitOnce ' ' (hosts ++ ' ' :: key) = some (hosts, key) := splitOnce_eq_some.2 ⟨rfl, hspace⟩
    obtain ⟨marker, hostPatterns, publicKey⟩ := entry
    refine bind_ok.2 ⟨(marker, hosts ++ ' ' :: key), ?_, ?_⟩
    · cases marker with
      | none => exact if_neg (hunmarked rfl)
      | some marker =>
        have hat : ['@'] <+: markerText (some marker) ++ hosts ++ ' ' :: key := by
          cases marker <;> exact ⟨_, rfl⟩
        have hmarker : ' ' ∉ marker.asStr := by cases marker <;> decide
        have hsplit : splitOnce ' ' (markerText (some marker) ++ hosts ++ ' ' :: key)
            = some (marker.asStr, hosts ++ ' ' :: key) := splitOnce_eq_some.2 ⟨by simp [markerText], hmarker⟩
        show splitMarker _ = _
        rw [splitMarker, if_pos hat, hsplit]
        exact bind_ok.2 ⟨marker, Marker.fromStr_ok.2 rfl, rfl⟩
    · dsimp only
      rw [hrest]
      exact bind_ok.2 ⟨hostPatterns, hhosts, bind_ok.2 ⟨publicKey, hkey, rfl⟩⟩

theorem toString_ok {entry : Entry} {s : Text} : entry.toString T C = .ok s ↔ ∃ t,
    entry.publicKey.toString C T.toTextCrates = .ok t ∧
      s = markerText entry.marker ++ HostPatterns.toString T entry.hostPatterns ++ ' ' :: t := by
  unfold Entry.toString
  rw [bind_ok]
  refine exists_congr fun t => and_congr_right fun _ => ?_
  rw [Except.ok.injEq, eq_comm]
  rfl

/-! ## Hosts -/

theorem stripFront_eq_some {front s rest : Text} : stripFront front s = some rest ↔ s = front ++ rest := by
  unfold stripFront
  constructor
  · intro h
    split at h
    · rename_i hfront
      obtain ⟨tail, rfl⟩ := hfront
      rw [List.drop_left, Option.some.injEq] at h
      rw [h]
    · cases h
  · rintro rfl
    rw [if_pos (List.prefix_append front rest), List.drop_left]

theorem decodeInto_ok {s : Text} {len : Nat} {x : { x : Bytes // x.length = len }} : decodeInto T s len = .ok x ↔
    ∃ bytes, T.base64Decode s = .ok bytes ∧ bytes.length ≤ len ∧ x.1 = bytes ++ List.replicate (len - bytes.length) 0 := by
  unfold decodeInto
  rw [bind_ok]
  refine exists_congr fun bytes => and_congr_right fun _ => ?_
  by_cases hle : bytes.length ≤ len
  · rw [dif_pos hle, and_iff_right hle, Except.ok.injEq, Subtype.ext_iff]
    exact eq_comm
  · rw [dif_neg hle]
    exact ⟨nofun, fun h => absurd h.1 hle⟩

/-- A name that is hashed: the text of its salt and of its hash. -/
def Hashed (hosts salt hash : Text) : Prop := hosts = magicHashPrefix ++ salt ++ '|' :: hash ∧ '|' ∉ salt

theorem hashed_inj {hosts salt hash salt' hash' : Text} (h : Hashed hosts salt hash) (h' : Hashed hosts salt' hash') :
    salt = salt' ∧ hash = hash' := by
  obtain ⟨heq, hbar⟩ := h
  obtain ⟨heq', hbar'⟩ := h'
  rw [heq, List.append_assoc, List.append_assoc, List.append_cancel_left_eq] at heq'
  have hsplit := splitOnce_eq_some.2 ⟨heq', hbar'⟩
  rw [splitOnce_eq_some.2 ⟨rfl, hbar⟩, Option.some.injEq, Prod.mk.injEq] at hsplit
  exact hsplit

/-- **What the hosts of an accepted line are**: a hashed name, or pieces between commas. -/
theorem hosts_ok {hosts : Text} {hostPatterns : HostPatterns} : HostPatterns.fromStr T hosts = .ok hostPatterns ↔
    (∃ saltStr hashStr salt hash, Hashed hosts saltStr hashStr ∧ T.base64Decode saltStr = .ok salt ∧
      decodeInto T hashStr hashLen = .ok hash ∧ hostPatterns = .hashedName salt hash) ∨
    (¬ magicHashPrefix <+: hosts ∧ hosts ≠ [] ∧ hostPatterns = .patterns (splitTerminator ',' hosts)) := by
  unfold HostPatterns.fromStr
  cases hfront : stripFront magicHashPrefix hosts with
  | none =>
    have hno : ¬ magicHashPrefix <+: hosts := by
      rintro ⟨rest, hrest⟩
      rw [stripFront_eq_some.2 hrest.symm] at hfront
      cases hfront
    dsimp only
    constructor
    · intro h
      split at h
      · cases h
      · rename_i hne
        cases h
        exact .inr ⟨hno, by simpa using hne, rfl⟩
    · rintro (⟨saltStr, hashStr, salt, hash, ⟨heq, -⟩, -⟩ | ⟨-, hne, rfl⟩)
      · exact absurd ⟨_, by rw [heq, List.append_assoc]⟩ hno
      · rw [if_neg (by simpa using hne)]
  | some rest =>
    have hrest := stripFront_eq_some.1 hfront
    dsimp only
    constructor
    · intro h
      split at h
      · cases h
      · rename_i saltStr hashStr hsplit
        obtain ⟨salt, hsalt, h⟩ := bind_ok.1 h
        obtain ⟨hash, hhash, h⟩ := bind_ok.1 h
        cases h
        obtain ⟨rfl, hbar⟩ := splitOnce_eq_some.1 hsplit
        exact .inl ⟨saltStr, hashStr, salt, hash, ⟨by rw [hrest, List.append_assoc], hbar⟩, hsalt, hhash, rfl⟩
    · rintro (⟨saltStr, hashStr, salt, hash, ⟨heq, hbar⟩, hsalt, hhash, rfl⟩ | ⟨hno, -⟩)
      · rw [hrest, List.append_assoc, List.append_cancel_left_eq] at heq
        rw [splitOnce_eq_some.2 ⟨heq, hbar⟩]
        exact bind_ok.2 ⟨salt, hsalt, bind_ok.2 ⟨hash, hhash, rfl⟩⟩
      · exact absurd ⟨rest, hrest.symm⟩ hno

def HostPatterns.Inhabited : HostPatterns → Prop
  | .patterns names => names ≠ [] ∧ [] ∉ names
  | .hashedName _ _ => True

/-- No comma is at the front or behind another. -/
def CommasSeparate (hosts : Text) : Prop := ¬ [','] <+: hosts ∧ ¬ [',', ','] <:+: hosts

/-- What is asked of the hosts: patterns between single commas, or a hash that is the base64 of twenty bytes. -/
def HostsSound (T : HostCrates) (hosts : Text) : Prop :=
  (∀ salt hash, Hashed hosts salt hash → ∃ x : Bytes, x.length = hashLen ∧ hash = T.base64Encode x) ∧
    (¬ magicHashPrefix <+: hosts → CommasSeparate hosts)

theorem inhabited_patterns {hosts : Text} (hne : hosts ≠ []) :
    (HostPatterns.patterns (splitTerminator ',' hosts)).Inhabited ↔ CommasSeparate hosts := by
  show _ ∧ _ ↔ _
  rw [and_iff_right (splitTerminator_ne_nil hne), (nil_mem_splitTerminator hosts).1, not_or]
  rfl

theorem decodeInto_encode (hT : T.Canonical) (hash : { x : Bytes // x.length = hashLen }) :
    decodeInto T (T.base64Encode hash.1) hashLen = .ok hash := by
  refine decodeInto_ok.2 ⟨hash.1, hT.decode_encode hash.1, Nat.le_of_eq hash.2, ?_⟩
  rw [hash.2, Nat.sub_self, List.replicate_zero, List.append_nil]

/-- **Hosts that are no empty patterns are written so that they are read again**, in one field that begins as theirs. -/
theorem hosts_back (hT : T.Canonical) {hosts : Text} {hostPatterns : HostPatterns}
    (h : HostPatterns.fromStr T hosts = .ok hostPatterns) (hspace : ' ' ∉ hosts) (hin : hostPatterns.Inhabited) :
    HostPatterns.fromStr T (HostPatterns.toString T hostPatterns) = .ok hostPatterns ∧
      ' ' ∉ HostPatterns.toString T hostPatterns ∧
      (['@'] <+: HostPatterns.toString T hostPatterns → ['@'] <+: hosts) := by
  obtain ⟨saltStr, hashStr, salt, hash, -, -, -, rfl⟩ | ⟨hno, hne, rfl⟩ := hosts_ok.1 h
  · have hsalt := hT.segment salt
    have hhash := hT.segment hash.1
    have hbar : '|' ∉ T.base64Encode salt := by
      intro hmem
      exact absurd (hsalt _ hmem) (by decide)
    unfold HostPatterns.toString
    refine ⟨hosts_ok.2 (.inl ⟨_, _, salt, hash, ⟨rfl, hbar⟩, hT.decode_encode salt, decodeInto_encode hT hash, rfl⟩), ?_, ?_⟩
    · have h₁ := not_mem_space_of_segment hsalt
      have h₂ := not_mem_space_of_segment hhash
      simp [magicHashPrefix, h₁, h₂]
    · rintro ⟨rest, hrest⟩
      cases hrest
  · have hfront := intercalate_splitTerminator ',' hosts
    obtain ⟨hsome, hnil⟩ := hin
    have hlast : (splitTerminator ',' hosts).getLast? ≠ some [] := fun hlast => hnil (List.mem_of_getLast? hlast)
    have hback := (splitTerminator_intercalate_iff (fun p hp => notMem_of_mem_splitTerminator hp) hsome).2 hlast
    unfold HostPatterns.toString
    dsimp only
    refine ⟨hosts_ok.2 (.inr ⟨fun hmagic => hno (hmagic.trans hfront), fun hempty => ?_, ?_⟩),
      fun hmem => hspace (hfront.subset hmem), fun hat => hat.trans hfront⟩
    · rw [hempty, splitTerminator_nil] at hback
      exact hsome hback.symm
    · rw [hback]

theorem fields_inj {line : Text} {marker : Option Marker} {hosts key hosts' key' : Text}
    (h : Fields line marker hosts key) (h' : Fields line marker hosts' key') : hosts = hosts' ∧ key = key' := by
  have heq := h.parts.symm.trans h'.parts
  rw [List.append_assoc, List.append_assoc, List.append_cancel_left_eq] at heq
  exact split_space h.oneField h'.oneField heq

/-- An `@` at the front of a line is at the front of its first field. -/
theorem at_front {hosts key : Text} : ['@'] <+: hosts ++ ' ' :: key ↔ ['@'] <+: hosts := by
  cases hosts with
  | nil => simp
  | cons c hosts => simp

/-- The field of accepted hosts, and what was read from it. -/
theorem hostsSound_iff (hT : T.Canonical) {hosts : Text} {hostPatterns : HostPatterns}
    (h : HostPatterns.fromStr T hosts = .ok hostPatterns) : HostsSound T hosts ↔ hostPatterns.Inhabited ∧
      ∀ salt hash, Hashed hosts salt hash → ∃ x, T.base64Decode hash = .ok x ∧ x.length = hashLen := by
  have hhash : ∀ hash : Text, (∃ x : Bytes, x.length = hashLen ∧ hash = T.base64Encode x) ↔
      ∃ x, T.base64Decode hash = .ok x ∧ x.length = hashLen := by
    intro hash
    constructor
    · rintro ⟨x, hx, rfl⟩
      exact ⟨x, hT.decode_encode x, hx⟩
    · rintro ⟨x, hdecode, hx⟩
      exact ⟨x, hx, hT.canonical hash x hdecode⟩
  unfold HostsSound
  simp only [hhash]
  rw [and_comm]
  refine and_congr_left fun _ => ?_
  obtain ⟨saltStr, hashStr, salt, hash, ⟨heq, -⟩, -, -, rfl⟩ | ⟨hno, hne, rfl⟩ := hosts_ok.1 h
  · have hmagic : magicHashPrefix <+: hosts := ⟨_, by rw [heq, List.append_assoc]⟩
    exact ⟨fun _ => trivial, fun _ hno => absurd hmagic hno⟩
  · rw [inhabited_patterns hne]
    exact ⟨fun h => h hno, fun h _ => h⟩

theorem hash_of_sound (hT : T.Canonical) {hosts salt hash : Text} {hostPatterns : HostPatterns}
    (h : HostPatterns.fromStr T hosts = .ok hostPatterns) (hsound : HostsSound T hosts) (hhashed : Hashed hosts salt hash) :
    ∃ s x, hostPatterns = .hashedName s x ∧ hash = T.base64Encode x.1 := by
  obtain ⟨saltStr, hashStr, s, x, hhashed', -, hinto, rfl⟩ | ⟨hno, -⟩ := hosts_ok.1 h
  · obtain ⟨rfl, rfl⟩ := hashed_inj hhashed hhashed'
    obtain ⟨y, hy, rfl⟩ := hsound.1 _ _ hhashed
    rw [decodeInto_encode hT ⟨y, hy⟩] at hinto
    exact ⟨s, x, rfl, by rw [← Except.ok.inj hinto]⟩
  · exact absurd ⟨_, by rw [hhashed.1, List.append_assoc]⟩ hno

/-- An entry that was read, of hosts that are no empty patterns and a key that can be written, is read again. -/
theorem fromStr_toString (hC : C.CertRoundTrips) (hT : T.Canonical) {entry : Entry} {comment hosts key t : Text}
    (hkey : entry.publicKey.Lined C comment) (hhosts : HostPatterns.fromStr T hosts = .ok entry.hostPatterns)
    (hfields : ∃ line, Fields line entry.marker hosts key) (hin : entry.hostPatterns.Inhabited)
    (ht : entry.publicKey.toString C T.toTextCrates = .ok t) : ∃ s, entry.toString T C = .ok s ∧
      Entry.fromStr T C s = .ok entry := by
  obtain ⟨line, hparts, hspace, hunmarked⟩ := hfields
  obtain ⟨hback, hspace', hat⟩ := hosts_back hT hhosts hspace hin
  obtain ⟨-, w, -, -, hread⟩ := toString_lined hC hT.toRoundTrips hkey ht
  refine ⟨_, toString_ok.2 ⟨t, ht, rfl⟩, fromStr_ok.2 ⟨_, t, ⟨rfl, hspace', fun hnone hfront => ?_⟩, hback, hread⟩⟩
  rw [hnone, markerText, List.nil_append, at_front] at hfront
  have hline := hunmarked hnone
  rw [hparts, hnone, markerText, List.nil_append, at_front] at hline
  exact hline (hat hfront)

end

/-- **When an entry comes back, with patterns that are not empty and a hash of twenty bytes.**  Every accepted line has its
fields.  The entry of an accepted line is read from its own text, has a pattern and no empty one, and a hash field that
decodes to twenty bytes if its name is hashed, just when its key can be written and the field of its hosts has no comma at
the front or behind another, or the base64 of twenty bytes for a hash; and then hashed names are the same only if their
hash fields are. -/
theorem known_hosts_round_trip_iff (C : Crates) (T : HostCrates) (hC : C.CertRoundTrips) (hT : T.Canonical) :
    (∀ line entry, Entry.fromStr T C line = .ok entry → ∃ hosts key, Fields line entry.marker hosts key) ∧
    (∀ line entry hosts key, line.len ≤ C.sizeMax → Entry.fromStr T C line = .ok entry →
      Fields line entry.marker hosts key →
      ((∃ s, entry.toString T C = .ok s ∧ Entry.fromStr T C s = .ok entry) ∧ entry.hostPatterns.Inhabited ∧
          (∀ salt hash, Hashed hosts salt hash → ∃ x, T.base64Decode hash = .ok x ∧ x.length = hashLen) ↔
        entry.publicKey.Writable C T.toTextCrates ∧ HostsSound T hosts)) ∧
    ∀ hosts hosts' salt salt' hash hash' hostPatterns, HostPatterns.fromStr T hosts = .ok hostPatterns →
      HostPatterns.fromStr T hosts' = .ok hostPatterns → HostsSound T hosts → HostsSound T hosts' →
      Hashed hosts salt hash → Hashed hosts' salt' hash' → hash = hash' := by
  refine ⟨fun line entry h => ?_, fun line entry hosts key hlen h hfields => ?_, ?_⟩
  · obtain ⟨hosts, key, hfields, -⟩ := fromStr_ok.1 h
    exact ⟨hosts, key, hfields⟩
  · obtain ⟨hosts', key', hfields', hhosts, hkey⟩ := fromStr_ok.1 h
    obtain ⟨rfl, rfl⟩ := fields_inj hfields hfields'
    have hklen : Text.len key ≤ C.sizeMax := by
      have hsum := Text.len_append (markerText entry.marker ++ hosts) (' ' :: key)
      rw [← hfields.parts, Text.len_cons] at hsum
      omega
    obtain ⟨comment, hlined⟩ := lined_of_fromOpenssh hT.toLawful hklen hkey
    rw [← hostsSound_iff hT hhosts]
    constructor
    · rintro ⟨⟨s, hs, -⟩, hsound⟩
      obtain ⟨t, ht, -⟩ := toString_ok.1 hs
      exact ⟨(toString_lined hC hT.toRoundTrips hlined ht).1, hsound⟩
    · rintro ⟨hwritable, hsound⟩
      obtain ⟨t, ht⟩ := toString_of_writable hC.toLawful hT.toRoundTrips hlined hwritable
      have hin := ((hostsSound_iff hT hhosts).1 hsound).1
      exact ⟨fromStr_toString hC hT hlined hhosts ⟨line, hfields⟩ hin ht, hsound⟩
  · intro hosts hosts' salt salt' hash hash' hostPatterns h h' hsound hsound' hhashed hhashed'
    obtain ⟨s, x, rfl, rfl⟩ := hash_of_sound hT h hsound hhashed
    obtain ⟨s', x', heq, rfl⟩ := hash_of_sound hT h' hsound' hhashed'
    cases heq
    rfl

end KnownHosts

namespace Rfc4648

/-- Base64 of a whole text, refused if it is not the text of its bytes. -/
def decodeWhole (t : Text) : Except Exit Bytes :=
  if t = encode (decode t).1 then .ok (decode t).1 else .error (.error (.encoding .base64))

def hostCrates : KnownHosts.HostCrates := { lineCrates with base64Decode := decodeWhole }

theorem hostCrates_canonical : hostCrates.Canonical where
  toRoundTrips := lineCrates_roundTrips
  errs := crates_lawful.errs
  readable_le := crates_lawful.readable_le
  decode_encode x := by
    show decodeWhole (encode x) = .ok x
    unfold decodeWhole
    rw [decode_encode, if_pos rfl]
  canonical t x h := by
    have h : decodeWhole t = .ok x := h
    unfold decodeWhole at h
    split at h
    · rename_i ht
      cases h
      exact ht
    · cases h

end Rfc4648

namespace KnownHosts

def Sample.line (hosts : Text) : Text := hosts ++ ' ' :: Sample.text Sample.name (Sample.otherBytes Sample.name)

def Sample.key : PublicKey := ⟨Sample.other Sample.name, []⟩

theorem known_hosts_round_trip_sample :
    (∃ s, Entry.toString Rfc4648.hostCrates Rfc4251.wireCrates ⟨none, .patterns ["a".toList, "b".toList], Sample.key⟩
        = .ok s ∧ Entry.fromStr Rfc4648.hostCrates Rfc4251.wireCrates s
          = .ok ⟨none, .patterns ["a".toList, "b".toList], Sample.key⟩) ∧
      (HostPatterns.patterns ["a".toList, "b".toList]).Inhabited := by
  obtain ⟨-, hiff, -⟩ := known_hosts_round_trip_iff Rfc4251.wireCrates Rfc4648.hostCrates
    Rfc4251.wireCrates_roundTrips Rfc4648.hostCrates_canonical
  have hread : Entry.fromStr Rfc4648.hostCrates Rfc4251.wireCrates (Sample.line "a,b".toList)
      = .ok ⟨none, .patterns ["a".toList, "b".toList], Sample.key⟩ := by decide +kernel
  have hfields : Fields (Sample.line "a,b".toList) none "a,b".toList
      (Sample.text Sample.name (Sample.otherBytes Sample.name)) := ⟨rfl, by decide, fun _ => by decide⟩
  have hroom : Room Rfc4251.wireCrates 27 Sample.name [] := by
    unfold Room
    decide +kernel
  have hwritable : Sample.key.Writable Rfc4251.wireCrates Rfc4648.hostCrates.toTextCrates :=
    Sample.other_writable Rfc4648.lineCrates_roundTrips hroom
  have hsound : HostsSound Rfc4648.hostCrates "a,b".toList := by
    refine ⟨?_, fun _ => by unfold CommasSeparate; decide⟩
    rintro salt hash ⟨heq, -⟩
    cases heq
  have hall := (hiff (Sample.line "a,b".toList) _ _ _ (by decide +kernel) hread hfields).2 ⟨hwritable, hsound⟩
  exact ⟨hall.1, hall.2.1⟩

/-- A comma for hosts is accepted as one empty pattern, and the text of that entry is not; behind a pattern, an empty one is
lost; and hashes of three and of six zeros are taken for the same twenty. -/
theorem known_hosts_not_read_back :
    (Entry.fromStr Rfc4648.hostCrates Rfc4251.wireCrates (Sample.line ",".toList)
        = .ok ⟨none, .patterns [[]], Sample.key⟩ ∧
      (do let s ← Entry.toString Rfc4648.hostCrates Rfc4251.wireCrates ⟨none, .patterns [[]], Sample.key⟩
          Entry.fromStr Rfc4648.hostCrates Rfc4251.wireCrates s) = .error formatError) ∧
    (Entry.fromStr Rfc4648.hostCrates Rfc4251.wireCrates (Sample.line "a,,".toList)
        = .ok ⟨none, .patterns ["a".toList, []], Sample.key⟩ ∧
      (do let s ← Entry.toString Rfc4648.hostCrates Rfc4251.wireCrates ⟨none, .patterns ["a".toList, []], Sample.key⟩
          Entry.fromStr Rfc4648.hostCrates Rfc4251.wireCrates s)
        = .ok ⟨none, .patterns ["a".toList], Sample.key⟩) ∧
    (Entry.fromStr Rfc4648.hostCrates Rfc4251.wireCrates (Sample.line "|1|AAAA|AAAA".toList)
        = .ok ⟨none, .hashedName [0, 0, 0] ⟨List.replicate 20 0, rfl⟩, Sample.key⟩ ∧
      Entry.fromStr Rfc4648.hostCrates Rfc4251.wireCrates (Sample.line "|1|AAAA|AAAAAAAA".toList)
        = .ok ⟨none, .hashedName [0, 0, 0] ⟨List.replicate 20 0, rfl⟩, Sample.key⟩) := by
  decide +kernel

end KnownHosts

end Ssh
end Wolf
