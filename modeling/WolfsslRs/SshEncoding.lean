import WolfsslRs.Reader
import WolfsslRs.SshAlgorithm
/-!
# SshEncoding — the crates the SSH key formats are built on

`Crates` holds what `ssh-encoding` and `sec1` provide, and `Crates.Lawful` what is assumed of it: every primitive
decoder takes exactly the encoding of its answer off the input, lengths are announced truly, and a string is a
four-byte length and its bytes.  `Rfc4251.crates` is an instance, the wire types themselves on ASCII text.
`Crates.RoundTrips` is the assumption for the other direction, that a decoder gives back what its encoder wrote;
`Rfc4251.utf8Crates` is an instance of both, with UTF-8 text and canonical integers.
-/
namespace Wolf
namespace Ssh

open Reader

def lengthError : Exit := .error (.encoding .length)

/-- A type with its decoder, its encoder and its announced length. -/
structure Codec (α : Type) where
  decode : EStateM Exit Bytes α
  encode : α → Except Exit Bytes
  encodedLen : α → Except Exit Nat

/-- **Canonical**: what was decoded is the encoding of the value, and lengths are announced truly. -/
structure Codec.Canonical {α : Type} (max : Nat) (c : Codec α) : Prop where
  reads : ∀ n, Reads Exit.IsErr n c.decode (fun a w => c.encode a = .ok w)
  announces : ∀ a, Announces max (c.encodedLen a) (c.encode a)

structure Crates where
  usizeMax : Nat
  /-- the largest length that is read -/
  sizeMax : Nat
  /-- the most bytes of a label that is read -/
  labelMax : Nat
  u8 : Codec UInt8
  u32 : Codec UInt32
  u64 : Codec UInt64
  usize : Codec Nat
  /-- `Vec<u8>` and byte slices -/
  bytes : Codec Bytes
  string : Codec Text
  strings : Codec (List Text)
  /-- `Mpint`, as the bytes it keeps -/
  mpint : Codec Bytes
  isPositive : Bytes → Bool
  asPositiveBytes : Bytes → Option Bytes
  /-- the string of a `Label`, before it is parsed -/
  label : EStateM Exit Bytes Text
  /-- `read_byten` into a buffer of the given size -/
  byten : Nat → EStateM Exit Bytes Bytes
  /-- whether `sec1::EncodedPoint::from_bytes` takes the bytes as a point of the curve's size -/
  encodedPoint : EcdsaCurve → Bytes → Bool

/-- **What is assumed of the crates**: what is read is what would be written for the answer, everything else is refused
with an error and not a panic; lengths are announced truly; a byte string is its length on four bytes and itself, and a
string the byte string of its UTF-8. -/
structure Crates.Lawful (C : Crates) : Prop where
  u8 : C.u8.Canonical C.usizeMax
  u32 : C.u32.Canonical C.usizeMax
  u64 : C.u64.Canonical C.usizeMax
  usize : C.usize.Canonical C.usizeMax
  bytes : C.bytes.Canonical C.usizeMax
  string : C.string.Canonical C.usizeMax
  strings : C.strings.Canonical C.usizeMax
  mpint : C.mpint.Canonical C.usizeMax
  label : ∀ n, Reads Exit.IsErr n C.label (fun t w => C.string.encode t = .ok w)
  byten : ∀ k n, Reads Exit.IsErr n (C.byten k) (fun x w => C.bytes.encode x = .ok w)
  u8_eq : ∀ x, C.u8.encode x = .ok [x]
  u32_eq : ∀ x, C.u32.encode x = .ok (beBytes 4 x.toNat)
  usize_length : ∀ n w, C.usize.encode n = .ok w → w.length = 4
  /-- a length below one that is written is written too -/
  usize_le : ∀ n w m, C.usize.encode n = .ok w → m ≤ n → ∃ v, C.usize.encode m = .ok v
  bytes_eq : ∀ x, C.bytes.encode x = cat [C.usize.encode x.length, .ok x]
  bytes_len : ∀ x, C.bytes.encodedLen x = Reader.total C.usizeMax lengthError [.ok 4, .ok x.length]
  string_eq : ∀ t, C.string.encode t = C.bytes.encode t.utf8

section
variable (C : Crates)

def Crates.total (ls : List (Except Exit Nat)) : Except Exit Nat := Reader.total C.usizeMax lengthError ls

def Crates.readPrefixed {α : Type} (f : EStateM Exit Bytes α) : EStateM Exit Bytes α :=
  Reader.readPrefixed C.usize.decode lengthError (fun k => .error (.encoding (.trailingData k))) f

def Crates.encodePrefixed (len : Except Exit Nat) (p : Except Exit Bytes) : Except Exit Bytes := do
  let n ← len
  cat [C.usize.encode n, p]

def Crates.encodedLenPrefixed (len : Except Exit Nat) : Except Exit Nat := C.total [.ok 4, len]

/-- A `Label`: the string, parsed. -/
def Crates.decodeLabel {α : Type} (parse : Text → Except Exit α) : EStateM Exit Bytes α := do
  let id ← C.label
  orThrow (parse id)

/-- A reader run over a whole slice: `reader.finish`. -/
def finish {α : Type} (f : EStateM Exit Bytes α) (bs : Bytes) : Except Exit α :=
  match f.run bs with
  | .ok a rest => if rest = [] then .ok a else .error (.error (.encoding (.trailingData rest.length)))
  | .error e _ => .error e

end

section
variable {C : Crates}

theorem Crates.Lawful.prefixed_ok (hC : C.Lawful) {x w : Bytes} (h : cat [C.usize.encode x.length, .ok x] = .ok w) :
    ∃ u, C.usize.encode x.length = .ok u ∧ w = u ++ x ∧ u.length = 4 := by
  obtain ⟨u, v, hu, hv, rfl⟩ := cat_pair.1 h
  cases hv
  exact ⟨u, hu, rfl, hC.usize_length _ _ hu⟩

theorem Crates.Lawful.bytes_length (hC : C.Lawful) {x w : Bytes} (h : C.bytes.encode x = .ok w) :
    w.length = 4 + x.length := by
  rw [hC.bytes_eq] at h
  obtain ⟨u, -, rfl, hu⟩ := hC.prefixed_ok h
  rw [List.length_append, hu]

theorem Crates.Lawful.string_length (hC : C.Lawful) {t : Text} {w : Bytes} (h : C.string.encode t = .ok w) :
    w.length = 4 + t.len := by
  rw [hC.string_eq] at h
  exact hC.bytes_length h

theorem Crates.Lawful.string_le (hC : C.Lawful) {s t : Text} {w : Bytes} (h : C.string.encode s = .ok w)
    (hle : t.len ≤ s.len) : ∃ v, C.string.encode t = .ok v := by
  rw [hC.string_eq, hC.bytes_eq] at h
  obtain ⟨u, hu, -⟩ := cat_cons.1 h
  obtain ⟨v, hv⟩ := hC.usize_le _ _ _ hu hle
  refine ⟨v ++ t.utf8, ?_⟩
  rw [hC.string_eq, hC.bytes_eq]
  exact cat_pair.2 ⟨v, t.utf8, hv, rfl, rfl⟩

theorem reads_decodeLabel (hC : C.Lawful) {α : Type} {parse : Text → Except Exit α} {n : Nat}
    (hparse : ∀ id e, parse id = .error e → e.IsErr) :
    Reads Exit.IsErr n (C.decodeLabel parse) (fun a w => ∃ id, parse id = .ok a ∧ C.string.encode id = .ok w) := by
  refine reads_bind (hC.label n) fun id w hw => reads_orThrow (fun a ha => ?_) (hparse id)
  exact ⟨id, ha, by rw [List.append_nil]; exact hw⟩

theorem reads_readPrefixed (hC : C.Lawful) {α : Type} {f : EStateM Exit Bytes α} {P : α → Bytes → Prop} {n : Nat}
    (hf : Reads Exit.IsErr (n - 4) f P) : Reads Exit.IsErr n (C.readPrefixed f)
      (fun a w => ∃ inner, P a inner ∧ cat [C.usize.encode inner.length, .ok inner] = .ok w) := by
  refine reads_mono (reads_prefixed (P := P) (hC.usize.reads n) trivial (fun _ => trivial) (fun k w hw => ?_)) ?_
  · rw [hC.usize_length _ _ hw]
    exact hf
  · rintro a w ⟨ws, inner, hws, hP, rfl⟩
    exact ⟨inner, hP, cat_pair.2 ⟨ws, inner, hws, rfl, rfl⟩⟩

theorem finish_run {α : Type} {f : EStateM Exit Bytes α} {bs : Bytes} {a : α} :
    finish f bs = .ok a ↔ f.run bs = .ok a [] := by
  unfold finish
  cases f.run bs with
  | error e rest => exact ⟨nofun, nofun⟩
  | ok b rest =>
    by_cases hrest : rest = []
    · subst hrest
      exact ⟨fun h => by cases h; rfl, fun h => by cases h; rfl⟩
    · simp only [if_neg hrest]
      exact ⟨nofun, fun h => by cases h; exact absurd rfl hrest⟩

/-- A reader run over a slice took all of it for its answer, or leaves by an error. -/
theorem finish_ok {α : Type} {f : EStateM Exit Bytes α} {P : α → Bytes → Prop} {bs : Bytes} {a : α}
    (hf : Reads Exit.IsErr bs.length f P) (h : finish f bs = .ok a) : P a bs := by
  obtain ⟨w, hw, hP⟩ := reads_ok hf (finish_run.1 h)
  rwa [hw, List.append_nil]

theorem finish_error {α : Type} {f : EStateM Exit Bytes α} {P : α → Bytes → Prop} {bs : Bytes} {e : Exit}
    (hf : Reads Exit.IsErr bs.length f P) (h : finish f bs = .error e) : e.IsErr := by
  unfold finish at h
  split at h
  · split at h
    · cases h
    · cases h; trivial
  · rename_i e' s hrun
    cases h
    exact reads_error hf hrun

end

/-! ## The wire types -/

namespace Rfc4251

/-- An unsigned integer on `k` bytes, most significant first. -/
def uint {α : Type} (k : Nat) (toNat : α → Nat) (ofNat : Nat → α) : Codec α where
  decode := do
    let w ← take lengthError k
    pure (ofNat (beNat w.1))
  encode x := .ok (beBytes k (toNat x))
  encodedLen _ := .ok k

theorem uint_canonical {α : Type} {max k : Nat} {toNat : α → Nat} {ofNat : Nat → α}
    (h : ∀ n, n < 256 ^ k → toNat (ofNat n) = n) : (uint k toNat ofNat).Canonical max where
  reads n := by
    refine reads_bind (reads_take trivial) fun w _ hw => reads_pure ?_
    subst hw
    show Except.ok (beBytes k (toNat (ofNat (beNat w.1)))) = _
    have hlt := beNat_lt w.1
    rw [w.2] at hlt
    have hk := beBytes_beNat w.1
    rw [w.2] at hk
    rw [h _ hlt, hk, List.append_nil]
  announces a w hw _ := by
    cases hw
    rw [length_beBytes]
    rfl

def usize : Codec Nat where
  decode := (uint 4 id id).decode
  encode n := if n < 2 ^ 32 then .ok (beBytes 4 n) else .error lengthError
  encodedLen _ := .ok 4

theorem usize_encode {n : Nat} {w : Bytes} : usize.encode n = .ok w ↔ n < 2 ^ 32 ∧ w = beBytes 4 n := by
  show (if n < 2 ^ 32 then Except.ok (beBytes 4 n) else .error lengthError) = .ok w ↔ _
  by_cases hn : n < 2 ^ 32
  · rw [if_pos hn, Except.ok.injEq]
    exact ⟨fun h => ⟨hn, h.symm⟩, fun h => h.2.symm⟩
  · rw [if_neg hn]
    exact ⟨nofun, fun h => absurd h.1 hn⟩

theorem usize_canonical (max : Nat) : usize.Canonical max where
  reads n := by
    refine reads_bind (reads_take trivial) fun w _ hw => reads_pure ?_
    subst hw
    have hlt := beNat_lt w.1
    have hk := beBytes_beNat w.1
    rw [w.2] at hlt hk
    exact usize_encode.2 ⟨hlt, by rw [List.append_nil]; exact hk.symm⟩
  announces a w hw _ := by
    rw [(usize_encode.1 hw).2, length_beBytes]
    rfl

def usizeMax : Nat := 2 ^ 64 - 1

def labelMax : Nat := 48

def block {α : Type} (f : EStateM Exit Bytes α) : EStateM Exit Bytes α :=
  Reader.readPrefixed usize.decode lengthError (fun k => .error (.encoding (.trailingData k))) f

def blockOf (x : Bytes) : Except Exit Bytes := cat [usize.encode x.length, .ok x]

def blockLen (x : Bytes) : Except Exit Nat := Reader.total usizeMax lengthError [.ok 4, .ok x.length]

theorem reads_block {α : Type} {f : EStateM Exit Bytes α} {P : α → Bytes → Prop} {n : Nat}
    (hf : Reads Exit.IsErr n f P) :
    Reads Exit.IsErr n (block f) (fun a w => ∃ inner, P a inner ∧ blockOf inner = .ok w) := by
  refine reads_mono (reads_prefixed (P := P) ((usize_canonical usizeMax).reads n) trivial (fun _ => trivial)
    (fun _ w _ => reads_le hf (Nat.sub_le ..))) ?_
  rintro a w ⟨ws, inner, hws, hP, rfl⟩
  exact ⟨inner, hP, cat_pair.2 ⟨ws, inner, hws, rfl, rfl⟩⟩

theorem announces_block (x : Bytes) : Announces usizeMax (blockLen x) (blockOf x) := by
  refine announces_total lengthError (.cons ?_ (.cons ?_ .nil))
  · exact (usize_canonical usizeMax).announces x.length
  · intro w hw _
    cases hw
    rfl

/-- A byte string whose contents `ok` lets through. -/
def checked (ok : Bytes → Except Exit Unit) : EStateM Exit Bytes Bytes := do
  let x ← block rest
  orThrow (ok x)
  pure x

theorem reads_checked {ok : Bytes → Except Exit Unit} (hok : ∀ x e, ok x = .error e → e.IsErr) (n : Nat) :
    Reads Exit.IsErr n (checked ok) (fun x w => ok x = .ok () ∧ blockOf x = .ok w) := by
  refine reads_bind (reads_block reads_rest) ?_
  rintro x w ⟨_, rfl, hw⟩
  refine reads_bind (D := fun _ v => ok x = .ok () ∧ v = []) (reads_orThrow (fun _ h => ⟨h, rfl⟩) (hok x)) ?_
  rintro _ _ ⟨hx, rfl⟩
  exact reads_pure ⟨hx, by simpa using hw⟩

def bytes : Codec Bytes where
  decode := checked (fun _ => .ok ())
  encode := blockOf
  encodedLen := blockLen

theorem bytes_canonical : bytes.Canonical usizeMax where
  reads n := reads_mono (reads_checked (fun _ _ h => by cases h) n) (fun _ _ h => h.2)
  announces := announces_block

def asText (x : Bytes) : Text := x.map (fun b => Char.ofNat b.toNat)

/-- A string read on ASCII only. -/
def text (limit : Nat) : EStateM Exit Bytes Text := do
  let x ← checked (fun x =>
    if limit < x.length then .error lengthError
    else if x.all (· < 128) then .ok () else .error (.error (.encoding .characterEncoding)))
  pure (asText x)

theorem utf8_asText : ∀ {x : Bytes}, (∀ b ∈ x, b < 128) → (asText x).utf8 = x
  | [], _ => rfl
  | b :: x, h => by
    have hchar : ∀ n : Fin 128, String.utf8EncodeChar (Char.ofNat n) = [UInt8.ofNat n] := by decide
    have hb : b.toNat < 128 := h b (List.mem_cons_self ..)
    have hx := utf8_asText (x := x) (fun c hc => h c (List.mem_cons_of_mem _ hc))
    have hhead := hchar ⟨b.toNat, hb⟩
    rw [UInt8.ofNat_toNat] at hhead
    show String.utf8EncodeChar (Char.ofNat b.toNat) ++ (asText x).utf8 = b :: x
    rw [hhead, hx]
    rfl

def string : Codec Text where
  decode := text usizeMax
  encode t := blockOf t.utf8
  encodedLen t := blockLen t.utf8

theorem reads_text (limit n : Nat) : Reads Exit.IsErr n (text limit) (fun t w => string.encode t = .ok w) := by
  refine reads_bind (reads_checked (fun x e h => ?_) n) ?_
  · split at h
    · cases h; trivial
    · split at h
      · cases h
      · cases h; trivial
  · rintro x w ⟨hx, hw⟩
    split at hx
    · cases hx
    · split at hx
      · rename_i hall
        refine reads_pure ?_
        show blockOf (asText x).utf8 = _
        rw [utf8_asText (by simpa using hall), List.append_nil, hw]
      · cases hx

theorem string_canonical : string.Canonical usizeMax where
  reads := reads_text usizeMax
  announces t := announces_block t.utf8

theorem blockOf_ne_nil {x w : Bytes} (h : blockOf x = .ok w) : w ≠ [] := by
  rintro rfl
  obtain ⟨u, hu, v, -, hnil⟩ := cat_cons.1 h
  have := congrArg List.length (usize_encode.1 hu).2
  rw [(List.append_eq_nil_iff.1 hnil.symm).1, length_beBytes] at this
  cases this

/-- Lists of strings, each written as the given codec writes one. -/
def stringsOf (c : Codec Text) : Codec (List Text) where
  decode := block (whileUnread .running (fun ts => do pure (ts ++ [← c.decode])) [])
  encode ts := do blockOf (← cat (ts.map c.encode))
  encodedLen ts := do blockLen (← cat (ts.map c.encode))

theorem stringsOf_canonical {c : Codec Text} (hc : c.Canonical usizeMax) (hne : ∀ t w, c.encode t = .ok w → w ≠ []) :
    (stringsOf c).Canonical usizeMax where
  reads n := by
    have hloop : Reads Exit.IsErr n (whileUnread .running (fun ts => do pure (ts ++ [← c.decode])) [])
        (fun ts w => cat (ts.map c.encode) = .ok w) := by
      refine reads_while (fun ts w hw => reads_bind (hc.reads n) fun t v hv => reads_pure ?_) rfl
      rw [List.append_nil, List.map_append]
      exact ⟨cat_append hw (cat_cons.2 ⟨v, hv, [], rfl, (List.append_nil v).symm⟩), hne t v hv⟩
    refine reads_mono (reads_block hloop) ?_
    rintro ts w ⟨inner, hinner, hw⟩
    show (cat (ts.map c.encode) >>= blockOf) = _
    rw [hinner]
    exact hw
  announces ts w hw hmax := by
    obtain ⟨x, hts, hw⟩ := Program.bind_ok.1 hw
    exact Program.bind_ok.2 ⟨x, hts, announces_block x w hw hmax⟩

def strings : Codec (List Text) := stringsOf string

theorem strings_canonical : strings.Canonical usizeMax :=
  stringsOf_canonical string_canonical fun _ _ => blockOf_ne_nil

/-- No superfluous leading zero byte. -/
def minimal : Bytes → Except Exit Unit
  | [0] => .error (.error (.encoding .mpintEncoding))
  | 0 :: b :: _ => if b < 128 then .error (.error (.encoding .mpintEncoding)) else .ok ()
  | _ => .ok ()

theorem minimal_error {x : Bytes} {e : Exit} (h : minimal x = .error e) : e.IsErr := by
  unfold minimal at h
  split at h
  · cases h; trivial
  · split at h
    · cases h; trivial
    · cases h
  · cases h

def mpint : Codec Bytes where
  decode := checked minimal
  encode := blockOf
  encodedLen := blockLen

theorem mpint_canonical : mpint.Canonical usizeMax where
  reads n := reads_mono (reads_checked (fun _ _ h => minimal_error h) n) (fun _ _ h => h.2)
  announces := announces_block

def asPositiveBytes : Bytes → Option Bytes
  | [] => none
  | b :: x => if b = 0 then some x else if b < 128 then some (b :: x) else none

def pointSize (tag : UInt8) (size : Nat) : Option Nat :=
  if tag = 0 then some 1
  else if tag = 2 ∨ tag = 3 ∨ tag = 5 then some (1 + size)
  else if tag = 4 then some (1 + 2 * size)
  else none

def encodedPoint (curve : EcdsaCurve) : Bytes → Bool
  | [] => false
  | tag :: x => pointSize tag curve.fieldSize = some (x.length + 1)

theorem checkedLength_error {limit : Nat} {x : Bytes} {e : Exit}
    (h : (if limit < x.length then Except.error lengthError else .ok ()) = .error e) : e.IsErr := by
  split at h
  · cases h; trivial
  · cases h

/-- The primitives of the SSH wire format. -/
def crates : Crates where
  usizeMax := usizeMax
  sizeMax := 2 ^ 32 - 1
  labelMax := labelMax
  u8 := uint 1 UInt8.toNat UInt8.ofNat
  u32 := uint 4 UInt32.toNat UInt32.ofNat
  u64 := uint 8 UInt64.toNat UInt64.ofNat
  usize := usize
  bytes := bytes
  string := string
  strings := strings
  mpint := mpint
  isPositive x := (asPositiveBytes x).isSome
  asPositiveBytes := asPositiveBytes
  label := text labelMax
  byten k := checked (fun x => if k < x.length then .error lengthError else .ok ())
  encodedPoint := encodedPoint

theorem crates_lawful : crates.Lawful where
  u8 := uint_canonical (fun n hn => UInt8.toNat_ofNat_of_lt hn)
  u32 := uint_canonical (fun n hn => UInt32.toNat_ofNat_of_lt hn)
  u64 := uint_canonical (fun n hn => UInt64.toNat_ofNat_of_lt hn)
  usize := usize_canonical usizeMax
  bytes := bytes_canonical
  string := string_canonical
  strings := strings_canonical
  mpint := mpint_canonical
  label := reads_text labelMax
  byten k n := reads_mono (reads_checked (fun _ _ => checkedLength_error) n) (fun _ _ h => h.2)
  u8_eq x := by
    show Except.ok [UInt8.ofNat (x.toNat / 1)] = _
    rw [Nat.div_one, UInt8.ofNat_toNat]
  u32_eq _ := rfl
  usize_length n w h := by rw [(usize_encode.1 h).2, length_beBytes]
  usize_le n w m h hle := ⟨_, usize_encode.2 ⟨Nat.lt_of_le_of_lt hle (usize_encode.1 h).1, rfl⟩⟩
  bytes_eq _ := rfl
  bytes_len _ := rfl
  string_eq _ := rfl

end Rfc4251

/-! ## Reading back what was written -/

/-- The decoder gives back what the encoder wrote. -/
def Codec.RoundTrips {α : Type} (c : Codec α) : Prop := ∀ a w, c.encode a = .ok w → Restores c.decode w a

/-- The decoder gives back what the encoder wrote on at most `max` bytes. -/
def Codec.RoundTripsWithin {α : Type} (max : Nat) (c : Codec α) : Prop :=
  ∀ a w, c.encode a = .ok w → w.length ≤ max → Restores c.decode w a

/-- **What is assumed of the crates for a round trip**, besides that they are lawful: decoders give back what encoders
wrote as long as no length is above `sizeMax`, a label of at most `labelMax` bytes is read as the string it was written
as and a longer one is not read, a byte string is read into any buffer it fits into, lengths are big-endian, and a point
is any bytes whose length goes with their tag.  Points, scalars and the crate's own names are below the two limits. -/
structure Crates.RoundTrips (C : Crates) : Prop extends Crates.Lawful C where
  sizeMax_le : C.sizeMax ≤ C.usizeMax
  le_sizeMax : 256 ≤ C.sizeMax
  le_labelMax : 48 ≤ C.labelMax
  usize_eq : ∀ n w, C.usize.encode n = .ok w → n < 2 ^ 32 ∧ w = beBytes 4 n
  mpint_length : ∀ x w, C.mpint.encode x = .ok w → w.length = 4 + x.length
  u8_back : C.u8.RoundTrips
  u32_back : C.u32.RoundTrips
  usize_back : ∀ n w, n ≤ C.sizeMax → C.usize.encode n = .ok w → Restores C.usize.decode w n
  bytes_back : ∀ x w, x.length ≤ C.sizeMax → C.bytes.encode x = .ok w → Restores C.bytes.decode w x
  string_back : ∀ t w, t.len ≤ C.sizeMax → C.string.encode t = .ok w → Restores C.string.decode w t
  mpint_back : ∀ x w, x.length ≤ C.sizeMax → C.mpint.encode x = .ok w → Restores C.mpint.decode w x
  label_back : ∀ t w, t.len ≤ C.labelMax → C.string.encode t = .ok w → Restores C.label w t
  byten_back : ∀ k x w, x.length ≤ k → x.length ≤ C.sizeMax → C.bytes.encode x = .ok w → Restores (C.byten k) w x
  bytes_le : Gives C.bytes.decode (fun x => x.length ≤ C.sizeMax)
  label_le : Gives C.label (fun t => t.len ≤ C.labelMax)
  point_eq : ∀ curve x, C.encodedPoint curve x = Rfc4251.encodedPoint curve x

section
variable {C : Crates} (hC : C.RoundTrips)
include hC

theorem Crates.RoundTrips.bytes_within : C.bytes.RoundTripsWithin C.sizeMax := fun x w hw hmax =>
  hC.bytes_back x w (by have := hC.bytes_length hw; omega) hw

theorem Crates.RoundTrips.string_within : C.string.RoundTripsWithin C.sizeMax := fun t w hw hmax =>
  hC.string_back t w (by have := hC.string_length hw; omega) hw

theorem Crates.RoundTrips.mpint_within : C.mpint.RoundTripsWithin C.sizeMax := fun x w hw hmax =>
  hC.mpint_back x w (by have := hC.mpint_length x w hw; omega) hw

theorem restores_readPrefixed {α : Type} {f : EStateM Exit Bytes α} {inner w : Bytes} {a : α}
    (hw : cat [C.usize.encode inner.length, .ok inner] = .ok w) (hmax : inner.length ≤ C.sizeMax)
    (hf : f.run inner = .ok a []) : Restores (C.readPrefixed f) w a := by
  obtain ⟨u, hu, rfl, -⟩ := hC.prefixed_ok hw
  exact restores_prefixed (hC.usize_back _ _ hmax hu) hf

theorem restores_decodeLabel {α : Type} {parse : Text → Except Exit α} {id : Text} {w : Bytes} {a : α}
    (hmax : id.len ≤ C.labelMax) (hw : C.string.encode id = .ok w) (hparse : parse id = .ok a) :
    Restores (C.decodeLabel parse) w a :=
  restores_end (hC.label_back id w hmax hw) (restores_orThrow hparse)

/-- A label with one of the crate's own names. -/
theorem restores_ownLabel {α : Type} {parse : Text → Except Exit α} {id : Text} {w : Bytes} {a : α} (hid : id.len ≤ 48)
    (hw : C.string.encode id = .ok w) (hparse : parse id = .ok a) : Restores (C.decodeLabel parse) w a :=
  restores_decodeLabel hC (Nat.le_trans hid hC.le_labelMax) hw hparse

/-- A byte string is the block of RFC 4251, whatever its length. -/
theorem Crates.RoundTrips.blockOf_eq {x w : Bytes} (h : C.bytes.encode x = .ok w) : Rfc4251.blockOf x = .ok w := by
  rw [hC.bytes_eq] at h
  obtain ⟨u, hu, rfl, -⟩ := hC.prefixed_ok h
  exact cat_pair.2 ⟨u, x, Rfc4251.usize_encode.2 (hC.usize_eq _ _ hu), rfl, rfl⟩

end

namespace Rfc4251

theorem restores_uint {α : Type} {k : Nat} {toNat : α → Nat} {ofNat : Nat → α} (hlt : ∀ a, toNat a < 256 ^ k)
    (hback : ∀ a, ofNat (toNat a) = a) : (uint k toNat ofNat).RoundTrips := by
  intro a w hw
  cases hw
  refine restores_end (restores_take _ (length_beBytes k (toNat a))) ?_
  have hval : ofNat (beNat (beBytes k (toNat a))) = a := by
    rw [beNat_beBytes, Nat.mod_eq_of_lt (hlt a), hback]
  show Restores (pure (ofNat (beNat (beBytes k (toNat a))))) [] a
  rw [hval]
  exact restores_pure

theorem usize_roundTrips : usize.RoundTrips := by
  intro n w hw
  obtain ⟨hn, rfl⟩ := usize_encode.1 hw
  refine restores_end (restores_take _ (length_beBytes 4 n)) ?_
  have hlt : n < 256 ^ 4 := hn
  have hval : beNat (beBytes 4 n) = n := by rw [beNat_beBytes, Nat.mod_eq_of_lt hlt]
  show Restores (pure (beNat (beBytes 4 n))) [] n
  rw [hval]
  exact restores_pure

theorem restores_checked {ok : Bytes → Except Exit Unit} {x w : Bytes} (hw : blockOf x = .ok w) (hok : ok x = .ok ()) :
    Restores (checked ok) w x := by
  obtain ⟨u, v, hu, hv, rfl⟩ := cat_pair.1 hw
  cases hv
  have hblock : Restores (block rest) (u ++ x) x := restores_prefixed (usize_roundTrips _ _ hu) rfl
  exact restores_end hblock (restores_then (restores_orThrow hok) restores_pure)

theorem passes_strings {c : Codec Text} (hc : c.RoundTrips) (hne : ∀ t w, c.encode t = .ok w → w ≠ []) :
    ∀ (ts before : List Text) (w : Bytes), cat (ts.map c.encode) = .ok w →
      Passes (fun ts => do pure (ts ++ [← c.decode])) before w (before ++ ts)
  | [], before, w, hw => by
    rw [List.map_nil, cat_nil] at hw
    subst hw
    rw [List.append_nil]
    exact .done _
  | t :: ts, before, w, hw => by
    obtain ⟨u, hu, v, hv, rfl⟩ := cat_cons.1 hw
    have hrest := passes_strings hc hne ts (before ++ [t]) v hv
    rw [List.append_assoc] at hrest
    exact .pass (hne t u hu) (restores_end (hc t u hu) restores_pure) hrest

theorem stringsOf_roundTrips {c : Codec Text} (hc : c.RoundTrips) (hne : ∀ t w, c.encode t = .ok w → w ≠ []) :
    (stringsOf c).RoundTrips := by
  intro ts w hw
  obtain ⟨inner, hinner, hw⟩ := Program.bind_ok.1 hw
  obtain ⟨u, v, hu, hv, rfl⟩ := cat_pair.1 hw
  cases hv
  have hrun : (whileUnread .running (fun ts => do pure (ts ++ [← c.decode])) []).run inner = .ok ts [] :=
    run_whileUnread (passes_strings hc hne ts [] inner hinner)
  have hback : Restores (block (whileUnread .running (fun ts => do pure (ts ++ [← c.decode])) [])) (u ++ inner) ts :=
    restores_prefixed (usize_roundTrips _ _ hu) hrun
  exact hback

/-- The text of UTF-8 bytes. -/
def ofUtf8 (x : Bytes) : Except Exit Text :=
  match String.fromUTF8? x.toByteArray with
  | some s => .ok s.toList
  | none => .error (.error (.encoding .characterEncoding))

theorem ofUtf8_utf8 (t : Text) : ofUtf8 t.utf8 = .ok t := by
  have hvalid : t.utf8.toByteArray.IsValidUTF8 := .intro t rfl
  have hs : String.fromUTF8? t.utf8.toByteArray = some (String.ofList t) := by
    rw [String.fromUTF8?, dif_pos hvalid]
    exact congrArg some (String.toByteArray_inj.1 String.toByteArray_ofList.symm)
  rw [ofUtf8, hs]
  exact congrArg Except.ok String.toList_ofList

theorem utf8_of_ofUtf8 {x : Bytes} {t : Text} (h : ofUtf8 x = .ok t) : t.utf8 = x := by
  unfold ofUtf8 at h
  split at h
  · rename_i s hs
    cases h
    have hbytes : s.toByteArray = x.toByteArray := by
      rw [String.fromUTF8?] at hs
      split at hs
      · cases hs; rfl
      · cases hs
    have henc : (Text.utf8 s.toList).toByteArray = x.toByteArray := String.utf8Encode_toList.trans hbytes
    simpa using congrArg (fun b => b.data.toList) henc
  · cases h

def utf8Text (limit : Nat) : EStateM Exit Bytes Text := do
  let x ← checked (fun x => if limit < x.length then .error lengthError else .ok ())
  orThrow (ofUtf8 x)

def utf8String : Codec Text where
  decode := utf8Text usizeMax
  encode t := blockOf t.utf8
  encodedLen t := blockLen t.utf8

theorem checkedLength_ok {limit : Nat} {x : Bytes}
    (h : (if limit < x.length then Except.error lengthError else .ok ()) = .ok ()) : x.length ≤ limit := by
  split at h
  · cases h
  · omega

theorem reads_utf8Text (limit n : Nat) :
    Reads Exit.IsErr n (utf8Text limit) (fun t w => utf8String.encode t = .ok w) := by
  refine reads_bind (reads_checked (fun _ _ => checkedLength_error) n) ?_
  rintro x w ⟨-, hw⟩
  refine reads_orThrow (fun t ht => ?_) (fun e he => ?_)
  · show blockOf t.utf8 = _
    rw [utf8_of_ofUtf8 ht, List.append_nil, hw]
  · unfold ofUtf8 at he
    split at he
    · cases he
    · cases he; trivial

theorem utf8String_canonical : utf8String.Canonical usizeMax where
  reads := reads_utf8Text usizeMax
  announces t := announces_block t.utf8

theorem blockOf_lt {x w : Bytes} (h : blockOf x = .ok w) : x.length < 2 ^ 32 := by
  obtain ⟨u, -, hu, -⟩ := cat_pair.1 h
  exact (usize_encode.1 hu).1

theorem restores_utf8Text {limit : Nat} {t : Text} {w : Bytes} (ht : t.len ≤ limit) (hw : blockOf t.utf8 = .ok w) :
    Restores (utf8Text limit) w t :=
  restores_end (restores_checked hw (if_neg (Nat.not_lt.2 ht))) (restores_orThrow (ofUtf8_utf8 t))

theorem utf8String_roundTrips : utf8String.RoundTrips := fun t _ hw =>
  restores_utf8Text (Nat.le_trans (Nat.le_of_lt (blockOf_lt (x := t.utf8) hw)) (by decide)) hw

theorem gives_utf8Text (limit : Nat) : Gives (utf8Text limit) (fun t => t.len ≤ limit) := by
  refine gives_bind (D := fun x => x.length ≤ limit) ?_ fun x hx => gives_orThrow fun t ht => ?_
  · refine gives_of_ok fun bs x rest hrun => ?_
    obtain ⟨w, -, hx, -⟩ := reads_ok (reads_checked (fun _ _ => checkedLength_error) bs.length) hrun
    exact checkedLength_ok hx
  · rw [Text.len, utf8_of_ofUtf8 ht]
    exact hx

/-- A length on four bytes is below 2³². -/
theorem gives_bytes : Gives bytes.decode (fun x => x.length ≤ 2 ^ 32 - 1) := by
  refine gives_of_ok fun bs x rest hrun => ?_
  obtain ⟨w, -, hw⟩ := reads_ok (bytes_canonical.reads bs.length) hrun
  have := blockOf_lt hw
  omega

/-- `Mpint`s are canonical. -/
def canonicalMpint : Codec Bytes where
  decode := checked minimal
  encode x := do
    minimal x
    blockOf x
  encodedLen := blockLen

theorem canonicalMpint_encode {x w : Bytes} : canonicalMpint.encode x = .ok w ↔ minimal x = .ok () ∧ blockOf x = .ok w := by
  show (minimal x >>= fun _ => blockOf x) = .ok w ↔ _
  cases minimal x with
  | error e => exact ⟨nofun, fun h => nomatch h.1⟩
  | ok u => exact ⟨fun h => ⟨rfl, h⟩, fun h => h.2⟩

theorem canonicalMpint_canonical : canonicalMpint.Canonical usizeMax where
  reads n := reads_mono (reads_checked (fun _ _ h => minimal_error h) n) (fun _ _ h => canonicalMpint_encode.2 h)
  announces x w hw := announces_block x w (canonicalMpint_encode.1 hw).2

/-- The primitives of the SSH wire format with all of UTF-8. -/
def utf8Crates : Crates :=
  { crates with string := utf8String, label := utf8Text labelMax, mpint := canonicalMpint }

theorem utf8Crates_lawful : utf8Crates.Lawful :=
  { crates_lawful with
    string := utf8String_canonical
    label := reads_utf8Text labelMax
    mpint := canonicalMpint_canonical
    string_eq := fun _ => rfl }

theorem utf8Crates_roundTrips : utf8Crates.RoundTrips :=
  { utf8Crates_lawful with
    u8_back := restores_uint (fun a => a.toNat_lt) (fun a => UInt8.ofNat_toNat)
    u32_back := restores_uint (fun a => a.toNat_lt) (fun a => UInt32.ofNat_toNat)
    sizeMax_le := by decide
    le_sizeMax := by decide
    le_labelMax := Nat.le_refl _
    usize_eq := fun _ _ => usize_encode.1
    mpint_length := fun _ _ hw => crates_lawful.bytes_length (canonicalMpint_encode.1 hw).2
    usize_back := fun _ _ _ => usize_roundTrips _ _
    bytes_back := fun _ _ _ hw => restores_checked hw rfl
    string_back := fun _ _ _ => utf8String_roundTrips _ _
    mpint_back := fun _ _ _ hw => restores_checked (canonicalMpint_encode.1 hw).2 (canonicalMpint_encode.1 hw).1
    label_back := fun _ _ ht hw => restores_utf8Text ht hw
    byten_back := fun _ _ _ hk _ hw => restores_checked hw (if_neg (by omega))
    bytes_le := gives_bytes
    label_le := gives_utf8Text labelMax
    point_eq := fun _ _ => rfl }

end Rfc4251

section
variable {C : Crates} (hC : C.RoundTrips)
include hC

/-- What the crates write is read by the wire types, whatever its length. -/
theorem Crates.RoundTrips.restores_bytes {x w : Bytes} (h : C.bytes.encode x = .ok w) :
    Restores Rfc4251.bytes.decode w x :=
  Rfc4251.restores_checked (hC.blockOf_eq h) rfl

theorem Crates.RoundTrips.restores_utf8String {t : Text} {w : Bytes} (h : C.string.encode t = .ok w) :
    Restores Rfc4251.utf8String.decode w t := by
  rw [hC.string_eq] at h
  exact Rfc4251.utf8String_roundTrips _ _ (hC.blockOf_eq h)

end

theorem utf8_inj {t t' : Text} (h : t.utf8 = t'.utf8) : t = t' := by
  have ht := Rfc4251.ofUtf8_utf8 t
  rw [h, Rfc4251.ofUtf8_utf8] at ht
  exact (Except.ok.inj ht).symm

end Ssh
end Wolf
