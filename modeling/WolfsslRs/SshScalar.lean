import WolfsslRs.Der
import WolfsslRs.SshSignature
/-!
# SshScalar — the private scalar of an ECDSA key as an mpint

`EcdsaPrivateKey` is an array of the curve's size, written as it is with a zero in front of a set high bit, and read from
any block of at least 32 bytes that fits.  The mpint of RFC 4251 has as many bytes as its number needs, so the two agree
on scalars without leading zeros.
-/
namespace Wolf
namespace Ssh

open Reader Program
open Der (contents Positive)

abbrev EcdsaPrivateKey (size : Nat) := {w : Bytes // w.length = size}

def EcdsaPrivateKey.ofNat (size n : Nat) : EcdsaPrivateKey size := ⟨beBytes size n, length_beBytes size n⟩

section
variable (C : Crates)

def EcdsaPrivateKey.decode (size : Nat) : EStateM Exit Bytes (EcdsaPrivateKey size) :=
  C.readPrefixed (ecdsaPrivateBytes C size)

def EcdsaPrivateKey.encode {size : Nat} (key : EcdsaPrivateKey size) : Except Exit Bytes :=
  cat [do C.usize.encode (← C.total [.ok (leadingZero key.1), .ok size]),
    .ok (List.replicate (leadingZero key.1) 0), .ok key.1]

end

/-- The bytes of the mpint of a number that is not negative. -/
def mpintBytes (n : Nat) : Bytes := if n = 0 then [] else contents n

theorem mpintBytes_iff {x : Bytes} (hne : x ≠ []) : mpintBytes (beNat x) = x ↔ Positive x := by
  unfold mpintBytes
  constructor
  · intro h
    by_cases hzero : beNat x = 0
    · rw [if_pos hzero] at h
      exact absurd h.symm hne
    · rw [if_neg hzero] at h
      rw [← h]
      exact Der.positive_contents (by omega)
  · intro h
    have hzero : beNat x ≠ 0 := by
      intro hzero
      have hx := Der.contents_of_positive h
      rw [hzero] at hx
      rw [← hx] at h
      exact h.1 rfl
    rw [if_neg hzero, Der.contents_of_positive h]

theorem beNat_zeros (x : Bytes) : ∀ k, beNat (List.replicate k 0 ++ x) = beNat x
  | 0 => rfl
  | k + 1 => by
    rw [List.replicate_succ, List.cons_append, beNat, beNat_zeros x k]
    simp

theorem eq_beBytes {x : Bytes} {size : Nat} (h : x.length = size) : x = beBytes size (beNat x) := by
  rw [← h, beBytes_beNat]

/-! ## Writing -/

/-- What is written behind the length. -/
def EcdsaPrivateKey.written {size : Nat} (key : EcdsaPrivateKey size) : Bytes :=
  List.replicate (leadingZero key.1) 0 ++ key.1

theorem beNat_written {size : Nat} (key : EcdsaPrivateKey size) : beNat key.written = beNat key.1 :=
  beNat_zeros _ _

/-- **The array is the mpint of its number if no more than the sign's bit of its first nine is missing.** -/
theorem positive_written_iff {size n : Nat} (hn : n < 256 ^ (size + 2)) :
    Positive (EcdsaPrivateKey.ofNat (size + 2) n).written ↔ 128 * 256 ^ size ≤ n := by
  have hval : beNat (beBytes (size + 2) n) = n := by rw [beNat_beBytes, Nat.mod_eq_of_lt hn]
  have hlen := length_beBytes (size + 2) n
  unfold EcdsaPrivateKey.written EcdsaPrivateKey.ofNat
  dsimp only
  generalize beBytes (size + 2) n = k at hval hlen
  match k, hlen with
  | b :: c :: bs, hlen =>
    have hbs : bs.length = size := by simpa using hlen
    subst hbs
    unfold leadingZero
    rw [List.headD_cons]
    by_cases hhigh : 128 ≤ b
    · rw [if_pos hhigh]
      have hpos : Positive (0 :: b :: c :: bs) := ⟨by decide, .inr hhigh⟩
      refine iff_of_true hpos ?_
      have hle := Der.le_beNat_of_positive hpos
      have hsame : beNat (0 :: b :: c :: bs) = beNat (b :: c :: bs) := by simp [beNat]
      rw [hsame, hval, List.length_cons, Nat.pow_succ] at hle
      have := Nat.pow_pos (n := bs.length) (show 0 < 256 by decide)
      omega
    · rw [if_neg hhigh, List.replicate_zero, List.nil_append]
      constructor
      · intro hpos
        rw [← hval]
        exact Der.le_beNat_of_positive hpos
      · intro hle
        refine ⟨UInt8.not_le.1 hhigh, ?_⟩
        by_contra hneg
        rw [not_or, not_not] at hneg
        obtain ⟨rfl, hc⟩ := hneg
        have hlt : beNat (c :: bs) < 128 * 256 ^ bs.length := Der.beNat_lt_of_head (UInt8.not_le.1 hc)
        have hsame : beNat (0 :: c :: bs) = beNat (c :: bs) := by simp [beNat]
        omega

section
variable {C : Crates} (hC : C.RoundTrips)
include hC

theorem ecdsaPrivate_encode {size : Nat} (hmax : size + 1 ≤ C.usizeMax) (key : EcdsaPrivateKey size) :
    EcdsaPrivateKey.encode C key = C.bytes.encode key.written := by
  have hzero : leadingZero key.1 ≤ 1 := by
    unfold leadingZero
    split <;> omega
  have htotal : C.total [.ok (leadingZero key.1), .ok size] = .ok (leadingZero key.1 + size) := by
    have hsum : Reader.total C.usizeMax lengthError ([leadingZero key.1, size].map Except.ok) =
        .ok (leadingZero key.1 + size) ↔ _ := total_oks
    exact hsum.2 ⟨by simp, by simp; omega⟩
  have hlen : key.written.length = leadingZero key.1 + size := by
    rw [EcdsaPrivateKey.written, List.length_append, List.length_replicate, key.2]
  rw [hC.bytes_eq, hlen, EcdsaPrivateKey.encode, htotal]
  change cat [C.usize.encode (leadingZero key.1 + size), _, _] = _
  cases C.usize.encode (leadingZero key.1 + size) with
  | error e => rfl
  | ok u =>
    change Except.ok (u ++ (List.replicate (leadingZero key.1) 0 ++ (key.1 ++ []))) = Except.ok (u ++ (key.written ++ []))
    rw [List.append_nil, List.append_nil]
    rfl

theorem bytes_encode_inj {x y : Bytes} (hfits : C.Fits x.length) :
    C.bytes.encode x = C.bytes.encode y ↔ x = y := by
  constructor
  · intro h
    obtain ⟨w, hw⟩ := (fits_iff hC.toLawful x).1 hfits
    exact restores_unique (hC.restores_bytes hw) (hC.restores_bytes (h ▸ hw))
  · rintro rfl
    rfl

theorem ecdsaPrivate_encode_iff {size n : Nat} (hmax : size + 3 ≤ C.usizeMax) (hfits : C.Fits (size + 3))
    (hn : n < 256 ^ (size + 2)) :
    EcdsaPrivateKey.encode C (.ofNat (size + 2) n) = C.bytes.encode (mpintBytes n) ↔ 128 * 256 ^ size ≤ n := by
  have hval : beNat (EcdsaPrivateKey.ofNat (size + 2) n).written = n := by
    rw [beNat_written]
    exact (beNat_beBytes _ _).trans (Nat.mod_eq_of_lt hn)
  have hlen : (EcdsaPrivateKey.ofNat (size + 2) n).written.length ≤ size + 3 := by
    unfold EcdsaPrivateKey.written leadingZero
    rw [List.length_append, List.length_replicate, (EcdsaPrivateKey.ofNat (size + 2) n).2]
    split <;> omega
  have hne : (EcdsaPrivateKey.ofNat (size + 2) n).written ≠ [] :=
    List.append_ne_nil_of_right_ne_nil _ (List.cons_ne_nil _ _)
  obtain ⟨u, hu⟩ := hfits
  rw [ecdsaPrivate_encode hC hmax, bytes_encode_inj hC (hC.usize_le _ _ _ hu hlen), eq_comm,
    ← positive_written_iff hn, ← mpintBytes_iff hne, hval]

/-! ## Reading -/

theorem run_of_readPrefixed {α : Type} {f : EStateM Exit Bytes α} {x w : Bytes} {a : α}
    (hw : C.bytes.encode x = .ok w) (h : (C.readPrefixed f).run w = .ok a []) : f.run x = .ok a [] := by
  obtain ⟨inner, hblock, hf⟩ := run_prefixed_ok.1 h
  obtain ⟨w', hw', _, rfl, hcat⟩ := reads_ok (reads_readPrefixed hC.toLawful reads_rest) hblock
  rw [List.append_nil] at hw'
  subst hw'
  rw [← hC.bytes_eq] at hcat
  rwa [restores_unique (hC.restores_bytes hw) (hC.restores_bytes hcat)]

theorem run_readPrefixed_iff {α : Type} {f : EStateM Exit Bytes α} {x w : Bytes} {a : α} (hmax : x.length ≤ C.sizeMax)
    (hw : C.bytes.encode x = .ok w) : (C.readPrefixed f).run w = .ok a [] ↔ f.run x = .ok a [] := by
  refine ⟨run_of_readPrefixed hC hw, fun hf => ?_⟩
  rw [hC.bytes_eq] at hw
  exact restores_run (restores_readPrefixed hC hw hmax hf)

theorem ecdsaPrivate_value {size : Nat} (h32 : 32 ≤ size) {x : Bytes} {key : EcdsaPrivateKey size}
    (h : (ecdsaPrivateBytes C size).run x = .ok key []) : beNat key.1 = beNat x ∧ x ≠ [] := by
  rcases (run_ecdsaPrivateBytes_iff hC h32).1 h with rfl | ⟨hlen, -, hkey⟩
  · exact ⟨by simp [beNat], List.cons_ne_nil _ _⟩
  · refine ⟨by rw [hkey, beNat_zeros], ?_⟩
    rintro rfl
    cases hlen

omit hC in
theorem length_contents_le {size n : Nat} (hpos : 0 < n) (hn : n < 256 ^ size) : (contents n).length ≤ size + 1 := by
  have hbig : ¬ size + 2 ≤ (contents n).length := fun h => by
    have := (Der.le_length_contents hpos).1 h
    omega
  omega

/-- **The mpint of a number is read as its array, if it has 32 bytes.** -/
theorem run_contents_iff {size n : Nat} (h32 : 32 ≤ size) (hpos : 0 < n) (hn : n < 256 ^ size) :
    (ecdsaPrivateBytes C size).run (contents n) = .ok (EcdsaPrivateKey.ofNat size n) [] ↔ 128 * 256 ^ 30 ≤ n := by
  have hval := Der.beNat_contents n
  have hle := length_contents_le hpos hn
  rw [run_ecdsaPrivateBytes_iff hC h32, ← Der.le_length_contents hpos]
  constructor
  · rintro (h | ⟨h, -, -⟩)
    · rw [h, List.length_cons, (EcdsaPrivateKey.ofNat size n).2]
      omega
    · exact h
  · intro hlen
    by_cases hfull : (contents n).length = size + 1
    · left
      cases hx : contents n with
      | nil => rw [hx] at hfull; cases hfull
      | cons b y =>
        rw [hx] at hfull hval
        have hy : y.length = size := Nat.succ.inj hfull
        have hb : b = 0 := by
          by_contra hb
          have : 256 ^ y.length ≤ beNat (b :: y) := Der.pow_le_beNat hb
          rw [hval, hy] at this
          omega
        have hsame : beNat y = n := by
          rw [← hval, hb]
          simp [beNat]
        rw [hb, eq_beBytes hy, hsame]
        rfl
    · right
      refine ⟨hlen, by omega, ?_⟩
      have hsize : (List.replicate (size - (contents n).length) 0 ++ contents n).length = size := by
        rw [List.length_append, List.length_replicate]
        omega
      rw [eq_beBytes hsize, beNat_zeros, hval]
      rfl

/-- **The blocks that are read as a scalar** of `size` bytes: the scalar behind a zero, and any 32 bytes or more. -/
def ScalarBlock (size : Nat) (x : Bytes) : Prop :=
  (∃ y, x = 0 :: y ∧ y.length = size) ∨ 32 ≤ x.length ∧ x.length ≤ size

/-- **Those among them that are mpints**: with a zero in front of a set high bit, or a first byte from 1 to 127. -/
def MpintBlock (size : Nat) (x : Bytes) : Prop :=
  (∃ b y, x = 0 :: b :: y ∧ 128 ≤ b ∧ 32 ≤ x.length ∧ x.length ≤ size + 1) ∨
    ∃ b y, x = b :: y ∧ b ≠ 0 ∧ b < 128 ∧ 32 ≤ x.length ∧ x.length ≤ size

omit hC in
theorem mpintBlock_iff {size : Nat} (h32 : 32 ≤ size) {x : Bytes} :
    MpintBlock size x ↔ ScalarBlock size x ∧ Positive x := by
  constructor
  · rintro (⟨b, y, rfl, hb, hlen, hle⟩ | ⟨b, y, rfl, hne, hlt, hlen, hle⟩)
    · refine ⟨?_, by decide, .inr hb⟩
      by_cases hfull : (b :: y).length = size
      · exact .inl ⟨b :: y, rfl, hfull⟩
      · rw [List.length_cons] at hlen hle
        exact .inr ⟨by rw [List.length_cons]; omega, by rw [List.length_cons]; omega⟩
    · refine ⟨.inr ⟨hlen, hle⟩, ?_⟩
      cases y with
      | nil => exact ⟨hne, hlt⟩
      | cons c y => exact ⟨hlt, .inl hne⟩
  · rintro ⟨hblock, hpos⟩
    have hlen : 32 ≤ x.length ∧ x.length ≤ size + 1 := by
      rcases hblock with ⟨y, rfl, hy⟩ | ⟨hle, hle'⟩
      · rw [List.length_cons]
        omega
      · omega
    match x, hlen with
    | b :: c :: y, hlen =>
      obtain ⟨hlt, hnext⟩ := hpos
      by_cases hb : b = 0
      · subst hb
        exact .inl ⟨c, y, rfl, hnext.resolve_left (not_not.2 rfl), hlen.1, hlen.2⟩
      · refine .inr ⟨b, c :: y, rfl, hb, hlt, hlen.1, ?_⟩
        rcases hblock with ⟨z, hz, -⟩ | ⟨-, hle⟩
        · exact absurd (List.cons.inj hz).1 hb
        · exact hle

theorem run_scalarBlock_iff {size : Nat} (h32 : 32 ≤ size) {x : Bytes} :
    (∃ key, (ecdsaPrivateBytes C size).run x = .ok key []) ↔ ScalarBlock size x := by
  simp only [run_ecdsaPrivateBytes_iff hC h32]
  constructor
  · rintro ⟨key, hx | ⟨hlen, hle, -⟩⟩
    · exact .inl ⟨key.1, hx, key.2⟩
    · exact .inr ⟨hlen, hle⟩
  · rintro (⟨y, hx, hy⟩ | ⟨hlen, hle⟩)
    · exact ⟨⟨y, hy⟩, .inl hx⟩
    · exact ⟨⟨List.replicate (size - x.length) 0 ++ x, by rw [List.length_append, List.length_replicate]; omega⟩,
        .inr ⟨hlen, hle, rfl⟩⟩

/-- The blocks that are read, and those of them that are the mpint of the answer. -/
theorem decode_scalar_iff {size : Nat} (h32 : 32 ≤ size) (h66 : size ≤ 66) {x w : Bytes}
    (hw : C.bytes.encode x = .ok w) :
    ((∃ key, (EcdsaPrivateKey.decode C size).run w = .ok key []) ↔ ScalarBlock size x) ∧
    ((∃ key, (EcdsaPrivateKey.decode C size).run w = .ok key [] ∧
      C.bytes.encode (mpintBytes (beNat key.1)) = .ok w) ↔ MpintBlock size x) := by
  have hroom := hC.le_sizeMax
  have hread : ScalarBlock size x → x.length ≤ C.sizeMax := by
    rintro (⟨y, rfl, hy⟩ | ⟨-, hle⟩)
    · rw [List.length_cons]
      omega
    · omega
  have hblock : ∀ key, (EcdsaPrivateKey.decode C size).run w = .ok key [] ↔
      ScalarBlock size x ∧ (ecdsaPrivateBytes C size).run x = .ok key [] := by
    intro key
    constructor
    · intro h
      have hx := run_of_readPrefixed hC hw h
      exact ⟨(run_scalarBlock_iff hC h32).1 ⟨key, hx⟩, hx⟩
    · rintro ⟨hx, hkey⟩
      exact (run_readPrefixed_iff hC (hread hx) hw).2 hkey
  have hcanonical : ∀ key : EcdsaPrivateKey size, (ecdsaPrivateBytes C size).run x = .ok key [] →
      (C.bytes.encode (mpintBytes (beNat key.1)) = .ok w ↔ Positive x) := by
    intro key hkey
    obtain ⟨hval, hne⟩ := ecdsaPrivate_value hC h32 hkey
    rw [hval, ← mpintBytes_iff hne, ← hw, eq_comm, bytes_encode_inj hC ((fits_iff hC.toLawful x).2 ⟨w, hw⟩), eq_comm]
  simp only [hblock, mpintBlock_iff h32]
  constructor
  · rw [exists_and_left, run_scalarBlock_iff hC h32, and_self]
  · constructor
    · rintro ⟨key, ⟨hx, hkey⟩, hmpint⟩
      exact ⟨hx, (hcanonical key hkey).1 hmpint⟩
    · rintro ⟨hx, hpos⟩
      obtain ⟨key, hkey⟩ := (run_scalarBlock_iff hC h32).2 hx
      exact ⟨key, ⟨hx, hkey⟩, (hcanonical key hkey).2 hpos⟩

end

/-- **A scalar is written as its mpint exactly when it has at least `8 * SIZE - 8` bits; its mpint is read as the scalar
exactly when the scalar has at least 248; the blocks that are read are the scalar blocks, and those that are the mpint of
the answer the mpint blocks among them.** -/
theorem ecdsa_scalar_mpint_iff (C : Crates) (hC : C.RoundTrips) (hfits : C.Fits 67) (curve : EcdsaCurve) :
    (∀ n, n < 2 ^ (8 * curve.fieldSize) →
      (EcdsaPrivateKey.encode C (.ofNat curve.fieldSize n) = C.bytes.encode (mpintBytes n) ↔
        2 ^ (8 * curve.fieldSize - 9) ≤ n)) ∧
    (∀ n w, 0 < n → n < 2 ^ (8 * curve.fieldSize) → C.bytes.encode (mpintBytes n) = .ok w →
      ((EcdsaPrivateKey.decode C curve.fieldSize).run w = .ok (.ofNat curve.fieldSize n) [] ↔ 2 ^ 247 ≤ n)) ∧
    (∀ x w, C.bytes.encode x = .ok w →
      ((∃ key, (EcdsaPrivateKey.decode C curve.fieldSize).run w = .ok key []) ↔ ScalarBlock curve.fieldSize x) ∧
      ((∃ key, (EcdsaPrivateKey.decode C curve.fieldSize).run w = .ok key [] ∧
        C.bytes.encode (mpintBytes (beNat key.1)) = .ok w) ↔ MpintBlock curve.fieldSize x)) := by
  have h32 := curve.le_fieldSize
  have h66 : curve.fieldSize ≤ 66 := by cases curve <;> decide
  have hroom := hC.le_sizeMax
  have hsizeMax := hC.sizeMax_le
  have hpow : 2 ^ (8 * curve.fieldSize) = 256 ^ curve.fieldSize := Nat.pow_mul 2 8 _
  refine ⟨fun n hn => ?_, fun n w hpos hn hw => ?_, fun x w hw => decode_scalar_iff hC h32 h66 hw⟩
  · obtain ⟨size, hsize⟩ : ∃ size, curve.fieldSize = size + 2 := ⟨curve.fieldSize - 2, by omega⟩
    have hbits : 2 ^ (8 * (size + 2) - 9) = 128 * 256 ^ size := by
      rw [show 8 * (size + 2) - 9 = 7 + 8 * size by omega, Nat.pow_add, Nat.pow_mul]
    obtain ⟨u, hu⟩ := hfits
    rw [hpow] at hn
    rw [hsize] at h66 hn ⊢
    rw [hbits]
    exact ecdsaPrivate_encode_iff hC (by omega) (hC.usize_le _ _ _ hu (by omega)) hn
  · have hne : mpintBytes n = contents n := if_neg (by omega)
    rw [hne] at hw
    rw [hpow] at hn
    have hlen := length_contents_le hpos hn
    exact (run_readPrefixed_iff hC (by omega) hw).trans (run_contents_iff hC h32 hpos hn)

theorem ecdsa_scalar_mpint_iff_p256 :
    EcdsaPrivateKey.encode Rfc4251.utf8Crates (.ofNat 32 (2 ^ 255)) =
        Rfc4251.utf8Crates.bytes.encode (mpintBytes (2 ^ 255)) ∧
      (∃ w, Rfc4251.utf8Crates.bytes.encode (mpintBytes (2 ^ 247)) = .ok w ∧
        (EcdsaPrivateKey.decode Rfc4251.utf8Crates 32).run w = .ok (.ofNat 32 (2 ^ 247)) []) ∧
      ∃ w, Rfc4251.utf8Crates.bytes.encode (List.replicate 32 0x7f) = .ok w ∧
        ∃ key, (EcdsaPrivateKey.decode Rfc4251.utf8Crates 32).run w = .ok key [] ∧
          Rfc4251.utf8Crates.bytes.encode (mpintBytes (beNat key.1)) = .ok w := by
  have hall := ecdsa_scalar_mpint_iff Rfc4251.utf8Crates Rfc4251.utf8Crates_roundTrips ⟨_, rfl⟩ .nistP256
  have hpos : Positive (0 :: 0x80 :: List.replicate 30 0) := ⟨by decide, .inr (by decide)⟩
  have hmpint : mpintBytes (2 ^ 247) = 0 :: 0x80 :: List.replicate 30 0 := (mpintBytes_iff (List.cons_ne_nil _ _)).2 hpos
  refine ⟨(hall.1 (2 ^ 255) (by decide)).2 (by decide), ?_, ?_⟩
  · have hw : ∃ w, Rfc4251.utf8Crates.bytes.encode (mpintBytes (2 ^ 247)) = .ok w := by
      rw [hmpint]
      exact ⟨_, rfl⟩
    obtain ⟨w, hw⟩ := hw
    exact ⟨w, hw, (hall.2.1 (2 ^ 247) w (by decide) (by decide) hw).2 (Nat.le_refl _)⟩
  · obtain ⟨w, hw⟩ : ∃ w, Rfc4251.utf8Crates.bytes.encode (List.replicate 32 0x7f) = .ok w := ⟨_, rfl⟩
    refine ⟨w, hw, (hall.2.2 _ w hw).2.2 (.inr ⟨0x7f, List.replicate 31 0x7f, rfl, ?_⟩)⟩
    exact ⟨by decide, by decide, by decide, by decide⟩

/-- The scalar 1 is written on 32 bytes, its mpint is refused, and a block whose first bit is set is read. -/
theorem ecdsa_scalar_not_mpint :
    let C := Rfc4251.utf8Crates
    let high : EcdsaPrivateKey 32 := ⟨List.replicate 32 0xff, rfl⟩
    EcdsaPrivateKey.encode C (.ofNat 32 1) ≠ C.bytes.encode (mpintBytes 1) ∧
    (∃ w, C.bytes.encode (mpintBytes 1) = .ok w ∧ ∀ key, (EcdsaPrivateKey.decode C 32).run w ≠ .ok key []) ∧
    ∃ w, C.bytes.encode high.1 = .ok w ∧ (EcdsaPrivateKey.decode C 32).run w = .ok high [] ∧
      C.bytes.encode (mpintBytes (beNat high.1)) ≠ .ok w := by
  have hC := Rfc4251.utf8Crates_roundTrips
  have hpos : Positive [1] := ⟨by decide, by decide⟩
  have hone : mpintBytes 1 = [1] := (mpintBytes_iff (List.cons_ne_nil _ _)).2 hpos
  have hpos' : Positive (0 :: List.replicate 32 0xff) := ⟨by decide, .inr (by decide)⟩
  have hhigh : mpintBytes (beNat (List.replicate 32 0xff)) = 0 :: List.replicate 32 0xff :=
    (mpintBytes_iff (List.cons_ne_nil _ _)).2 hpos'
  obtain ⟨u, hu⟩ : ∃ u, Rfc4251.utf8Crates.bytes.encode [1] = .ok u := ⟨_, rfl⟩
  obtain ⟨w, hw⟩ : ∃ w, Rfc4251.utf8Crates.bytes.encode (List.replicate 32 0xff) = .ok w := ⟨_, rfl⟩
  dsimp only
  rw [hone, hhigh]
  refine ⟨by decide +kernel, ⟨u, hu, fun key h => ?_⟩, w, hw, ?_, ?_⟩
  · rcases (run_ecdsaPrivateBytes_iff hC (by decide)).1 (run_of_readPrefixed hC hu h) with hx | ⟨hx, -⟩
    · exact absurd (List.cons.inj hx).1 (by decide)
    · exact absurd hx (by decide)
  · exact (run_readPrefixed_iff hC (by decide) hw).2 ((run_ecdsaPrivateBytes_iff hC (by decide)).2 (.inr (by decide)))
  · rw [← hw]
    decide +kernel

end Ssh
end Wolf
