import WolfsslRs.Bytes
import Mathlib.Data.Nat.Log
/-!
# Der — lengths and integers of the distinguished encoding rules

A number has one spelling in the fewest bytes, `magnitude`; what is left of any spelling of it without the zeros in
front is that one (`magnitude_beNat`).  Lengths, INTEGERs and SEQUENCEs are built from it.
-/
namespace Wolf
namespace Der

/-! ## Numbers in the fewest bytes -/

/-- The number of bytes `n` takes, none for zero. -/
def width (n : Nat) : Nat := if n = 0 then 0 else Nat.log 256 n + 1

/-- `n` in the fewest bytes, none for zero. -/
def magnitude (n : Nat) : Bytes := beBytes (width n) n

theorem width_eq {n k : Nat} (hlo : 256 ^ k ≤ n) (hhi : n < 256 ^ (k + 1)) : width n = k + 1 := by
  have hpos : 0 < 256 ^ k := Nat.pow_pos (by decide)
  rw [width, if_neg (by omega), Nat.log_eq_of_pow_le_of_lt_pow hlo hhi]

theorem lt_pow_width (n : Nat) : n < 256 ^ width n := by
  unfold width
  split
  · omega
  · exact Nat.lt_pow_succ_log_self (by decide) n

theorem width_le {n k : Nat} (h : n < 256 ^ k) : width n ≤ k := by
  unfold width
  split
  · exact Nat.zero_le k
  · exact Nat.log_lt_of_lt_pow (by omega) h

theorem width_le_iff {n k : Nat} : width n ≤ k ↔ n < 256 ^ k :=
  ⟨fun h => Nat.lt_of_lt_of_le (lt_pow_width n) (Nat.pow_le_pow_right (by decide) h), width_le⟩

@[simp] theorem length_magnitude (n : Nat) : (magnitude n).length = width n := length_beBytes ..

theorem beNat_magnitude (n : Nat) : beNat (magnitude n) = n := by
  rw [magnitude, beNat_beBytes, Nat.mod_eq_of_lt (lt_pow_width n)]

theorem pow_le_beNat {b : UInt8} {bs : Bytes} (hb : b ≠ 0) : 256 ^ bs.length ≤ beNat (b :: bs) := by
  have hpos : 1 ≤ b.toNat := Nat.pos_of_ne_zero fun h => hb (UInt8.toNat.inj h)
  have := Nat.mul_le_mul_right (256 ^ bs.length) hpos
  rw [beNat]
  omega

theorem beNat_zeros_append : ∀ (k : Nat) (bs : Bytes), beNat (List.replicate k 0 ++ bs) = beNat bs
  | 0, _ => rfl
  | k + 1, bs => by
    rw [List.replicate_succ, List.cons_append, beNat, beNat_zeros_append k bs]
    simp

/-- **A number of a width is its fewest bytes behind zeros.** -/
theorem beBytes_eq_zeros_append {n k : Nat} (h : n < 256 ^ k) :
    beBytes k n = List.replicate (k - width n) 0 ++ magnitude n := by
  have hlen : (List.replicate (k - width n) 0 ++ magnitude n).length = k := by
    have := width_le h
    rw [List.length_append, List.length_replicate, length_magnitude]
    omega
  have hval : beNat (List.replicate (k - width n) 0 ++ magnitude n) = n := by
    rw [beNat_zeros_append, beNat_magnitude]
  have hspell := beBytes_beNat (List.replicate (k - width n) 0 ++ magnitude n)
  rw [hlen, hval] at hspell
  exact hspell

/-- **Without zeros in front a byte string is the only spelling of its number.** -/
theorem magnitude_cons {b : UInt8} {bs : Bytes} (hb : b ≠ 0) : magnitude (beNat (b :: bs)) = b :: bs := by
  have hlt := beNat_lt (b :: bs)
  rw [List.length_cons] at hlt
  rw [magnitude, width_eq (pow_le_beNat hb) hlt]
  exact beBytes_beNat (b :: bs)

theorem magnitude_beNat : ∀ bs : Bytes, magnitude (beNat bs) = bs.dropWhile (· == 0)
  | [] => rfl
  | b :: bs => by
    by_cases hb : b = 0
    · subst hb
      have hzero : beNat (0 :: bs) = beNat bs := by simp [beNat]
      rw [hzero, magnitude_beNat bs]
      rfl
    · rw [magnitude_cons hb, List.dropWhile_cons_of_neg (by simpa using hb)]

theorem magnitude_head {n : Nat} {b : UInt8} {bs : Bytes} (h : magnitude n = b :: bs) : b ≠ 0 := by
  rintro rfl
  have hn := beNat_magnitude n
  have hdrop := magnitude_beNat (magnitude n)
  rw [hn, h] at hdrop
  have hlen := congrArg List.length hdrop
  have hle := (List.dropWhile_sublist (l := bs) (fun b : UInt8 => b == 0)).length_le
  simp only [List.dropWhile_cons, BEq.rfl, if_true, List.length_cons] at hlen
  omega

/-- `n` in the fewest bytes, at least one. -/
def unsignedBytes (n : Nat) : Bytes := if n = 0 then [0] else magnitude n

theorem beNat_unsignedBytes (n : Nat) : beNat (unsignedBytes n) = n := by
  unfold unsignedBytes
  split
  · rename_i h; rw [h]; rfl
  · exact beNat_magnitude n

theorem magnitude_ne_nil {n : Nat} (h : n ≠ 0) : magnitude n ≠ [] := by
  intro hnil
  have := beNat_magnitude n
  rw [hnil] at this
  exact h this.symm

theorem unsignedBytes_ne_nil (n : Nat) : unsignedBytes n ≠ [] := by
  unfold unsignedBytes
  split
  · exact List.cons_ne_nil _ _
  · rename_i h; exact magnitude_ne_nil h

/-! ## Lengths, integers and sequences -/

/-- The length octets: one byte below 128, else the number of the bytes that follow and the length in the fewest. -/
def lengthOctets (n : Nat) : Bytes := if n < 128 then [UInt8.ofNat n] else UInt8.ofNat (128 + width n) :: magnitude n

/-- The contents of an INTEGER that is not negative: its bytes, and a zero in front of a set high bit. -/
def contents (n : Nat) : Bytes :=
  if 128 ≤ (unsignedBytes n).headD 0 then 0 :: unsignedBytes n else unsignedBytes n

def element (tag : UInt8) (content : Bytes) : Bytes := tag :: (lengthOctets content.length ++ content)

def integer (n : Nat) : Bytes := element 0x02 (contents n)

def sequence (parts : List Bytes) : Bytes := element 0x30 parts.flatten

theorem lengthOctets_short {n : Nat} (h : n < 128) : lengthOctets n = [UInt8.ofNat n] := if_pos h

theorem lengthOctets_long {n k : Nat} (h128 : 128 ≤ n) (hlo : 256 ^ k ≤ n) (hhi : n < 256 ^ (k + 1)) :
    lengthOctets n = UInt8.ofNat (128 + (k + 1)) :: beBytes (k + 1) n := by
  rw [lengthOctets, if_neg (by omega), magnitude, width_eq hlo hhi]

theorem lengthOctets_two {n : Nat} (h128 : 128 ≤ n) (h : n < 256) : lengthOctets n = [0x81, UInt8.ofNat n] := by
  rw [lengthOctets_long (k := 0) h128 (by omega) (by omega)]
  simp only [beBytes, Nat.pow_zero, Nat.div_one]
  rfl

theorem lengthOctets_three {n : Nat} (h256 : 256 ≤ n) (h : n < 65536) :
    lengthOctets n = [0x82, UInt8.ofNat (n / 2 ^ 8), UInt8.ofNat n] := by
  rw [lengthOctets_long (k := 1) (by omega) (by omega) (by omega)]
  simp only [beBytes, Nat.pow_zero, Nat.div_one]
  rfl

theorem element_short {tag : UInt8} {content : Bytes} (h : content.length < 128) :
    element tag content = tag :: UInt8.ofNat content.length :: content := by
  rw [element, lengthOctets_short h]
  rfl

/-- **The contents are minimal**: a zero in front is there only for a set high bit, and it spells the number. -/
theorem contents_minimal {n : Nat} {b : UInt8} {bs : Bytes} (h : contents n = 0 :: b :: bs) : 128 ≤ b := by
  unfold contents at h
  split at h
  · rename_i hhead
    rw [(List.cons.inj h).2] at hhead
    exact hhead
  · unfold unsignedBytes at h
    split at h
    · cases h
    · exact absurd rfl (magnitude_head h)

theorem beNat_contents (n : Nat) : beNat (contents n) = n := by
  unfold contents
  split
  · rw [beNat, beNat_unsignedBytes]; simp
  · exact beNat_unsignedBytes n

theorem length_contents_le {n k : Nat} (h : n < 256 ^ (k + 1)) : (contents n).length ≤ k + 2 := by
  have hbytes : (unsignedBytes n).length ≤ k + 1 := by
    unfold unsignedBytes
    split
    · simp
    · rw [length_magnitude]
      exact width_le h
  unfold contents
  split
  · rw [List.length_cons]; omega
  · omega

theorem length_element (tag : UInt8) (content : Bytes) :
    (element tag content).length = 1 + (lengthOctets content.length).length + content.length := by
  simp only [element, List.length_cons, List.length_append]
  omega

theorem length_lengthOctets_le {n k : Nat} (h : n < 256 ^ k) : (lengthOctets n).length ≤ k + 1 := by
  unfold lengthOctets
  split
  · rw [List.length_singleton]; omega
  · rw [List.length_cons, magnitude, length_beBytes]
    exact Nat.succ_le_succ (width_le h)

theorem content_of_element {tag b : UInt8} {rest content : Bytes} (h : tag :: b :: rest = element tag content)
    (hlen : rest.length + 1 < 2 ^ 63) (hb : b < 0x80) : content = rest ∧ content.length = b.toNat := by
  have hsize : rest.length + 2 = 1 + (lengthOctets content.length).length + content.length := by
    rw [← length_element tag, ← h]
    rfl
  have h : b :: rest = lengthOctets content.length ++ content := (List.cons.inj h).2
  by_cases hshort : content.length < 128
  · rw [lengthOctets_short hshort] at h
    obtain ⟨rfl, rfl⟩ := List.cons.inj h
    refine ⟨rfl, ?_⟩
    simp
    omega
  · have hwidth : width content.length ≤ 8 := width_le (by omega)
    rw [lengthOctets, if_neg hshort] at h
    obtain ⟨rfl, -⟩ := List.cons.inj h
    have := UInt8.lt_iff_toNat_lt.1 hb
    have hnat : (UInt8.ofNat (128 + width content.length)).toNat = 128 + width content.length := by simp; omega
    rw [hnat] at this
    exact absurd this (by change ¬ 128 + width content.length < 128; omega)

theorem length_integer_le {n : Nat} {ns : List Nat} (h : n ∈ ns) :
    (integer n).length ≤ (ns.map integer).flatten.length :=
  (List.sublist_flatten_of_mem (List.mem_map_of_mem h)).length_le

/-- Zeros in front dropped, one byte kept. -/
def trimZeros : Bytes → Bytes
  | 0 :: b :: bs => trimZeros (b :: bs)
  | bs => bs

theorem trimZeros_cons {b : UInt8} {bs : Bytes} (hb : b ≠ 0) : trimZeros (b :: bs) = b :: bs := by
  rw [trimZeros]
  rintro b' bs' h
  exact absurd (List.cons.inj h).1 hb

theorem unsignedBytes_cons {b : UInt8} {bs : Bytes} (hb : b ≠ 0) : unsignedBytes (beNat (b :: bs)) = b :: bs := by
  have hle : 256 ^ bs.length ≤ beNat (b :: bs) := pow_le_beNat hb
  have hpos : 0 < 256 ^ bs.length := Nat.pow_pos (by decide)
  rw [unsignedBytes, if_neg (by omega), magnitude_cons hb]

/-- **Trimming any spelling of a number leaves its fewest bytes.** -/
theorem trimZeros_eq : ∀ {bs : Bytes}, bs ≠ [] → trimZeros bs = unsignedBytes (beNat bs)
  | b :: bs, _ => by
    by_cases hb : b = 0
    · subst hb
      cases bs with
      | nil => rfl
      | cons c bs =>
        have hzero : beNat (0 :: c :: bs) = beNat (c :: bs) := by simp [beNat]
        rw [trimZeros, hzero]
        exact trimZeros_eq (List.cons_ne_nil c bs)
    · rw [trimZeros_cons hb, unsignedBytes_cons hb]

theorem trimZeros_contents (n : Nat) : trimZeros (contents n) = unsignedBytes n := by
  have hne : contents n ≠ [] := by
    unfold contents
    split
    · exact List.cons_ne_nil _ _
    · exact unsignedBytes_ne_nil n
  rw [trimZeros_eq hne, beNat_contents]

/-! ## Positive integers -/

/-- The contents of a positive INTEGER: the high bit is clear, and a zero in front is there for the bit after it. -/
def Positive : Bytes → Prop
  | [] => False
  | [b] => b ≠ 0 ∧ b < 128
  | b :: c :: _ => b < 128 ∧ (b ≠ 0 ∨ 128 ≤ c)

theorem positive_contents {n : Nat} (h : 0 < n) : Positive (contents n) := by
  have hbytes : unsignedBytes n = magnitude n := if_neg (by omega)
  unfold contents
  rw [hbytes]
  cases hmag : magnitude n with
  | nil => exact absurd hmag (magnitude_ne_nil (by omega))
  | cons b bs =>
    have hb := magnitude_head hmag
    rw [List.headD_cons]
    by_cases hhigh : 128 ≤ b
    · rw [if_pos hhigh]
      exact ⟨by decide, .inr hhigh⟩
    · rw [if_neg hhigh]
      cases bs with
      | nil => exact ⟨hb, UInt8.not_le.1 hhigh⟩
      | cons c bs => exact ⟨UInt8.not_le.1 hhigh, .inl hb⟩

theorem contents_cons {b : UInt8} {bs : Bytes} (hb : b ≠ 0) :
    contents (beNat (b :: bs)) = if 128 ≤ b then 0 :: b :: bs else b :: bs := by
  unfold contents
  rw [unsignedBytes_cons hb]
  rfl

/-- **The contents of a positive INTEGER are those of the number they spell.** -/
theorem contents_of_positive : ∀ {x : Bytes}, Positive x → contents (beNat x) = x
  | [b], h => by rw [contents_cons h.1, if_neg (UInt8.not_le.2 h.2)]
  | b :: c :: bs, h => by
    by_cases hb : b = 0
    · have hc : 128 ≤ c := h.2.resolve_left (fun hne => hne hb)
      have hc0 : c ≠ 0 := by rintro rfl; exact absurd hc (by decide)
      have hzero : beNat (b :: c :: bs) = beNat (c :: bs) := by
        rw [hb]
        simp [beNat]
      rw [hzero, contents_cons hc0, if_pos hc, hb]
    · rw [contents_cons hb, if_neg (UInt8.not_le.2 h.1)]

theorem beNat_lt_of_head {b : UInt8} {bs : Bytes} (hb : b < 128) : beNat (b :: bs) < 128 * 256 ^ bs.length := by
  have hlt := beNat_lt bs
  have hb : b.toNat + 1 ≤ 128 := UInt8.lt_iff_toNat_lt.1 hb
  have := Nat.mul_le_mul_right (256 ^ bs.length) hb
  rw [Nat.add_mul] at this
  rw [beNat]
  omega

theorem le_beNat_of_positive {b c : UInt8} {bs : Bytes} (h : Positive (b :: c :: bs)) :
    128 * 256 ^ bs.length ≤ beNat (b :: c :: bs) := by
  rcases h.2 with hb | hc
  · have hle : 256 ^ (c :: bs).length ≤ beNat (b :: c :: bs) := pow_le_beNat hb
    rw [List.length_cons, Nat.pow_succ] at hle
    omega
  · have hc : 128 ≤ c.toNat := UInt8.le_iff_toNat_le.1 hc
    have hle := Nat.mul_le_mul_right (256 ^ bs.length) hc
    rw [beNat, beNat]
    omega

theorem positive_head : ∀ {b : UInt8} {bs : Bytes}, Positive (b :: bs) → b < 128
  | _, [], h => h.2
  | _, _ :: _, h => h.1

/-- **How long the contents of a positive INTEGER are.** -/
theorem le_length_contents {n k : Nat} (hn : 0 < n) : k + 2 ≤ (contents n).length ↔ 128 * 256 ^ k ≤ n := by
  have hpos := positive_contents hn
  have hval := beNat_contents n
  have hmono : ∀ {i j : Nat}, i ≤ j → 256 ^ i ≤ 256 ^ j := fun h => Nat.pow_le_pow_right (by decide) h
  cases hx : contents n with
  | nil => rw [hx] at hpos; exact hpos.elim
  | cons b bs =>
    rw [hx] at hpos hval
    have hlt : beNat (b :: bs) < 128 * 256 ^ bs.length := beNat_lt_of_head (positive_head hpos)
    rw [List.length_cons]
    constructor
    · intro hlen
      cases bs with
      | nil => rw [List.length_nil] at hlen; omega
      | cons c bs =>
        have hle := le_beNat_of_positive hpos
        rw [List.length_cons] at hlen
        have := hmono (show k ≤ bs.length by omega)
        omega
    · intro hle
      by_contra hshort
      have := hmono (show bs.length ≤ k by omega)
      omega

end Der
end Wolf
