import WolfsslRs.Bytes
/-!
# CMemory — C buffers as byte strings, with accesses that can leave them

A buffer is the bytes of one C object.  `load`, `memcpy` and `memset` answer `none` when they touch a byte outside it,
which C leaves undefined; a `some` is therefore also the proof that every access stayed inside.
-/
namespace Wolf

/-- The `n` bytes from `off` on. -/
def slice (b : Bytes) (off n : Nat) : Bytes := (b.drop off).take n

/-- `b` with the bytes from `off` on overwritten by `src`. -/
def splice (b : Bytes) (off : Nat) (src : Bytes) : Bytes := b.take off ++ src ++ b.drop (off + src.length)

/-- Reading `n` bytes at `off`. -/
def load (b : Bytes) (off n : Nat) : Option Bytes :=
  if off + n ≤ b.length then some (slice b off n) else none

/-- `memcpy(dst + off, src + soff, n)`. -/
def memcpy (dst : Bytes) (off : Nat) (src : Bytes) (soff n : Nat) : Option Bytes :=
  if off + n ≤ dst.length ∧ soff + n ≤ src.length then some (splice dst off (slice src soff n)) else none

/-- `memset(dst + off, v, n)`. -/
def memset (dst : Bytes) (off : Nat) (v : UInt8) (n : Nat) : Option Bytes :=
  if off + n ≤ dst.length then some (splice dst off (List.replicate n v)) else none

theorem length_slice (b : Bytes) (off n : Nat) : (slice b off n).length = min n (b.length - off) := by
  simp [slice]

theorem length_slice_of_le {b : Bytes} {off n : Nat} (h : off + n ≤ b.length) : (slice b off n).length = n := by
  rw [length_slice]; omega

theorem slice_zero (b : Bytes) (n : Nat) : slice b 0 n = b.take n := by simp [slice]

theorem slice_all (b : Bytes) : slice b 0 b.length = b := by simp [slice]

theorem length_splice {b src : Bytes} {off : Nat} (h : off + src.length ≤ b.length) :
    (splice b off src).length = b.length := by
  simp only [splice, List.length_append, List.length_take, List.length_drop]
  omega

/-- **Reading back what was written.** -/
theorem slice_splice {b src : Bytes} {off n : Nat} (hn : n = src.length) (h : off + src.length ≤ b.length) :
    slice (splice b off src) off n = src := by
  subst hn
  have hlen : (b.take off).length = off := by rw [List.length_take]; omega
  rw [slice, splice, List.append_assoc, List.drop_left' hlen, List.take_left]

/-- **Writing the bytes that are there changes nothing.** -/
theorem splice_slice {b : Bytes} {off n : Nat} (h : off + n ≤ b.length) : splice b off (slice b off n) = b := by
  rw [splice, length_slice_of_le h, slice, List.append_assoc]
  conv => rhs; rw [← List.take_append_drop off b, ← List.take_append_drop n (b.drop off), List.drop_drop]

/-- **The later of two writes to one place counts.** -/
theorem splice_splice {b x y : Bytes} {off : Nat} (hxy : x.length = y.length) (h : off + x.length ≤ b.length) :
    splice (splice b off x) off y = splice b off y := by
  have hlen : (b.take off).length = off := by rw [List.length_take]; omega
  have htake : (splice b off x).take off = b.take off := by
    rw [splice, List.append_assoc, List.take_left' hlen]
  have hdrop : (splice b off x).drop (off + y.length) = b.drop (off + y.length) := by
    rw [splice, ← hxy, List.drop_left' (by rw [List.length_append, hlen])]
  rw [splice, htake, hdrop, splice]

theorem splice_nil (b : Bytes) (pos : Nat) : splice b pos [] = b := by
  rw [splice, List.append_nil, List.length_nil, Nat.add_zero, List.take_append_drop]

theorem splice_zero (b src : Bytes) : splice b 0 src = src ++ b.drop src.length := by simp [splice]

theorem splice_whole {b src : Bytes} (h : b.length = src.length) : splice b 0 src = src := by
  rw [splice_zero, List.drop_eq_nil_of_le (Nat.le_of_eq h), List.append_nil]

theorem splice_append_right (b t src : Bytes) : splice (b ++ t) b.length src = b ++ splice t 0 src := by
  simp only [splice, List.take_left', List.take_zero, List.nil_append, Nat.zero_add, List.append_assoc,
    List.drop_append, List.drop_eq_nil_of_le (Nat.le_add_right _ _), Nat.add_sub_cancel_left]

theorem take_splice {b src : Bytes} {off : Nat} (h : off ≤ b.length) :
    (splice b off src).take (off + src.length) = b.take off ++ src := by
  have hfront : (b.take off ++ src).length = off + src.length := by rw [List.length_append, List.length_take]; omega
  rw [splice, List.take_left' hfront]

theorem take_splice_zero {b src : Bytes} : (splice b 0 src).take src.length = src := by
  simp [splice]

/-! ## Buffers with a tail the accesses do not reach -/

theorem slice_append_left {b t : Bytes} {off n : Nat} (h : off + n ≤ b.length) : slice (b ++ t) off n = slice b off n := by
  rw [slice, slice, List.drop_append_of_le_length (by omega), List.take_append_of_le_length]
  rw [List.length_drop]; omega

theorem splice_append_left {b t src : Bytes} {off : Nat} (h : off + src.length ≤ b.length) :
    splice (b ++ t) off src = splice b off src ++ t := by
  rw [splice, splice, List.take_append_of_le_length (by omega), List.drop_append_of_le_length h]
  simp only [List.append_assoc]

/-! ## Accesses side by side -/

theorem take_eq_of_getElem? : ∀ {l bs : Bytes}, (∀ i, i < l.length → bs[i]? = l[i]?) → bs.take l.length = l
  | [], _, _ => rfl
  | b :: l, [], h => by cases h 0 (Nat.succ_pos _)
  | b :: l, c :: bs, h => by
    have hb : c = b := Option.some.inj (h 0 (Nat.succ_pos _))
    have ih : bs.take l.length = l := take_eq_of_getElem? fun i hi => by
      have := h (i + 1) (Nat.succ_lt_succ hi)
      simpa using this
    rw [List.length_cons, List.take_succ_cons, ih, hb]

theorem eq_of_getElem? {l bs : Bytes} (hlen : bs.length = l.length) (h : ∀ i, i < l.length → bs[i]? = l[i]?) : bs = l := by
  have := take_eq_of_getElem? h
  rwa [← hlen, List.take_length] at this

theorem slice_middle {a m t : Bytes} {off n : Nat} (ha : a.length = off) (hm : m.length = n) :
    slice (a ++ (m ++ t)) off n = m := by
  rw [slice, List.drop_left' ha, List.take_left' hm]

theorem slice_add (b : Bytes) (off n k : Nat) : slice b off (n + k) = slice b off n ++ slice b (off + n) k := by
  rw [slice, slice, slice, List.take_add, List.drop_drop]

/-- **A write leaves what lies beside it.** -/
theorem slice_splice_beside {b src : Bytes} {off off' n : Nat} (h : off + src.length ≤ b.length)
    (hbeside : off' + n ≤ off ∨ off + src.length ≤ off') : slice (splice b off src) off' n = slice b off' n := by
  have hlen : (b.take off).length = off := by rw [List.length_take]; omega
  rcases hbeside with hb | ha
  · have hsplit : slice b off' n = slice (b.take off) off' n := by
      conv => lhs; rw [← List.take_append_drop off b]
      exact slice_append_left (by omega)
    rw [splice, List.append_assoc, slice_append_left (by omega), hsplit]
  · obtain ⟨d, rfl⟩ := Nat.exists_eq_add_of_le ha
    have hd : (b.take off ++ src).length = off + src.length := by rw [List.length_append, hlen]
    rw [slice, slice, splice, ← hd, List.drop_length_add_append, hd, List.drop_drop]

/-- **Two writes side by side are one.** -/
theorem splice_beside {b x y : Bytes} {off : Nat} (h : off + x.length ≤ b.length) :
    splice (splice b off x) (off + x.length) y = splice b off (x ++ y) := by
  have hlen : (b.take off).length = off := by rw [List.length_take]; omega
  have hfront : (b.take off ++ x).length = off + x.length := by rw [List.length_append, hlen]
  have htake : (splice b off x).take (off + x.length) = b.take off ++ x := take_splice (by omega)
  have hdrop : (splice b off x).drop (off + x.length + y.length) = b.drop (off + x.length + y.length) := by
    rw [splice, ← hfront, List.drop_length_add_append, hfront, List.drop_drop]
  rw [splice, htake, hdrop, splice, List.length_append, List.append_assoc (b.take off) x y, Nat.add_assoc]

/-! ## Accesses inside the buffer -/

theorem load_eq {b : Bytes} {off n : Nat} (h : off + n ≤ b.length) : load b off n = some (slice b off n) := if_pos h

theorem memcpy_eq {dst src : Bytes} {off soff n : Nat} (h : off + n ≤ dst.length) (hs : soff + n ≤ src.length) :
    memcpy dst off src soff n = some (splice dst off (slice src soff n)) := if_pos ⟨h, hs⟩

theorem memset_eq {dst : Bytes} {off n : Nat} {v : UInt8} (h : off + n ≤ dst.length) :
    memset dst off v n = some (splice dst off (List.replicate n v)) := if_pos h

end Wolf
