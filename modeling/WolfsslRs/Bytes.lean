import Mathlib.Algebra.GroupWithZero.Nat
import Mathlib.Data.List.Basic
/-!
# Bytes — big-endian numbers, masks and a reversible fold

Facts about byte strings that name nothing of the program: `beBytes`/`beNat` are inverse on the numbers of a width, a
byte mask applied twice is gone, and a fold whose steps can be undone is undone by folding the inverses backwards.
-/
namespace Wolf

/-- A byte string. -/
abbrev Bytes := List UInt8

/-! ## Big-endian numbers -/

/-- The low `k` bytes of `n`, most significant first. -/
def beBytes : Nat → Nat → Bytes
  | 0, _ => []
  | k + 1, n => UInt8.ofNat (n / 256 ^ k) :: beBytes k n

/-- The number a byte string spells, most significant byte first. -/
def beNat : Bytes → Nat
  | [] => 0
  | b :: bs => b.toNat * 256 ^ bs.length + beNat bs

@[simp] theorem length_beBytes : ∀ (k n : Nat), (beBytes k n).length = k
  | 0, _ => rfl
  | k + 1, n => by simp [beBytes, length_beBytes k n]

theorem beNat_lt : ∀ (bs : Bytes), beNat bs < 256 ^ bs.length
  | [] => by simp [beNat]
  | b :: bs => by
    have ih := beNat_lt bs
    have hb : b.toNat + 1 ≤ 256 := UInt8.toNat_lt b
    have := Nat.mul_le_mul_right (256 ^ bs.length) hb
    rw [List.length_cons, Nat.pow_succ', beNat]
    rw [Nat.add_mul] at this
    omega

/-- **Only the low `k` bytes count.** -/
theorem beBytes_mod : ∀ (k n m : Nat), k ≤ m → beBytes k (n % 256 ^ m) = beBytes k n
  | 0, _, _, _ => rfl
  | k + 1, n, m, h => by
    have hdigit : UInt8.ofNat (n % 256 ^ m / 256 ^ k) = UInt8.ofNat (n / 256 ^ k) := by
      obtain ⟨j, rfl⟩ : ∃ j, m = k + (j + 1) := ⟨m - k - 1, by omega⟩
      apply UInt8.toNat.inj
      rw [UInt8.toNat_ofNat', UInt8.toNat_ofNat', Nat.pow_add, Nat.mod_mul_right_div_self, Nat.pow_succ]
      exact Nat.mod_mod_of_dvd _ ⟨256 ^ j, by rw [Nat.mul_comm]⟩
    rw [beBytes, beBytes, hdigit, beBytes_mod k n m (by omega)]

theorem beNat_beBytes : ∀ (k n : Nat), beNat (beBytes k n) = n % 256 ^ k
  | 0, n => by simp [beBytes, beNat, Nat.mod_one]
  | k + 1, n => by
    rw [beBytes, beNat, length_beBytes, beNat_beBytes k n, UInt8.toNat_ofNat', show (2 : Nat) ^ 8 = 256 from rfl,
      Nat.pow_succ, Nat.mod_mul, Nat.mul_comm (n / 256 ^ k % 256)]
    exact Nat.add_comm _ _

theorem beBytes_beNat : ∀ (bs : Bytes), beBytes bs.length (beNat bs) = bs
  | [] => rfl
  | b :: bs => by
    have hlt := beNat_lt bs
    have hpos : 0 < 256 ^ bs.length := Nat.pow_pos (by decide)
    have hdiv : beNat (b :: bs) / 256 ^ bs.length = b.toNat := by
      rw [beNat, Nat.mul_comm, Nat.mul_add_div hpos, Nat.div_eq_of_lt hlt, Nat.add_zero]
    have hmod : beNat (b :: bs) % 256 ^ bs.length = beNat bs := by
      rw [beNat, Nat.mul_comm, Nat.mul_add_mod, Nat.mod_eq_of_lt hlt]
    rw [List.length_cons, beBytes, hdiv, ← beBytes_mod bs.length _ bs.length (Nat.le_refl _), hmod,
      beBytes_beNat bs, UInt8.ofNat_toNat]

/-- **Numbers of the width are told apart by their bytes.** -/
theorem beBytes_inj {k n m : Nat} (hn : n < 256 ^ k) (hm : m < 256 ^ k) (h : beBytes k n = beBytes k m) : n = m := by
  have := congrArg beNat h
  rwa [beNat_beBytes, beNat_beBytes, Nat.mod_eq_of_lt hn, Nat.mod_eq_of_lt hm] at this

/-! ## Masks -/

/-- Bytewise exclusive or, as long as the shorter operand. -/
def xorBytes (a b : Bytes) : Bytes := List.zipWith (· ^^^ ·) a b

@[simp] theorem length_xorBytes (a b : Bytes) : (xorBytes a b).length = min a.length b.length := by
  simp [xorBytes]

/-- **A mask applied twice is gone**, also from less than the mask is long. -/
theorem xorBytes_xorBytes_of_le : ∀ (a m : Bytes), a.length ≤ m.length → xorBytes (xorBytes a m) m = a
  | [], _, _ => rfl
  | a :: as, m :: ms, h => by
    have ih := xorBytes_xorBytes_of_le as ms (by simpa using h)
    simp only [xorBytes, List.zipWith_cons_cons] at ih ⊢
    rw [ih, UInt8.xor_assoc, UInt8.xor_self, UInt8.xor_zero]

theorem xorBytes_xorBytes (a m : Bytes) (h : a.length = m.length) : xorBytes (xorBytes a m) m = a :=
  xorBytes_xorBytes_of_le a m (Nat.le_of_eq h)

theorem xorBytes_comm (a b : Bytes) : xorBytes a b = xorBytes b a := List.zipWith_comm_of_comm UInt8.xor_comm

theorem xorBytes_take : ∀ (a m : Bytes), xorBytes a (m.take a.length) = xorBytes a m
  | [], _ => rfl
  | _ :: _, [] => rfl
  | a :: as, m :: ms => congrArg ((a ^^^ m) :: ·) (xorBytes_take as ms)

/-- Bytes under a keystream without an end. -/
def xorStream (keystream : Nat → UInt8) (bs : Bytes) : Bytes := bs.mapIdx fun i b => b ^^^ keystream i

@[simp] theorem length_xorStream (keystream : Nat → UInt8) (bs : Bytes) :
    (xorStream keystream bs).length = bs.length := List.length_mapIdx

/-- **A keystream applied twice is gone.** -/
theorem xorStream_xorStream (keystream : Nat → UInt8) (bs : Bytes) : xorStream keystream (xorStream keystream bs) = bs := by
  apply List.ext_getElem
  · rw [length_xorStream, length_xorStream]
  · intro i _ _
    simp only [xorStream, List.getElem_mapIdx]
    rw [UInt8.xor_assoc, UInt8.xor_self, UInt8.xor_zero]

theorem xorStream_zero (bs : Bytes) : xorStream (fun _ => 0) bs = bs := by
  apply List.ext_getElem
  · exact length_xorStream _ bs
  · intro i _ _
    simp only [xorStream, List.getElem_mapIdx, UInt8.xor_zero]

theorem and_high (b : UInt8) : b &&& 0x80 ≠ 0 ↔ 128 ≤ b := by
  have hbit : (b &&& 0x80).toNat = b.toNat / 128 * 128 := by
    rw [UInt8.toNat_and]
    exact (by decide +kernel : ∀ i : Fin 256, i.val &&& 128 = i.val / 128 * 128) ⟨b.toNat, b.toNat_lt⟩
  rw [Ne, ← UInt8.toNat_inj, hbit, UInt8.le_iff_toNat_le]
  change ¬ _ = 0 ↔ 128 ≤ b.toNat
  have := b.toNat_lt
  omega

/-! ## A fold that can be undone -/

/-- **Folding the inverse steps backwards undoes a fold**, as long as every step stays where it can be undone. -/
theorem foldl_reverse_undo {σ α : Type} (f g : σ → α → σ) (I : σ → Prop) : ∀ (l : List α),
    (∀ a ∈ l, ∀ s, I s → I (f s a)) → (∀ a ∈ l, ∀ s, I s → g (f s a) a = s) →
      ∀ s, I s → l.reverse.foldl g (l.foldl f s) = s
  | [], _, _, _, _ => rfl
  | a :: l, hI, hgf, s, hs => by
    have ha : I (f s a) := hI a List.mem_cons_self s hs
    rw [List.reverse_cons, List.foldl_append, show (a :: l).foldl f s = l.foldl f (f s a) from rfl,
      foldl_reverse_undo f g I l (fun b hb => hI b (List.mem_cons_of_mem _ hb))
        (fun b hb => hgf b (List.mem_cons_of_mem _ hb)) _ ha]
    exact hgf a List.mem_cons_self s hs

theorem foldl_keeps {σ α : Type} (f : σ → α → σ) (I : σ → Prop) : ∀ (l : List α),
    (∀ a ∈ l, ∀ s, I s → I (f s a)) → ∀ s, I s → I (l.foldl f s)
  | [], _, _, hs => hs
  | a :: l, hI, s, hs =>
    foldl_keeps f I l (fun b hb => hI b (List.mem_cons_of_mem _ hb)) _ (hI a List.mem_cons_self s hs)

end Wolf
