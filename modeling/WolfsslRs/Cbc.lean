import WolfsslRs.CMemory
/-!
# Cbc — cipher block chaining, over any block functions

`encrypt` and `decrypt` chain `n` blocks of `w` bytes from an initial value.  Either can be cut at any block: what follows
is chained from the last block of ciphertext before it.
-/
namespace Wolf
namespace Cbc

variable (w : Nat) {E D : Bytes → Bytes}

def encrypt (E : Bytes → Bytes) : Nat → Bytes → Bytes → Bytes
  | 0, _, _ => []
  | n + 1, iv, m =>
    let c := E (xorBytes (m.take w) iv)
    c ++ encrypt E n c (m.drop w)

def decrypt (D : Bytes → Bytes) : Nat → Bytes → Bytes → Bytes
  | 0, _, _ => []
  | n + 1, iv, m => xorBytes (D (m.take w)) iv ++ decrypt D n (m.take w) (m.drop w)

/-- The last `w` bytes. -/
def lastOf (b : Bytes) : Bytes := b.drop (b.length - w)

variable {w}

theorem lastOf_of_length {b : Bytes} (h : b.length = w) : lastOf w b = b := by
  rw [lastOf, h, Nat.sub_self, List.drop_zero]

theorem lastOf_append {a b : Bytes} (h : w ≤ b.length) : lastOf w (a ++ b) = lastOf w b := by
  have hlen : (a ++ b).length - w = a.length + (b.length - w) := by
    rw [List.length_append]
    omega
  rw [lastOf, hlen, List.drop_length_add_append, lastOf]

theorem length_lastOf {b : Bytes} (h : w ≤ b.length) : (lastOf w b).length = w := by
  rw [lastOf, List.length_drop]
  omega

theorem length_take_block {n : Nat} {m : Bytes} (hm : m.length = w * (n + 1)) : (m.take w).length = w := by
  rw [List.length_take, hm, Nat.mul_succ]
  omega

theorem length_drop_block {n : Nat} {m : Bytes} (hm : m.length = w * (n + 1)) : (m.drop w).length = w * n := by
  rw [List.length_drop, hm, Nat.mul_succ]
  omega

section Encrypt

variable (hE : ∀ b : Bytes, b.length = w → (E b).length = w)
include hE

theorem length_chained {n : Nat} {iv m : Bytes} (hiv : iv.length = w) (hm : m.length = w * (n + 1)) :
    (E (xorBytes (m.take w) iv)).length = w := by
  apply hE
  rw [length_xorBytes, length_take_block hm, hiv, Nat.min_self]

theorem length_encrypt : ∀ (n : Nat) (iv m : Bytes), iv.length = w → m.length = w * n →
    (encrypt w E n iv m).length = w * n
  | 0, _, _, _, _ => rfl
  | n + 1, iv, m, hiv, hm => by
    have hc := length_chained hE hiv hm
    rw [encrypt, List.length_append, hc, length_encrypt n _ _ hc (length_drop_block hm), Nat.mul_succ]
    exact Nat.add_comm _ _

/-- **Encryption cut at a block** goes on from the last block it gave. -/
theorem encrypt_append (k : Nat) (y : Bytes) : ∀ (n : Nat) (iv x : Bytes), iv.length = w → x.length = w * n →
    encrypt w E (n + k) iv (x ++ y) =
      encrypt w E n iv x ++ encrypt w E k (lastOf w (iv ++ encrypt w E n iv x)) y
  | 0, iv, x, hiv, hx => by
    rw [List.eq_nil_of_length_eq_zero hx, Nat.zero_add, List.nil_append, encrypt, List.nil_append, List.append_nil,
      lastOf_of_length hiv]
  | n + 1, iv, x, hiv, hx => by
    have hc := length_chained hE hiv hx
    have hw : w ≤ x.length := by rw [hx, Nat.mul_succ]; omega
    have hlast : ∀ b, lastOf w (iv ++ (E (xorBytes (x.take w) iv) ++ b)) = lastOf w (E (xorBytes (x.take w) iv) ++ b) := by
      intro b
      apply lastOf_append
      rw [List.length_append, hc]
      exact Nat.le_add_right _ _
    rw [Nat.succ_add, encrypt, encrypt, List.take_append_of_le_length hw, List.drop_append_of_le_length hw,
      encrypt_append k y n _ _ hc (length_drop_block hx), hlast, List.append_assoc]

end Encrypt

section Decrypt

theorem length_decrypt (hD : ∀ b : Bytes, b.length = w → (D b).length = w) : ∀ (n : Nat) (iv m : Bytes),
    iv.length = w → m.length = w * n → (decrypt w D n iv m).length = w * n
  | 0, _, _, _, _ => rfl
  | n + 1, iv, m, hiv, hm => by
    have hb := length_take_block hm
    rw [decrypt, List.length_append, length_xorBytes, hD _ hb, hiv, Nat.min_self,
      length_decrypt hD n _ _ hb (length_drop_block hm), Nat.mul_succ]
    exact Nat.add_comm _ _

/-- **Decryption cut at a block** goes on from the last block it took. -/
theorem decrypt_append (k : Nat) (y : Bytes) : ∀ (n : Nat) (iv x : Bytes), iv.length = w → x.length = w * n →
    decrypt w D (n + k) iv (x ++ y) = decrypt w D n iv x ++ decrypt w D k (lastOf w (iv ++ x)) y
  | 0, iv, x, hiv, hx => by
    rw [List.eq_nil_of_length_eq_zero hx, Nat.zero_add, List.nil_append, decrypt, List.nil_append, List.append_nil,
      lastOf_of_length hiv]
  | n + 1, iv, x, hiv, hx => by
    have hb := length_take_block hx
    have hw : w ≤ x.length := by rw [hx, Nat.mul_succ]; omega
    have hlast : lastOf w (iv ++ x) = lastOf w (x.take w ++ x.drop w) := by
      rw [List.take_append_drop, lastOf_append hw]
    rw [Nat.succ_add, decrypt, decrypt, List.take_append_of_le_length hw, List.drop_append_of_le_length hw,
      decrypt_append k y n _ _ hb (length_drop_block hx), hlast, List.append_assoc]

end Decrypt

end Cbc
end Wolf
