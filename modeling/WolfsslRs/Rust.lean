import WolfsslRs.CMemory
/-!
# Rust — operations whose outcome depends on the build

`usize` has 32 or 64 bits; arithmetic that overflows panics in a build with overflow checks and wraps in one without; a
debug assertion is there or not.  The operations answer `none` where they panic, and `orExit` makes a panic one of the
exits of a program.
-/
namespace Wolf
namespace Rust

structure Build where
  usizeBits : Nat
  usizeBits_eq : usizeBits = 32 ∨ usizeBits = 64
  overflowChecks : Bool
  debugAssertions : Bool

/-- A debug and a release build for a target of 64 bits. -/
def Build.debug : Build := ⟨64, .inr rfl, true, true⟩

def Build.release : Build := ⟨64, .inr rfl, false, false⟩

def orExit {ε α : Type} (e : ε) : Option α → Except ε α
  | some a => .ok a
  | none => .error e

@[simp] theorem orExit_some {ε α : Type} (e : ε) (a : α) : orExit e (some a) = .ok a := rfl

@[simp] theorem orExit_none {ε α : Type} (e : ε) : (orExit e none : Except ε α) = .error e := rfl

theorem orExit_bind {ε α β : Type} (e : ε) (x : Option α) (f : α → Option β) :
    orExit e (x >>= f) = orExit e x >>= fun a => orExit e (f a) := by
  cases x <;> rfl

@[simp] theorem ok_bind {ε α β : Type} (a : α) (f : α → Except ε β) : (Except.ok a >>= f) = f a := rfl

@[simp] theorem error_bind {ε α β : Type} (e : ε) (f : α → Except ε β) : (Except.error e >>= f) = .error e := rfl

theorem orExit_eq_ok {ε α : Type} {e : ε} {x : Option α} {a : α} : orExit e x = .ok a ↔ x = some a := by
  cases x <;> simp [orExit]

/-- `n as i32`, the `int` of C. -/
def asI32 (n : Nat) : Int := (BitVec.ofNat 32 n).toInt

/-- `n as u32`. -/
def asU32 (n : Nat) : Nat := n % 2 ^ 32

/-- `dst[start..stop].copy_from_slice(src)`. -/
def copyFromSlice (dst : Bytes) (start stop : Nat) (src : Bytes) : Option Bytes :=
  if start ≤ stop ∧ stop ≤ dst.length ∧ src.length = stop - start then some (splice dst start src) else none

/-- `src[..stop]`. -/
def upTo (src : Bytes) (stop : Nat) : Option Bytes := if stop ≤ src.length then some (src.take stop) else none

namespace Build

variable (build : Build)

def usizeSize : Nat := 2 ^ build.usizeBits

/-- `isize::MAX`, the most bytes an allocation has. -/
def isizeMax : Nat := 2 ^ (build.usizeBits - 1) - 1

def add (a b : Nat) : Option Nat :=
  if a + b < build.usizeSize then some (a + b)
  else if build.overflowChecks then none else some ((a + b) % build.usizeSize)

def sub (a b : Nat) : Option Nat :=
  if b ≤ a then some (a - b)
  else if build.overflowChecks then none else some ((build.usizeSize + a - b) % build.usizeSize)

def mul (a b : Nat) : Option Nat :=
  if a * b < build.usizeSize then some (a * b)
  else if build.overflowChecks then none else some (a * b % build.usizeSize)

def debugAssert (p : Prop) [Decidable p] : Option Unit := if build.debugAssertions ∧ ¬ p then none else some ()

/-- `Vec::with_capacity`, which panics where the capacity overflows. -/
def withCapacity (n : Nat) : Option Unit := if n ≤ build.isizeMax then some () else none

end Build

/-! ## Inside the bounds -/

variable {build : Build}

theorem two_pow_31_le (build : Build) : 2 ^ 31 - 1 ≤ build.isizeMax := by
  have hbits : 31 ≤ build.usizeBits - 1 := by
    rcases build.usizeBits_eq with h | h <;> omega
  exact Nat.sub_le_sub_right (Nat.pow_le_pow_right (by decide) hbits) 1

theorem isizeMax_lt (build : Build) : build.isizeMax < build.usizeSize := by
  have hpow : 2 ^ (build.usizeBits - 1) ≤ 2 ^ build.usizeBits := Nat.pow_le_pow_right (by decide) (Nat.sub_le ..)
  have hpos : 0 < 2 ^ build.usizeBits := Nat.pow_pos (by decide)
  unfold Build.isizeMax Build.usizeSize
  omega

theorem asI32_of_lt {n : Nat} (h : n < 2 ^ 31) : asI32 n = n := by
  have hsmall : n < 2 ^ 32 := by omega
  rw [asI32, BitVec.toInt_eq_toNat_of_lt] <;> rw [BitVec.toNat_ofNat, Nat.mod_eq_of_lt hsmall]
  omega

theorem asU32_le (n : Nat) : asU32 n ≤ n := Nat.mod_le ..

theorem asU32_eq_iff {n : Nat} : asU32 n = n ↔ n < 2 ^ 32 := Nat.mod_eq_iff_lt (by decide)

/-- **A length of 32 bits covers a byte string** exactly when it is the length. -/
theorem take_asU32_eq_iff {bs : Bytes} : bs.take (asU32 bs.length) = bs ↔ bs.length < 2 ^ 32 := by
  rw [← asU32_eq_iff]
  constructor
  · intro h
    have hlen := congrArg List.length h
    rw [List.length_take] at hlen
    exact Nat.le_antisymm (Nat.mod_le ..) (by omega)
  · intro h
    rw [h, List.take_length]

theorem add_of_lt {a b : Nat} (h : a + b < build.usizeSize) : build.add a b = some (a + b) := if_pos h

theorem sub_of_le {a b : Nat} (h : b ≤ a) : build.sub a b = some (a - b) := if_pos h

theorem mul_of_lt {a b : Nat} (h : a * b < build.usizeSize) : build.mul a b = some (a * b) := if_pos h

theorem debugAssert_of {p : Prop} [Decidable p] (h : p) : build.debugAssert p = some () :=
  if_neg fun hp => hp.2 h

theorem withCapacity_of_le {n : Nat} (h : n ≤ build.isizeMax) : build.withCapacity n = some () := if_pos h

theorem copyFromSlice_of {dst src : Bytes} {start stop : Nat} (hstop : start + src.length = stop)
    (hlen : stop ≤ dst.length) : copyFromSlice dst start stop src = some (splice dst start src) :=
  if_pos ⟨by omega, hlen, by omega⟩

theorem upTo_of_le {src : Bytes} {stop : Nat} (h : stop ≤ src.length) : upTo src stop = some (src.take stop) := if_pos h

/-! ## Past them -/

/-- **A difference below zero is never the start of a range**: the subtraction panics, or it wraps to a place behind the
end. -/
theorem sub_of_lt (build : Build) {a b : Nat} (stop : Nat) (hlt : a < b) (hb : b - a + stop < build.usizeSize) :
    build.sub a b = none ∨ ∃ start, build.sub a b = some start ∧ stop < start := by
  unfold Build.sub
  rw [if_neg (by omega)]
  by_cases hchecks : build.overflowChecks = true
  · exact .inl (if_pos hchecks)
  · refine .inr ⟨_, if_neg hchecks, ?_⟩
    rw [Nat.mod_eq_of_lt (by omega)]
    omega

theorem copyFromSlice_of_lt {dst src : Bytes} {start stop : Nat} (h : stop < start) :
    copyFromSlice dst start stop src = none := if_neg fun hin => by omega

end Rust
end Wolf
