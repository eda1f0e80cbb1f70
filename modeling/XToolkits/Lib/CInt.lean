import Mathlib.Algebra.Group.Int.Defs
import Mathlib.Algebra.Group.Nat.Defs
import Mathlib.Algebra.Ring.Nat
import Mathlib.Data.List.Basic
import Mathlib.Tactic.Common

set_option autoImplicit false

/-! # C integers and strings

Values of `u32` are natural numbers and values of `int` are integers; the functions here are the
operations of a program on them where the width can matter. An `int` operation that overflows has
no defined result in C; `wrapS32` gives it the one of a two's complement machine. A string is the
list of its bytes before the `NUL`. -/

namespace XToolkits

/-- A value reduced to 32 bits. -/
def u32 (n : Nat) : Nat := n % 2 ^ 32

/-- `--x` on a `u32`: it wraps below zero. -/
def decU32 (n : Nat) : Nat := if n = 0 then 2 ^ 32 - 1 else n - 1

/-- A difference of two `u32`: it wraps below zero. -/
def subU32 (a b : Nat) : Nat := u32 (a + (2 ^ 32 - b))

/-- The `int` with the same low 32 bits. -/
def wrapS32 (x : Int) : Int := (x + 2 ^ 31) % 2 ^ 32 - 2 ^ 31

/-- The 64-bit `long` with the same low 64 bits. -/
def wrapS64 (x : Int) : Int := (x + 2 ^ 63) % 2 ^ 64 - 2 ^ 63

theorem u32_of_lt {n : Nat} (h : n < 2 ^ 32) : u32 n = n := Nat.mod_eq_of_lt h

theorem decU32_add_one (n : Nat) : decU32 (n + 1) = n := by
  simp [decU32]

theorem subU32_of_le {a b : Nat} (ha : a < 2 ^ 32) (h : b ≤ a) : subU32 a b = a - b := by
  unfold subU32 u32
  omega

theorem wrapS32_of_mem {x : Int} (h0 : -2 ^ 31 ≤ x) (h1 : x < 2 ^ 31) : wrapS32 x = x := by
  unfold wrapS32
  omega

/-- An `int` to which the terms are added, one after the other. -/
def sumS32 (x : Int) (terms : List Nat) : Int :=
  terms.foldl (fun (x : Int) (n : Nat) => wrapS32 (x + n)) x

/-- An `int` where a 64-bit `size_t` is expected. -/
def sizeT (x : Int) : Nat := (x % 2 ^ 64).toNat

theorem sumS32_eq {x : Int} {terms : List Nat} (h0 : 0 ≤ x) (h1 : x + terms.sum < 2 ^ 31) :
    sumS32 x terms = x + terms.sum := by
  induction terms generalizing x with
  | nil => exact (Int.add_zero x).symm
  | cons m terms ih =>
      rw [List.sum_cons, Int.natCast_add, ← Int.add_assoc] at h1 ⊢
      rw [← ih (by omega) h1, sumS32, List.foldl_cons, wrapS32_of_mem (by omega) (by omega)]
      rfl

theorem sizeT_eq {x : Int} (h0 : 0 ≤ x) (h1 : x < 2 ^ 31) : sizeT x = x.toNat := by
  unfold sizeT
  omega

/-! ## Little-endian words -/

/-- The four bytes of a 32-bit word, the low one first. -/
def bytesOfWord (w : Nat) : List UInt8 :=
  [UInt8.ofNat w, UInt8.ofNat (w / 2 ^ 8), UInt8.ofNat (w / 2 ^ 16), UInt8.ofNat (w / 2 ^ 24)]

/-- The two bytes of a 16-bit word, the low one first. -/
def bytesOfHalf (w : Nat) : List UInt8 := [UInt8.ofNat w, UInt8.ofNat (w / 2 ^ 8)]

/-- The eight bytes of a `long`, the low one first. -/
def bytesOfLong (x : Int) : List UInt8 :=
  bytesOfWord (x % 2 ^ 64).toNat ++ bytesOfWord ((x % 2 ^ 64).toNat / 2 ^ 32)

/-- The half word in two bytes, the low one first. -/
def halfOfBytes (b0 b1 : UInt8) : Nat := b0.toNat + 2 ^ 8 * b1.toNat

/-- The word in four bytes, the low one first. -/
def wordOfBytes (b0 b1 b2 b3 : UInt8) : Nat :=
  b0.toNat + 2 ^ 8 * b1.toNat + 2 ^ 16 * b2.toNat + 2 ^ 24 * b3.toNat

@[simp] theorem length_bytesOfWord (w : Nat) : (bytesOfWord w).length = 4 := rfl

theorem halfOfBytes_lt (b0 b1 : UInt8) : halfOfBytes b0 b1 < 2 ^ 16 := by
  have h0 := UInt8.toNat_lt b0
  have h1 := UInt8.toNat_lt b1
  rw [halfOfBytes]
  omega

/-- A half word survives being stored and loaded. -/
theorem halfOfBytes_bytesOfHalf (w : Nat) (h : w < 2 ^ 16) :
    halfOfBytes (UInt8.ofNat w) (UInt8.ofNat (w / 2 ^ 8)) = w := by
  simp only [halfOfBytes, UInt8.toNat_ofNat']
  omega

/-- A word survives being stored and loaded. -/
theorem wordOfBytes_bytesOfWord (w : Nat) (h : w < 2 ^ 32) :
    wordOfBytes (UInt8.ofNat w) (UInt8.ofNat (w / 2 ^ 8)) (UInt8.ofNat (w / 2 ^ 16))
      (UInt8.ofNat (w / 2 ^ 24)) = w := by
  simp only [wordOfBytes, UInt8.toNat_ofNat']
  omega

/-! ## Strings -/

/-- A string, without its `NUL`. -/
abbrev CStr := List UInt8

/-- The string of a literal. -/
def cstr (s : String) : CStr := s.toList.map fun c => c.toNat.toUInt8

/-- `strncmp(s, t, n)` is `0`: no difference among the first `n` bytes. -/
def StrncmpEq (s t : CStr) (n : Nat) : Prop := s.take n = t.take n

instance (s t : CStr) (n : Nat) : Decidable (StrncmpEq s t n) :=
  inferInstanceAs (Decidable (_ = _))

/-- With the length of the one string, it is a prefix of the other. -/
theorem strncmpEq_length_iff (s t : CStr) : StrncmpEq s t s.length ↔ s <+: t := by
  rw [StrncmpEq, List.take_length, List.prefix_iff_eq_take]

end XToolkits
