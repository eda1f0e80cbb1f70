import Mathlib.Data.List.Basic
import Mathlib.Order.Basic
import Mathlib.Tactic.Common

set_option autoImplicit false

/-! # Flat memories

A memory is a total map from integer addresses to cells. `Mem.read` and `Mem.write` are the two
halves of a block copy (`memcpy`, `memmove`, `recv` into a buffer), and the lemmas say what a read
returns after a write: the bytes written when the ranges coincide, the old bytes when the ranges
are disjoint. Which addresses belong to an allocation is not part of the memory; a program that
has to stay inside an area states it as a condition on its ranges, or goes through `writeIn`,
which fails on a range outside the area. -/

namespace XToolkits

/-- A flat memory of cells `α`, addressed by integers. -/
def Mem (α : Type) := Int → α

namespace Mem

variable {α : Type}

/-! ## Reading a block -/

/-- The `n` cells from address `a` on. -/
def read (m : Mem α) (a : Int) : Nat → List α
  | 0 => []
  | n + 1 => m a :: read m (a + 1) n

@[simp] theorem read_zero (m : Mem α) (a : Int) : m.read a 0 = [] := rfl

@[simp] theorem length_read (m : Mem α) (a : Int) (n : Nat) : (m.read a n).length = n := by
  induction n generalizing a with
  | zero => rfl
  | succ n ih => simp [read, ih]

/-- The `i`-th cell of a block. -/
theorem getElem?_read (m : Mem α) (a : Int) (n i : Nat) (h : i < n) :
    (m.read a n)[i]? = some (m (a + i)) := by
  induction n generalizing a i with
  | zero => omega
  | succ n ih =>
      cases i with
      | zero => simp [read]
      | succ i =>
          simp only [read, List.getElem?_cons_succ]
          rw [ih (a + 1) i (by omega)]
          congr 2
          omega

/-- A block splits at any point. -/
theorem read_add (m : Mem α) (a : Int) (k n : Nat) :
    m.read a (k + n) = m.read a k ++ m.read (a + k) n := by
  induction k generalizing a with
  | zero => simp
  | succ k ih =>
      rw [Nat.succ_add]
      simp only [read, List.cons_append]
      rw [ih (a + 1)]
      congr 3
      omega

/-- Two memories with the same cells in a range read the same block. -/
theorem read_congr {m m' : Mem α} {a : Int} {n : Nat}
    (h : ∀ x, a ≤ x → x < a + n → m x = m' x) : m.read a n = m'.read a n := by
  induction n generalizing a with
  | zero => rfl
  | succ n ih =>
      simp only [read]
      rw [h a (by omega) (by omega), ih (fun x h1 h2 => h x (by omega) (by omega))]

/-- Equal blocks have equal cells. -/
theorem apply_eq_of_read_eq {m m' : Mem α} {a a' : Int} {n : Nat}
    (h : m.read a n = m'.read a' n) (i : Nat) (hi : i < n) : m (a + i) = m' (a' + i) := by
  have h1 := getElem?_read m a n i hi
  have h2 := getElem?_read m' a' n i hi
  rw [h, h2] at h1
  exact (Option.some.inj h1).symm

/-- The first `k` cells of a block. -/
theorem take_read (m : Mem α) (a : Int) (n k : Nat) (h : k ≤ n) :
    (m.read a n).take k = m.read a k := by
  obtain ⟨d, rfl⟩ := Nat.exists_eq_add_of_le h
  rw [read_add]
  simp

/-- A block without its first `k` cells. -/
theorem drop_read (m : Mem α) (a : Int) (n k : Nat) (h : k ≤ n) :
    (m.read a n).drop k = m.read (a + k) (n - k) := by
  obtain ⟨d, rfl⟩ := Nat.exists_eq_add_of_le h
  rw [read_add]
  simp

/-! ## Writing a block -/

/-- Store the cells `bs` from address `a` on. -/
def write (m : Mem α) (a : Int) (bs : List α) : Mem α :=
  fun x => if a ≤ x then (bs[(x - a).toNat]?).getD (m x) else m x

/-- A cell outside the written range is untouched. -/
theorem write_apply_outside (m : Mem α) (a : Int) (bs : List α) (x : Int)
    (h : x < a ∨ a + bs.length ≤ x) : m.write a bs x = m x := by
  simp only [write]
  split
  · next hle =>
      have hlen : bs.length ≤ (x - a).toNat := by omega
      simp [List.getElem?_eq_none hlen]
  · rfl

/-- A cell inside the written range holds the corresponding cell of the block. -/
theorem write_apply_inside (m : Mem α) (a : Int) (bs : List α) (i : Nat) (h : i < bs.length) :
    m.write a bs (a + i) = bs[i] := by
  have hidx : (a + (i : Int) - a).toNat = i := by omega
  have hle : a ≤ a + (i : Int) := by omega
  simp only [write, if_pos hle, hidx, List.getElem?_eq_getElem h, Option.getD_some]

/-- Reading back the range just written returns the block. -/
@[simp] theorem read_write_self (m : Mem α) (a : Int) (bs : List α) :
    (m.write a bs).read a bs.length = bs := by
  apply List.ext_getElem?
  intro i
  by_cases hi : i < bs.length
  · rw [getElem?_read _ _ _ _ hi, write_apply_inside m a bs i hi, List.getElem?_eq_getElem hi]
  · rw [List.getElem?_eq_none (by simpa using hi), List.getElem?_eq_none (by simpa using hi)]

/-- Reading a range disjoint from the one written returns the old block. -/
theorem read_write_disjoint (m : Mem α) (a b : Int) (bs : List α) (n : Nat)
    (h : b + n ≤ a ∨ a + bs.length ≤ b) : (m.write a bs).read b n = m.read b n := by
  apply read_congr
  intro x h1 h2
  apply write_apply_outside
  omega

/-- Storing a block right after `n` cells extends what is read there. -/
theorem read_write_append (m : Mem α) (a : Int) (n : Nat) (bs : List α) :
    (m.write (a + n) bs).read a (n + bs.length) = m.read a n ++ bs := by
  rw [read_add, read_write_disjoint _ _ _ _ _ (Or.inl (Int.le_refl _)), read_write_self]

/-- Two blocks stored one behind the other are one block. -/
theorem write_write_append (m : Mem α) (a : Int) (bs cs : List α) :
    (m.write a bs).write (a + bs.length) cs = m.write a (bs ++ cs) := by
  funext x
  rcases Int.lt_or_le x a with hlt | hle
  · rw [write_apply_outside _ _ _ _ (Or.inl (by omega)), write_apply_outside _ _ _ _ (Or.inl hlt),
      write_apply_outside _ _ _ _ (Or.inl hlt)]
  · obtain ⟨i, rfl⟩ : ∃ i : Nat, x = a + i := ⟨(x - a).toNat, by omega⟩
    rcases Nat.lt_or_ge i bs.length with hbs | hbs
    · rw [write_apply_outside _ _ _ _ (Or.inl (by omega)), write_apply_inside _ _ _ i hbs,
        write_apply_inside _ _ _ i (by rw [List.length_append]; omega), List.getElem_append_left hbs]
    · rcases Nat.lt_or_ge (i - bs.length) cs.length with hcs | hcs
      · have hi : a + (i : Int) = a + bs.length + (i - bs.length : Nat) := by omega
        rw [write_apply_inside _ _ _ i (by rw [List.length_append]; omega),
          List.getElem_append_right hbs, hi, write_apply_inside _ _ _ _ hcs]
      · rw [write_apply_outside _ _ _ _ (Or.inr (by omega)),
          write_apply_outside _ _ _ _ (Or.inr (by omega)),
          write_apply_outside _ _ _ _ (Or.inr (by rw [List.length_append]; omega))]

/-! ## Overlapping ranges -/

/-- The ranges of `n` cells from `a` and `k` cells from `b` have no address in common. -/
def Disjoint (a : Int) (n : Nat) (b : Int) (k : Nat) : Prop := a + n ≤ b ∨ b + k ≤ a

instance (a : Int) (n : Nat) (b : Int) (k : Nat) : Decidable (Disjoint a n b k) :=
  inferInstanceAs (Decidable (_ ∨ _))

/-- A write changes no block it is disjoint from. -/
theorem read_write_of_disjoint (m : Mem α) {a b : Int} {bs : List α} {n : Nat}
    (h : Disjoint a bs.length b n) : (m.write a bs).read b n = m.read b n :=
  read_write_disjoint m a b bs n (by rcases h with h | h <;> omega)

/-- The cells of two different records of a table of records of `size` cells. -/
theorem disjoint_records {i j size n k : Nat} (h : i ≠ j) (hn : n ≤ size) (hk : k ≤ size) :
    Disjoint ↑(i * size) n ↑(j * size) k := by
  rcases Nat.lt_or_gt_of_ne h with hij | hij
  · have hle : (i + 1) * size ≤ j * size := Nat.mul_le_mul_right size hij
    rw [Nat.succ_mul] at hle
    exact Or.inl (by omega)
  · have hle : (j + 1) * size ≤ i * size := Nat.mul_le_mul_right size hij
    rw [Nat.succ_mul] at hle
    exact Or.inr (by omega)

/-! ## Inside an area -/

/-- Store a block in the area `[0, size)`; a range that leaves the area is an error. -/
def writeIn (m : Mem α) (size : Nat) (a : Int) (bs : List α) : Option (Mem α) :=
  if 0 ≤ a ∧ a + bs.length ≤ size then some (m.write a bs) else none

theorem writeIn_eq_some (m : Mem α) (size : Nat) (a : Int) (bs : List α)
    (h0 : 0 ≤ a) (h1 : a + bs.length ≤ size) : m.writeIn size a bs = some (m.write a bs) := by
  simp [writeIn, h0, h1]

/-- The cells of a range of the area `[0, size)`; a range that leaves the area is an error. -/
def readIn (m : Mem α) (size : Nat) (a : Int) (n : Nat) : Option (List α) :=
  if 0 ≤ a ∧ a + n ≤ size then some (m.read a n) else none

theorem readIn_eq_some (m : Mem α) (size : Nat) (a : Int) (n : Nat) (h0 : 0 ≤ a)
    (h1 : a + n ≤ size) : m.readIn size a n = some (m.read a n) := by
  simp [readIn, h0, h1]

end Mem

end XToolkits
