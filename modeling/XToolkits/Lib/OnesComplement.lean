import Mathlib.Data.Nat.ModEq
import Mathlib.Tactic.Common
import Mathlib.Algebra.BigOperators.Group.List.Basic

set_option autoImplicit false

/-! # Ones' complement addition

Words are the numbers below a base `b`. The ones' complement sum of two words adds the carry back at
the low end (`onesAdd`), so it counts modulo `b - 1`; `0` and `b - 1` are both zero there, and a sum
is the word `0` only when all of its words are. `IsOnes b n x` says that `x` is the word for the
number `n` in this sense. There is only one (`IsOnes.unique`): the words of a list summed up with
end-around carries (`isOnes_onesSum`), and what two folds make of their plain sum as long as this is
below `b * b` (`isOnes_fold`). -/

namespace XToolkits

variable {b n x y : Nat}

/-- The sum of two words, the carry added at the low end. -/
def onesAdd (b x y : Nat) : Nat := if x + y < b then x + y else x + y + 1 - b

/-- The sum of a list of words. -/
def onesSum (b : Nat) (l : List Nat) : Nat := l.foldl (onesAdd b) 0

/-- The part above the word is added to the word. -/
def foldWord (b n : Nat) : Nat := n / b + n % b

/-- The word for a number: it counts modulo `b - 1`, and only `0` is `0`. -/
structure IsOnes (b n x : Nat) : Prop where
  lt : x < b
  modEq : x ≡ n [MOD b - 1]
  zero : x = 0 ↔ n = 0

theorem IsOnes.unique (hx : IsOnes b n x) (hy : IsOnes b n y) : x = y := by
  have hmod : x ≡ y [MOD b - 1] := hx.modEq.trans hy.modEq.symm
  have hxlt := hx.lt
  have hylt := hy.lt
  rcases Nat.eq_zero_or_pos n with h0 | hpos
  · rw [hx.zero.2 h0, hy.zero.2 h0]
  · -- both are in `1 .. b - 1`
    have hx0 : x ≠ 0 := fun h => Nat.ne_of_gt hpos (hx.zero.1 h)
    have hy0 : y ≠ 0 := fun h => Nat.ne_of_gt hpos (hy.zero.1 h)
    obtain ⟨x, rfl⟩ := Nat.exists_eq_succ_of_ne_zero hx0
    obtain ⟨y, rfl⟩ := Nat.exists_eq_succ_of_ne_zero hy0
    rw [(Nat.ModEq.add_right_cancel' 1 hmod).eq_of_lt_of_lt (by omega) (by omega)]

theorem isOnes_zero (hb : 0 < b) : IsOnes b 0 0 := ⟨hb, Nat.ModEq.refl 0, Iff.rfl⟩

/-- A carry is worth one. -/
theorem add_one_sub_modEq (hb : 0 < b) (h : b ≤ n) : n + 1 - b ≡ n [MOD b - 1] := by
  have heq : n = n + 1 - b + (b - 1) := by omega
  conv_rhs => rw [heq]
  exact (Nat.add_modEq_right ..).symm

theorem IsOnes.add (h : IsOnes b n x) (hy : y < b) : IsOnes b (n + y) (onesAdd b x y) := by
  have hxlt := h.lt
  have hzero := h.zero
  have hmod : x + y ≡ n + y [MOD b - 1] := h.modEq.add_right y
  rw [onesAdd]
  split
  · case isTrue hlt => exact ⟨hlt, hmod, by omega⟩
  · case isFalse hge =>
      exact ⟨by omega, (add_one_sub_modEq (by omega) (by omega)).trans hmod, by omega⟩

theorem IsOnes.foldl (h : IsOnes b n x) {l : List Nat} (hl : ∀ y ∈ l, y < b) :
    IsOnes b (n + l.sum) (l.foldl (onesAdd b) x) := by
  induction l generalizing n x with
  | nil => exact h
  | cons y l ih =>
      rw [List.sum_cons, ← Nat.add_assoc]
      exact ih (h.add (hl y List.mem_cons_self)) fun z hz => hl z (List.mem_cons_of_mem y hz)

/-- The sum with end-around carries is the word for the plain sum. -/
theorem isOnes_onesSum (hb : 0 < b) {l : List Nat} (hl : ∀ y ∈ l, y < b) :
    IsOnes b l.sum (onesSum b l) := by
  have h := (isOnes_zero hb).foldl hl
  rwa [Nat.zero_add] at h

theorem foldWord_modEq (hb : 0 < b) (n : Nat) : foldWord b n ≡ n [MOD b - 1] := by
  have hone : b ≡ 1 [MOD b - 1] := by
    have h := Nat.add_modEq_right (n := b - 1) (a := 1)
    rwa [Nat.add_sub_cancel' hb] at h
  have hmul : b * (n / b) ≡ n / b [MOD b - 1] := by
    have h := hone.mul_right (n / b)
    rwa [Nat.one_mul] at h
  have h := (hmul.add_right (n % b)).symm
  rwa [Nat.div_add_mod] at h

/-- **Two folds suffice**, and the second one has no carry of its own. -/
theorem isOnes_fold (hb : 1 < b) (hn : n < b * b) :
    IsOnes b n ((foldWord b n + foldWord b n / b) % b) := by
  have hmod := foldWord_modEq (by omega : 0 < b) n
  have hfold : foldWord b n ≤ b - 1 + (b - 1) :=
    Nat.add_le_add (Nat.le_sub_one_of_lt (Nat.div_lt_of_lt_mul hn))
      (Nat.le_sub_one_of_lt (Nat.mod_lt n (by omega)))
  have hzero : foldWord b n = 0 ↔ n = 0 := by
    constructor
    · intro h
      obtain ⟨hq, hr⟩ : n / b = 0 ∧ n % b = 0 := Nat.add_eq_zero_iff.1 h
      rw [← Nat.div_add_mod n b, hq, hr, Nat.mul_zero]
    · rintro rfl
      rw [foldWord, Nat.zero_div, Nat.zero_mod]
  rcases Nat.lt_or_ge (foldWord b n) b with hlt | hge
  · rw [Nat.div_eq_of_lt hlt, Nat.add_zero, Nat.mod_eq_of_lt hlt]
    exact ⟨hlt, hmod, hzero⟩
  · -- the fold is at most `2 * b - 2`, so the carry is one and adding it gives none
    have hcarry : foldWord b n / b = 1 := Nat.div_eq_of_lt_le (by omega) (by omega)
    have hword : (foldWord b n + 1) % b = foldWord b n + 1 - b := by
      rw [Nat.mod_eq_sub_mod (by omega), Nat.mod_eq_of_lt (by omega)]
    rw [hcarry, hword]
    refine ⟨by omega, (add_one_sub_modEq (by omega) hge).trans hmod, ?_⟩
    rw [← hzero]
    omega

/-- With the complement of its word added, the word for a number is the other zero. -/
theorem IsOnes.complement (h : IsOnes b n x) : IsOnes b (n + (b - 1 - x)) (b - 1) := by
  have hlt := h.lt
  have hzero := h.zero
  refine ⟨by omega, ?_, by omega⟩
  have hmod := h.modEq.add_right (b - 1 - x)
  rwa [Nat.add_sub_cancel' (by omega)] at hmod

end XToolkits
