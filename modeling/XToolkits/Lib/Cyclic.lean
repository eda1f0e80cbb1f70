import Mathlib.Data.List.Basic
import Mathlib.Order.Basic
import Mathlib.Tactic.Common

set_option autoImplicit false

/-! # Positions on a cycle

The positions of a ring of `N` slots are the numbers below `N`. `cnext` steps to the next one,
`cdist a b` counts the steps from `a` to `b`, and `csearch` walks on from a position until it finds
a slot with a property. All arithmetic is a comparison and a subtraction, as ring-buffer code
writes it, so that the lemmas reduce to linear arithmetic. -/

namespace XToolkits

/-! ## Steps and distances -/

/-- The position after `i`. -/
def cnext (N i : Nat) : Nat := if i + 1 < N then i + 1 else 0

/-- Counting goes round the cycle. -/
theorem cnext_mod {N : Nat} (hN : 0 < N) (k : Nat) : cnext N (k % N) = (k + 1) % N := by
  have hlt := Nat.mod_lt k hN
  rw [cnext, ← Nat.mod_add_mod]
  split
  · case isTrue hle => exact (Nat.mod_eq_of_lt hle).symm
  · case isFalse hgt =>
      rw [show k % N + 1 = N by omega, Nat.mod_self]

/-- The number of steps from `a` to `b`. -/
def cdist (N a b : Nat) : Nat := if a ≤ b then b - a else b + N - a

theorem cnext_lt {N i : Nat} (hN : 0 < N) : cnext N i < N := by
  unfold cnext
  split <;> omega

theorem cnext_ne {N i : Nat} (hN : 2 ≤ N) : cnext N i ≠ i := by
  unfold cnext
  split <;> omega

theorem cdist_lt {N a b : Nat} (ha : a < N) (hb : b < N) : cdist N a b < N := by
  unfold cdist
  split <;> omega

@[simp] theorem cdist_self (N a : Nat) : cdist N a a = 0 := by
  simp [cdist]

/-- Distances from one position tell the other positions apart. -/
theorem cdist_inj {N a b c : Nat} (ha : a < N) (hb : b < N) (hc : c < N)
    (h : cdist N a b = cdist N a c) : b = c := by
  unfold cdist at h
  split at h <;> split at h <;> omega

/-- One step shortens the distance to every other position. -/
theorem cdist_cnext {N a b : Nat} (ha : a < N) (hb : b < N) (hne : a ≠ b) :
    cdist N (cnext N a) b + 1 = cdist N a b := by
  unfold cdist cnext
  split <;> split <;> split <;> omega

/-- One step makes the position left behind the farthest one. -/
theorem cdist_cnext_self {N a : Nat} (ha : a < N) : cdist N (cnext N a) a = N - 1 := by
  unfold cdist cnext
  split <;> split <;> omega

/-- The position before another one is as far from a third as that one, less one step. -/
theorem cdist_to_cnext {N a b : Nat} (ha : a < N) (hb : b < N) (hne : cnext N b ≠ a) :
    cdist N a (cnext N b) = cdist N a b + 1 := by
  revert hne
  unfold cdist cnext
  split <;> split <;> split <;> omega

/-- Distances from just past a position, for the positions farther away than it. -/
theorem cdist_cnext_of_lt {N a b c : Nat} (ha : a < N) (hb : b < N) (hc : c < N)
    (hlt : cdist N a b < cdist N a c) :
    cdist N (cnext N b) c + cdist N a b + 1 = cdist N a c := by
  revert hlt
  unfold cdist cnext
  split <;> split <;> split <;> split <;> omega

/-- From the next position back round to a position is all the way but one step. -/
theorem cdist_of_cnext_eq {N a b : Nat} (ha : a < N) (hb : b < N) (h : cnext N b = a) :
    cdist N a b = N - 1 := by
  subst h
  exact cdist_cnext_self hb

/-- Distances from two positions agree up to the distance between them, and a lap. -/
theorem cdist_shift {N a b c : Nat} (ha : a < N) (hb : b < N) (hc : c < N) :
    cdist N b c + cdist N a b = cdist N a c + (if cdist N a c < cdist N a b then N else 0) := by
  unfold cdist
  split <;> split <;> split <;> split <;> omega

/-! ## Searching -/

/-- Walk from `i` to the first position with the property `p`, for at most `fuel` positions. -/
def csearch (N : Nat) (p : Nat → Bool) : Nat → Nat → Option Nat
  | 0, _ => none
  | fuel + 1, i => if p i then some i else csearch N p fuel (cnext N i)

/-- A walk that meets a position with the property within its fuel stops at the nearest one. -/
theorem csearch_of_cdist_lt {N : Nat} {p : Nat → Bool} {j : Nat} (hj : j < N) (hpj : p j = true) :
    ∀ {fuel i : Nat}, i < N → cdist N i j < fuel →
      ∃ k, csearch N p fuel i = some k ∧ k < N ∧ p k = true ∧
        ∀ l < N, p l = true → cdist N i k ≤ cdist N i l := by
  intro fuel
  induction fuel with
  | zero => intro i _ h; omega
  | succ fuel ih =>
      intro i hi hfuel
      by_cases hpi : p i = true
      · exact ⟨i, by simp [csearch, hpi], hi, hpi, fun l _ _ => by simp⟩
      · have hne : i ≠ j := fun he => hpi (he ▸ hpj)
        have hstep := cdist_cnext hi hj hne
        have hi' : cnext N i < N := cnext_lt (by omega)
        obtain ⟨k, hk, hkN, hpk, hmin⟩ := ih hi' (by omega)
        refine ⟨k, by simp [csearch, hpi, hk], hkN, hpk, fun l hl hpl => ?_⟩
        have hik : i ≠ k := fun he => hpi (he ▸ hpk)
        have hil : i ≠ l := fun he => hpi (he ▸ hpl)
        have h1 := cdist_cnext hi hkN hik
        have h2 := cdist_cnext hi hl hil
        have h3 := hmin l hl hpl
        omega

/-- **One lap is enough.** When some position has the property, the search finds the nearest one. -/
theorem csearch_spec {N i j : Nat} {p : Nat → Bool} (hi : i < N) (hj : j < N) (hpj : p j = true) :
    ∃ k, csearch N p N i = some k ∧ k < N ∧ p k = true ∧
      ∀ l < N, p l = true → cdist N i k ≤ cdist N i l :=
  csearch_of_cdist_lt hj hpj hi (cdist_lt hi hj)

end XToolkits
