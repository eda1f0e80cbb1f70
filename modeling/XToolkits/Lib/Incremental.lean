import Mathlib.Data.List.Basic
import Mathlib.Order.Basic
import Mathlib.Tactic.Common

set_option autoImplicit false

/-! # Incremental parsers

A parser of an endless input that looks at the beginning of what it has, and either takes something
away from it, with or without an output, or asks for more. `drain` lets it work until it asks for
more. When its decisions are final (`stable`), it does not matter in which pieces the input comes:
`drain_append`. -/

namespace XToolkits

variable {α β : Type}

/-- A step takes away `n` cells and may give an output; `none` asks for more input. -/
structure Incremental (α β : Type) where
  step : List α → Option (Option β × Nat)
  pos : ∀ {xs out n}, step xs = some (out, n) → 0 < n
  le_length : ∀ {xs out n}, step xs = some (out, n) → n ≤ xs.length
  stable : ∀ {xs out n} (ys : List α), step xs = some (out, n) → step (xs ++ ys) = some (out, n)

namespace Incremental

variable (d : Incremental α β)

/-! ## Working until more input is needed -/

/-- At most `fuel` steps: the outputs, and what is left of the input. -/
def drainFrom : Nat → List α → List β × List α
  | 0, xs => ([], xs)
  | fuel + 1, xs =>
      match d.step xs with
      | none => ([], xs)
      | some (out, n) =>
          (out.toList ++ (drainFrom fuel (xs.drop n)).1, (drainFrom fuel (xs.drop n)).2)

/-- All steps that the input allows. -/
def drain (xs : List α) : List β × List α := d.drainFrom xs.length xs

variable {d}

/-- With fuel for all of the input, how much fuel there is makes no difference. -/
theorem drainFrom_eq {fuel fuel' : Nat} {xs : List α} (h : xs.length ≤ fuel)
    (h' : xs.length ≤ fuel') : d.drainFrom fuel xs = d.drainFrom fuel' xs := by
  induction fuel generalizing fuel' xs with
  | zero =>
      have hempty : xs = [] := List.eq_nil_of_length_eq_zero (Nat.le_zero.1 h)
      subst hempty
      cases fuel' with
      | zero => rfl
      | succ fuel' =>
          cases hs : d.step [] with
          | none => simp [drainFrom, hs]
          | some r => exact absurd (d.le_length hs) (Nat.not_le_of_lt (d.pos hs))
  | succ fuel ih =>
      cases hs : d.step xs with
      | none => cases fuel' <;> simp [drainFrom, hs]
      | some r =>
          obtain ⟨out, n⟩ := r
          have hn := d.pos hs
          have hle := d.le_length hs
          cases fuel' with
          | zero => omega
          | succ fuel' =>
              have hdrop : (xs.drop n).length = xs.length - n := List.length_drop
              have hrest := ih (show (xs.drop n).length ≤ fuel by omega)
                (show (xs.drop n).length ≤ fuel' by omega)
              simp only [drainFrom, hs, hrest]

theorem drain_of_none {xs : List α} (h : d.step xs = none) : d.drain xs = ([], xs) := by
  unfold drain
  cases xs.length <;> simp [drainFrom, h]

theorem drain_of_some {xs : List α} {out : Option β} {n : Nat} (h : d.step xs = some (out, n)) :
    d.drain xs = (out.toList ++ (d.drain (xs.drop n)).1, (d.drain (xs.drop n)).2) := by
  have hn := d.pos h
  have hle := d.le_length h
  have hdrop : (xs.drop n).length = xs.length - n := List.length_drop
  unfold drain
  rw [drainFrom_eq (Nat.le_refl _) (Nat.le_succ xs.length)]
  simp only [drainFrom, h]
  rw [drainFrom_eq (d := d) (Nat.le_refl (xs.drop n).length) (show _ ≤ xs.length by omega)]

/-- Induction along the steps: what holds of an input on which the parser asks for more, and of an
    input whenever it holds of what a step leaves, holds of every input. -/
theorem drain_induction {motive : List α → Prop}
    (more : ∀ xs, d.step xs = none → motive xs)
    (step : ∀ xs out n, d.step xs = some (out, n) → motive (xs.drop n) → motive xs) :
    ∀ xs, motive xs := by
  intro xs
  induction hl : xs.length using Nat.strongRecOn generalizing xs with
  | _ l ih =>
      cases hs : d.step xs with
      | none => exact more xs hs
      | some r =>
          obtain ⟨out, n⟩ := r
          have hn := d.pos hs
          have hle := d.le_length hs
          refine step xs out n hs (ih _ ?_ (xs.drop n) rfl)
          rw [List.length_drop]
          omega

/-- What is left is the end of the input. -/
theorem exists_drop_drain (xs : List α) : ∃ k ≤ xs.length, (d.drain xs).2 = xs.drop k := by
  induction xs using drain_induction (d := d) with
  | more xs h => exact ⟨0, Nat.zero_le _, by rw [drain_of_none h, List.drop_zero]⟩
  | step xs out n h ih =>
      obtain ⟨k, hk, heq⟩ := ih
      have hle := d.le_length h
      rw [List.length_drop] at hk
      exact ⟨n + k, by omega, by rw [drain_of_some h, heq, List.drop_drop]⟩

/-- The parser has nothing to do on what is left. -/
theorem step_drain (xs : List α) : d.step (d.drain xs).2 = none := by
  induction xs using drain_induction (d := d) with
  | more xs h => rwa [drain_of_none h]
  | step xs out n h ih => rwa [drain_of_some h]

/-- **It does not matter how the input is cut**: the outputs for an input in two pieces are those for
    the first one and, with what that one left put before it, for the second one. -/
theorem drain_append (xs ys : List α) :
    d.drain (xs ++ ys) =
      ((d.drain xs).1 ++ (d.drain ((d.drain xs).2 ++ ys)).1,
        (d.drain ((d.drain xs).2 ++ ys)).2) := by
  induction xs using drain_induction (d := d) with
  | more xs h => simp [drain_of_none h]
  | step xs out n h ih =>
      rw [drain_of_some h, drain_of_some (d.stable ys h),
        List.drop_append_of_le_length (d.le_length h), ih]
      simp

end Incremental

end XToolkits
