import Mathlib.Data.List.Basic
import Mathlib.Tactic.Common

set_option autoImplicit false

/-! # Searching for a flag block by block

A scan for `flag` that, when it does not find it, goes on behind the first element that differs.
What it goes over is a sequence of blocks: a part of the flag, not all of it, and then one element
that does not go on with it (`Blocks`). A list is cut into blocks in one way only
(`Blocks.cancel`), so the scan comes to a place exactly when what is before it is a sequence of
blocks. Where the flag begins inside a block, the scan misses it: `ScanEnd.findsFirst_iff` says when
the end of a scan is the first place of the flag. -/

namespace XToolkits

variable {α : Type}

/-! ## Blocks -/

/-- A sequence of blocks. -/
inductive Blocks (flag : List α) : List α → Prop where
  | nil : Blocks flag []
  | cons {j : Nat} {x : α} {ys : List α} (hj : j < flag.length) (hx : flag[j]? ≠ some x)
      (rest : Blocks flag ys) : Blocks flag (flag.take j ++ x :: ys)

variable {flag u v xs ys : List α} {i j k p q r : Nat} {x y : α}

/-- The element behind the part of the flag. -/
theorem getElem?_block (hj : j < flag.length) (x : α) (ys : List α) :
    (flag.take j ++ x :: ys)[j]? = some x := by
  have hlen : (flag.take j).length = j := List.length_take_of_le (Nat.le_of_lt hj)
  rw [List.getElem?_append_right (by omega), hlen, Nat.sub_self, List.getElem?_cons_zero]

/-- The elements of the part of the flag. -/
theorem getElem?_block_of_lt (hj : j < flag.length) (hk : k < j) (x : α) (ys : List α) :
    (flag.take j ++ x :: ys)[k]? = flag[k]? := by
  have hlen : (flag.take j).length = j := List.length_take_of_le (Nat.le_of_lt hj)
  rw [List.getElem?_append_left (by omega), List.getElem?_take_of_lt hk]

/-- A block does not begin with a shorter one. -/
theorem block_le (hj : j < flag.length) (hk : k < flag.length) (hy : flag[k]? ≠ some y)
    (hpre : flag.take k ++ [y] <+: flag.take j ++ x :: ys) : j ≤ k := by
  obtain ⟨zs, heq⟩ := hpre
  by_contra hlt
  have hget := getElem?_block_of_lt hj (Nat.lt_of_not_le hlt) x ys
  rw [← heq, List.append_assoc, List.singleton_append, getElem?_block hk] at hget
  exact hy hget.symm

/-- **There is one way to cut a list into blocks**: after the first block come blocks. -/
theorem Blocks.tail (h : Blocks flag xs) (hj : j < flag.length) (hx : flag[j]? ≠ some x)
    (heq : xs = flag.take j ++ x :: ys) : Blocks flag ys := by
  cases h with
  | nil => simp at heq
  | @cons k y zs hk hy rest =>
      have hjk : j ≤ k := block_le hj hk hy ⟨zs, by rw [← heq, List.append_assoc]; rfl⟩
      have hkj : k ≤ j := block_le hk hj hx ⟨ys, by rw [heq, List.append_assoc]; rfl⟩
      obtain rfl : j = k := Nat.le_antisymm hjk hkj
      have hrest := List.append_cancel_left heq
      exact (List.cons.inj hrest).2 ▸ rest

theorem Blocks.cancel (hu : Blocks flag u) (h : Blocks flag (u ++ v)) : Blocks flag v := by
  induction hu with
  | nil => exact h
  | cons hj hx rest ih => exact ih (h.tail hj hx (by rw [List.append_assoc, List.cons_append]))

theorem Blocks.append (hu : Blocks flag u) (hv : Blocks flag v) : Blocks flag (u ++ v) := by
  induction hu with
  | nil => exact hv
  | cons hj hx rest ih =>
      rw [List.append_assoc, List.cons_append]
      exact Blocks.cons hj hx ih

theorem Blocks.single (hj : j < flag.length) (hx : flag[j]? ≠ some x) :
    Blocks flag (flag.take j ++ [x]) := Blocks.cons hj hx Blocks.nil

/-- A sequence of blocks in front of a list that begins with a block is empty, or has that block. -/
theorem Blocks.le_length (h : Blocks flag u) (hu : u ≠ []) (hj : j < flag.length)
    (hpre : u <+: flag.take j ++ x :: ys) : j + 1 ≤ u.length := by
  cases h with
  | nil => exact absurd rfl hu
  | @cons k y zs hk hy rest =>
      have hblock : flag.take k ++ [y] <+: flag.take k ++ y :: zs := ⟨zs, by simp⟩
      have hjk : j ≤ k := block_le hj hk hy (hblock.trans hpre)
      have hlen : (flag.take k).length = k := List.length_take_of_le (Nat.le_of_lt hk)
      rw [List.length_append, List.length_cons]
      omega

/-! ## Scanning -/

/-- A scan that has come to `r`: it is at the end of a block, and did not stop before. -/
structure ScanAt (flag xs : List α) (r : Nat) : Prop where
  le_length : r ≤ xs.length
  blocks : Blocks flag (xs.take r)
  passed : ∀ q < r, Blocks flag (xs.take q) → q + flag.length ≤ xs.length ∧ ¬ flag <+: xs.drop q

theorem ScanAt.zero (flag xs : List α) : ScanAt flag xs 0 :=
  ⟨Nat.zero_le _, Blocks.nil, fun _ hq => absurd hq (Nat.not_lt_zero _)⟩

/-- The scan goes over one block. -/
theorem ScanAt.next (h : ScanAt flag xs i) (hroom : i + flag.length ≤ xs.length)
    (hj : j < flag.length) (hx : flag[j]? ≠ some x) (hblock : xs.drop i = flag.take j ++ x :: ys) :
    ScanAt flag xs (i + j + 1) := by
  have hlen := congrArg List.length hblock
  rw [List.length_drop, List.length_append, List.length_cons,
    List.length_take_of_le (Nat.le_of_lt hj)] at hlen
  refine ⟨by omega, ?_, fun q hq hblocks => ?_⟩
  · have htake : xs.take (i + j + 1) = xs.take i ++ (flag.take j ++ [x]) := by
      rw [Nat.add_assoc, List.take_add, hblock]
      congr 1
      rw [List.take_append, List.take_of_length_le (by rw [List.length_take]; omega)]
      simp [Nat.min_eq_left (Nat.le_of_lt hj)]
    rw [htake]
    exact h.blocks.append (Blocks.single hj hx)
  · rcases Nat.lt_trichotomy q i with hqi | rfl | hqi
    · exact h.passed q hqi hblocks
    · refine ⟨hroom, fun hflag => ?_⟩
      rw [hblock] at hflag
      obtain ⟨zs, heq⟩ := hflag
      have hget := getElem?_block hj x ys
      rw [← heq, List.getElem?_append_left hj] at hget
      exact hx hget
    · -- no block ends inside this one
      have hsplit : xs.take q = xs.take i ++ (xs.drop i).take (q - i) := by
        rw [← List.take_add, Nat.add_sub_cancel' (Nat.le_of_lt hqi)]
      rw [hsplit] at hblocks
      have hinner := h.blocks.cancel hblocks
      have hne : (xs.drop i).take (q - i) ≠ [] := by
        rw [Ne, ← List.length_eq_zero_iff, List.length_take, List.length_drop]
        omega
      have hpre : (xs.drop i).take (q - i) <+: flag.take j ++ x :: ys := by
        rw [← hblock]
        exact List.take_prefix _ _
      have hle := hinner.le_length hne hj hpre
      rw [List.length_take, List.length_drop] at hle
      omega

/-- A scan that stops: the flag is there, or has no room any more. -/
structure ScanEnd (flag xs : List α) (r : Nat) : Prop extends ScanAt flag xs r where
  stop : xs.length < r + flag.length ∨ flag <+: xs.drop r

/-! ## The first place of the flag -/

/-- The flag begins at `p`, as far as the list goes. -/
def BeginsAt (flag xs : List α) (p : Nat) : Prop := flag <+: xs.drop p ∨ xs.drop p <+: flag

instance [DecidableEq α] (flag xs : List α) (p : Nat) : Decidable (BeginsAt flag xs p) :=
  inferInstanceAs (Decidable (_ ∨ _))

/-- `r` is the first place of the flag; when it is nowhere, no beginning of it at the end of the list
    is before `r`. -/
structure FindsFirst (flag xs : List α) (r : Nat) : Prop where
  present : (∃ p, flag <+: xs.drop p) → flag <+: xs.drop r ∧ ∀ p < r, ¬ flag <+: xs.drop p
  absent : (¬ ∃ p, flag <+: xs.drop p) →
    r ≤ xs.length ∧ ∀ p < r, ¬ (xs.drop p <+: flag ∧ xs.drop p ≠ flag)

/-- Blocks lead to the first place in the list where the flag begins, or to one before it that the
    flag has no room behind. -/
def BlocksReach (flag xs : List α) : Prop :=
  ∀ p < xs.length, BeginsAt flag xs p → (∀ q < p, ¬ BeginsAt flag xs q) →
    ∃ q ≤ p, Blocks flag (xs.take q) ∧ (q = p ∨ xs.length < q + flag.length)

theorem prefix_drop_le (h : flag <+: xs.drop p) (hflag : flag ≠ []) :
    p + flag.length ≤ xs.length := by
  have hle := h.length_le
  have hpos := List.length_pos_of_ne_nil hflag
  rw [List.length_drop] at hle
  omega

/-- A scan that blocks lead to the first beginning of the flag has not gone past one. -/
theorem ScanEnd.not_beginsAt (h : ScanEnd flag xs r) (hreach : BlocksReach flag xs) :
    ∀ p < r, ¬ BeginsAt flag xs p := by
  intro p hp
  induction p using Nat.strongRecOn with
  | ind p ih =>
      intro hbegin
      obtain ⟨q, hq, hblocks, hend⟩ := hreach p (Nat.lt_of_lt_of_le hp h.le_length) hbegin
        fun q hq => ih q hq (Nat.lt_trans hq hp)
      obtain ⟨hroom, hnot⟩ := h.passed q (Nat.lt_of_le_of_lt hq hp) hblocks
      obtain rfl : q = p := hend.resolve_right (by omega)
      rcases hbegin with hflag | hpart
      · exact hnot hflag
      · have hlen : (xs.drop q).length = flag.length :=
          Nat.le_antisymm hpart.length_le (by rw [List.length_drop]; omega)
        exact hnot ⟨[], by rw [List.append_nil, hpart.eq_of_length hlen]⟩

/-- **When a scan finds the first place of the flag.** -/
theorem ScanEnd.findsFirst_iff (h : ScanEnd flag xs r) (hflag : flag ≠ []) :
    FindsFirst flag xs r ↔ BlocksReach flag xs := by
  constructor
  · intro hfinds p hp hbegin hfirst
    by_cases hrp : r ≤ p
    · refine ⟨r, hrp, h.blocks, h.stop.symm.imp_left fun hr => ?_⟩
      exact Nat.le_antisymm hrp (Nat.le_of_not_lt fun hlt => hfirst r hlt (Or.inl hr))
    · have hpr : p < r := Nat.lt_of_not_le hrp
      exfalso
      rcases hbegin with hoccurs | hpart
      · exact (hfinds.present ⟨p, hoccurs⟩).2 p hpr hoccurs
      · by_cases hsome : ∃ o, flag <+: xs.drop o
        · have hroom := prefix_drop_le (hfinds.present hsome).1 hflag
          have hle := hpart.length_le
          rw [List.length_drop] at hle
          omega
        · refine (hfinds.absent hsome).2 p hpr ⟨hpart, fun heq => hsome ⟨p, [], ?_⟩⟩
          rw [List.append_nil, heq]
  · intro hreach
    have hnone := h.not_beginsAt hreach
    refine ⟨fun ⟨o, ho⟩ => ⟨?_, fun p hp hoccurs => hnone p hp (Or.inl hoccurs)⟩,
      fun _ => ⟨h.le_length, fun p hp hpart => hnone p hp (Or.inr hpart.1)⟩⟩
    have hro : r ≤ o := Nat.le_of_not_lt fun hlt => hnone o hlt (Or.inl ho)
    have hroom := prefix_drop_le ho hflag
    exact h.stop.resolve_left (by omega)

end XToolkits
