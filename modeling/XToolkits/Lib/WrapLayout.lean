import Mathlib.Data.List.Basic
import Mathlib.Data.List.Induction
import Mathlib.Order.Basic
import Mathlib.Tactic.Common

set_option autoImplicit false

/-! # Blocks laid out one after the other in a cyclic area

An area of `T` cells is filled round and round with blocks that do not wrap: a block that does not
fit before the end leaves a gap there and starts at the beginning. Positions are counted without
wrapping, gaps included, so that the offset of a position in the area is its remainder modulo `T`.
Two blocks within one turn of each other do not meet in the area (`offsets_disjoint`), and a gap is
only left after the area has been filled up to the largest block (`Lap`). -/

namespace XToolkits

/-! ## Placing one block -/

/-- Where the next block of `n` cells starts when everything before position `v` is laid out. -/
def place (T v n : Nat) : Nat := if v % T + n > T then v - v % T + T else v

theorem le_place {T v n : Nat} (hT : 0 < T) : v ≤ place T v n := by
  have hmod := Nat.mod_lt v hT
  unfold place
  split <;> omega

/-- The offset of the block: the old one, or the beginning of the area. -/
theorem place_mod {T v n : Nat} : place T v n % T = if v % T + n > T then 0 else v % T := by
  unfold place
  split
  · rw [Nat.add_mod_right]
    exact Nat.sub_mod_eq_zero_of_mod_eq (Nat.mod_mod v T).symm
  · rfl

/-- A placed block does not wrap. -/
theorem place_mod_add_le {T v n : Nat} (hn : n ≤ T) : place T v n % T + n ≤ T := by
  rw [place_mod]
  split <;> omega

/-- The offset after a block that ends in the area. -/
theorem add_mod_of_le {T v n : Nat} (hle : v % T + n ≤ T) :
    (v + n) % T = if v % T + n = T then 0 else v % T + n := by
  rw [← Nat.mod_add_mod]
  split
  · next heq => rw [heq, Nat.mod_self]
  · exact Nat.mod_eq_of_lt (by omega)

/-- Two blocks within one turn of each other have disjoint offsets. -/
theorem offsets_disjoint {T v len v' n : Nat} (hfirst : v + len ≤ v') (hturn : v' + n ≤ v + T)
    (hv : v % T + len ≤ T) (hlen : 0 < len) :
    v % T + len ≤ v' % T ∨ v' % T + n ≤ v % T := by
  have hd := Nat.div_add_mod v T
  have hd' := Nat.div_add_mod v' T
  by_cases hsame : v' / T ≤ v / T
  · have hle : T * (v' / T) ≤ T * (v / T) := Nat.mul_le_mul_left T hsame
    exact Or.inl (by omega)
  · have hnext : v' / T ≤ v / T + 1 := by
      by_contra hfar
      have hge : T * (v / T + 2) ≤ T * (v' / T) := Nat.mul_le_mul_left T (by omega)
      rw [Nat.mul_add] at hge
      omega
    have heq : v' / T = v / T + 1 := by omega
    rw [heq, Nat.mul_add] at hd'
    exact Or.inr (by omega)

/-- A block that reaches more than one turn past the start of another one runs over its offset. -/
theorem offset_mem_of_turn {T v v' n : Nat} (hturn : v + T < v' + n) (hle : v' ≤ v + T)
    (hv' : v' % T + n ≤ T) : v' % T ≤ v % T ∧ v % T < v' % T + n := by
  obtain ⟨d, hd⟩ := Nat.exists_eq_add_of_le hle
  have hmod : v % T = v' % T + d := by
    have h1 : (v + T) % T = (v' % T + d) % T := by rw [hd, Nat.mod_add_mod]
    rw [Nat.add_mod_right] at h1
    rw [h1]
    exact Nat.mod_eq_of_lt (by omega)
  omega

/-! ## Placing a sequence of blocks -/

/-- The position after blocks of the given sizes. -/
def layoutEnd (T : Nat) (sizes : List Nat) : Nat :=
  sizes.foldl (fun v n => place T v n + n) 0

/-- The position at which the `k`-th block starts. -/
def layoutStart (T : Nat) (sizes : List Nat) (k : Nat) : Nat :=
  place T (layoutEnd T (sizes.take k)) (sizes[k]?.getD 0)

@[simp] theorem layoutEnd_nil (T : Nat) : layoutEnd T [] = 0 := rfl

@[simp] theorem layoutEnd_concat (T : Nat) (sizes : List Nat) (n : Nat) :
    layoutEnd T (sizes ++ [n]) = place T (layoutEnd T sizes) n + n := by
  simp [layoutEnd]

/-- Later blocks do not move earlier ones. -/
theorem layoutStart_concat {T : Nat} {sizes : List Nat} {k : Nat} (hk : k < sizes.length) (n : Nat) :
    layoutStart T (sizes ++ [n]) k = layoutStart T sizes k := by
  rw [layoutStart, layoutStart, List.take_append_of_le_length (Nat.le_of_lt hk),
    List.getElem?_append_left hk]

/-- The last block is placed after all the others. -/
theorem layoutStart_last (T : Nat) (sizes : List Nat) (n : Nat) :
    layoutStart T (sizes ++ [n]) sizes.length = place T (layoutEnd T sizes) n := by
  simp [layoutStart]

/-- A block ends before everything laid out after it. -/
theorem layoutStart_add_le {T : Nat} (hT : 0 < T) {sizes : List Nat} {k n : Nat}
    (hk : sizes[k]? = some n) : layoutStart T sizes k + n ≤ layoutEnd T sizes := by
  induction sizes using List.reverseRecOn with
  | nil => simp at hk
  | append_singleton sizes m ih =>
      rw [layoutEnd_concat]
      by_cases hlast : k < sizes.length
      · rw [List.getElem?_append_left hlast] at hk
        rw [layoutStart_concat hlast]
        have hle := le_place (v := layoutEnd T sizes) (n := m) hT
        have hih := ih hk
        omega
      · have hlt := (List.getElem?_eq_some_iff.1 hk).1
        rw [List.length_append, List.length_singleton] at hlt
        obtain rfl : k = sizes.length := by omega
        rw [List.getElem?_concat_length, Option.some.injEq] at hk
        exact Nat.le_of_eq (by rw [layoutStart_last, hk])

/-- **A turn takes as many blocks as fit.** Either a position lies in the part of the area filled
    since the last return to the beginning, or that part was filled with the `c` blocks, of at most
    `s` cells each, that were laid out after the position. -/
def Lap (T s v c e : Nat) : Prop := e ≤ v + e % T ∨ e % T ≤ c * s

theorem Lap.start {T s v n : Nat} (hn : n ≤ T) : Lap T s (place T v n) 0 (place T v n + n) := by
  rw [Lap, add_mod_of_le (place_mod_add_le hn)]
  split
  · exact Or.inr (Nat.zero_le _)
  · exact Or.inl (by omega)

theorem Lap.step {T s v c e n : Nat} (h : Lap T s v c e) (hn : n ≤ s) (hT : n ≤ T) :
    Lap T s v (c + 1) (place T e n + n) := by
  have hmod := add_mod_of_le (place_mod_add_le (v := e) hT)
  rw [place_mod] at hmod
  rw [Lap, hmod, Nat.succ_mul]
  by_cases hfits : e % T + n > T
  · -- the block starts a new turn, which it alone fills
    rw [if_pos hfits]
    refine Or.inr ?_
    split <;> omega
  · have hplace : place T e n = e := if_neg hfits
    rw [if_neg hfits, hplace]
    split
    · exact Or.inr (Nat.zero_le _)
    · rcases h with h | h
      · exact Or.inl (by omega)
      · exact Or.inr (by omega)

/-- Every block of a layout is followed by a lap. -/
theorem lap_layout {T s : Nat} (hsT : s ≤ T) {sizes : List Nat} (hs : ∀ n ∈ sizes, n ≤ s) {k : Nat}
    (hk : k < sizes.length) :
    Lap T s (layoutStart T sizes k) (sizes.length - 1 - k) (layoutEnd T sizes) := by
  induction sizes using List.reverseRecOn with
  | nil => simp at hk
  | append_singleton sizes m ih =>
      have hm : m ≤ s := hs m (by simp)
      rw [layoutEnd_concat, List.length_append, List.length_singleton]
      by_cases hlast : k < sizes.length
      · rw [layoutStart_concat hlast]
        have hlap := (ih (fun n hn => hs n (List.mem_append_left _ hn)) hlast).step hm (by omega)
        rwa [show sizes.length - 1 - k + 1 = sizes.length + 1 - 1 - k from by omega] at hlap
      · rw [List.length_append, List.length_singleton] at hk
        obtain rfl : k = sizes.length := by omega
        rw [layoutStart_last, Nat.add_sub_cancel, Nat.sub_self]
        exact Lap.start (by omega)

/-- In an area of `N` blocks of the largest size, the next block starts within a turn of each of the
    last `N` blocks that everything so far lies within a turn of. -/
theorem place_le_turn {N s : Nat} {sizes : List Nat} (hs : ∀ n ∈ sizes, n ≤ s) {k n : Nat}
    (hk : k < sizes.length) (hage : sizes.length ≤ N + k) (hn : n ≤ s)
    (hturn : layoutEnd (N * s) sizes ≤ layoutStart (N * s) sizes k + N * s) :
    place (N * s) (layoutEnd (N * s) sizes) n ≤ layoutStart (N * s) sizes k + N * s := by
  unfold place
  split
  · next hgap =>
      have hsT : s ≤ N * s := Nat.le_mul_of_pos_left s (by omega)
      have hmod := Nat.mod_le (layoutEnd (N * s) sizes) (N * s)
      rcases lap_layout hsT hs hk with hlap | hlap
      · omega
      · -- at most `N - 1` blocks were laid out since: they do not reach a gap
        have hblocks : (sizes.length - 1 - k) * s + s ≤ N * s := by
          rw [← Nat.succ_mul]
          exact Nat.mul_le_mul_right s (by omega)
        omega
  · exact hturn

end XToolkits
