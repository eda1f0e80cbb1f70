import Mathlib.Data.List.Perm.Subperm
import Mathlib.Order.Basic
import Mathlib.Tactic.Common

set_option autoImplicit false

/-! # The slot table: `utils_sink.c`

`DEF_MAX_SINK_NUM` slots with a used flag and an index, and a counter beside them. A pointer to a
slot is its place in the table. `Table s used` says that the slots `used`, and no others, are in
use; the functions are specified by what they do to that set. -/

namespace XToolkits.Comm

/-! ## The table and its functions -/

/-- `DEF_MAX_SINK_NUM`. -/
def maxSinkNum : Nat := 1024

/-- `t_sink_item`. -/
structure SinkItem where
  isUsed : Int
  idx : Int
  deriving DecidableEq, Repr

/-- `g_sink_item_s` and `g_sink_item_num`. -/
structure Sinks where
  items : Nat → SinkItem
  num : Int

/-- The loops of the functions below: the first slot with the property. -/
@[irreducible] def firstItem (items : Nat → SinkItem) (P : SinkItem → Bool) : Option Nat :=
  (List.range maxSinkNum).find? fun i => P (items i)

/-- `g_sink_item_s[i].is_used = used`. -/
def setUsed (items : Nat → SinkItem) (i : Nat) (used : Int) : Nat → SinkItem :=
  fun j => if j = i then { items i with isUsed := used } else items j

/-- `init_sink_items`: the counter keeps its value. -/
def initSinkItems (s : Sinks) : Sinks :=
  { s with items := fun i => if i < maxSinkNum then ⟨0, i⟩ else s.items i }

/-- `get_valid_sink_item`. -/
def getValidSinkItem (s : Sinks) : Sinks × Option Nat :=
  match firstItem s.items fun item => item.isUsed = 0 with
  | none => (s, none)
  | some i => ({ items := setUsed s.items i 1, num := s.num + 1 }, some i)

/-- `get_sink_item_by_idx`. -/
def getSinkItemByIdx (s : Sinks) (idx : Int) : Option Nat :=
  firstItem s.items fun item => item.isUsed = 1 ∧ idx = item.idx

/-- `set_invalid_sink_id`: the slot need not be in use. -/
def setInvalidSinkId (s : Sinks) (idx : Int) : Sinks :=
  if idx < 0 then s
  else match firstItem s.items fun item => idx = item.idx with
    | none => s
    | some i => { items := setUsed s.items i 0, num := s.num - 1 }

/-! ## Tables -/

/-- Every slot has its place as its index, and those of `used` are the used ones. -/
def Table (s : Sinks) (used : List Nat) : Prop :=
  ∀ i < maxSinkNum, s.items i = ⟨if i ∈ used then 1 else 0, i⟩

variable {s : Sinks} {used used' : List Nat} {i : Nat}

theorem table_init (s : Sinks) : Table (initSinkItems s) [] := by
  intro i hi
  simp only [initSinkItems, if_pos hi, List.not_mem_nil, if_false]

/-- Only which slots are used matters. -/
theorem Table.congr (h : Table s used) (heq : ∀ i, i ∈ used' ↔ i ∈ used) : Table s used' := by
  intro i hi
  rw [h i hi]
  simp only [heq]

/-- A slot found is the first one with the property. -/
theorem firstItem_eq_some {items : Nat → SinkItem} {P : SinkItem → Bool} :
    firstItem items P = some i ↔ i < maxSinkNum ∧ P (items i) ∧ ∀ j < i, ¬ P (items j) := by
  unfold firstItem
  rw [List.find?_range_eq_some, List.mem_range]
  constructor
  · rintro ⟨hP, hi, hfirst⟩
    exact ⟨hi, hP, fun j hj => by simpa using hfirst j hj⟩
  · rintro ⟨hi, hP, hfirst⟩
    exact ⟨hP, hi, fun j hj => by simpa using hfirst j hj⟩

theorem firstItem_eq_none {items : Nat → SinkItem} {P : SinkItem → Bool} :
    firstItem items P = none ↔ ∀ i < maxSinkNum, ¬ P (items i) := by
  unfold firstItem
  rw [List.find?_range_eq_none]
  simp

/-- In a table at most one slot has an index. -/
theorem Table.firstItem_idx (h : Table s used) {P : SinkItem → Bool} (hi : i < maxSinkNum)
    (hP : P (s.items i)) (honly : ∀ item, P item → item.idx = i) :
    firstItem s.items P = some i := by
  refine firstItem_eq_some.2 ⟨hi, hP, fun j hj hPj => ?_⟩
  have hidx : (s.items j).idx = i := honly _ hPj
  rw [h j (Nat.lt_trans hj hi)] at hidx
  exact absurd (Int.ofNat.inj hidx) (Nat.ne_of_lt hj)

/-- While there are fewer used slots than slots, one of the others is free. -/
theorem exists_free (hroom : used.length < maxSinkNum) : ∃ k < maxSinkNum, k ∉ used := by
  by_contra hall
  have hsub : List.range maxSinkNum ⊆ used := fun k hk => by
    by_contra hfree
    exact hall ⟨k, List.mem_range.1 hk, hfree⟩
  have hle := (List.subperm_of_subset List.nodup_range hsub).length_le
  rw [List.length_range] at hle
  omega

/-- **A new slot**: while one is free, a free one is found. -/
theorem Table.getValid (h : Table s used) (hfree : ∃ k < maxSinkNum, k ∉ used) :
    ∃ s' i, getValidSinkItem s = (s', some i) ∧ i < maxSinkNum ∧ i ∉ used ∧
      Table s' (used ++ [i]) := by
  obtain ⟨k, hk, hfree⟩ := hfree
  cases hfirst : firstItem s.items fun item => item.isUsed = 0 with
  | none =>
      have hnone := firstItem_eq_none.1 hfirst k hk
      rw [h k hk, if_neg hfree] at hnone
      simp at hnone
  | some i =>
      obtain ⟨hi, hzero, -⟩ := firstItem_eq_some.1 hfirst
      have hnew : i ∉ used := by
        intro hmem
        rw [h i hi, if_pos hmem] at hzero
        simp at hzero
      have hget : getValidSinkItem s =
          ({ items := setUsed s.items i 1, num := s.num + 1 }, some i) := by
        simp only [getValidSinkItem, hfirst]
      refine ⟨_, i, hget, hi, hnew, fun j hj => ?_⟩
      simp only [setUsed, List.mem_append, List.mem_singleton]
      by_cases hij : j = i
      · rw [if_pos hij, if_pos (Or.inr hij), h i hi, hij]
      · rw [if_neg hij, h j hj]
        simp only [hij, or_false]

/-- No slot is found in a table that is full. -/
theorem Table.getValid_full (h : Table s used) (hfull : ¬ ∃ k < maxSinkNum, k ∉ used) :
    getValidSinkItem s = (s, none) := by
  have hnone : (firstItem s.items fun item => item.isUsed = 0) = none := by
    refine firstItem_eq_none.2 fun i hi => ?_
    rw [h i hi, if_pos (by_contra fun hfree => hfull ⟨i, hi, hfree⟩)]
    simp
  simp only [getValidSinkItem, hnone]

/-- The free slots are those that are not used. -/
theorem Table.isUsed_eq_zero (h : Table s used) (hi : i < maxSinkNum) :
    (s.items i).isUsed = 0 ↔ i ∉ used := by
  rw [h i hi]
  by_cases hused : i ∈ used <;> simp [hused]

/-- The lookup finds the used slots. -/
theorem Table.getByIdx_mem (h : Table s used) (hi : i < maxSinkNum) (hmem : i ∈ used) :
    getSinkItemByIdx s i = some i := by
  refine h.firstItem_idx hi ?_ fun item hitem => ?_
  · rw [h i hi, if_pos hmem]
    simp
  · rw [decide_eq_true_eq] at hitem
    exact hitem.2.symm

theorem Table.getByIdx_not_mem (h : Table s used) {idx : Int}
    (hmem : ∀ i < maxSinkNum, i ∈ used → (i : Int) ≠ idx) : getSinkItemByIdx s idx = none := by
  refine firstItem_eq_none.2 fun i hi => ?_
  rw [h i hi]
  by_cases hused : i ∈ used
  · have hne := hmem i hi hused
    simp [hused, Ne.symm hne]
  · simp [hused]

/-- **A slot given back.** -/
theorem Table.setInvalid (h : Table s used) (hi : i < maxSinkNum)
    (hused' : ∀ j, j ∈ used' ↔ j ∈ used ∧ j ≠ i) : Table (setInvalidSinkId s i) used' := by
  have hfirst : (firstItem s.items fun item => (i : Int) = item.idx) = some i := by
    refine h.firstItem_idx hi ?_ fun item hitem => ?_
    · rw [h i hi]
      simp
    · rw [decide_eq_true_eq] at hitem
      exact hitem.symm
  rw [setInvalidSinkId, if_neg (by omega), hfirst]
  intro j hj
  simp only [setUsed, hused']
  by_cases hij : j = i
  · simp [hij, h i hi]
  · simp [hij, h j hj]

end XToolkits.Comm
