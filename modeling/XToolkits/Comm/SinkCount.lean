import Mathlib.Data.Finset.Card
import Mathlib.Data.Finset.Range
import Mathlib.Order.Interval.Finset.Nat
import XToolkits.Comm.Sink
import XToolkits.Lib.Transition

set_option autoImplicit false

/-! # The counter beside the slot table

`g_sink_item_num` is kept beside the used flags: `init_sink_items` clears the flags alone, and
`set_invalid_sink_id` counts down for a slot that is free, too. The runs here start from the zeroed
statics, in which every slot has the index 0. -/

namespace XToolkits.Comm

/-! ## The functions -/

/-- `get_valid_sink_id`. -/
def getValidSinkId (s : Sinks) : Sinks × Int :=
  match firstItem s.items fun item => item.isUsed = 0 with
  | none => (s, -1)
  | some i => ({ items := setUsed s.items i 1, num := s.num + 1 }, (s.items i).idx)

/-- `get_cur_sink_num`. -/
def getCurSinkNum (s : Sinks) : Int := s.num

/-- `g_sink_item_s` and `g_sink_item_num` when the program starts. -/
def sinksStart : Sinks := ⟨fun _ => ⟨0, 0⟩, 0⟩

/-! ## Runs -/

inductive SinkAction where
  | init
  | getId
  | getItem
  | setInvalid (idx : Int)
  deriving DecidableEq, Repr

/-- An index returned, itself or by its slot, and an index passed to `set_invalid_sink_id`. -/
inductive SinkEvent where
  | handed (idx : Int)
  | released (idx : Int)
  deriving DecidableEq, Repr

def sinkStep (s : Sinks) : SinkAction → Option (Sinks × List SinkEvent)
  | .init => some (initSinkItems s, [])
  | .getId =>
      let r := getValidSinkId s
      some (r.1, if r.2 < 0 then [] else [.handed r.2])
  | .getItem =>
      match getValidSinkItem s with
      | (s, none) => some (s, [])
      | (s, some i) => some (s, [.handed (s.items i).idx])
  | .setInvalid idx => some (setInvalidSinkId s idx, [.released idx])

/-- Every function can be called at any time. -/
theorem sinkStep_enabled (s : Sinks) (a : SinkAction) : ∃ s' es, sinkStep s a = some (s', es) := by
  cases a with
  | init => exact ⟨_, _, rfl⟩
  | getId => exact ⟨_, _, rfl⟩
  | getItem =>
      rw [sinkStep]
      split <;> exact ⟨_, _, rfl⟩
  | setInvalid idx => exact ⟨_, _, rfl⟩

/-- The slots with `is_used = 1`. -/
def usedSlots (s : Sinks) : Finset Nat :=
  (Finset.range maxSinkNum).filter fun i => (s.items i).isUsed = 1

/-- `get_cur_sink_num` returns the number of used slots. -/
def CountsUsed (s : Sinks) : Prop :=
  getCurSinkNum s = (usedSlots s).card ∧ 0 ≤ getCurSinkNum s ∧ getCurSinkNum s ≤ maxSinkNum

/-- The index was handed out, and not released since. -/
def Outstanding (tr : List SinkEvent) (idx : Int) : Prop :=
  ∃ before after, tr = before ++ .handed idx :: after ∧ SinkEvent.released idx ∉ after

/-- An index handed out is not out already. -/
def FreshHandOut (before : List SinkEvent) (e : SinkEvent) : Prop :=
  ∀ idx, e = .handed idx → ¬ Outstanding before idx

/-- The table has been through `init_sink_items`. -/
def Numbered (s : Sinks) : Prop := ∀ i < maxSinkNum, (s.items i).idx = i

/-- The table is initialised while no slot is used; a slot is taken from a table that is initialised
    or has no used slot; what is released is not an index of the table, or that of a slot in use. -/
def SinkAction.Careful (s : Sinks) : SinkAction → Prop
  | .init => usedSlots s = ∅
  | .getId => Numbered s ∨ usedSlots s = ∅
  | .getItem => Numbered s ∨ usedSlots s = ∅
  | .setInvalid idx => 0 ≤ idx →
      ∀ i, (firstItem s.items fun item => idx = item.idx) = some i → i ∈ usedSlots s

/-! ## What one call does -/

variable {s s' : Sinks} {i : Nat} {tr : List SinkEvent} {idx : Int}

/-- The flags are 0 or 1. -/
def Flags (s : Sinks) : Prop := ∀ i < maxSinkNum, (s.items i).isUsed = 0 ∨ (s.items i).isUsed = 1

theorem mem_usedSlots : i ∈ usedSlots s ↔ i < maxSinkNum ∧ (s.items i).isUsed = 1 := by
  rw [usedSlots, Finset.mem_filter, Finset.mem_range]

theorem usedSlots_card_le (s : Sinks) : (usedSlots s).card ≤ maxSinkNum := by
  have hle := Finset.card_filter_le (Finset.range maxSinkNum) fun i => (s.items i).isUsed = 1
  rwa [Finset.card_range] at hle

/-- The free slots are those with the flag 0. -/
theorem Flags.isUsed_eq_zero (h : Flags s) (hi : i < maxSinkNum) :
    (s.items i).isUsed = 0 ↔ i ∉ usedSlots s := by
  rw [mem_usedSlots]
  rcases h i hi with hzero | hone
  · simp [hzero]
  · simp [hone, hi]

theorem usedSlots_init (s : Sinks) : usedSlots (initSinkItems s) = ∅ := by
  refine Finset.eq_empty_of_forall_notMem fun i hi => ?_
  obtain ⟨hi, hone⟩ := mem_usedSlots.1 hi
  simp [initSinkItems, hi] at hone

/-- A slot taken: a free one, if there is one. -/
def Taken (s : Sinks) (i : Nat) (s' : Sinks) : Prop :=
  i < maxSinkNum ∧ (s.items i).isUsed = 0 ∧ (∀ j < i, (s.items j).isUsed ≠ 0) ∧
    s' = { items := setUsed s.items i 1, num := s.num + 1 }

/-- Both functions that take a slot take the first free one, and return its index. -/
theorem sinkStep_get {a : SinkAction} (ha : a = .getId ∨ a = .getItem) {es : List SinkEvent}
    (hstep : sinkStep s a = some (s', es)) (hidx : ∀ i < maxSinkNum, 0 ≤ (s.items i).idx) :
    (s' = s ∧ es = [] ∧ ∀ i < maxSinkNum, (s.items i).isUsed ≠ 0) ∨
      ∃ i, Taken s i s' ∧ es = [.handed (s.items i).idx] := by
  cases hfirst : firstItem s.items fun item => item.isUsed = 0 with
  | none =>
      left
      have hnone := firstItem_eq_none.1 hfirst
      rcases ha with rfl | rfl
      · simp only [sinkStep, getValidSinkId, hfirst] at hstep
        obtain ⟨rfl, rfl⟩ := Prod.mk.inj (Option.some.inj hstep)
        exact ⟨rfl, rfl, by simpa using hnone⟩
      · simp only [sinkStep, getValidSinkItem, hfirst] at hstep
        obtain ⟨rfl, rfl⟩ := Prod.mk.inj (Option.some.inj hstep)
        exact ⟨rfl, rfl, by simpa using hnone⟩
  | some i =>
      right
      obtain ⟨hi, hzero, hbefore⟩ := firstItem_eq_some.1 hfirst
      refine ⟨i, ?_⟩
      rcases ha with rfl | rfl
      · simp only [sinkStep, getValidSinkId, hfirst, if_neg (Int.not_lt.2 (hidx i hi))] at hstep
        obtain ⟨rfl, rfl⟩ := Prod.mk.inj (Option.some.inj hstep)
        exact ⟨⟨hi, by simpa using hzero, by simpa using hbefore, rfl⟩, rfl⟩
      · simp only [sinkStep, getValidSinkItem, hfirst, setUsed, if_true] at hstep
        obtain ⟨rfl, rfl⟩ := Prod.mk.inj (Option.some.inj hstep)
        exact ⟨⟨hi, by simpa using hzero, by simpa using hbefore, rfl⟩, rfl⟩

/-- The indices stay. -/
theorem setUsed_idx (items : Nat → SinkItem) (i : Nat) (used : Int) (j : Nat) :
    (setUsed items i used j).idx = (items j).idx := by
  by_cases hij : j = i
  · rw [setUsed, if_pos hij, hij]
  · rw [setUsed, if_neg hij]

theorem Flags.setUsed (h : Flags s) (i : Nat) {used : Int} (hused : used = 0 ∨ used = 1)
    (num : Int) : Flags ⟨setUsed s.items i used, num⟩ := by
  intro j hj
  by_cases hij : j = i
  · simpa [Comm.setUsed, hij] using hused
  · simpa [Comm.setUsed, hij] using h j hj

theorem usedSlots_setUsed_one (hi : i < maxSinkNum) (num : Int) :
    usedSlots ⟨setUsed s.items i 1, num⟩ = insert i (usedSlots s) := by
  ext j
  rw [Finset.mem_insert, mem_usedSlots, mem_usedSlots]
  by_cases hij : j = i
  · simp [setUsed, hij, hi]
  · simp [setUsed, hij]

theorem usedSlots_setUsed_zero (s : Sinks) (i : Nat) (num : Int) :
    usedSlots ⟨setUsed s.items i 0, num⟩ = (usedSlots s).erase i := by
  ext j
  rw [Finset.mem_erase, mem_usedSlots, mem_usedSlots]
  by_cases hij : j = i
  · simp [setUsed, hij]
  · simp [setUsed, hij]

/-- A release does nothing, or it takes the first slot with the index. -/
theorem setInvalidSinkId_cases (s : Sinks) (idx : Int) :
    (setInvalidSinkId s idx = s ∧ ∀ i < maxSinkNum, 0 ≤ (s.items i).idx → idx ≠ (s.items i).idx) ∨
      ∃ i, 0 ≤ idx ∧ (firstItem s.items fun item => idx = item.idx) = some i ∧
        idx = (s.items i).idx ∧ i < maxSinkNum ∧
        setInvalidSinkId s idx = { items := setUsed s.items i 0, num := s.num - 1 } := by
  by_cases hneg : idx < 0
  · refine Or.inl ⟨by rw [setInvalidSinkId, if_pos hneg], fun i _ hi heq => ?_⟩
    omega
  · cases hfirst : firstItem s.items fun item => idx = item.idx with
    | none =>
        refine Or.inl ⟨by rw [setInvalidSinkId, if_neg hneg, hfirst], fun i hi _ => ?_⟩
        simpa using firstItem_eq_none.1 hfirst i hi
    | some i =>
        obtain ⟨hi, hidx, -⟩ := firstItem_eq_some.1 hfirst
        refine Or.inr ⟨i, Int.not_lt.1 hneg, rfl, by simpa using hidx, hi, ?_⟩
        rw [setInvalidSinkId, if_neg hneg, hfirst]

/-! ## Indices that are out -/

theorem outstanding_nil : ¬ Outstanding [] idx := by
  rintro ⟨before, after, hsplit, -⟩
  simp at hsplit

theorem outstanding_handed {out : Int} :
    Outstanding (tr ++ [.handed out]) idx ↔ idx = out ∨ Outstanding tr idx := by
  constructor
  · rintro ⟨before, after, hsplit, hnot⟩
    rcases List.eq_nil_or_concat after with rfl | ⟨after', e, rfl⟩
    · obtain ⟨-, heq⟩ := List.append_inj' hsplit rfl
      exact Or.inl (SinkEvent.handed.inj (List.singleton_inj.1 heq)).symm
    · rw [List.concat_eq_append, ← List.cons_append, ← List.append_assoc] at hsplit
      obtain ⟨rfl, -⟩ := List.append_inj' hsplit rfl
      exact Or.inr ⟨before, after', rfl, fun hmem => hnot (by simp [hmem])⟩
  · rintro (rfl | ⟨before, after, rfl, hnot⟩)
    · exact ⟨tr, [], rfl, List.not_mem_nil⟩
    · exact ⟨before, after ++ [.handed out], by simp, by simpa using hnot⟩

theorem outstanding_released {back : Int} :
    Outstanding (tr ++ [.released back]) idx ↔ idx ≠ back ∧ Outstanding tr idx := by
  constructor
  · rintro ⟨before, after, hsplit, hnot⟩
    rcases List.eq_nil_or_concat after with rfl | ⟨after', e, rfl⟩
    · obtain ⟨-, heq⟩ := List.append_inj' hsplit rfl
      exact SinkEvent.noConfusion (List.singleton_inj.1 heq)
    · rw [List.concat_eq_append, ← List.cons_append, ← List.append_assoc] at hsplit
      obtain ⟨rfl, heq⟩ := List.append_inj' hsplit rfl
      obtain rfl := List.singleton_inj.1 heq
      refine ⟨?_, before, after', rfl, fun hmem => hnot (by simp [hmem])⟩
      rintro rfl
      exact hnot (by simp)
  · rintro ⟨hne, before, after, rfl, hnot⟩
    exact ⟨before, after ++ [.released back], by simp, by simp [hnot, hne]⟩

/-! ## The invariant -/

/-- An initialised table, in which the indices that are out are used slots; or the zeroed statics,
    in which slot 0 alone may be in use, and 0 is out while it is. -/
inductive Phase (tr : List SinkEvent) (s : Sinks) : Prop
  | numbered (hidx : Numbered s) (hout : ∀ idx, Outstanding tr idx → ∃ i ∈ usedSlots s, (i : Int) = idx)
  | start (hidx : ∀ i, (s.items i).idx = 0) (hzero : ∀ i ∈ usedSlots s, i = 0)
      (hout : ∀ idx, Outstanding tr idx ↔ idx = 0 ∧ 0 ∈ usedSlots s)

structure SinkInv (tr : List SinkEvent) (s : Sinks) : Prop where
  flags : Flags s
  num : s.num = (usedSlots s).card
  fresh : EachEvent FreshHandOut tr
  phase : Phase tr s

theorem sinkInv_start : SinkInv [] sinksStart := by
  have hnone : usedSlots sinksStart = ∅ :=
    Finset.eq_empty_of_forall_notMem fun i hi => absurd (mem_usedSlots.1 hi).2 Int.zero_ne_one
  refine ⟨fun i _ => Or.inl rfl, by rw [hnone]; rfl, EachEvent.nil _, .start (fun i => rfl) ?_ ?_⟩
  · simp [hnone]
  · simp [hnone, outstanding_nil]

theorem SinkInv.sound (h : SinkInv tr s) : CountsUsed s ∧ EachEvent FreshHandOut tr := by
  have hcount : getCurSinkNum s = (usedSlots s).card := h.num
  have hle := usedSlots_card_le s
  exact ⟨⟨hcount, by omega, by omega⟩, h.fresh⟩

/-- The indices of a table that can be reached are not negative. -/
theorem SinkInv.idx_nonneg (h : SinkInv tr s) : ∀ i < maxSinkNum, 0 ≤ (s.items i).idx := by
  intro i hi
  cases h.phase with
  | numbered hidx =>
      rw [hidx i hi]
      exact Int.natCast_nonneg i
  | start hidx => rw [hidx i]

/-- No index is out while no slot is used. -/
theorem SinkInv.not_outstanding (h : SinkInv tr s) (hnone : usedSlots s = ∅) (idx : Int) :
    ¬ Outstanding tr idx := by
  intro hout
  cases h.phase with
  | numbered _ hall =>
      obtain ⟨i, hi, -⟩ := hall idx hout
      simp [hnone] at hi
  | start _ _ hall =>
      have hused := ((hall idx).1 hout).2
      simp [hnone] at hused

/-- `init_sink_items` on a table without used slots. -/
theorem SinkInv.init (h : SinkInv tr s) (hnone : usedSlots s = ∅) : SinkInv tr (initSinkItems s) where
  flags := fun i hi => Or.inl (by simp [initSinkItems, hi])
  num := by
    rw [usedSlots_init, ← hnone]
    exact h.num
  fresh := h.fresh
  phase := .numbered (fun i hi => by simp [initSinkItems, hi])
    fun idx hout => absurd hout (h.not_outstanding hnone idx)

/-- The zeroed statics are not numbered. -/
theorem not_numbered (hidx : ∀ i, (s.items i).idx = 0) : ¬ Numbered s := by
  intro h
  have hone := h 1 (by decide)
  rw [hidx 1] at hone
  cases hone

/-- A slot taken from a table that is initialised or has no used slot. -/
theorem SinkInv.taken (h : SinkInv tr s) (hcareful : Numbered s ∨ usedSlots s = ∅)
    (htaken : Taken s i s') : SinkInv (tr ++ [.handed (s.items i).idx]) s' := by
  obtain ⟨hi, hzero, hbefore, rfl⟩ := htaken
  have hnew : i ∉ usedSlots s := (h.flags.isUsed_eq_zero hi).1 hzero
  have hused := usedSlots_setUsed_one (s := s) hi (s.num + 1)
  have hfresh : ¬ Outstanding tr (s.items i).idx →
      EachEvent FreshHandOut (tr ++ [.handed (s.items i).idx]) := fun hnot =>
    eachEvent_concat.2 ⟨h.fresh, fun idx heq => SinkEvent.handed.inj heq ▸ hnot⟩
  have hflags := h.flags.setUsed i (Or.inr rfl) (s.num + 1)
  have hnum : s.num + 1 = ((usedSlots ⟨setUsed s.items i 1, s.num + 1⟩).card : Int) := by
    rw [hused, Finset.card_insert_of_notMem hnew, h.num]
    rfl
  cases h.phase with
  | numbered hidx hall =>
      refine ⟨hflags, hnum, hfresh fun hout => ?_, .numbered (fun j hj => ?_) fun idx hout => ?_⟩
      · obtain ⟨j, hj, heq⟩ := hall _ hout
        rw [hidx i hi, Int.natCast_inj] at heq
        exact hnew (heq ▸ hj)
      · exact (setUsed_idx ..).trans (hidx j hj)
      · rw [hused]
        rcases outstanding_handed.1 hout with rfl | hout
        · exact ⟨i, Finset.mem_insert_self .., (hidx i hi).symm⟩
        · obtain ⟨j, hj, heq⟩ := hall idx hout
          exact ⟨j, Finset.mem_insert_of_mem hj, heq⟩
  | start hidx _ _ =>
      have hnone := hcareful.resolve_left (not_numbered hidx)
      -- the first slot is free
      obtain rfl : i = 0 := by
        by_contra hne
        refine hbefore 0 (Nat.pos_of_ne_zero hne) ?_
        rw [h.flags.isUsed_eq_zero (by decide), hnone]
        exact Finset.notMem_empty 0
      refine ⟨hflags, hnum, hfresh (h.not_outstanding hnone _),
        .start (fun j => (setUsed_idx ..).trans (hidx j)) ?_ fun idx => ?_⟩
      · simp [hused, hnone]
      · rw [outstanding_handed, hused, hidx 0]
        simp [h.not_outstanding hnone]

/-- An index released that is not one of the table, or that of a slot in use. -/
theorem SinkInv.released (h : SinkInv tr s) (hcareful : (SinkAction.setInvalid idx).Careful s) :
    SinkInv (tr ++ [.released idx]) (setInvalidSinkId s idx) := by
  have hfresh : EachEvent FreshHandOut (tr ++ [.released idx]) :=
    eachEvent_concat.2 ⟨h.fresh, fun out heq => SinkEvent.noConfusion heq⟩
  rcases setInvalidSinkId_cases s idx with ⟨hsame, hother⟩ | ⟨i, hpos, hfirst, hi, hlt, hnext⟩
  · rw [hsame]
    refine ⟨h.flags, h.num, hfresh, ?_⟩
    cases h.phase with
    | numbered hidx hall =>
        exact .numbered hidx fun out hout => hall out (outstanding_released.1 hout).2
    | start hidx hzero hall =>
        refine .start hidx hzero fun out => ?_
        rw [outstanding_released, hall]
        have hne := hother 0 (by decide) (by rw [hidx 0])
        rw [hidx 0] at hne
        constructor
        · exact And.right
        · rintro ⟨rfl, hused⟩
          exact ⟨Ne.symm hne, rfl, hused⟩
  · have hmem := hcareful hpos i hfirst
    have hused := usedSlots_setUsed_zero s i (s.num - 1)
    rw [hnext]
    refine ⟨h.flags.setUsed i (Or.inl rfl) _, ?_, hfresh, ?_⟩
    · show s.num - 1 = _
      have hpos := Finset.card_pos.2 ⟨i, hmem⟩
      rw [hused, Finset.card_erase_of_mem hmem, h.num]
      omega
    · cases h.phase with
      | numbered hidx hall =>
          refine .numbered (fun j hj => (setUsed_idx ..).trans (hidx j hj)) fun out hout => ?_
          obtain ⟨hne, hout⟩ := outstanding_released.1 hout
          obtain ⟨j, hj, rfl⟩ := hall out hout
          refine ⟨j, ?_, rfl⟩
          rw [hused, Finset.mem_erase]
          exact ⟨fun heq => hne (by rw [hi, heq, hidx i hlt]), hj⟩
      | start hidx hzero hall =>
          refine .start (fun j => (setUsed_idx ..).trans (hidx j)) ?_ fun out => ?_
          · intro j hj
            rw [hused] at hj
            exact hzero j (Finset.mem_of_mem_erase hj)
          · rw [outstanding_released, hall, hused, hzero i hmem, hi, hidx i]
            simp only [Finset.mem_erase, ne_eq, not_true, false_and, and_false, iff_false, not_and]
            exact fun hne heq => absurd heq hne

/-- **A careful call** keeps the counter right. -/
theorem SinkInv.keep (h : SinkInv tr s) {a : SinkAction} (ha : a.Careful s) {es : List SinkEvent}
    (hstep : sinkStep s a = some (s', es)) : SinkInv (tr ++ es) s' := by
  have hget : (a = .getId ∨ a = .getItem) → Numbered s ∨ usedSlots s = ∅ → SinkInv (tr ++ es) s' := by
    intro hor hcareful
    rcases sinkStep_get hor hstep h.idx_nonneg with ⟨rfl, rfl, -⟩ | ⟨i, htaken, rfl⟩
    · rwa [List.append_nil]
    · exact h.taken hcareful htaken
  cases a with
  | init =>
      obtain ⟨rfl, rfl⟩ := Prod.mk.inj (Option.some.inj hstep)
      rw [List.append_nil]
      exact h.init ha
  | getId => exact hget (Or.inl rfl) ha
  | getItem => exact hget (Or.inr rfl) ha
  | setInvalid idx =>
      obtain ⟨rfl, rfl⟩ := Prod.mk.inj (Option.some.inj hstep)
      exact h.released ha

/-- A slot taken from the zeroed statics beside a used one has the index that is out. -/
theorem SinkInv.get_leave (h : SinkInv tr s) {a : SinkAction} (ha : a = .getId ∨ a = .getItem)
    (hnot : ¬ (Numbered s ∨ usedSlots s = ∅)) {es : List SinkEvent}
    (hstep : sinkStep s a = some (s', es)) : ¬ EachEvent FreshHandOut (tr ++ es) := by
  obtain ⟨hnumbered, hsome⟩ := not_or.1 hnot
  cases h.phase with
  | numbered hidx _ => exact absurd hidx hnumbered
  | start hidx hzero hall =>
      obtain ⟨j, hj⟩ := Finset.nonempty_iff_ne_empty.2 hsome
      have hout : Outstanding tr 0 := (hall 0).2 ⟨rfl, hzero j hj ▸ hj⟩
      rcases sinkStep_get ha hstep h.idx_nonneg with ⟨-, -, hfull⟩ | ⟨i, -, rfl⟩
      · refine absurd ((h.flags.isUsed_eq_zero (i := 1) (by decide)).2 fun hmem => ?_)
          (hfull 1 (by decide))
        exact Nat.one_ne_zero (hzero 1 hmem)
      · rw [hidx i, eachEvent_concat]
        exact fun hfresh => hfresh.2 0 rfl hout

/-- **Any other call** miscounts, or hands out an index that is out. -/
theorem SinkInv.leave (h : SinkInv tr s) {a : SinkAction} (ha : ¬ a.Careful s)
    {es : List SinkEvent} (hstep : sinkStep s a = some (s', es)) (hcounts : CountsUsed s') :
    ¬ EachEvent FreshHandOut (tr ++ es) := by
  cases a with
  | init =>
      obtain ⟨rfl, rfl⟩ := Prod.mk.inj (Option.some.inj hstep)
      -- the counter still counts the slots that were used
      have hcount : s.num = ((usedSlots (initSinkItems s)).card : Int) := hcounts.1
      rw [usedSlots_init, h.num, Int.natCast_inj, Finset.card_empty, Finset.card_eq_zero] at hcount
      exact absurd hcount ha
  | getId => exact h.get_leave (Or.inl rfl) ha hstep
  | getItem => exact h.get_leave (Or.inr rfl) ha hstep
  | setInvalid idx =>
      obtain ⟨rfl, rfl⟩ := Prod.mk.inj (Option.some.inj hstep)
      simp only [SinkAction.Careful, not_forall] at ha
      obtain ⟨hpos, i, hfirst, hnot⟩ := ha
      rcases setInvalidSinkId_cases s idx with ⟨-, hother⟩ | ⟨j, -, hfirst', -, -, hnext⟩
      · obtain ⟨hi, hidx, -⟩ := firstItem_eq_some.1 hfirst
        exact absurd (by simpa using hidx) (hother i hi (h.idx_nonneg i hi))
      · -- the counter goes down, and no slot is given back
        obtain rfl := Option.some.inj (hfirst'.symm.trans hfirst)
        rw [hnext] at hcounts
        have hcount : s.num - 1 = ((usedSlots ⟨setUsed s.items j 0, s.num - 1⟩).card : Int) :=
          hcounts.1
        rw [usedSlots_setUsed_zero, Finset.erase_eq_of_notMem hnot, h.num] at hcount
        omega

/-- **The counter counts the used slots**, and no index is handed out that is out already, in exactly
    the runs in which every call is careful. -/
theorem sinkCount_iff (as : List SinkAction) :
    ∃ s tr, run sinkStep sinksStart as = some (s, tr) ∧
      (EachState sinkStep CountsUsed sinksStart as ∧ EachEvent FreshHandOut tr ↔
        EachStep sinkStep SinkAction.Careful sinksStart as) := by
  obtain ⟨s, tr, hrun⟩ := run_of_enabled sinkStep_enabled sinksStart as
  exact ⟨s, tr, hrun, eachState_eachEvent_iff SinkInv sinkInv_start (fun _ _ h => h.sound)
    (fun _ _ _ _ _ h ha hstep => h.keep ha hstep)
    (fun _ _ _ _ _ h ha hstep hcounts => h.leave ha hstep hcounts) hrun⟩

/-- A release of a slot that is free: the counter goes below zero. -/
theorem sinkCount_release_free : ∃ s tr,
    run sinkStep sinksStart [.init, .setInvalid 0] = some (s, tr) ∧ getCurSinkNum s = -1 ∧
      ¬ EachState sinkStep CountsUsed sinksStart [.init, .setInvalid 0] := by
  have hnum : (run sinkStep sinksStart [.init, .setInvalid 0]).map
      (fun r => getCurSinkNum r.1) = some (-1) := by decide +kernel
  obtain ⟨⟨s, tr⟩, hrun, hnum⟩ := Option.map_eq_some_iff.1 hnum
  refine ⟨s, tr, hrun, hnum, fun hall => ?_⟩
  have hcounts := hall _ [] s tr (List.append_nil _).symm hrun
  exact absurd (hnum ▸ hcounts.2.1) (by decide)

end XToolkits.Comm
