import Mathlib.Data.List.Perm.Basic
import XToolkits.Lib.SlotLog

set_option autoImplicit false

/-! # What becomes of every stored packet

`SlotLog` tells which packets wait and which were handed out. The others were lost: `lostOf` are
those that waited in a slot when another packet was stored into it. `accounted` says that every
packet stored since the last `clear` is in exactly one of the three lists, and once. -/

namespace XToolkits

variable {P : Type}

namespace SlotLog

/-- The packets lost after one more event: what waits in a slot is lost when it is stored over. -/
def lose (l : SlotLog P) (lost : List (Stored P)) : SlotEvent P → List (Stored P)
  | .fill i _ => lost ++ l.live.filter (fun e => e.slot = i)
  | .take _ _ => lost
  | .clear => []

/-- The packets of a trace that were stored over before they were handed out. -/
def lostOf (tr : List (SlotEvent P)) : List (Stored P) :=
  (tr.foldl (fun a e => (a.1.apply e, a.1.lose a.2 e)) (empty, [])).2

/-- The slots of the packets stored since the last `clear`. -/
def slotsOf (tr : List (SlotEvent P)) : List Nat :=
  tr.foldl (fun slots e => match e with
    | .fill i _ => slots ++ [i]
    | .take _ _ => slots
    | .clear => []) []

@[simp] theorem lostOf_nil : lostOf ([] : List (SlotEvent P)) = [] := rfl

@[simp] theorem slotsOf_nil : slotsOf ([] : List (SlotEvent P)) = [] := rfl

@[simp] theorem lostOf_concat (tr : List (SlotEvent P)) (e : SlotEvent P) :
    lostOf (tr ++ [e]) = (ofTrace tr).lose (lostOf tr) e := by
  have hlog : ∀ (a : SlotLog P × List (Stored P)),
      (tr.foldl (fun a e => (a.1.apply e, a.1.lose a.2 e)) a).1 = tr.foldl apply a.1 := by
    induction tr with
    | nil => exact fun a => rfl
    | cons e tr ih => exact fun a => ih _
  rw [lostOf, List.foldl_append, List.foldl_cons, List.foldl_nil, hlog]
  rfl

@[simp] theorem slotsOf_concat (tr : List (SlotEvent P)) (e : SlotEvent P) :
    slotsOf (tr ++ [e]) = match e with
      | .fill i _ => slotsOf tr ++ [i]
      | .take _ _ => slotsOf tr
      | .clear => [] := by
  rw [slotsOf, List.foldl_append]
  rfl

/-- Every stored packet is in one of the lists `taken`, `live` and `lost`, and once; its number tells
    the packet and the slot, and what is lost was stored over by a later packet. -/
structure Accounted (l : SlotLog P) (slots : List Nat) (lost : List (Stored P)) : Prop where
  perm : ((l.taken ++ l.live ++ lost).map Stored.seq).Perm (List.range l.written.length)
  length : slots.length = l.written.length
  slot : ∀ e ∈ l.taken ++ l.live ++ lost, slots[e.seq]? = some e.slot
  pkt : ∀ e ∈ l.taken ++ l.live ++ lost, l.written[e.seq]? = some e.pkt
  later : ∀ e ∈ lost, ∃ k, e.seq < k ∧ slots[k]? = some e.slot

theorem Accounted.empty : Accounted (P := P) empty [] [] :=
  ⟨by simp [SlotLog.empty], rfl, by simp [SlotLog.empty], by simp [SlotLog.empty], by simp⟩

variable {l : SlotLog P} {slots : List Nat} {lost : List (Stored P)}

/-- What waits is what waits in other slots and what waits in a slot. -/
theorem others_perm (l : SlotLog P) (i : Nat) :
    (l.others i ++ l.live.filter (fun e => e.slot = i)).Perm l.live := by
  have h := List.filter_append_perm (fun e : Stored P => decide (e.slot = i)) l.live
  refine List.perm_append_comm.trans (.trans (.of_eq ?_) h)
  congr 1
  exact List.filter_congr fun e _ => by simp

theorem append_perm_swap (a b c d : List (Stored P)) :
    ((a ++ b) ++ (c ++ d)).Perm ((a ++ d) ++ (c ++ b)) := by
  rw [List.append_assoc, List.append_assoc]
  refine List.Perm.append_left a ?_
  calc List.Perm (b ++ (c ++ d)) ((c ++ d) ++ b) := List.perm_append_comm
    List.Perm _ ((d ++ c) ++ b) := List.perm_append_comm.append_right b
    _ = d ++ (c ++ b) := List.append_assoc ..

/-- Storing a packet: what waited in the slot is lost. -/
theorem Accounted.fill (h : Accounted l slots lost) (i : Nat) (p : P) :
    Accounted (l.apply (.fill i p)) (slots ++ [i]) (l.lose lost (.fill i p)) := by
  let new : Stored P := ⟨l.written.length, i, p⟩
  have hperm : (l.taken ++ (l.others i ++ [new]) ++
      (lost ++ l.live.filter (fun e => e.slot = i))).Perm (l.taken ++ l.live ++ lost ++ [new]) := by
    rw [List.append_assoc l.taken, List.append_assoc l.taken, List.append_assoc l.taken,
      List.append_assoc l.live]
    exact ((append_perm_swap ..).trans ((l.others_perm i).append_right _)).append_left l.taken
  have hcases : ∀ e ∈ l.taken ++ (l.others i ++ [new]) ++
      (lost ++ l.live.filter (fun e => e.slot = i)), e ∈ l.taken ++ l.live ++ lost ∨ e = new := by
    intro e he
    rw [hperm.mem_iff, List.mem_append, List.mem_singleton] at he
    exact he
  refine ⟨?_, ?_, fun e he => ?_, fun e he => ?_, fun e he => ?_⟩
  · refine (hperm.map Stored.seq).trans ?_
    simp only [apply, List.length_append, List.length_singleton, List.range_succ]
    rw [List.map_append]
    exact h.perm.append_right _
  · simp [apply, h.length]
  · rcases hcases e he with he | rfl
    · have hget := h.slot e he
      rwa [List.getElem?_append_left (List.getElem?_eq_some_iff.1 hget).1]
    · simp [new, ← h.length]
  · rcases hcases e he with he | rfl
    · have hget := h.pkt e he
      simp only [apply]
      rwa [List.getElem?_append_left (List.getElem?_eq_some_iff.1 hget).1]
    · simp [new, apply]
  · rcases List.mem_append.1 he with he | he
    · obtain ⟨k, hk, hget⟩ := h.later e he
      exact ⟨k, hk, by rwa [List.getElem?_append_left (List.getElem?_eq_some_iff.1 hget).1]⟩
    · rw [List.mem_filter] at he
      have hget := h.slot e (by simp [he.1])
      exact ⟨slots.length, (List.getElem?_eq_some_iff.1 hget).1, by simpa [eq_comm] using he.2⟩

/-- Handing a packet out. -/
theorem Accounted.take (h : Accounted l slots lost) (i : Nat) (p : P) :
    Accounted (l.apply (.take i p)) slots lost := by
  have hperm : (l.taken ++ l.live.filter (fun e => e.slot = i) ++ l.others i ++ lost).Perm
      (l.taken ++ l.live ++ lost) := by
    rw [List.append_assoc l.taken]
    exact ((List.perm_append_comm.trans (l.others_perm i)).append_left l.taken).append_right lost
  exact ⟨(hperm.map Stored.seq).trans h.perm, h.length, fun e he => h.slot e (hperm.mem_iff.1 he),
    fun e he => h.pkt e (hperm.mem_iff.1 he), h.later⟩

/-- **Every stored packet is accounted for**, after every trace. -/
theorem accounted (tr : List (SlotEvent P)) :
    Accounted (ofTrace tr) (slotsOf tr) (lostOf tr) := by
  induction tr using List.reverseRecOn with
  | nil => exact Accounted.empty
  | append_singleton tr e ih =>
      rw [ofTrace_concat, slotsOf_concat, lostOf_concat]
      cases e with
      | fill i p => exact ih.fill i p
      | take i p => exact ih.take i p
      | clear => exact Accounted.empty

end SlotLog

end XToolkits
