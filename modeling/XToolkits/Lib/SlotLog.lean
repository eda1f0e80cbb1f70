import Mathlib.Data.List.Pairwise
import XToolkits.Lib.Transition

set_option autoImplicit false

/-! # Logs of slot fillings

What a table of slots holds, told from outside: packets are stored into slots (`fill`), a filled
slot is handed out once (`take`), and the whole table may be emptied (`clear`). `SlotLog.ofTrace`
computes from the events alone which packets were stored since the last `clear` and are neither
handed out nor stored over, in the order in which they were stored.

`Each` says a property of every event of a trace and the log before it. A table that always hands
out the oldest packet (`Each OldestFirst`) is a first-in first-out buffer that may lose packets:
what it hands out between two `clear`s is a subsequence of what was stored (`taken_sublist`). -/

namespace XToolkits

variable {P : Type}

/-- The visible steps of a table of slots holding packets `P`. -/
inductive SlotEvent (P : Type) where
  | fill (slot : Nat) (pkt : P)
  | take (slot : Nat) (pkt : P)
  | clear
  deriving DecidableEq, Repr

/-- A packet in a slot, with its number among the packets stored since the last `clear`. -/
structure Stored (P : Type) where
  seq : Nat
  slot : Nat
  pkt : P
  deriving DecidableEq, Repr

/-- The packets stored since the last `clear`, those of them still waiting, and those handed out. -/
structure SlotLog (P : Type) where
  written : List P
  live : List (Stored P)
  taken : List (Stored P)
  deriving DecidableEq, Repr

namespace SlotLog

/-- The empty log. -/
def empty : SlotLog P := ⟨[], [], []⟩

/-- What waits in other slots than `i`. -/
def others (l : SlotLog P) (i : Nat) : List (Stored P) := l.live.filter (fun e => e.slot ≠ i)

/-- The log after one event. Storing into a slot loses the packet that waits there. -/
def apply (l : SlotLog P) : SlotEvent P → SlotLog P
  | .fill i p => { l with
      written := l.written ++ [p]
      live := l.others i ++ [⟨l.written.length, i, p⟩] }
  | .take i _ => { l with
      live := l.others i
      taken := l.taken ++ l.live.filter (fun e => e.slot = i) }
  | .clear => empty

/-- The log of a trace. -/
def ofTrace (tr : List (SlotEvent P)) : SlotLog P := tr.foldl apply empty

@[simp] theorem ofTrace_nil : ofTrace ([] : List (SlotEvent P)) = empty := rfl

@[simp] theorem ofTrace_concat (tr : List (SlotEvent P)) (e : SlotEvent P) :
    ofTrace (tr ++ [e]) = (ofTrace tr).apply e := by
  simp [ofTrace]

theorem mem_others {l : SlotLog P} {i : Nat} {e : Stored P} :
    e ∈ l.others i ↔ e ∈ l.live ∧ e.slot ≠ i := by
  simp [others]

/-- After a `fill`, what waits in the other slots is still there, and the new packet. -/
theorem mem_fill {l : SlotLog P} {i : Nat} {p : P} {e : Stored P} :
    e ∈ (l.apply (.fill i p)).live ↔ e ∈ l.others i ∨ e = ⟨l.written.length, i, p⟩ := by
  simp [apply]

/-- What a `fill` keeps: a property of the packets in the other slots that the new one has too. -/
theorem forall_live_fill {l : SlotLog P} {i : Nat} {p : P} {Q : Stored P → Prop}
    (hothers : ∀ e ∈ l.live, e.slot ≠ i → Q e) (hnew : Q ⟨l.written.length, i, p⟩) :
    ∀ e ∈ (l.apply (.fill i p)).live, Q e := by
  intro e he
  rcases mem_fill.1 he with he | rfl
  · exact hothers e (mem_others.1 he).1 (mem_others.1 he).2
  · exact hnew

/-- And an order of them in which the new one comes last. -/
theorem pairwise_live_fill {l : SlotLog P} {i : Nat} {p : P} {R : Stored P → Stored P → Prop}
    (hothers : (l.others i).Pairwise R)
    (hnew : ∀ e ∈ l.others i, R e ⟨l.written.length, i, p⟩) :
    (l.apply (.fill i p)).live.Pairwise R := by
  refine List.pairwise_append.2 ⟨hothers, List.pairwise_singleton _ _, fun a ha b hb => ?_⟩
  rw [List.mem_singleton.1 hb]
  exact hnew a ha

/-! ## Logs are in order of age -/

/-- A log is well formed when its waiting packets are in order of age and in different slots, and
    every stored packet has its own number. -/
structure WF (l : SlotLog P) : Prop where
  sorted : l.live.Pairwise (fun a b => a.seq < b.seq)
  slots : l.live.Pairwise (fun a b => a.slot ≠ b.slot)
  pkts : ∀ e ∈ l.live, l.written[e.seq]? = some e.pkt

theorem WF.seq_lt {l : SlotLog P} (h : l.WF) {e : Stored P} (he : e ∈ l.live) :
    e.seq < l.written.length :=
  (List.getElem?_eq_some_iff.1 (h.pkts e he)).1

theorem WF.empty : (empty : SlotLog P).WF :=
  ⟨List.Pairwise.nil, List.Pairwise.nil, by simp [SlotLog.empty]⟩

theorem WF.apply {l : SlotLog P} (h : l.WF) (e : SlotEvent P) : (l.apply e).WF := by
  cases e with
  | clear => exact WF.empty
  | take i p =>
      refine ⟨h.sorted.filter _, h.slots.filter _, fun e he => ?_⟩
      exact h.pkts e (mem_others.1 he).1
  | fill i p =>
      refine ⟨pairwise_live_fill (h.sorted.filter _) fun e he => h.seq_lt (mem_others.1 he).1,
        pairwise_live_fill (h.slots.filter _) fun e he => (mem_others.1 he).2,
        forall_live_fill (fun e he _ => ?_) ?_⟩
      · simp only [SlotLog.apply]
        rw [List.getElem?_append_left (h.seq_lt he)]
        exact h.pkts e he
      · simp [SlotLog.apply]

/-- Every log of a trace is well formed. -/
theorem wf_ofTrace (tr : List (SlotEvent P)) : (ofTrace tr).WF := by
  induction tr using List.reverseRecOn with
  | nil => exact WF.empty
  | append_singleton tr e ih =>
      rw [ofTrace_concat]
      exact ih.apply e

/-! ## The first and the last packet of an order -/

theorem key_first_le {l : SlotLog P} {key : Stored P → Nat}
    (hsorted : l.live.Pairwise fun a b => key a < key b) {e : Stored P} {rest : List (Stored P)}
    (hlive : l.live = e :: rest) {a : Stored P} (ha : a ∈ l.live) : key e ≤ key a := by
  rw [hlive, List.pairwise_cons] at hsorted
  rw [hlive] at ha
  rcases List.mem_cons.1 ha with rfl | ha
  · exact Nat.le_refl _
  · exact Nat.le_of_lt (hsorted.1 a ha)

theorem key_le_last {l : SlotLog P} {key : Stored P → Nat}
    (hsorted : l.live.Pairwise fun a b => key a < key b) {e : Stored P}
    (hlast : l.live.getLast? = some e) {a : Stored P} (ha : a ∈ l.live) : key a ≤ key e := by
  obtain ⟨front, hlive⟩ := List.getLast?_eq_some_iff.1 hlast
  rw [hlive, List.pairwise_append] at hsorted
  rw [hlive] at ha
  rcases List.mem_append.1 ha with ha | ha
  · exact Nat.le_of_lt (hsorted.2.2 a ha e (by simp))
  · exact List.mem_singleton.1 ha ▸ Nat.le_refl _

/-! ## Waiting packets and their slots -/

/-- Storing into a slot nothing waits in loses nothing. -/
theorem others_eq_self {l : SlotLog P} {i : Nat} (h : ∀ e ∈ l.live, e.slot ≠ i) :
    l.others i = l.live :=
  List.filter_eq_self.2 (fun e he => by simpa using h e he)

/-- A slot holds one packet: without it, the others keep their order. -/
theorem WF.others_of_split {l : SlotLog P} (h : l.WF) {e : Stored P} {pre post : List (Stored P)}
    (hlive : l.live = pre ++ e :: post) : l.others e.slot = pre ++ post := by
  have hslots := h.slots
  rw [hlive, List.pairwise_append, List.pairwise_cons] at hslots
  obtain ⟨-, ⟨hpost, -⟩, hpre⟩ := hslots
  rw [others, hlive, List.filter_append, List.filter_cons_of_neg (by simp)]
  congr 1
  · rw [List.filter_eq_self]
    intro a ha
    simpa using hpre a ha e (by simp)
  · rw [List.filter_eq_self]
    intro a ha
    simpa using (hpost a ha).symm

/-- Storing into the slot of a waiting packet loses that one. -/
theorem WF.length_others {l : SlotLog P} (h : l.WF) {e : Stored P} (he : e ∈ l.live) :
    (l.others e.slot).length + 1 = l.live.length := by
  obtain ⟨pre, post, hlive⟩ := List.append_of_mem he
  rw [h.others_of_split hlive, hlive]
  simp only [List.length_append, List.length_cons]
  omega

/-- At most one packet waits in a slot. -/
theorem WF.length_le_others {l : SlotLog P} (h : l.WF) (i : Nat) :
    l.live.length ≤ (l.others i).length + 1 := by
  by_cases hi : ∃ e ∈ l.live, e.slot = i
  · obtain ⟨e, he, rfl⟩ := hi
    have hlen := h.length_others he
    omega
  · have hne : ∀ e ∈ l.live, e.slot ≠ i := fun e he hs => hi ⟨e, he, hs⟩
    rw [others_eq_self hne]
    omega

/-- The packet handed out by `take` is the only one that leaves. -/
theorem WF.filter_slot {l : SlotLog P} (h : l.WF) {e : Stored P} (he : e ∈ l.live) :
    l.live.filter (fun a => a.slot = e.slot) = [e] := by
  obtain ⟨pre, post, hlive⟩ := List.append_of_mem he
  have hslots := h.slots
  rw [hlive, List.pairwise_append, List.pairwise_cons] at hslots
  obtain ⟨-, ⟨hpost, -⟩, hpre⟩ := hslots
  rw [hlive, List.filter_append, List.filter_cons_of_pos (by simp), List.filter_eq_nil_iff.2,
    List.filter_eq_nil_iff.2, List.nil_append]
  · intro a ha
    simpa [eq_comm] using hpost a ha
  · intro a ha
    simpa using hpre a ha e (by simp)

/-! ## Which slots are occupied -/

/-- The slots below `N` marked as valid are those in which a packet waits, and the one from which
    the last packet was handed out, while it is being used. -/
def Occupied (N : Nat) (valid : Nat → Prop) (used : Option Nat) (l : SlotLog P) : Prop :=
  ∀ i < N, valid i ↔ (∃ e ∈ l.live, e.slot = i) ∨ used = some i

variable {N i : Nat} {valid valid' : Nat → Prop} {used : Option Nat} {l : SlotLog P}

theorem Occupied.fill (h : Occupied N valid used l) (hvalid : ∀ j, valid' j ↔ j = i ∨ valid j)
    (p : P) : Occupied N valid' used (l.apply (.fill i p)) := by
  intro j hj
  rw [hvalid, h j hj]
  constructor
  · rintro (rfl | ⟨e, he, rfl⟩ | hu)
    · exact Or.inl ⟨_, mem_fill.2 (Or.inr rfl), rfl⟩
    · by_cases hei : e.slot = i
      · exact Or.inl ⟨_, mem_fill.2 (Or.inr rfl), hei.symm⟩
      · exact Or.inl ⟨e, mem_fill.2 (Or.inl (mem_others.2 ⟨he, hei⟩)), rfl⟩
    · exact Or.inr hu
  · rintro (⟨e, he, rfl⟩ | hu)
    · rcases mem_fill.1 he with he | rfl
      · exact Or.inr (Or.inl ⟨e, (mem_others.1 he).1, rfl⟩)
      · exact Or.inl rfl
    · exact Or.inr (Or.inr hu)

theorem Occupied.take (h : Occupied N valid none l) {e : Stored P} (he : e ∈ l.live) (p : P) :
    Occupied N valid (some e.slot) (l.apply (.take e.slot p)) := by
  intro j hj
  rw [h j hj]
  constructor
  · rintro (⟨a, ha, rfl⟩ | hu)
    · by_cases hae : a.slot = e.slot
      · exact Or.inr (congrArg some hae.symm)
      · exact Or.inl ⟨a, mem_others.2 ⟨ha, hae⟩, rfl⟩
    · cases hu
  · rintro (⟨a, ha, rfl⟩ | hu)
    · exact Or.inl ⟨a, (mem_others.1 ha).1, rfl⟩
    · exact Or.inl ⟨e, he, Option.some.inj hu⟩

theorem Occupied.free {u : Nat} (h : Occupied N valid (some u) l)
    (hlive : ∀ e ∈ l.live, e.slot ≠ u) (hvalid : ∀ j, valid' j ↔ valid j ∧ j ≠ u) :
    Occupied N valid' none l := by
  intro j hj
  rw [hvalid, h j hj]
  constructor
  · rintro ⟨hwait | hu, hne⟩
    · exact Or.inl hwait
    · exact absurd (Option.some.inj hu).symm hne
  · rintro (⟨e, he, rfl⟩ | hu)
    · exact ⟨Or.inl ⟨e, he, rfl⟩, hlive e he⟩
    · cases hu

/-- **Counting occupied slots.** A counter that goes up when the slot filled was not valid counts the
    packets waiting in other slots, the new one and the one being used. -/
theorem Occupied.count_fill (h : Occupied N valid used l) (hwf : l.WF) (hi : i < N)
    (hused : used ≠ some i) {n k : Nat}
    (hcount : n = l.live.length + (if used.isSome then 1 else 0))
    (hvalid : valid i → k = n) (hinvalid : ¬ valid i → k = n + 1) :
    k = (l.others i).length + 1 + (if used.isSome then 1 else 0) := by
  by_cases hlive : ∃ e ∈ l.live, e.slot = i
  · have hk := hvalid ((h i hi).2 (Or.inl hlive))
    obtain ⟨e, he, rfl⟩ := hlive
    have hlen := hwf.length_others he
    omega
  · have hk := hinvalid fun hv => ((h i hi).1 hv).elim hlive hused
    have hne : ∀ e ∈ l.live, e.slot ≠ i := fun e he heq => hlive ⟨e, he, heq⟩
    rw [others_eq_self hne]
    omega

end SlotLog

/-! ## Properties of every event -/

/-- Every event of the trace has the property `R` with the log of the events before it. -/
def Each (R : SlotLog P → SlotEvent P → Prop) (tr : List (SlotEvent P)) : Prop :=
  ∀ pre e post, tr = pre ++ e :: post → R (SlotLog.ofTrace pre) e

theorem Each.nil (R : SlotLog P → SlotEvent P → Prop) : Each R [] := EachEvent.nil _

/-- A trace has a property exactly when its first part has it and its last event does. -/
theorem each_concat {R : SlotLog P → SlotEvent P → Prop} {tr : List (SlotEvent P)}
    {e : SlotEvent P} : Each R (tr ++ [e]) ↔ Each R tr ∧ R (SlotLog.ofTrace tr) e :=
  eachEvent_concat

/-- The events by their number. -/
theorem each_iff {R : SlotLog P → SlotEvent P → Prop} {tr : List (SlotEvent P)} :
    Each R tr ↔ ∀ k (hk : k < tr.length), R (SlotLog.ofTrace (tr.take k)) tr[k] := by
  constructor
  · intro h k hk
    exact h (tr.take k) tr[k] (tr.drop (k + 1)) (by simp)
  · rintro h pre e post rfl
    have hpre := h pre.length (by simp)
    rwa [List.take_left, List.getElem_append_right (Nat.le_refl _), List.getElem_cons,
      dif_pos (Nat.sub_self _)] at hpre

instance {R : SlotLog P → SlotEvent P → Prop} [∀ l e, Decidable (R l e)]
    (tr : List (SlotEvent P)) : Decidable (Each R tr) :=
  decidable_of_iff _ each_iff.symm

/-- A packet is handed out from the slot of the oldest one waiting. -/
def OldestFirst (l : SlotLog P) : SlotEvent P → Prop
  | .take i _ => ∃ e rest, l.live = e :: rest ∧ e.slot = i
  | _ => True

/-- What is handed out is the packet that waits in the slot. -/
def AsStored (l : SlotLog P) : SlotEvent P → Prop
  | .take i p => ∃ e ∈ l.live, e.slot = i ∧ e.pkt = p
  | _ => True

theorem oldestFirst_take {l : SlotLog P} {i : Nat} {p : P} :
    l.live.head?.map Stored.slot = some i ↔ OldestFirst l (.take i p) := by
  cases hlive : l.live <;> simp [OldestFirst, hlive]

instance (l : SlotLog P) : (e : SlotEvent P) → Decidable (OldestFirst l e)
  | .fill _ _ => .isTrue trivial
  | .take _ _ => decidable_of_iff _ oldestFirst_take
  | .clear => .isTrue trivial

instance [DecidableEq P] (l : SlotLog P) : (e : SlotEvent P) → Decidable (AsStored l e)
  | .fill _ _ => .isTrue trivial
  | .take i p => inferInstanceAs (Decidable (∃ e ∈ l.live, e.slot = i ∧ e.pkt = p))
  | .clear => .isTrue trivial

/-! ## Handing out the oldest packet -/

/-- The packets handed out so far were stored before every packet still waiting. -/
def SlotLog.Served (l : SlotLog P) : Prop :=
  ∃ n, (l.taken.map Stored.pkt).Sublist (l.written.take n) ∧ n ≤ l.written.length ∧
    ∀ e ∈ l.live, n ≤ e.seq

theorem SlotLog.Served.fill {l : SlotLog P} (h : l.Served) (i : Nat) (p : P) :
    (l.apply (.fill i p)).Served := by
  obtain ⟨n, hsub, hn, hlive⟩ := h
  refine ⟨n, ?_, ?_, SlotLog.forall_live_fill (fun e he _ => hlive e he) hn⟩
  · simp only [SlotLog.apply]
    rw [List.take_append_of_le_length hn]
    exact hsub
  · simp only [SlotLog.apply, List.length_append]
    omega

theorem SlotLog.Served.take {l : SlotLog P} (hwf : l.WF) (h : l.Served) {e : Stored P}
    {rest : List (Stored P)} (hlive : l.live = e :: rest) (p : P) :
    (l.apply (.take e.slot p)).Served := by
  obtain ⟨m, hsub, -, hm⟩ := h
  have hmem : e ∈ l.live := by simp [hlive]
  refine ⟨e.seq + 1, ?_, hwf.seq_lt hmem, fun a ha => ?_⟩
  · simp only [SlotLog.apply, hwf.filter_slot hmem, List.map_append, List.map_cons, List.map_nil]
    rw [List.take_add_one, hwf.pkts e hmem]
    refine List.Sublist.append ?_ (List.Sublist.refl _)
    exact hsub.trans (List.take_sublist_take_left (hm e hmem))
  · obtain ⟨hin, hne⟩ := SlotLog.mem_others.1 ha
    have hsorted := hwf.sorted
    rw [hlive, List.pairwise_cons] at hsorted
    rw [hlive] at hin
    rcases List.mem_cons.1 hin with rfl | hin
    · exact absurd rfl hne
    · exact hsorted.1 a hin

/-- **First in, first out.** What is handed out since the last `clear` is a subsequence of what was
    stored since then. -/
theorem taken_sublist {tr : List (SlotEvent P)} (h : Each OldestFirst tr) :
    ((SlotLog.ofTrace tr).taken.map Stored.pkt).Sublist (SlotLog.ofTrace tr).written := by
  have served : (SlotLog.ofTrace tr).Served := by
    induction tr using List.reverseRecOn with
    | nil => exact ⟨0, by simp [SlotLog.empty]⟩
    | append_singleton tr e ih =>
        obtain ⟨hpre, hlast⟩ := each_concat.1 h
        rw [SlotLog.ofTrace_concat]
        cases e with
        | clear => exact ⟨0, by simp [SlotLog.apply, SlotLog.empty]⟩
        | fill i p => exact (ih hpre).fill i p
        | take i p =>
            obtain ⟨e, rest, hlive, rfl⟩ := hlast
            exact (ih hpre).take (SlotLog.wf_ofTrace tr) hlive p
  obtain ⟨n, hsub, -, -⟩ := served
  exact hsub.trans (List.take_sublist n _)

end XToolkits
