import XToolkits.Comm.DLinkList
import XToolkits.Lib.Transition

set_option autoImplicit false

/-! # The linked list as a sequence

What a sequence of calls makes of a list made by `create_dlinklist`: the entries in the order of
`_next` are the sequence that appending, prepending and removing the first entry with a key give.
The list frees the data of its nodes, so a caller hands over `NULL` or a block that it has from
`malloc` and that no node of the list has. -/

namespace XToolkits.Comm

variable {K R : Type}

/-! ## Calls -/

/-- A list and the heap. -/
structure DlSys (K R : Type) where
  heap : DlHeap K R
  plst : Dlinklist

/-- What is called, with the addresses that `malloc` returns. `malloc` itself is the caller getting
    a block for its data. -/
inductive DlAction (K R : Type) where
  | malloc (d : Addr) (r : R)
  | insertTail (pnode : Addr) (pkey : K) (pdata : Option Addr)
  | insertHead (pnode : Addr) (pkey : K) (pdata : Option Addr)
  | delete (pkey : K)
  deriving DecidableEq, Repr

/-- The nodes of the list from `_phead` along `_next`. -/
def DlSys.entries (fuel : Nat) (s : DlSys K R) : Option (List (Addr × Entry K)) :=
  match s.plst.phead with
  | none => some []
  | some phead => walk s.heap.nodes phead fuel phead

/-- The nodes of the list from the one before `_phead` along `_pre`. -/
def DlSys.entriesBack (fuel : Nat) (s : DlSys K R) : Option (List (Addr × Entry K)) :=
  match s.plst.phead with
  | none => some []
  | some phead => do
      let n ← s.heap.nodes phead
      walk s.heap.nodes.mirror n.pre fuel n.pre

/-- One call, and the value it returns. -/
def DlSys.step [DecidableEq K] (fuel : Nat) (s : DlSys K R) :
    DlAction K R → Option (DlSys K R × List Int)
  | .malloc d r => some ({ s with heap := { s.heap with datas := s.heap.datas.set d r } }, [])
  | .insertTail pnode pkey pdata =>
      (insertDlinklistTail s.heap.nodes s.plst (some pnode) pkey pdata).map fun r =>
        (⟨{ s.heap with nodes := r.1 }, r.2.1⟩, [r.2.2])
  | .insertHead pnode pkey pdata =>
      (insertDlinklistHead s.heap.nodes s.plst (some pnode) pkey pdata).map fun r =>
        (⟨{ s.heap with nodes := r.1 }, r.2.1⟩, [r.2.2])
  | .delete pkey =>
      (deleteDlinklistNode fuel s.heap s.plst pkey).map fun r => (⟨r.1, r.2.1⟩, [r.2.2])

/-- A block that the caller may hand over: it is allocated, and no node of the list has it. -/
def DlSys.Owned (fuel : Nat) (s : DlSys K R) (d : Addr) : Prop :=
  (s.heap.datas d).isSome ∧ ∃ xs, s.entries fuel = some xs ∧ ∀ x ∈ xs, x.2.pdata ≠ some d

/-- What `malloc` returns was not allocated, and the data handed over are the caller's. -/
def DlSys.Permitted (fuel : Nat) (s : DlSys K R) : DlAction K R → Prop
  | .malloc d _ => s.heap.datas d = none
  | .insertTail pnode _ pdata => s.heap.nodes pnode = none ∧ ∀ d ∈ pdata, s.Owned fuel d
  | .insertHead pnode _ pdata => s.heap.nodes pnode = none ∧ ∀ d ∈ pdata, s.Owned fuel d
  | .delete _ => True

instance (fuel : Nat) (s : DlSys K R) (d : Addr) : Decidable (s.Owned fuel d) :=
  decidable_of_iff ((s.heap.datas d).isSome ∧
      (s.entries fuel).any fun xs => xs.all fun x => x.2.pdata ≠ some d) <| by
    cases hxs : s.entries fuel <;> simp [DlSys.Owned, hxs]

instance DlSys.instDecidablePermitted (fuel : Nat) (s : DlSys K R) (a : DlAction K R) :
    Decidable (s.Permitted fuel a) :=
  match a with
  | .malloc d _ => decidable_of_iff ((s.heap.datas d).isNone) Option.isNone_iff_eq_none
  | .insertTail pnode _ pdata =>
      decidable_of_iff ((s.heap.nodes pnode).isNone ∧ ∀ d ∈ pdata, s.Owned fuel d) <| by
        rw [Option.isNone_iff_eq_none]; rfl
  | .insertHead pnode _ pdata =>
      decidable_of_iff ((s.heap.nodes pnode).isNone ∧ ∀ d ∈ pdata, s.Owned fuel d) <| by
        rw [Option.isNone_iff_eq_none]; rfl
  | .delete _ => isTrue trivial

/-- What a call makes of the sequence of entries. -/
def DlAction.apply [DecidableEq K] (es : List (Entry K)) : DlAction K R → List (Entry K)
  | .malloc _ _ => es
  | .insertTail _ pkey pdata => es ++ [⟨pkey, pdata⟩]
  | .insertHead _ pkey pdata => ⟨pkey, pdata⟩ :: es
  | .delete pkey => es.eraseP fun e => e.pkey = pkey

/-! ## The list and the sequence -/

/-- The list stands for the nodes `xs`, whose data can be freed, each once. -/
structure DlSys.Is (s : DlSys K R) (xs : List (Addr × Entry K)) : Prop where
  holds : s.plst.Holds s.heap.nodes xs
  live : AllLive s.heap.datas xs

variable {s : DlSys K R} {xs ys zs : List (Addr × Entry K)} {x : Addr × Entry K} {fuel : Nat}

theorem DlSys.Is.entries_eq (h : s.Is xs) (hfuel : xs.length ≤ fuel) : s.entries fuel = some xs := by
  unfold DlSys.entries
  rw [h.holds.head]
  cases xs with
  | nil => rfl
  | cons x xs => exact h.holds.ring.walk (Nat.lt_of_succ_le hfuel)

theorem DlSys.Is.entriesBack_eq (h : s.Is xs) (hfuel : xs.length ≤ fuel) :
    s.entriesBack fuel = some xs.reverse := by
  unfold DlSys.entriesBack
  rw [h.holds.head]
  cases xs with
  | nil => rfl
  | cons x xs =>
      have hback := h.holds.ring.walk_mirror (Nat.lt_of_succ_le hfuel)
      obtain ⟨hx, -⟩ := h.holds.ring.1
      simpa only [List.head?_cons, Option.map_some, hx, Option.bind_eq_bind, Option.bind_some]
        using hback

/-! ## What the calls do -/

/-- A new node with data of the caller. -/
theorem AllLive.cons {datas : Heap Addr R} (h : AllLive datas xs) (a : Addr) (pkey : K)
    {pdata : Option Addr} (hlive : ∀ d ∈ pdata, datas d ≠ none)
    (hnew : ∀ d ∈ pdata, ∀ x ∈ xs, x.2.pdata ≠ some d) :
    AllLive datas ((a, ⟨pkey, pdata⟩) :: xs) := by
  refine ⟨fun x hx d hd => ?_, ?_⟩
  · rcases List.mem_cons.1 hx with rfl | hx
    · exact hlive d hd
    · exact h.live x hx d hd
  · cases pdata with
    | none => exact h.once
    | some d =>
        refine List.nodup_cons.2 ⟨fun hmem => ?_, h.once⟩
        obtain ⟨x, hx, hd⟩ := List.mem_filterMap.1 hmem
        exact hnew d rfl x hx hd

theorem AllLive.perm {datas : Heap Addr R} (h : AllLive datas xs) (hp : xs.Perm ys) :
    AllLive datas ys :=
  ⟨fun x hx => h.live x (hp.mem_iff.2 hx), ((hp.filterMap _).nodup_iff).1 h.once⟩

/-- The caller's `malloc` changes no block of the list. -/
theorem AllLive.set {datas : Heap Addr R} (h : AllLive datas xs) (d : Addr) (r : R) :
    AllLive (datas.set d r) xs := by
  refine ⟨fun x hx e he => ?_, h.once⟩
  by_cases hed : e = d
  · rw [hed, Heap.set_self]
    exact Option.some_ne_none r
  · rw [Heap.set_of_ne datas r hed]
    exact h.live x hx e he

/-- The data handed over are allocated and no node has them. -/
theorem DlSys.Is.owned (h : s.Is xs) (hfuel : xs.length ≤ fuel) {d : Addr} (hd : s.Owned fuel d) :
    s.heap.datas d ≠ none ∧ ∀ x ∈ xs, x.2.pdata ≠ some d := by
  obtain ⟨hsome, xs', hxs', hnew⟩ := hd
  rw [h.entries_eq hfuel, Option.some.injEq] at hxs'
  subst hxs'
  exact ⟨Option.isSome_iff_ne_none.1 hsome, hnew⟩

/-- `delete_dlinklist_node` removes the first entry with the key. -/
theorem DlSys.Is.delete [DecidableEq K] (h : s.Is xs) (hfuel : xs.length ≤ fuel) (pkey : K) :
    ∃ m plst, deleteDlinklistNode fuel s.heap s.plst pkey = some (m, plst, 0) ∧
      (⟨m, plst⟩ : DlSys K R).Is (xs.eraseP fun x => x.2.pkey = pkey) := by
  by_cases hkey : ∃ x ∈ xs, x.2.pkey = pkey
  · obtain ⟨x, hx, hxkey⟩ := hkey
    obtain ⟨y, ys, zs, hys, hy, rfl, heq⟩ :=
      List.exists_of_eraseP (p := fun x : Addr × Entry K => x.2.pkey = pkey) hx (by simpa using hxkey)
    have hys : ∀ x ∈ ys, x.2.pkey ≠ pkey := by simpa using hys
    obtain ⟨nodes', plst', hdelete, hholds, -⟩ := h.holds.delete hfuel hys (by simpa using hy)
      (h.live.live y (by simp))
    refine ⟨_, plst', hdelete, ?_⟩
    rw [heq]
    exact ⟨hholds, (h.live.perm List.perm_middle).tail⟩
  · have hnone : ∀ x ∈ xs, x.2.pkey ≠ pkey := fun x hx heq => hkey ⟨x, hx, heq⟩
    refine ⟨s.heap, s.plst, h.holds.delete_of_not_mem hfuel hnone, ?_⟩
    rwa [List.eraseP_of_forall_not (by simpa using hnone)]

/-- **One call** does to the list what it does to the sequence. -/
theorem DlSys.Is.step [DecidableEq K] (h : s.Is xs) (hfuel : xs.length ≤ fuel)
    {a : DlAction K R} (ha : s.Permitted fuel a) :
    ∃ s' rets ys, s.step fuel a = some (s', rets) ∧ s'.Is ys ∧
      ys.map Prod.snd = a.apply (xs.map Prod.snd) := by
  cases a with
  | malloc d r => exact ⟨_, [], xs, rfl, ⟨h.holds, h.live.set d r⟩, rfl⟩
  | insertTail pnode pkey pdata =>
      obtain ⟨hfresh, howned⟩ := ha
      obtain ⟨nodes', plst', hinsert, hholds⟩ := h.holds.insertTail hfresh pkey pdata
      have hlive := h.live.cons pnode pkey (fun d hd => (h.owned hfuel (howned d hd)).1)
        fun d hd => (h.owned hfuel (howned d hd)).2
      refine ⟨⟨⟨nodes', s.heap.datas⟩, plst'⟩, [0], _, ?_, ⟨hholds, ?_⟩, ?_⟩
      · rw [DlSys.step, hinsert]
        rfl
      · exact hlive.perm (List.perm_append_singleton _ xs).symm
      · rw [List.map_append]
        rfl
  | insertHead pnode pkey pdata =>
      obtain ⟨hfresh, howned⟩ := ha
      obtain ⟨nodes', plst', hinsert, hholds⟩ := h.holds.insertHead hfresh pkey pdata
      have hlive := h.live.cons pnode pkey (fun d hd => (h.owned hfuel (howned d hd)).1)
        fun d hd => (h.owned hfuel (howned d hd)).2
      refine ⟨⟨⟨nodes', s.heap.datas⟩, plst'⟩, [0], _, ?_, ⟨hholds, hlive⟩, rfl⟩
      rw [DlSys.step, hinsert]
      rfl
  | delete pkey =>
      obtain ⟨m, plst, hdelete, h'⟩ := h.delete hfuel pkey
      refine ⟨⟨m, plst⟩, [0], _, ?_, h', ?_⟩
      · rw [DlSys.step, hdelete]
        rfl
      · rw [DlAction.apply, List.eraseP_map]
        rfl

theorem DlAction.length_apply_le [DecidableEq K] (es : List (Entry K)) (a : DlAction K R) :
    (a.apply es).length ≤ es.length + 1 := by
  cases a with
  | malloc d r => exact Nat.le_succ _
  | insertTail pnode pkey pdata => simp [DlAction.apply]
  | insertHead pnode pkey pdata => simp [DlAction.apply]
  | delete pkey => exact Nat.le_succ_of_le List.length_eraseP_le

/-- A sequence is no longer than the calls that made it. -/
theorem length_foldl_apply_le [DecidableEq K] (as : List (DlAction K R)) :
    (as.foldl DlAction.apply []).length ≤ as.length := by
  induction as using List.reverseRecOn with
  | nil => exact Nat.le_refl 0
  | append_singleton as a ih =>
      rw [List.foldl_append, List.foldl_cons, List.foldl_nil, List.length_append]
      exact Nat.le_trans (a.length_apply_le _) (Nat.succ_le_succ ih)

/-- Every node is known by the node after it and by the node before it. -/
def LinkedBothWays (nodes : Heap Addr (DlinklistNode K)) (xs : List (Addr × Entry K)) : Prop :=
  ∀ x ∈ xs, ∃ p next pre, nodes x.1 = some p ∧ p.val = x.2 ∧
    nodes p.next = some next ∧ next.pre = x.1 ∧ nodes p.pre = some pre ∧ pre.next = x.1

theorem ring_linkedBothWays {nodes : Heap Addr (DlinklistNode K)} (hring : Ring nodes xs) :
    LinkedBothWays nodes xs := by
  intro x hx
  obtain ⟨p, q, hnode⟩ := hring.exists_node hx
  obtain ⟨n, next, hn, hnext, heq⟩ := hring.next_pre hx
  obtain ⟨n', pre, hn', hpre, heq'⟩ := hring.pre_next hx
  rw [hnode, Option.some.injEq] at hn hn'
  subst hn hn'
  exact ⟨_, next, pre, hnode, rfl, hnext, heq, hpre, heq'⟩

/-- **The list implements a sequence.** After any calls on a list made by `create_dlinklist`, its
    nodes are linked both ways and none of them is freed; along `_next` they are the sequence that
    the calls stand for, and along `_pre` its reverse; a search returns the first node with the
    key; and `destroy_dlinklist` goes to its end and frees these nodes and no others. Reading or
    freeing what is not allocated would be an error. -/
theorem dlinklist_sequence [DecidableEq K] (m₀ : DlHeap K R) (as : List (DlAction K R)) (fuel : Nat)
    (hfuel : as.length ≤ fuel) (plst : Dlinklist) (hplst : createDlinklist true = some plst)
    (has : EachStep (DlSys.step fuel) (DlSys.Permitted fuel) ⟨m₀, plst⟩ as) :
    ∃ s rets xs, run (DlSys.step fuel) ⟨m₀, plst⟩ as = some (s, rets) ∧
      s.entries fuel = some xs ∧ xs.map Prod.snd = as.foldl DlAction.apply [] ∧
      s.entriesBack fuel = some xs.reverse ∧ LinkedBothWays s.heap.nodes xs ∧
      (∀ pkey, findDlinklistNode fuel s.heap.nodes s.plst pkey =
        some ((xs.find? fun x => x.2.pkey = pkey).map Prod.fst)) ∧
      ∃ m, destroyDlinklist fuel s.heap s.plst = some m ∧
        ∀ a, m.nodes a = if a ∈ xs.map Prod.fst then none else s.heap.nodes a := by
  cases hplst
  obtain ⟨s, rets, hrun, xs, h, heq⟩ := run_refines (f := DlAction.apply) (t := [])
    (R := fun (s : DlSys K R) es => ∃ xs, s.Is xs ∧ xs.map Prod.snd = es)
    ⟨[], ⟨holds_create _, by simp, List.nodup_nil⟩, rfl⟩
    (fun pre s a hpre ⟨xs, h, heq⟩ ha => by
      have hlen := length_foldl_apply_le pre
      rw [← heq, List.length_map] at hlen
      obtain ⟨s', rets, ys, hstep, h', heq'⟩ := h.step (by omega) ha
      exact ⟨s', rets, hstep, ys, h', heq ▸ heq'⟩) hfuel has
  have hlen : xs.length ≤ fuel := by
    have := length_foldl_apply_le as
    rw [← heq, List.length_map] at this
    omega
  exact ⟨s, rets, xs, hrun, h.entries_eq hlen, heq, h.entriesBack_eq hlen,
    ring_linkedBothWays h.holds.ring, fun _ => h.holds.find hlen, h.holds.destroy h.live hlen⟩

/-- A key twice: the first of its nodes is removed, and the block that it had can be had again. -/
theorem dlinklist_sequence_twice :
    let s₀ : DlSys Nat Nat := ⟨⟨fun _ => none, fun _ => none⟩, ⟨none⟩⟩
    let as : List (DlAction Nat Nat) := [.malloc 5 0, .insertTail 1 7 (some 5), .insertHead 2 8 none,
      .insertTail 3 7 none, .delete 7, .malloc 5 0, .insertHead 1 9 (some 5)]
    ∃ s rets xs, run (DlSys.step 7) s₀ as = some (s, rets) ∧
      s.entries 7 = some xs ∧ xs.map Prod.snd = [⟨9, some 5⟩, ⟨8, none⟩, ⟨7, none⟩] ∧
      s.entriesBack 7 = some xs.reverse ∧ LinkedBothWays s.heap.nodes xs ∧
      (∀ pkey, findDlinklistNode 7 s.heap.nodes s.plst pkey =
        some ((xs.find? fun x => x.2.pkey = pkey).map Prod.fst)) ∧
      ∃ m, destroyDlinklist 7 s.heap s.plst = some m ∧
        ∀ a, m.nodes a = if a ∈ xs.map Prod.fst then none else s.heap.nodes a := by
  intro s₀ as
  exact dlinklist_sequence s₀.heap as 7 (Nat.le_refl 7) ⟨none⟩ rfl (by decide +kernel)

end XToolkits.Comm
