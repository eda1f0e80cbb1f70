import XToolkits.Lib.Ring

set_option autoImplicit false

/-! # The linked list: `utils_dlinklist.c`

Circular lists of nodes with a key and a data pointer. An address is a number and `NULL` is `none`.
What `malloc` returns is a parameter. Reading or freeing what is not allocated is an error, and so
is running out of the fuel of a loop. The lock is compiled out (`_DISABLE_LOCK`).

`Dlinklist.Holds` connects a list with the ring it stands for, and each function is specified by
what it does to that ring. -/

namespace XToolkits.Comm

/-! ## The functions -/

abbrev Addr := Nat

/-- `_pkey` and `_pdata` of a node. -/
structure Entry (K : Type) where
  pkey : K
  pdata : Option Addr
  deriving DecidableEq, Repr

/-- `t_dlinklist_node`. -/
abbrev DlinklistNode (K : Type) := Node Addr (Entry K)

/-- The nodes, and the blocks that their data pointers point to. -/
structure DlHeap (K R : Type) where
  nodes : Heap Addr (DlinklistNode K)
  datas : Heap Addr R

/-- `t_dlinklist`. -/
structure Dlinklist where
  phead : Option Addr
  deriving DecidableEq, Repr

variable {K R : Type}

/-- `create_dlinklist_node`, when `malloc` returns `p`. -/
def createDlinklistNode (nodes : Heap Addr (DlinklistNode K)) (p : Option Addr) (pkey : K)
    (pdata : Option Addr) : Heap Addr (DlinklistNode K) :=
  match p with
  | none => nodes
  | some a => nodes.set a ⟨⟨pkey, pdata⟩, a, a⟩

/-- `destroy_dlinklist_node`: it frees the data, too. -/
def destroyDlinklistNode (m : DlHeap K R) (pnode : Addr) : Option (DlHeap K R) := do
  let n ← m.nodes pnode
  match n.val.pdata with
  | none => some { m with nodes := m.nodes.free pnode }
  | some d =>
      let _ ← m.datas d
      some { nodes := m.nodes.free pnode, datas := m.datas.free d }

/-- `insert_dlinklist_node`. -/
def insertDlinklistNode (nodes : Heap Addr (DlinklistNode K)) (phead : Addr) (p : Option Addr)
    (pkey : K) (pdata : Option Addr) : Option (Heap Addr (DlinklistNode K) × Int) :=
  match p with
  | none => some (nodes, -1)
  | some a => (linkBefore (createDlinklistNode nodes p pkey pdata) a phead).map fun h => (h, 0)

/-- `create_dlinklist`, when `malloc` gives memory or does not. -/
def createDlinklist (alloc : Bool) : Option Dlinklist := if alloc then some ⟨none⟩ else none

/-- `insert_dlinklist_tail`: what `insert_dlinklist_node` returns is not looked at. -/
def insertDlinklistTail (nodes : Heap Addr (DlinklistNode K)) (plst : Dlinklist) (p : Option Addr)
    (pkey : K) (pdata : Option Addr) :
    Option (Heap Addr (DlinklistNode K) × Dlinklist × Int) :=
  match plst.phead with
  | none => some (createDlinklistNode nodes p pkey pdata, ⟨p⟩, 0)
  | some phead => (insertDlinklistNode nodes phead p pkey pdata).map fun r => (r.1, plst, 0)

/-- `insert_dlinklist_head`: the node goes to the end, and `_phead` to the node before it. -/
def insertDlinklistHead (nodes : Heap Addr (DlinklistNode K)) (plst : Dlinklist) (p : Option Addr)
    (pkey : K) (pdata : Option Addr) :
    Option (Heap Addr (DlinklistNode K) × Dlinklist × Int) := do
  let (nodes, plst, _) ← insertDlinklistTail nodes plst p pkey pdata
  let phead ← plst.phead
  let n ← nodes phead
  some (nodes, ⟨some n.pre⟩, 0)

/-- `find_dlinklist_node`. -/
def findDlinklistNode [DecidableEq K] (fuel : Nat) (nodes : Heap Addr (DlinklistNode K))
    (plst : Dlinklist) (pkey : K) : Option (Option Addr) :=
  match plst.phead with
  | none => some none
  | some phead => seek nodes phead (fun e => e.pkey = pkey) fuel phead

/-- The loop of `destroy_dlinklist`. -/
def destroyLoop (phead : Addr) : Nat → DlHeap K R → Addr → Option (DlHeap K R)
  | 0, _, _ => none
  | fuel + 1, m, p => do
      let n ← m.nodes p
      if n.next ≠ phead then
        let m ← destroyDlinklistNode m p
        destroyLoop phead fuel m n.next
      else destroyDlinklistNode m p

/-- `destroy_dlinklist`. -/
def destroyDlinklist (fuel : Nat) (m : DlHeap K R) (plst : Dlinklist) : Option (DlHeap K R) :=
  match plst.phead with
  | none => some m
  | some phead => destroyLoop phead fuel m phead

/-- `delete_dlinklist_node`. -/
def deleteDlinklistNode [DecidableEq K] (fuel : Nat) (m : DlHeap K R) (plst : Dlinklist) (pkey : K) :
    Option (DlHeap K R × Dlinklist × Int) :=
  match plst.phead with
  | none => some (m, plst, 0)
  | some phead => do
      match ← seek m.nodes phead (fun e => e.pkey = pkey) fuel phead with
      | none => some (m, plst, 0)
      | some p =>
          let n ← m.nodes p
          if p = phead then
            if n.pre = n.next ∧ n.next = p then
              let m ← destroyDlinklistNode m p
              some (m, ⟨none⟩, 0)
            else
              -- the links go through `plst->_phead`, which is `p` here
              let nodes ← unlink m.nodes p
              let n ← nodes p
              let m ← destroyDlinklistNode { m with nodes := nodes } p
              some (m, ⟨some n.next⟩, 0)
          else
            let nodes ← unlink m.nodes p
            let m ← destroyDlinklistNode { m with nodes := nodes } p
            some (m, plst, 0)

/-! ## Lists and rings -/

/-- The list stands for the ring of the nodes `xs`. -/
structure Dlinklist.Holds (plst : Dlinklist) (nodes : Heap Addr (DlinklistNode K))
    (xs : List (Addr × Entry K)) : Prop where
  ring : Ring nodes xs
  head : plst.phead = xs.head?.map Prod.fst

variable {plst : Dlinklist} {nodes : Heap Addr (DlinklistNode K)} {m : DlHeap K R}
  {x : Addr × Entry K} {xs ys zs : List (Addr × Entry K)}

theorem holds_create (nodes : Heap Addr (DlinklistNode K)) :
    (⟨none⟩ : Dlinklist).Holds nodes [] := ⟨trivial, rfl⟩

/-- What is not allocated is no node of a ring. -/
theorem ring_not_mem (hring : Ring nodes xs) {a : Addr} (ha : nodes a = none) :
    a ∉ xs.map Prod.fst := by
  intro hmem
  obtain ⟨y, hy, rfl⟩ := List.mem_map.1 hmem
  obtain ⟨p, q, hnode⟩ := hring.exists_node hy
  rw [ha] at hnode
  cases hnode

/-- A new node before the first one closes the ring. -/
theorem insertDlinklistNode_ring (hring : Ring nodes (x :: xs)) {a : Addr} (ha : nodes a = none)
    (pkey : K) (pdata : Option Addr) :
    ∃ nodes', insertDlinklistNode nodes x.1 (some a) pkey pdata = some (nodes', 0) ∧
      Ring nodes' (x :: xs ++ [(a, ⟨pkey, pdata⟩)]) := by
  have hself : nodes.set a ⟨⟨pkey, pdata⟩, a, a⟩ a = some ⟨⟨pkey, pdata⟩, a, a⟩ := Heap.set_self ..
  have hnew := ring_not_mem hring ha
  have hring' : Ring (nodes.set a ⟨⟨pkey, pdata⟩, a, a⟩) (x :: xs) := hring.congr fun y hy =>
    Heap.set_of_ne nodes _ fun heq => hnew (heq ▸ List.mem_map_of_mem hy)
  obtain ⟨nodes', hlink, hlinked, -⟩ := hring'.linkBefore hself hnew
  exact ⟨nodes', by simp only [insertDlinklistNode, createDlinklistNode, hlink, Option.map_some],
    hlinked⟩

/-- **Insertion** puts a new node at the end. -/
theorem Dlinklist.Holds.insertTail (h : plst.Holds nodes xs) {a : Addr} (ha : nodes a = none)
    (pkey : K) (pdata : Option Addr) :
    ∃ nodes' plst', insertDlinklistTail nodes plst (some a) pkey pdata = some (nodes', plst', 0) ∧
      plst'.Holds nodes' (xs ++ [(a, ⟨pkey, pdata⟩)]) := by
  cases xs with
  | nil =>
      refine ⟨_, ⟨some a⟩, by rw [insertDlinklistTail, h.head]; rfl, ?_, rfl⟩
      exact Ring.single (Heap.set_self ..)
  | cons x xs =>
      obtain ⟨nodes', hinsert, hring⟩ := insertDlinklistNode_ring h.ring ha pkey pdata
      refine ⟨nodes', plst, ?_, hring, h.head⟩
      rw [insertDlinklistTail, h.head]
      simp only [List.head?_cons, Option.map_some, hinsert]

/-- **Insertion at the head**: the ring is read from its new node. -/
theorem Dlinklist.Holds.insertHead (h : plst.Holds nodes xs) {a : Addr} (ha : nodes a = none)
    (pkey : K) (pdata : Option Addr) :
    ∃ nodes' plst', insertDlinklistHead nodes plst (some a) pkey pdata = some (nodes', plst', 0) ∧
      plst'.Holds nodes' ((a, ⟨pkey, pdata⟩) :: xs) := by
  obtain ⟨nodes', plst', hinsert, h'⟩ := h.insertTail ha pkey pdata
  have hring : Ring nodes' ([(a, ⟨pkey, pdata⟩)] ++ xs) := h'.ring.rotate
  obtain ⟨n, hn, hpre⟩ : ∃ n, (plst'.phead.bind nodes') = some n ∧ n.pre = a := by
    rw [h'.head]
    cases xs with
    | nil => exact ⟨_, hring.1.1, rfl⟩
    | cons x xs => exact ⟨_, hring.1.2.1, rfl⟩
  obtain ⟨phead, hphead, hn⟩ := Option.bind_eq_some_iff.1 hn
  refine ⟨nodes', ⟨some a⟩, ?_, hring, rfl⟩
  simp only [insertDlinklistHead, hinsert, hphead, hn, hpre, Option.bind_eq_bind, Option.bind_some]

/-- The data of the node is there to be freed. -/
def DataLive (datas : Heap Addr R) (e : Entry K) : Prop := ∀ d, e.pdata = some d → datas d ≠ none

/-- The blocks without the data of a node. -/
def freeData (datas : Heap Addr R) (e : Entry K) : Heap Addr R :=
  match e.pdata with
  | none => datas
  | some d => datas.free d

/-- A node is freed with its data. -/
theorem destroyDlinklistNode_eq {p q : Addr} (hx : m.nodes x.1 = some ⟨x.2, p, q⟩)
    (hlive : DataLive m.datas x.2) :
    destroyDlinklistNode m x.1 = some ⟨m.nodes.free x.1, freeData m.datas x.2⟩ := by
  unfold destroyDlinklistNode freeData
  rw [hx]
  cases hdata : x.2.pdata with
  | none => simp [hdata]
  | some d =>
      obtain ⟨r, hr⟩ := Option.ne_none_iff_exists'.1 (hlive d hdata)
      simp [hdata, hr]

theorem ring_free (hring : Ring nodes xs) (hx : x.1 ∉ xs.map Prod.fst) :
    Ring (nodes.free x.1) xs :=
  hring.congr fun _ hy => Heap.free_of_ne nodes fun heq => hx (heq ▸ List.mem_map_of_mem hy)

/-- A node that is not alone is unlinked and freed, and the others stay a ring. -/
theorem unlink_destroy (hring : Ring m.nodes (x :: xs)) (hne : xs ≠ [])
    (hlive : DataLive m.datas x.2) :
    ∃ nodes, unlink m.nodes x.1 = some nodes ∧ nodes x.1 = m.nodes x.1 ∧
      destroyDlinklistNode { m with nodes := nodes } x.1 =
        some ⟨nodes.free x.1, freeData m.datas x.2⟩ ∧ Ring (nodes.free x.1) xs := by
  obtain ⟨nodes, hunlink, hrest, hframe⟩ := hring.unlink hne
  have hx := hring.not_mem_tail
  obtain ⟨p, q, hnode⟩ := hring.exists_node (List.mem_cons_self ..)
  have hkept := hframe x.1 hx
  exact ⟨nodes, hunlink, hkept, destroyDlinklistNode_eq (hkept.trans hnode) hlive,
    ring_free hrest hx⟩

section Delete

variable [DecidableEq K] {fuel : Nat} {pkey : K}

/-- **A search** finds the first node with the key, if there is one. -/
theorem Dlinklist.Holds.find (h : plst.Holds nodes xs) (hfuel : xs.length ≤ fuel) :
    findDlinklistNode fuel nodes plst pkey =
      some ((xs.find? fun x => x.2.pkey = pkey).map Prod.fst) := by
  unfold findDlinklistNode
  rw [h.head]
  cases xs with
  | nil => rfl
  | cons x xs => exact h.ring.seek (Nat.lt_of_succ_le hfuel) fun e => decide (e.pkey = pkey)

/-- A key that is not in the list. -/
theorem Dlinklist.Holds.delete_of_not_mem (h : plst.Holds m.nodes xs) (hfuel : xs.length ≤ fuel)
    (hkey : ∀ x ∈ xs, x.2.pkey ≠ pkey) : deleteDlinklistNode fuel m plst pkey = some (m, plst, 0) := by
  unfold deleteDlinklistNode
  rw [h.head]
  cases xs with
  | nil => rfl
  | cons x xs =>
      have hfind : (x :: xs).find? (fun y => decide (y.2.pkey = pkey)) = none :=
        List.find?_eq_none.2 fun y hy => by simpa using hkey y hy
      have hseek := h.ring.seek (Nat.lt_of_succ_le hfuel) fun e => decide (e.pkey = pkey)
      rw [hfind] at hseek
      simp only [List.head?_cons, Option.map_some, hseek, Option.bind_eq_bind, Option.bind_some,
        Option.map_none]

/-- The search for a key ends at the first node with it. -/
theorem Dlinklist.Holds.seek_mem (h : plst.Holds nodes (ys ++ x :: zs))
    (hfuel : (ys ++ x :: zs).length ≤ fuel) (hkey : ∀ y ∈ ys, y.2.pkey ≠ pkey)
    (hx : x.2.pkey = pkey) :
    ∃ phead, plst.phead = some phead ∧
      seek nodes phead (fun e => decide (e.pkey = pkey)) fuel phead = some (some x.1) := by
  have hfind : (ys ++ x :: zs).find? (fun y => decide (y.2.pkey = pkey)) = some x := by
    rw [List.find?_append, List.find?_eq_none.2 fun y hy => by simpa using hkey y hy,
      List.find?_cons_of_pos (by simpa using hx)]
    rfl
  obtain ⟨y, ys', heq⟩ := List.exists_cons_of_ne_nil (show ys ++ x :: zs ≠ [] by simp)
  rw [heq] at h hfuel hfind
  refine ⟨y.1, h.head, ?_⟩
  rw [h.ring.seek (Nat.lt_of_succ_le hfuel), hfind]
  rfl

/-- **Deletion** takes the first node with the key out of the list and frees it with its data. -/
theorem Dlinklist.Holds.delete (h : plst.Holds m.nodes (ys ++ x :: zs))
    (hfuel : (ys ++ x :: zs).length ≤ fuel) (hkey : ∀ y ∈ ys, y.2.pkey ≠ pkey)
    (hx : x.2.pkey = pkey) (hlive : DataLive m.datas x.2) :
    ∃ nodes' plst', deleteDlinklistNode fuel m plst pkey =
        some (⟨nodes', freeData m.datas x.2⟩, plst', 0) ∧ plst'.Holds nodes' (ys ++ zs) ∧
      nodes' x.1 = none := by
  obtain ⟨phead, hphead, hseek⟩ := h.seek_mem hfuel hkey hx
  obtain ⟨p, q, hnode⟩ := h.ring.exists_node (x := x) (by simp)
  have hhead := hphead.symm.trans h.head
  unfold deleteDlinklistNode
  rw [hphead]
  simp only [hseek, Option.bind_eq_bind, Option.bind_some, hnode]
  cases ys with
  | nil =>
      -- the first node
      obtain rfl : phead = x.1 := Option.some.inj hhead
      have hfirst := h.ring.1.1
      rw [hnode] at hfirst
      cases hfirst
      rw [if_pos rfl]
      cases zs with
      | nil =>
          rw [if_pos ⟨rfl, rfl⟩, destroyDlinklistNode_eq hnode hlive]
          exact ⟨_, ⟨none⟩, rfl, ⟨trivial, rfl⟩, Heap.free_self ..⟩
      | cons z zs =>
          have hzx : z.1 ≠ x.1 := fun heq => h.ring.not_mem_tail (heq ▸ List.mem_cons_self ..)
          obtain ⟨nodes, hunlink, hkept, hdestroy, hrest⟩ :=
            unlink_destroy h.ring (List.cons_ne_nil z zs) hlive
          rw [if_neg fun hsame => hzx hsame.2]
          simp only [hunlink, Option.bind_some, hkept, hnode, hdestroy]
          exact ⟨_, ⟨some z.1⟩, rfl, ⟨hrest, rfl⟩, Heap.free_self ..⟩
  | cons y ys =>
      obtain rfl : phead = y.1 := Option.some.inj hhead
      have hyx : x.1 ≠ y.1 := by
        rintro heq
        exact h.ring.not_mem_tail (heq ▸ List.mem_map_of_mem (by simp))
      obtain ⟨nodes, hunlink, hkept, hdestroy, hrest⟩ :=
        unlink_destroy h.ring.rotate (by simp) hlive
      rw [if_neg hyx]
      simp only [hunlink, Option.bind_some, hdestroy]
      exact ⟨_, plst, rfl, ⟨hrest.rotate, h.head⟩, Heap.free_self ..⟩

end Delete

/-! ## Destruction -/

/-- Every data pointer of the nodes can be freed, once. -/
structure AllLive (datas : Heap Addr R) (xs : List (Addr × Entry K)) : Prop where
  live : ∀ x ∈ xs, DataLive datas x.2
  once : (xs.filterMap fun x => x.2.pdata).Nodup

theorem AllLive.tail (h : AllLive m.datas (x :: xs)) : AllLive (freeData m.datas x.2) xs := by
  obtain ⟨hlive, honce⟩ := h
  unfold freeData
  cases hdata : x.2.pdata with
  | none =>
      simp only [List.filterMap_cons, hdata] at honce
      exact ⟨fun y hy => hlive y (List.mem_cons_of_mem x hy), honce⟩
  | some d =>
      simp only [List.filterMap_cons, hdata] at honce
      obtain ⟨hd, hrest⟩ := List.nodup_cons.1 honce
      refine ⟨fun y hy e he => ?_, hrest⟩
      have hne : e ≠ d := fun heq => hd (List.mem_filterMap.2 ⟨y, hy, heq ▸ he⟩)
      show (m.datas.free d) e ≠ none
      rw [Heap.free_of_ne m.datas hne]
      exact hlive y (List.mem_cons_of_mem x hy) e he

/-- The loop frees the nodes of a segment, one after the other. -/
theorem destroyLoop_spec {fuel : Nat} {p q : Addr} (hs : Seg m.nodes p (x :: xs) q)
    (hq : q ∉ xs.map Prod.fst) (hnodup : AddrNodup (x :: xs)) (hlive : AllLive m.datas (x :: xs))
    (hfuel : xs.length < fuel) :
    ∃ m', destroyLoop q fuel m x.1 = some m' ∧
      ∀ a, m'.nodes a = if a ∈ (x :: xs).map Prod.fst then none else m.nodes a := by
  induction xs generalizing m p x fuel with
  | nil =>
      cases fuel with
      | zero => omega
      | succ fuel =>
          refine ⟨⟨m.nodes.free x.1, freeData m.datas x.2⟩, ?_, fun a => ?_⟩
          · simp only [destroyLoop, hs.1, headAddr, Option.bind_eq_bind, Option.bind_some]
            rw [if_neg (not_not.2 rfl)]
            exact destroyDlinklistNode_eq hs.1 (hlive.live x (List.mem_cons_self ..))
          · simp [Heap.free]
  | cons y ys ih =>
      cases fuel with
      | zero => omega
      | succ fuel =>
          obtain ⟨hx, hrest⟩ := hs
          obtain ⟨hy, hq'⟩ := not_or.1 (mt List.mem_cons.2 hq)
          obtain ⟨hxs, hnodup'⟩ := List.nodup_cons.1 hnodup
          have hseg : Seg (m.nodes.free x.1) x.1 (y :: ys) q := hrest.congr fun z hz =>
            Heap.free_of_ne m.nodes fun heq => hxs (heq ▸ List.mem_map_of_mem hz)
          obtain ⟨m', hloop, hfreed⟩ := ih (m := ⟨m.nodes.free x.1, freeData m.datas x.2⟩)
            hseg hq' hnodup' hlive.tail (Nat.lt_of_succ_lt_succ hfuel)
          refine ⟨m', ?_, fun a => ?_⟩
          · simp only [destroyLoop, hx, headAddr, Option.bind_eq_bind, Option.bind_some]
            rw [if_pos (Ne.symm hy),
              destroyDlinklistNode_eq hx (hlive.live x (List.mem_cons_self ..))]
            exact hloop
          · rw [hfreed a]
            by_cases hax : a = x.1
            · simp [hax]
            · have hmem : a ∈ (x :: y :: ys).map Prod.fst ↔ a ∈ (y :: ys).map Prod.fst := by
                rw [List.map_cons, List.mem_cons, or_iff_right hax]
              simp only [hmem, Heap.free_of_ne m.nodes hax]

/-- **Destruction** frees every node of the list and nothing else. -/
theorem Dlinklist.Holds.destroy (h : plst.Holds m.nodes xs) (hlive : AllLive m.datas xs) {fuel : Nat}
    (hfuel : xs.length ≤ fuel) :
    ∃ m', destroyDlinklist fuel m plst = some m' ∧
      ∀ a, m'.nodes a = if a ∈ xs.map Prod.fst then none else m.nodes a := by
  unfold destroyDlinklist
  rw [h.head]
  cases xs with
  | nil => exact ⟨m, rfl, fun a => (if_neg (List.not_mem_nil)).symm⟩
  | cons x xs =>
      exact destroyLoop_spec h.ring.1 h.ring.not_mem_tail h.ring.addrNodup hlive hfuel

end XToolkits.Comm
