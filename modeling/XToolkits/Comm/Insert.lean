import XToolkits.Comm.ClientMgr

set_option autoImplicit false

/-! # Insertions when memory runs out

`comm_linklist_insert` allocates the record of the client, takes a slot and allocates the node of the
list. Here each `malloc` may fail, in the insertion looked at and in those before it, so a slot may
be in use for no client. -/

namespace XToolkits.Comm

/-! ## Runs -/

/-- What is called; `none` for a `malloc` that fails. -/
inductive AllocAction where
  | insert (pConnectNew pnode : Option Addr) (socketFd : Int) (addr : SockaddrIn)
  | remove (idx : Int)
  | restart
  deriving DecidableEq, Repr

/-- One call, or `comm_linklist_uninit` followed by `comm_linklist_init`, and the value returned. -/
def ClientMgr.allocStep (fuel : Nat) (s : ClientMgr) : AllocAction → Option (ClientMgr × List Int)
  | .insert pConnectNew pnode socketFd addr =>
      (commLinklistInsert pConnectNew pnode socketFd addr s).map fun r => (r.1, [r.2])
  | .remove idx => (commLinklistRemove fuel idx s).map fun r => (r.1, [r.2])
  | .restart => (commLinklistUninit fuel s).map fun s => (commLinklistInit true s, [])

/-- `malloc` returns what is not allocated. -/
def ClientMgr.FreshFor (s : ClientMgr) (pConnectNew pnode : Option Addr) : Prop :=
  (∀ p, pConnectNew = some p → s.heap.datas p = none) ∧
    ∀ a, pnode = some a → s.heap.nodes a = none

def ClientMgr.AllocFresh (s : ClientMgr) : AllocAction → Prop
  | .insert pConnectNew pnode _ _ => s.FreshFor pConnectNew pnode
  | .remove _ => True
  | .restart => True

/-! ## What an insertion promises -/

/-- The call ends without an error. When it returns 0, the client is the last one of the list and
    has a slot that was free; when it returns a negative value, the list, the slot table and the
    counter are as before. -/
def AllOrNothing (fuel : Nat) (pConnectNew pnode : Option Addr) (socketFd : Int)
    (addr : SockaddrIn) (s : ClientMgr) : Prop :=
  ∃ s' r, commLinklistInsert pConnectNew pnode socketFd addr s = some (s', r) ∧
    (r = 0 → ∃ clients i connect, s.clients fuel = some clients ∧
      s'.clients fuel = some (clients ++ [(i, connect)]) ∧
      i < maxSinkNum ∧ (s.sinks.items i).isUsed = 0 ∧ (s'.sinks.items i).isUsed = 1 ∧
      connect.idx = (i : Int) ∧ connect.skt = socketFd ∧ connect.addr = addr) ∧
    (r < 0 → s'.clients fuel = s.clients fuel ∧ s'.plst = s.plst ∧
      s'.heap.nodes = s.heap.nodes ∧ s'.sinks = s.sinks)

variable {s : ClientMgr} {cs : List Client} {used : List Nat} {fuel : Nat}

/-! ## The outcomes -/

/-- Without memory for the record nothing happens. -/
theorem commLinklistInsert_noRecord (pnode : Option Addr) (socketFd : Int) (addr : SockaddrIn)
    (s : ClientMgr) : commLinklistInsert none pnode socketFd addr s = some (s, -1) := rfl

/-- When no slot is free, the message about it reads through `NULL`. -/
theorem ClientsIn.insert_noSlot (h : ClientsIn s cs used)
    (hfull : ¬ ∃ k < maxSinkNum, k ∉ used) (p : Addr) (pnode : Option Addr) (socketFd : Int)
    (addr : SockaddrIn) : commLinklistInsert (some p) pnode socketFd addr s = none := by
  simp only [commLinklistInsert, h.table.getValid_full hfull]

/-- Without memory for the node the list stays as it is, which `insert_dlinklist_tail` does not
    report. -/
theorem Dlinklist.Holds.insertTail_noNode {plst : Dlinklist} {nodes : Heap Addr (DlinklistNode Nat)}
    {xs : List (Addr × Entry Nat)} (h : plst.Holds nodes xs) (pkey : Nat) (pdata : Option Addr) :
    insertDlinklistTail nodes plst none pkey pdata = some (nodes, plst, 0) := by
  obtain ⟨phead⟩ := plst
  cases phead with
  | none => rfl
  | some phead => rfl

/-- **No node**: the slot is in use, the call returns 0, and there is no new client. -/
theorem ClientsIn.insert_noNode (h : ClientsIn s cs used) {p : Addr} (hp : s.heap.datas p = none)
    (hfree : ∃ k < maxSinkNum, k ∉ used) (socketFd : Int) (addr : SockaddrIn) :
    ∃ s' i, commLinklistInsert (some p) none socketFd addr s = some (s', 0) ∧
      ClientsIn s' cs (used ++ [i]) := by
  obtain ⟨plst, hplst, hholds⟩ := h.list
  obtain ⟨sinks, i, hget, -, -, htable⟩ := h.table.getValid hfree
  let connect := connectNew p (sinks.items i).idx socketFd addr
  have hother : ∀ c ∈ cs, c.p ≠ p := fun c hc heq => by
    have hdata := h.datas c hc
    rw [heq, hp] at hdata
    cases hdata
  refine ⟨⟨sinks, ⟨s.heap.nodes, s.heap.datas.set p connect⟩, some plst⟩, i, ?_, ?_⟩
  · simp only [commLinklistInsert, hget, hplst, hholds.insertTail_noNode, Option.map_some]
    rfl
  · exact { h with
      list := ⟨plst, rfl, hholds⟩
      datas := fun c hc =>
        (Heap.set_of_ne s.heap.datas connect (hother c hc)).trans (h.datas c hc)
      table := htable
      used := fun c hc => List.mem_append_left _ (h.used c hc) }

/-- An insertion that finds a free slot ends, and the manager stays well-formed. -/
theorem ClientsIn.insert_any (h : ClientsIn s cs used) {p : Addr} {pnode : Option Addr}
    (hfresh : s.FreshFor (some p) pnode) (hfree : ∃ k < maxSinkNum, k ∉ used) (socketFd : Int)
    (addr : SockaddrIn) :
    ∃ s' cs' used', commLinklistInsert (some p) pnode socketFd addr s = some (s', 0) ∧
      ClientsIn s' cs' used' := by
  have hp := hfresh.1 p rfl
  cases pnode with
  | none =>
      obtain ⟨s', i, hinsert, h'⟩ := h.insert_noNode hp hfree socketFd addr
      exact ⟨s', cs, _, hinsert, h'⟩
  | some a =>
      obtain ⟨s', c, hinsert, -, -, -, h'⟩ := h.insert hp (hfresh.2 a rfl) hfree socketFd addr
      exact ⟨s', _, _, hinsert, h'⟩

/-- A slot that is in use for no client is given back. -/
theorem ClientsIn.remove_leaked (h : ClientsIn s cs used) (hfuel : maxSinkNum ≤ fuel) {i : Nat}
    (hi : i < maxSinkNum) (hused : i ∈ used) (hnot : i ∉ cs.map Client.slot) :
    ∃ s', commLinklistRemove fuel i s = some (s', 0) ∧ ClientsIn s' cs (used.filter (· ≠ i)) := by
  obtain ⟨plst, hplst, hholds⟩ := h.list
  have hfind := h.table.getByIdx_mem hi hused
  have hidx : (s.sinks.items i).idx = i := by rw [h.table i hi]
  have hkey : ∀ x ∈ cs.map Client.node, x.2.pkey ≠ i := by
    intro x hx heq
    obtain ⟨c, hc, rfl⟩ := List.mem_map.1 hx
    exact hnot (heq ▸ List.mem_map_of_mem hc)
  have hlength : (cs.map Client.node).length ≤ fuel := by
    rw [List.length_map]
    exact Nat.le_trans h.length_le hfuel
  have hdelete := hholds.delete_of_not_mem hlength hkey
  refine ⟨⟨setInvalidSinkId s.sinks i, s.heap, some plst⟩, ?_, ?_⟩
  · simp only [commLinklistRemove, hfind, hplst, hdelete, Option.map_some, hidx]
    rfl
  · exact { h with
      list := ⟨plst, rfl, hholds⟩
      table := h.table.setInvalid hi fun j => by simp
      used := by
        intro c hc
        have hne : c.slot ≠ i := fun heq => hnot (heq ▸ List.mem_map_of_mem hc)
        exact List.mem_filter.2 ⟨h.used c hc, by simpa using hne⟩ }

/-- A removal ends, and the manager stays well-formed. -/
theorem ClientsIn.remove_any (h : ClientsIn s cs used) (hfuel : maxSinkNum ≤ fuel) (idx : Int) :
    ∃ s' r cs' used', commLinklistRemove fuel idx s = some (s', r) ∧ ClientsIn s' cs' used' := by
  by_cases hidx : ∃ i < maxSinkNum, i ∈ used ∧ (i : Int) = idx
  · obtain ⟨i, hi, hused, rfl⟩ := hidx
    by_cases hclient : i ∈ cs.map Client.slot
    · obtain ⟨c, hc, rfl⟩ := List.mem_map.1 hclient
      obtain ⟨ds, es, rfl⟩ := List.append_of_mem hc
      obtain ⟨s', hremove, h', -⟩ := h.remove hfuel
      exact ⟨s', 0, _, _, hremove, h'⟩
    · obtain ⟨s', hremove, h'⟩ := h.remove_leaked hfuel hi hused hclient
      exact ⟨s', 0, _, _, hremove, h'⟩
  · have hremove := h.remove_of_not_mem (fun i hi hused heq => hidx ⟨i, hi, hused, heq⟩) fuel
    exact ⟨s, -1, cs, used, hremove, h⟩

/-- **One call** keeps the list and the slots well-formed, whatever `malloc` returns. -/
theorem ClientsIn.allocStep (hfuel : maxSinkNum ≤ fuel) (h : ClientsIn s cs used)
    {a : AllocAction} (ha : s.AllocFresh a) {s' : ClientMgr} {rets : List Int}
    (hstep : s.allocStep fuel a = some (s', rets)) : ∃ cs' used', ClientsIn s' cs' used' := by
  cases a with
  | insert pConnectNew pnode socketFd addr =>
      obtain ⟨⟨t, r⟩, hinsert, ht⟩ := Option.map_eq_some_iff.1 hstep
      obtain ⟨rfl, -⟩ := Prod.mk.inj ht
      cases pConnectNew with
      | none =>
          obtain ⟨rfl, -⟩ := Prod.mk.inj (Option.some.inj hinsert)
          exact ⟨cs, used, h⟩
      | some p =>
          by_cases hfree : ∃ k < maxSinkNum, k ∉ used
          · obtain ⟨t', cs', used', hinsert', h'⟩ := h.insert_any ha hfree socketFd addr
            rw [hinsert, Option.some.injEq] at hinsert'
            obtain ⟨rfl, -⟩ := Prod.mk.inj hinsert'
            exact ⟨cs', used', h'⟩
          · rw [h.insert_noSlot hfree p pnode socketFd addr] at hinsert
            cases hinsert
  | remove idx =>
      obtain ⟨⟨t, r⟩, hremove, ht⟩ := Option.map_eq_some_iff.1 hstep
      obtain ⟨rfl, -⟩ := Prod.mk.inj ht
      obtain ⟨t', r', cs', used', hremove', h'⟩ := h.remove_any hfuel idx
      rw [hremove, Option.some.injEq] at hremove'
      obtain ⟨rfl, -⟩ := Prod.mk.inj hremove'
      exact ⟨cs', used', h'⟩
  | restart =>
      obtain ⟨t, -, ht⟩ := Option.map_eq_some_iff.1 hstep
      obtain ⟨rfl, -⟩ := Prod.mk.inj ht
      exact ⟨[], [], clientInv_iff.1 (clientInv_init t)⟩

/-- **Whole runs**, for as long as they go on. -/
theorem ClientMgr.allocRun_inv (hfuel : maxSinkNum ≤ fuel) (s₀ : ClientMgr)
    {as : List AllocAction} {rets : List Int}
    (has : EachStep (ClientMgr.allocStep fuel) ClientMgr.AllocFresh (commLinklistInit true s₀) as)
    (hrun : run (ClientMgr.allocStep fuel) (commLinklistInit true s₀) as = some (s, rets)) :
    ∃ cs used, ClientsIn s cs used := by
  have hinit : ∃ cs used, ClientsIn (commLinklistInit true s₀) cs used :=
    ⟨[], _, clientInv_iff.1 (clientInv_init s₀)⟩
  refine run_invariant (fun s => ∃ cs used, ClientsIn s cs used) hinit ?_ has hrun
  rintro s a s' es ⟨cs, used, h⟩ ha hstep
  exact h.allocStep hfuel ha hstep

/-! ## All or nothing -/

/-- A free slot of the table. -/
theorem ClientsIn.exists_free_iff (h : ClientsIn s cs used) :
    (∃ i < maxSinkNum, (s.sinks.items i).isUsed = 0) ↔ ∃ k < maxSinkNum, k ∉ used := by
  constructor
  · rintro ⟨i, hi, hzero⟩
    exact ⟨i, hi, (h.table.isUsed_eq_zero hi).1 hzero⟩
  · rintro ⟨k, hk, hfree⟩
    exact ⟨k, hk, (h.table.isUsed_eq_zero hk).2 hfree⟩

/-- With memory for both and a free slot, the client gets in. -/
theorem ClientsIn.allOrNothing (h : ClientsIn s cs used) (hfuel : maxSinkNum ≤ fuel) {p pnode : Addr}
    (hfresh : s.FreshFor (some p) (some pnode)) (hfree : ∃ k < maxSinkNum, k ∉ used)
    (socketFd : Int) (addr : SockaddrIn) :
    AllOrNothing fuel (some p) (some pnode) socketFd addr s := by
  obtain ⟨s', c, hinsert, hnew, hskt, haddr, h'⟩ :=
    h.insert (hfresh.1 p rfl) (hfresh.2 pnode rfl) hfree socketFd addr
  have hmem : c ∈ cs ++ [c] := List.mem_append_right _ (List.mem_singleton_self c)
  have hlt := h'.slot_lt c hmem
  refine ⟨s', 0, hinsert, fun _ => ⟨_, c.slot, c.connect, h.clients_eq hfuel, ?_, hlt, ?_, ?_,
    h'.idx c hmem, hskt, haddr⟩, fun hneg => absurd hneg (Int.lt_irrefl 0)⟩
  · rw [h'.clients_eq hfuel, List.map_append]
    rfl
  · exact (h.table.isUsed_eq_zero hlt).2 hnew
  · rw [h'.table c.slot hlt, if_pos (h'.used c hmem)]

/-- **`comm_linklist_insert`.** In every reachable state and for every outcome of the allocations it
    is all or nothing exactly when there is no memory for the record, or memory for the node and a
    slot that is free. -/
theorem commLinklistInsert_allOrNothing_iff (fuel : Nat) (hfuel : maxSinkNum ≤ fuel)
    (s₀ s : ClientMgr) (as : List AllocAction) (rets : List Int)
    (has : EachStep (ClientMgr.allocStep fuel) ClientMgr.AllocFresh (commLinklistInit true s₀) as)
    (hrun : run (ClientMgr.allocStep fuel) (commLinklistInit true s₀) as = some (s, rets))
    (pConnectNew pnode : Option Addr) (hfresh : s.FreshFor pConnectNew pnode) (socketFd : Int)
    (addr : SockaddrIn) :
    AllOrNothing fuel pConnectNew pnode socketFd addr s ↔
      pConnectNew = none ∨ pnode ≠ none ∧ ∃ i < maxSinkNum, (s.sinks.items i).isUsed = 0 := by
  obtain ⟨cs, used, h⟩ := ClientMgr.allocRun_inv hfuel s₀ has hrun
  rw [h.exists_free_iff]
  cases pConnectNew with
  | none =>
      refine iff_of_true ⟨s, -1, commLinklistInsert_noRecord pnode socketFd addr s, ?_, ?_⟩
        (Or.inl rfl)
      · intro hzero
        cases hzero
      · exact fun _ => ⟨rfl, rfl, rfl, rfl⟩
  | some p =>
      by_cases hfree : ∃ k < maxSinkNum, k ∉ used
      · cases pnode with
        | none =>
            obtain ⟨t, i, hinsert, h'⟩ := h.insert_noNode (hfresh.1 p rfl) hfree socketFd addr
            refine iff_of_false ?_ (by simp)
            rintro ⟨t', r, hinsert', hzero, -⟩
            rw [hinsert, Option.some.injEq] at hinsert'
            obtain ⟨rfl, rfl⟩ := Prod.mk.inj hinsert'
            -- the list is the same as before
            obtain ⟨clients, j, connect, hbefore, hafter, -⟩ := hzero rfl
            rw [h.clients_eq hfuel, Option.some.injEq] at hbefore
            rw [h'.clients_eq hfuel, hbefore, Option.some.injEq] at hafter
            simpa using congrArg List.length hafter
        | some pnode =>
            exact iff_of_true (h.allOrNothing hfuel hfresh hfree socketFd addr)
              (Or.inr ⟨Option.some_ne_none pnode, hfree⟩)
      · refine iff_of_false ?_ (by simp [hfree])
        rintro ⟨t, r, hinsert, -⟩
        rw [h.insert_noSlot hfree p pnode socketFd addr] at hinsert
        cases hinsert

/-- A client comes after one whose node there was no memory for, with the next slot. -/
theorem commLinklistInsert_allOrNothing_second :
    let s₀ : ClientMgr := ⟨⟨fun _ => ⟨0, 0⟩, 0⟩, ⟨fun _ => none, fun _ => none⟩, none⟩
    ∃ s rets, run (ClientMgr.allocStep 1024) (commLinklistInit true s₀)
        [.insert (some 10) none 5 []] = some (s, rets) ∧
      AllOrNothing 1024 (some 11) (some 21) 6 [] s := by
  intro s₀
  have has : EachStep (ClientMgr.allocStep 1024) ClientMgr.AllocFresh (commLinklistInit true s₀)
      [.insert (some 10) none 5 []] := by
    refine eachStep_cons.2 ⟨⟨fun p _ => rfl, fun a _ => rfl⟩, fun _ _ _ => EachStep.nil _ _⟩
  have hafter : (run (ClientMgr.allocStep 1024) (commLinklistInit true s₀)
      [.insert (some 10) none 5 []]).map (fun r =>
        (r.1.heap.datas 11, r.1.heap.nodes 21, (r.1.sinks.items 1).isUsed)) =
      some (none, none, 0) := by
    decide +kernel
  obtain ⟨⟨s, rets⟩, hrun, hafter⟩ := Option.map_eq_some_iff.1 hafter
  obtain ⟨hdatas, hafter⟩ := Prod.mk.inj hafter
  obtain ⟨hnodes, hfree⟩ := Prod.mk.inj hafter
  have hfresh : s.FreshFor (some 11) (some 21) := by
    constructor
    · intro p hp
      obtain rfl := Option.some.inj hp
      exact hdatas
    · intro a ha
      obtain rfl := Option.some.inj ha
      exact hnodes
  exact ⟨s, rets, hrun,
    (commLinklistInsert_allOrNothing_iff 1024 (Nat.le_refl 1024) s₀ s _ rets has hrun (some 11)
      (some 21) hfresh 6 []).2 (Or.inr ⟨Option.some_ne_none 21, 1, by decide, hfree⟩)⟩

/-- The first client comes when there is no memory for its node: the call returns 0, slot 0 is in
    use, and the list is empty. -/
theorem commLinklistInsert_no_node :
    let s₀ : ClientMgr := ⟨⟨fun _ => ⟨0, 0⟩, 0⟩, ⟨fun _ => none, fun _ => none⟩, none⟩
    (commLinklistInsert (some 10) none 5 [] (commLinklistInit true s₀)).map (fun r =>
        (r.2, (r.1.sinks.items 0).isUsed, r.1.clients 1024)) = some (0, 1, some []) ∧
      ¬ AllOrNothing 1024 (some 10) none 5 [] (commLinklistInit true s₀) := by
  intro s₀
  have hcall : (commLinklistInsert (some 10) none 5 [] (commLinklistInit true s₀)).map (fun r =>
      (r.2, (r.1.sinks.items 0).isUsed, r.1.clients 1024)) = some (0, 1, some []) := by
    decide +kernel
  refine ⟨hcall, ?_⟩
  rintro ⟨s', r, hinsert, hzero, -⟩
  rw [hinsert, Option.map_some, Option.some.injEq] at hcall
  obtain ⟨hr, hcall⟩ := Prod.mk.inj hcall
  obtain ⟨clients, i, connect, -, hafter, -⟩ := hzero hr
  rw [(Prod.mk.inj hcall).2, Option.some.injEq] at hafter
  exact absurd hafter.symm (by simp)

end XToolkits.Comm
