import XToolkits.Comm.DLinkList
import XToolkits.Comm.Parse
import XToolkits.Comm.Sink
import XToolkits.Lib.Transition

set_option autoImplicit false

/-! # The connected clients: `comm_client_mgr.c`

A client has a slot of the slot table and a node of the client list, whose key is the slot and
whose data is the record of the client. What `malloc` returns is part of the action. -/

namespace XToolkits.Comm

/-! ## The manager -/

/-- `struct sockaddr_in`, as the bytes that `memcpy` copies. -/
abbrev SockaddrIn := List UInt8

/-- `struct LIST_TCP_REQ` as it lies in the heap: `ListTcpReq` has the buffer itself in the place of
    the pointer to it. -/
structure TcpConnect where
  idx : Int
  skt : Int
  addr : SockaddrIn
  bufferAddr : Addr
  curRecvOffset : Int
  maxBufLen : Int
  deriving DecidableEq, Repr

/-- `sizeof(struct LIST_TCP_REQ)`. -/
def sizeofTcpReq : Nat := 48

/-- The slot table, the heap, and what `pHandle` points to, if it points to a list. -/
structure ClientMgr where
  sinks : Sinks
  heap : DlHeap Nat TcpConnect
  plst : Option Dlinklist

/-- `comm_linklist_init`, when `malloc` gives memory or does not. -/
def commLinklistInit (alloc : Bool) (s : ClientMgr) : ClientMgr :=
  { s with sinks := initSinkItems s.sinks, plst := createDlinklist alloc }

/-- `comm_linklist_uninit`: the slot table stays as it is. -/
def commLinklistUninit (fuel : Nat) (s : ClientMgr) : Option ClientMgr :=
  match s.plst with
  | none => none
  | some plst => (destroyDlinklist fuel s.heap plst).map fun heap =>
      { s with heap := heap, plst := none }

/-- The record that `comm_linklist_insert` fills in at `p`. -/
def connectNew (p : Addr) (idx socketFd : Int) (addr : SockaddrIn) : TcpConnect where
  idx := idx
  skt := socketFd
  addr := addr
  -- `pConnectNew + sizeof(struct LIST_TCP_REQ)` counts in records
  bufferAddr := p + sizeofTcpReq * sizeofTcpReq
  curRecvOffset := 0
  maxBufLen := recvBufferMax

/-- `comm_linklist_insert`, when `malloc` returns `pConnectNew` for the record and `pnode` for the
    node of the list. -/
def commLinklistInsert (pConnectNew pnode : Option Addr) (socketFd : Int) (addr : SockaddrIn)
    (s : ClientMgr) : Option (ClientMgr × Int) :=
  match pConnectNew with
  | none => some (s, -1)
  | some p =>
      match getValidSinkItem s.sinks with
      | (_, none) => none -- the message of the error reads `pSink->idx`
      | (sinks, some pSink) =>
          match s.plst with
          | none => none
          | some plst =>
              (insertDlinklistTail s.heap.nodes plst pnode pSink (some p)).map fun r =>
                ({ sinks := sinks
                   heap := { nodes := r.1,
                             datas := s.heap.datas.set p
                               (connectNew p (sinks.items pSink).idx socketFd addr) }
                   plst := some r.2.1 },
                 if r.2.2 < 0 then -1 else 0)

/-- `comm_linklist_remove`. -/
def commLinklistRemove (fuel : Nat) (idx : Int) (s : ClientMgr) : Option (ClientMgr × Int) :=
  match getSinkItemByIdx s.sinks idx with
  | none => some (s, -1)
  | some pSink =>
      match s.plst with
      | none => none
      | some plst =>
          (deleteDlinklistNode fuel s.heap plst pSink).map fun r =>
            ({ sinks := setInvalidSinkId s.sinks (s.sinks.items pSink).idx
               heap := r.1
               plst := some r.2.1 },
             if r.2.2 < 0 then -1 else 0)

/-- The keys and records of the client list, node by node from `_phead` along `_next`. -/
def ClientMgr.clients (fuel : Nat) (s : ClientMgr) : Option (List (Nat × TcpConnect)) := do
  let plst ← s.plst
  match plst.phead with
  | none => some []
  | some phead =>
      let nodes ← walk s.heap.nodes phead fuel phead
      nodes.mapM fun x => do
        let p ← x.2.pdata
        let connect ← s.heap.datas p
        some (x.2.pkey, connect)

/-! ## Runs -/

/-- What is called, with the addresses that `malloc` returns. -/
inductive ClientAction where
  | insert (pConnectNew pnode : Addr) (socketFd : Int) (addr : SockaddrIn)
  | remove (idx : Int)
  | restart
  deriving DecidableEq, Repr

/-- One call, or `comm_linklist_uninit` followed by `comm_linklist_init`, and the value returned. -/
def ClientMgr.step (fuel : Nat) (s : ClientMgr) : ClientAction → Option (ClientMgr × List Int)
  | .insert p pnode socketFd addr =>
      (commLinklistInsert (some p) (some pnode) socketFd addr s).map fun r => (r.1, [r.2])
  | .remove idx => (commLinklistRemove fuel idx s).map fun r => (r.1, [r.2])
  | .restart => (commLinklistUninit fuel s).map fun s => (commLinklistInit true s, [])

/-- What `malloc` returns was not allocated, and an insertion finds fewer clients than slots. -/
def ClientMgr.Permitted (fuel : Nat) (s : ClientMgr) : ClientAction → Prop
  | .insert p pnode _ _ => s.heap.datas p = none ∧ s.heap.nodes pnode = none ∧
      ∃ cs, s.clients fuel = some cs ∧ cs.length < maxSinkNum
  | .remove _ => True
  | .restart => True

instance (fuel : Nat) (s : ClientMgr) (a : ClientAction) : Decidable (s.Permitted fuel a) :=
  match a with
  | .insert p pnode _ _ =>
      have : Decidable (∃ cs, s.clients fuel = some cs ∧ cs.length < maxSinkNum) :=
        decidable_of_iff ((s.clients fuel).any fun cs => cs.length < maxSinkNum) <| by
          cases s.clients fuel <;> simp
      inferInstanceAs (Decidable (s.heap.datas p = none ∧ s.heap.nodes pnode = none ∧
        ∃ cs, s.clients fuel = some cs ∧ cs.length < maxSinkNum))
  | .remove _ => isTrue trivial
  | .restart => isTrue trivial

/-! ## Clients -/

/-- A client, with the addresses of its node and of its record. -/
structure Client where
  pnode : Addr
  slot : Nat
  p : Addr
  connect : TcpConnect

def Client.node (c : Client) : Addr × Entry Nat := (c.pnode, ⟨c.slot, some c.p⟩)

def Client.view (c : Client) : Nat × TcpConnect := (c.slot, c.connect)

/-- The slot table and the client list are about the same clients `cs`. -/
structure ClientInv (s : ClientMgr) (cs : List Client) : Prop where
  list : ∃ plst, s.plst = some plst ∧ plst.Holds s.heap.nodes (cs.map Client.node)
  datas : ∀ c ∈ cs, s.heap.datas c.p = some c.connect
  addrs : (cs.map Client.p).Nodup
  table : Table s.sinks (cs.map Client.slot)
  slots : (cs.map Client.slot).Nodup
  slot_lt : ∀ c ∈ cs, c.slot < maxSinkNum
  idx : ∀ c ∈ cs, c.connect.idx = c.slot

/-- The clients `cs` have slots of `used`, and these are the used ones: a slot may be used by no
    client. -/
structure ClientsIn (s : ClientMgr) (cs : List Client) (used : List Nat) : Prop where
  list : ∃ plst, s.plst = some plst ∧ plst.Holds s.heap.nodes (cs.map Client.node)
  datas : ∀ c ∈ cs, s.heap.datas c.p = some c.connect
  addrs : (cs.map Client.p).Nodup
  table : Table s.sinks used
  used : ∀ c ∈ cs, c.slot ∈ used
  slots : (cs.map Client.slot).Nodup
  slot_lt : ∀ c ∈ cs, c.slot < maxSinkNum
  idx : ∀ c ∈ cs, c.connect.idx = c.slot

variable {s s' : ClientMgr} {cs : List Client} {used : List Nat} {fuel : Nat}

/-- Every used slot is one of a client. -/
theorem clientInv_iff : ClientInv s cs ↔ ClientsIn s cs (cs.map Client.slot) := by
  constructor
  · intro h
    exact ⟨h.list, h.datas, h.addrs, h.table, fun _ hc => List.mem_map_of_mem hc, h.slots, h.slot_lt,
      h.idx⟩
  · intro h
    exact ⟨h.list, h.datas, h.addrs, h.table, h.slots, h.slot_lt, h.idx⟩

theorem clientInv_init (s : ClientMgr) : ClientInv (commLinklistInit true s) [] where
  list := ⟨⟨none⟩, rfl, holds_create _⟩
  datas := fun _ hc => absurd hc List.not_mem_nil
  addrs := List.nodup_nil
  table := table_init s.sinks
  slots := List.nodup_nil
  slot_lt := fun _ hc => absurd hc List.not_mem_nil
  idx := fun _ hc => absurd hc List.not_mem_nil

/-- There are no more clients than slots. -/
theorem ClientsIn.length_le (h : ClientsIn s cs used) : cs.length ≤ maxSinkNum := by
  have hsub : cs.map Client.slot ⊆ List.range maxSinkNum := by
    intro i hi
    obtain ⟨c, hc, rfl⟩ := List.mem_map.1 hi
    exact List.mem_range.2 (h.slot_lt c hc)
  have hle := (List.subperm_of_subset h.slots hsub).length_le
  rwa [List.length_map, List.length_range] at hle

/-- What is read off the heap. -/
theorem ClientsIn.clients_eq (h : ClientsIn s cs used) (hfuel : maxSinkNum ≤ fuel) :
    s.clients fuel = some (cs.map Client.view) := by
  obtain ⟨plst, hplst, hholds⟩ := h.list
  have hlen := h.length_le
  have hviews : ∀ ds : List Client, (∀ c ∈ ds, s.heap.datas c.p = some c.connect) →
      (ds.map Client.node).mapM (fun x => do
        let p ← x.2.pdata
        let connect ← s.heap.datas p
        some (x.2.pkey, connect)) = some (ds.map Client.view) := by
    intro ds hds
    induction ds with
    | nil => rfl
    | cons c ds ih =>
        have hc := hds c (List.mem_cons_self ..)
        have hrest := ih fun d hd => hds d (List.mem_cons_of_mem c hd)
        simp only [List.map_cons, List.mapM_cons, hrest]
        simp [Client.node, Client.view, hc]
  unfold ClientMgr.clients
  rw [hplst]
  cases cs with
  | nil => simp [hholds.head]
  | cons c cs =>
      have hring : Ring s.heap.nodes (c.node :: cs.map Client.node) := hholds.ring
      have hroom : (cs.map Client.node).length < fuel := by
        rw [List.length_map]
        exact Nat.lt_of_lt_of_le hlen hfuel
      have hwalk := hring.walk hroom
      rw [Option.bind_eq_bind, Option.bind_some, hholds.head]
      simp only [List.map_cons, List.head?_cons, Option.map_some, hwalk, Option.bind_eq_bind,
        Option.bind_some]
      exact hviews (c :: cs) h.datas

theorem ClientInv.clients_eq (h : ClientInv s cs) (hfuel : maxSinkNum ≤ fuel) :
    s.clients fuel = some (cs.map Client.view) := (clientInv_iff.1 h).clients_eq hfuel

/-! ## What the functions do to the clients -/

/-- **A new client** gets a slot that was free and comes last. -/
theorem ClientsIn.insert (h : ClientsIn s cs used) {p pnode : Addr} (hp : s.heap.datas p = none)
    (hpnode : s.heap.nodes pnode = none) (hfree : ∃ k < maxSinkNum, k ∉ used) (socketFd : Int)
    (addr : SockaddrIn) :
    ∃ s' c, commLinklistInsert (some p) (some pnode) socketFd addr s = some (s', 0) ∧
      c.slot ∉ used ∧ c.connect.skt = socketFd ∧ c.connect.addr = addr ∧
      ClientsIn s' (cs ++ [c]) (used ++ [c.slot]) := by
  obtain ⟨plst, hplst, hholds⟩ := h.list
  obtain ⟨sinks, i, hget, hi, hnew, htable⟩ := h.table.getValid hfree
  obtain ⟨nodes, plst', hinsert, hholds'⟩ := hholds.insertTail hpnode i (some p)
  have hidx : (connectNew p (sinks.items i).idx socketFd addr).idx = i := by
    show (sinks.items i).idx = i
    rw [htable i hi]
  have hother : ∀ c ∈ cs, c.p ≠ p := fun c hc heq => by
    have hdata := h.datas c hc
    rw [heq, hp] at hdata
    cases hdata
  have hskt : (connectNew p (sinks.items i).idx socketFd addr).skt = socketFd := rfl
  have haddr : (connectNew p (sinks.items i).idx socketFd addr).addr = addr := rfl
  generalize hconnect : connectNew p (sinks.items i).idx socketFd addr = connect at hidx hskt haddr
  have heq : commLinklistInsert (some p) (some pnode) socketFd addr s =
      some (⟨sinks, ⟨nodes, s.heap.datas.set p connect⟩, some plst'⟩, 0) := by
    simp only [commLinklistInsert, hget, hplst, hinsert, Option.map_some, hconnect]
    rfl
  refine ⟨_, ⟨pnode, i, p, connect⟩, heq, hnew, hskt, haddr, ?_⟩
  exact {
    list := ⟨plst', rfl, by rwa [List.map_append]⟩
    datas := List.forall_mem_append.2
      ⟨fun c hc => (Heap.set_of_ne s.heap.datas connect (hother c hc)).trans (h.datas c hc),
        List.forall_mem_singleton.2 (Heap.set_self ..)⟩
    addrs := by
      rw [List.map_append]
      refine h.addrs.append (List.nodup_singleton p) (List.disjoint_singleton.2 fun hmem => ?_)
      obtain ⟨c, hc, heq⟩ := List.mem_map.1 hmem
      exact hother c hc heq
    table := htable
    used := List.forall_mem_append.2
      ⟨fun c hc => List.mem_append_left _ (h.used c hc),
        List.forall_mem_singleton.2 (List.mem_append_right _ (List.mem_singleton_self i))⟩
    slots := by
      rw [List.map_append]
      refine h.slots.append (List.nodup_singleton i) (List.disjoint_singleton.2 fun hmem => ?_)
      obtain ⟨c, hc, rfl : c.slot = i⟩ := List.mem_map.1 hmem
      exact hnew (h.used c hc)
    slot_lt := List.forall_mem_append.2 ⟨h.slot_lt, List.forall_mem_singleton.2 hi⟩
    idx := List.forall_mem_append.2 ⟨h.idx, List.forall_mem_singleton.2 hidx⟩ }

theorem ClientInv.insert (h : ClientInv s cs) {p pnode : Addr} (hp : s.heap.datas p = none)
    (hpnode : s.heap.nodes pnode = none) (hroom : cs.length < maxSinkNum) (socketFd : Int)
    (addr : SockaddrIn) :
    ∃ s' c, commLinklistInsert (some p) (some pnode) socketFd addr s = some (s', 0) ∧
      ClientInv s' (cs ++ [c]) := by
  have hfree : ∃ k < maxSinkNum, k ∉ cs.map Client.slot := exists_free (by rwa [List.length_map])
  obtain ⟨s', c, hinsert, -, -, -, h'⟩ :=
    (clientInv_iff.1 h).insert hp hpnode hfree socketFd addr
  exact ⟨s', c, hinsert, clientInv_iff.2 (by rwa [List.map_append])⟩

/-- An index that no used slot has. -/
theorem ClientsIn.remove_of_not_mem (h : ClientsIn s cs used) {idx : Int}
    (hidx : ∀ i < maxSinkNum, i ∈ used → (i : Int) ≠ idx) (fuel : Nat) :
    commLinklistRemove fuel idx s = some (s, -1) := by
  rw [commLinklistRemove, h.table.getByIdx_not_mem hidx]

theorem ClientInv.remove_of_not_mem (h : ClientInv s cs) {idx : Int}
    (hidx : ∀ c ∈ cs, (c.slot : Int) ≠ idx) (fuel : Nat) :
    commLinklistRemove fuel idx s = some (s, -1) :=
  (clientInv_iff.1 h).remove_of_not_mem (fun i _ hi heq => by
    obtain ⟨c, hc, rfl⟩ := List.mem_map.1 hi
    exact hidx c hc heq) fuel

/-- The addresses and slots of the other clients are others. -/
theorem ClientsIn.others {ds es : List Client} {c : Client}
    (h : ClientsIn s (ds ++ c :: es) used) :
    (∀ d ∈ ds ++ es, d ∈ ds ++ c :: es ∧ d.p ≠ c.p ∧ d.slot ≠ c.slot) ∧
      ((ds ++ es).map Client.p).Nodup ∧ ((ds ++ es).map Client.slot).Nodup := by
  have haddrs := h.addrs
  have hslots := h.slots
  rw [List.map_append, List.map_cons, List.nodup_middle, ← List.map_append, List.nodup_cons]
    at haddrs hslots
  refine ⟨fun d hd => ⟨?_, ?_, ?_⟩, haddrs.2, hslots.2⟩
  · rcases List.mem_append.1 hd with hd | hd
    · exact List.mem_append_left _ hd
    · exact List.mem_append_right _ (List.mem_cons_of_mem c hd)
  · exact fun heq => haddrs.1 (heq ▸ List.mem_map_of_mem hd)
  · exact fun heq => hslots.1 (heq ▸ List.mem_map_of_mem hd)

/-- **A client removed**: its node is freed, and the others stay as they are, in their order. -/
theorem ClientsIn.remove {ds es : List Client} {c : Client} (h : ClientsIn s (ds ++ c :: es) used)
    (hfuel : maxSinkNum ≤ fuel) :
    ∃ s', commLinklistRemove fuel c.slot s = some (s', 0) ∧
      ClientsIn s' (ds ++ es) (used.filter (· ≠ c.slot)) ∧ s'.heap.nodes c.pnode = none := by
  obtain ⟨plst, hplst, hholds⟩ := h.list
  have hmem : c ∈ ds ++ c :: es := List.mem_append_right _ (List.mem_cons_self ..)
  obtain ⟨hothers, haddrs, hslots⟩ := h.others
  have hfind := h.table.getByIdx_mem (h.slot_lt c hmem) (h.used c hmem)
  have hkey : ∀ x ∈ ds.map Client.node, x.2.pkey ≠ c.slot := by
    intro x hx heq
    obtain ⟨d, hd, rfl⟩ := List.mem_map.1 hx
    exact (hothers d (List.mem_append_left _ hd)).2.2 heq
  have hlen := h.length_le
  rw [List.map_append, List.map_cons] at hholds
  have hlive : DataLive s.heap.datas c.node.2 := by
    rintro p hp
    obtain rfl : c.p = p := Option.some.inj hp
    rw [h.datas c hmem]
    exact Option.some_ne_none _
  have hlength : (ds.map Client.node ++ c.node :: es.map Client.node).length ≤ fuel := by
    rw [← List.map_cons, ← List.map_append, List.length_map]
    exact Nat.le_trans hlen hfuel
  obtain ⟨nodes, plst', hdelete, hholds', hgone⟩ := hholds.delete hlength hkey rfl hlive
  have hidx : (s.sinks.items c.slot).idx = c.slot := by rw [h.table c.slot (h.slot_lt c hmem)]
  have heq : commLinklistRemove fuel c.slot s =
      some (⟨setInvalidSinkId s.sinks c.slot, ⟨nodes, s.heap.datas.free c.p⟩, some plst'⟩, 0) := by
    simp only [commLinklistRemove, hfind, hplst, hdelete, Option.map_some, hidx]
    rfl
  refine ⟨_, heq, ?_, hgone⟩
  exact {
    list := ⟨plst', rfl, by rwa [List.map_append]⟩
    datas := by
      intro d hd
      obtain ⟨hd, hne, -⟩ := hothers d hd
      exact (Heap.free_of_ne s.heap.datas hne).trans (h.datas d hd)
    addrs := haddrs
    table := h.table.setInvalid (h.slot_lt c hmem) fun j => by simp
    used := by
      intro d hd
      obtain ⟨hd, -, hne⟩ := hothers d hd
      exact List.mem_filter.2 ⟨h.used d hd, by simpa using hne⟩
    slots := hslots
    slot_lt := fun d hd => h.slot_lt d (hothers d hd).1
    idx := fun d hd => h.idx d (hothers d hd).1 }

theorem ClientInv.remove {ds es : List Client} {c : Client} (h : ClientInv s (ds ++ c :: es))
    (hfuel : maxSinkNum ≤ fuel) :
    ∃ s', commLinklistRemove fuel c.slot s = some (s', 0) ∧ ClientInv s' (ds ++ es) ∧
      s'.heap.nodes c.pnode = none := by
  have hin := clientInv_iff.1 h
  obtain ⟨s', hremove, h', hgone⟩ := hin.remove hfuel
  refine ⟨s', hremove, clientInv_iff.2 { h' with table := h'.table.congr fun j => ?_, used := ?_ },
    hgone⟩
  · rw [List.mem_filter]
    constructor
    · intro hj
      obtain ⟨d, hd, rfl⟩ := List.mem_map.1 hj
      obtain ⟨hd, -, hne⟩ := hin.others.1 d hd
      exact ⟨List.mem_map_of_mem hd, by simpa using hne⟩
    · rintro ⟨hj, hne⟩
      rw [List.map_append, List.map_cons, List.mem_append, List.mem_cons] at hj
      rw [List.map_append, List.mem_append]
      exact hj.imp_right fun hj => hj.resolve_left (by simpa using hne)
  · exact fun d hd => List.mem_map_of_mem hd

/-- **All clients removed**, and a list made anew. -/
theorem ClientsIn.uninit (h : ClientsIn s cs used) (hfuel : maxSinkNum ≤ fuel) :
    ∃ s', commLinklistUninit fuel s = some s' := by
  obtain ⟨plst, hplst, hholds⟩ := h.list
  have hlive : AllLive s.heap.datas (cs.map Client.node) := by
    constructor
    · intro x hx p hp
      obtain ⟨c, hc, rfl⟩ := List.mem_map.1 hx
      obtain rfl : c.p = p := Option.some.inj hp
      rw [h.datas c hc]
      exact Option.some_ne_none _
    · rw [List.filterMap_map]
      have haddrs : cs.filterMap ((fun x => x.2.pdata) ∘ Client.node) = cs.map Client.p :=
        List.filterMap_eq_map.symm ▸ rfl
      rw [haddrs]
      exact h.addrs
  have hlength : (cs.map Client.node).length ≤ fuel := by
    rw [List.length_map]
    exact Nat.le_trans h.length_le hfuel
  obtain ⟨m, hdestroy, -⟩ := hholds.destroy hlive hlength
  refine ⟨{ s with heap := m, plst := none }, ?_⟩
  rw [commLinklistUninit, hplst]
  simp only [hdestroy, Option.map_some]

/-- **One action** can be taken, and the table and the list stay about the same clients. -/
theorem ClientInv.step (hfuel : maxSinkNum ≤ fuel) (h : ∃ cs, ClientInv s cs) {a : ClientAction}
    (ha : s.Permitted fuel a) :
    ∃ s' rets, s.step fuel a = some (s', rets) ∧ ∃ cs', ClientInv s' cs' := by
  obtain ⟨cs, h⟩ := h
  cases a with
  | insert p pnode socketFd addr =>
      obtain ⟨hp, hpnode, views, hviews, hroom⟩ := ha
      rw [h.clients_eq hfuel, Option.some.injEq] at hviews
      subst hviews
      rw [List.length_map] at hroom
      obtain ⟨s', c, hinsert, h'⟩ := h.insert hp hpnode hroom socketFd addr
      exact ⟨s', [0], by rw [ClientMgr.step, hinsert]; rfl, _, h'⟩
  | remove idx =>
      by_cases hidx : ∃ c ∈ cs, (c.slot : Int) = idx
      · obtain ⟨c, hc, rfl⟩ := hidx
        obtain ⟨ds, es, rfl⟩ := List.append_of_mem hc
        obtain ⟨s', hremove, h', -⟩ := h.remove hfuel
        exact ⟨s', [0], by rw [ClientMgr.step, hremove]; rfl, _, h'⟩
      · have hremove := h.remove_of_not_mem (fun c hc heq => hidx ⟨c, hc, heq⟩) fuel
        exact ⟨s, [-1], by rw [ClientMgr.step, hremove]; rfl, cs, h⟩
  | restart =>
      obtain ⟨s', huninit⟩ := (clientInv_iff.1 h).uninit hfuel
      exact ⟨_, [], by rw [ClientMgr.step, huninit]; rfl, [], clientInv_init s'⟩

/-- **Whole runs** go to their end. -/
theorem ClientMgr.run_inv (hfuel : maxSinkNum ≤ fuel) (s₀ : ClientMgr) {as : List ClientAction}
    (has : EachStep (ClientMgr.step fuel) (ClientMgr.Permitted fuel) (commLinklistInit true s₀) as) :
    ∃ s rets, run (ClientMgr.step fuel) (commLinklistInit true s₀) as = some (s, rets) ∧
      ∃ cs, ClientInv s cs :=
  run_of_eachStep ⟨[], clientInv_init s₀⟩ (fun _ _ h ha => ClientInv.step hfuel h ha) has

/-- What `comm_linklist_remove` leaves, whatever the index. -/
theorem ClientInv.clients_remove (h : ClientInv s cs) (hfuel : maxSinkNum ≤ fuel) (idx : Int) :
    ∃ s' ret, commLinklistRemove fuel idx s = some (s', ret) ∧
      s'.clients fuel = some ((cs.map Client.view).filter fun v => v.2.idx ≠ idx) := by
  by_cases hidx : ∃ c ∈ cs, (c.slot : Int) = idx
  · obtain ⟨c, hc, rfl⟩ := hidx
    obtain ⟨ds, es, rfl⟩ := List.append_of_mem hc
    obtain ⟨s', hremove, h', -⟩ := h.remove hfuel
    refine ⟨s', 0, hremove, ?_⟩
    have hkeep : ∀ l : List Client, (∀ d ∈ l, d ∈ ds ++ es) →
        (l.map Client.view).filter (fun v => v.2.idx ≠ (c.slot : Int)) = l.map Client.view := by
      intro l hl
      rw [List.filter_eq_self]
      intro v hv
      obtain ⟨d, hd, rfl⟩ := List.mem_map.1 hv
      obtain ⟨hmem, -, hne⟩ := (clientInv_iff.1 h).others.1 d (hl d hd)
      rw [decide_eq_true_eq]
      show d.connect.idx ≠ c.slot
      rw [h.idx d hmem]
      exact fun heq => hne (Int.ofNat.inj heq)
    have hc : c.view.2.idx = c.slot := h.idx c (by simp)
    rw [h'.clients_eq hfuel, List.map_append, List.map_append, List.map_cons, List.filter_append,
      List.filter_cons_of_neg (by simpa using hc), hkeep ds fun d hd => List.mem_append_left _ hd,
      hkeep es fun d hd => List.mem_append_right _ hd]
  · have hremove := h.remove_of_not_mem (fun c hc heq => hidx ⟨c, hc, heq⟩) fuel
    refine ⟨s, -1, hremove, ?_⟩
    rw [h.clients_eq hfuel, List.filter_eq_self.2]
    intro v hv
    obtain ⟨c, hc, rfl⟩ := List.mem_map.1 hv
    rw [decide_eq_true_eq]
    show c.connect.idx ≠ idx
    rw [h.idx c hc]
    exact fun heq => hidx ⟨c, hc, heq⟩

/-- The used slots are the keys of the client list, each of one node, and the record of a client has
    the index of its slot. -/
structure InBijection (s : ClientMgr) (clients : List (Nat × TcpConnect)) : Prop where
  used : ∀ i < maxSinkNum, (s.sinks.items i).isUsed = if i ∈ clients.map Prod.fst then 1 else 0
  slot_lt : ∀ v ∈ clients, v.1 < maxSinkNum
  keys : (clients.map Prod.fst).Nodup
  idx : ∀ v ∈ clients, v.2.idx = (s.sinks.items v.1).idx
  idxs : (clients.map fun v => v.2.idx).Nodup

theorem ClientInv.inBijection (h : ClientInv s cs) : InBijection s (cs.map Client.view) := by
  have hkeys : (cs.map Client.view).map Prod.fst = cs.map Client.slot := List.map_map
  have hidxs : (cs.map Client.view).map (fun v => v.2.idx) =
      (cs.map Client.slot).map fun i : Nat => (i : Int) := by
    rw [List.map_map, List.map_map]
    exact List.map_congr_left h.idx
  constructor
  · intro i hi
    rw [hkeys, h.table i hi]
  · intro v hv
    obtain ⟨c, hc, rfl⟩ := List.mem_map.1 hv
    exact h.slot_lt c hc
  · rw [hkeys]
    exact h.slots
  · intro v hv
    obtain ⟨c, hc, rfl⟩ := List.mem_map.1 hv
    have hslot : (s.sinks.items c.slot).idx = c.slot := by rw [h.table _ (h.slot_lt c hc)]
    exact (h.idx c hc).trans hslot.symm
  · rw [hidxs]
    exact h.slots.map fun i j heq => Int.ofNat.inj heq

/-- **Client list and slot table.** After every run from `comm_linklist_init`, in which `malloc`
    returns what is not allocated and fewer clients are connected than there are slots when one more
    comes, the used slots are the keys of the list and the indices of the records, one for each
    client; and removing an index takes away the client with it and changes neither the order nor
    the data of the others. -/
theorem clientMgr_inBijection (fuel : Nat) (hfuel : maxSinkNum ≤ fuel) (s₀ : ClientMgr)
    (as : List ClientAction)
    (has : EachStep (ClientMgr.step fuel) (ClientMgr.Permitted fuel) (commLinklistInit true s₀) as) :
    ∃ s rets clients, run (ClientMgr.step fuel) (commLinklistInit true s₀) as = some (s, rets) ∧
      s.clients fuel = some clients ∧ InBijection s clients ∧
      ∀ idx, ∃ s' ret, commLinklistRemove fuel idx s = some (s', ret) ∧
        s'.clients fuel = some (clients.filter fun v => v.2.idx ≠ idx) := by
  obtain ⟨s, rets, hrun, cs, h⟩ := ClientMgr.run_inv hfuel s₀ has
  exact ⟨s, rets, cs.map Client.view, hrun, h.clients_eq hfuel, h.inBijection,
    h.clients_remove hfuel⟩

/-- Two clients come, the first one goes, and its slot is used again. -/
theorem clientMgr_inBijection_reuse :
    let s₀ : ClientMgr := ⟨⟨fun _ => ⟨0, 0⟩, 0⟩, ⟨fun _ => none, fun _ => none⟩, none⟩
    ∃ s rets clients, run (ClientMgr.step 1024) (commLinklistInit true s₀)
        [.insert 10 20 5 [], .insert 11 21 6 [], .remove 0, .insert 10 22 7 []] = some (s, rets) ∧
      s.clients 1024 = some clients ∧ InBijection s clients ∧
      ∀ idx, ∃ s' ret, commLinklistRemove 1024 idx s = some (s', ret) ∧
        s'.clients 1024 = some (clients.filter fun v => v.2.idx ≠ idx) := by
  intro s₀
  exact clientMgr_inBijection 1024 (Nat.le_refl 1024) s₀ _ (by decide +kernel)

end XToolkits.Comm
