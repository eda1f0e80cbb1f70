import XToolkits.Comm.ClientMgr
import XToolkits.Lib.RingTour

set_option autoImplicit false

/-! # Travelling along the client list

`travel_dlinklist` calls a callback on every node and follows the link of a node after the call.
`comm_client_process` travels with `__comm_recv_callback`, which removes a client whose connection
is gone, and with it frees the node that the loop stands on. -/

namespace XToolkits.Comm

variable {K σ W : Type}

/-! ## The functions -/

/-- `__PFNTravelCB`, over the state `σ`: the state after the call, and the value returned. -/
abbrev TravelCB (K σ : Type) := K → Option Addr → σ → Option (σ × Int)

/-- The call for a node, whose value is not looked at. -/
def TravelCB.visit (pfn : TravelCB K σ) (s : σ) (e : Entry K) : Option σ :=
  (pfn e.pkey e.pdata s).map Prod.fst

/-- `travel_dlinklist`, on the list that has its nodes and its `_phead` in the state. -/
def travelDlinklist (nodes : σ → Heap Addr (DlinklistNode K)) (phead : σ → Option Addr) (fuel : Nat)
    (pfn : TravelCB K σ) (s : σ) : Option (σ × Int) :=
  match phead s with
  | none => some (s, 0)
  | some p => (tour nodes phead pfn.visit fuel s p).map fun r => (r.1, r.2)

/-- The list of a manager, beside whatever else the callback works on. -/
def listNodes (s : ClientMgr × W) : Heap Addr (DlinklistNode Nat) := s.1.heap.nodes

def listPhead (s : ClientMgr × W) : Option Addr := s.1.plst.bind Dlinklist.phead

/-- `comm_linklist_travel`. -/
def commLinklistTravel (fuel : Nat) (pfn : TravelCB Nat (ClientMgr × W)) (s : ClientMgr × W) :
    Option ((ClientMgr × W) × Int) :=
  match s.1.plst with
  | none => some (s, -1)
  | some _ => travelDlinklist listNodes listPhead fuel pfn s

/-- The sockets and receive buffers `W`: `FD_ISSET`, what `comm_tcp_recv` makes of the record of a
    client (the receive offset and the value returned), and `close`. -/
structure Sockets (W : Type) where
  fdIsset : W → Int → Bool
  commTcpRecv : W → TcpConnect → W × Int × Int
  close : W → Int → W

/-- The record at `p` stored anew. -/
def ClientMgr.setConnect (s : ClientMgr) (p : Addr) (connect : TcpConnect) : ClientMgr :=
  { s with heap := { s.heap with datas := s.heap.datas.set p connect } }

/-- `__comm_recv_callback`. -/
def commRecvCallback (io : Sockets W) (fuel : Nat) : TravelCB Nat (ClientMgr × W) :=
  fun _ pdata s =>
    match pdata with
    | none => some (s, -1)
    | some p => do
        let connect ← s.1.heap.datas p
        if connect.skt ≥ 0 ∧ io.fdIsset s.2 connect.skt then
          let (w, curRecvOffset, nRet) := io.commTcpRecv s.2 connect
          let connect := { connect with curRecvOffset := curRecvOffset }
          if nRet ≤ 0 then
            -- `handle_disconnection`
            let mgr := s.1.setConnect p { connect with skt := -1 }
            (commLinklistRemove fuel connect.idx mgr).map fun r =>
              ((r.1, io.close w connect.skt), 0)
          else some ((s.1.setConnect p connect, w), 0)
        else some (s, 0)

/-! ## Callbacks that remove the client they are called on -/

variable {s : ClientMgr} {used : List Nat} {fuel : Nat}

/-- A record that keeps its index may be stored anew. -/
theorem ClientsIn.setConnect {ds es : List Client} {c : Client}
    (h : ClientsIn s (ds ++ c :: es) used) {connect : TcpConnect}
    (hidx : connect.idx = c.connect.idx) :
    ClientsIn (s.setConnect c.p connect) (ds ++ { c with connect := connect } :: es) used := by
  have hothers := h.others.1
  have hnode : (ds ++ { c with connect := connect } :: es).map Client.node =
      (ds ++ c :: es).map Client.node := by simp [Client.node]
  have hp : (ds ++ { c with connect := connect } :: es).map Client.p =
      (ds ++ c :: es).map Client.p := by simp
  have hslot : (ds ++ { c with connect := connect } :: es).map Client.slot =
      (ds ++ c :: es).map Client.slot := by simp
  -- the other clients are as before
  have hcases : ∀ d ∈ ds ++ { c with connect := connect } :: es,
      d = { c with connect := connect } ∨ d ∈ ds ++ es := by
    intro d hd
    simp only [List.mem_append, List.mem_cons] at hd ⊢
    tauto
  have hmem : c ∈ ds ++ c :: es := List.mem_append_right _ (List.mem_cons_self ..)
  exact {
    list := hnode ▸ h.list
    datas := by
      intro d hd
      rcases hcases d hd with rfl | hd
      · exact Heap.set_self ..
      · obtain ⟨hd, hne, -⟩ := hothers d hd
        exact (Heap.set_of_ne s.heap.datas connect hne).trans (h.datas d hd)
    addrs := hp ▸ h.addrs
    table := h.table
    used := by
      intro d hd
      rcases hcases d hd with rfl | hd
      · exact h.used c hmem
      · exact h.used d (hothers d hd).1
    slots := hslot ▸ h.slots
    slot_lt := by
      intro d hd
      rcases hcases d hd with rfl | hd
      · exact h.slot_lt c hmem
      · exact h.slot_lt d (hothers d hd).1
    idx := by
      intro d hd
      rcases hcases d hd with rfl | hd
      · exact hidx.trans (h.idx c hmem)
      · exact h.idx d (hothers d hd).1 }

/-- The list of the manager stands for the nodes. -/
def ListOf (s : ClientMgr × W) (xs : List (Addr × Entry Nat)) : Prop :=
  ∃ cs used, ClientsIn s.1 cs used ∧ cs.map Client.node = xs

/-- A client whose connection is gone is removed, and its node is freed. -/
theorem commRecvCallback_gone (io : Sockets W) (hfuel : maxSinkNum ≤ fuel) {ds es : List Client}
    {c : Client} {w : W} (h : ClientsIn s (ds ++ c :: es) used)
    (hset : c.connect.skt ≥ 0 ∧ io.fdIsset w c.connect.skt)
    (hret : (io.commTcpRecv w c.connect).2.2 ≤ 0) :
    ∃ t, (commRecvCallback io fuel).visit (s, w) c.node.2 = some t ∧
      ListOf t ((ds ++ es).map Client.node) ∧ listNodes t c.pnode = none := by
  have hdata := h.datas c (List.mem_append_right _ (List.mem_cons_self ..))
  have hslot := h.idx c (List.mem_append_right _ (List.mem_cons_self ..))
  rcases hrecv : io.commTcpRecv w c.connect with ⟨w', offset, nRet⟩
  rw [hrecv] at hret
  let connect : TcpConnect := { c.connect with curRecvOffset := offset, skt := -1 }
  have hstored : ClientsIn (s.setConnect c.p connect)
      (ds ++ { c with connect := connect } :: es) used := h.setConnect rfl
  obtain ⟨s', hremove, hrest, hgone⟩ := hstored.remove hfuel
  change commLinklistRemove fuel (c.slot : Int) _ = _ at hremove
  rw [← hslot] at hremove
  refine ⟨(s', io.close w' c.connect.skt), ?_, ⟨ds ++ es, _, hrest, rfl⟩, hgone⟩
  simp only [TravelCB.visit, commRecvCallback, Client.node, hdata, Option.bind_eq_bind,
    Option.bind_some, if_pos hset, hrecv, if_pos hret]
  exact congrArg _ (congrArg _ hremove)

/-- Any other client stays. -/
theorem commRecvCallback_kept (io : Sockets W) (fuel : Nat) {ds es : List Client} {c : Client}
    {w : W} (h : ClientsIn s (ds ++ c :: es) used)
    (hnot : ¬ ((c.connect.skt ≥ 0 ∧ io.fdIsset w c.connect.skt) ∧
      (io.commTcpRecv w c.connect).2.2 ≤ 0)) :
    ∃ t, (commRecvCallback io fuel).visit (s, w) c.node.2 = some t ∧
      ListOf t ((ds ++ c :: es).map Client.node) := by
  have hdata := h.datas c (List.mem_append_right _ (List.mem_cons_self ..))
  rcases hrecv : io.commTcpRecv w c.connect with ⟨w', offset, nRet⟩
  rw [hrecv] at hnot
  by_cases hset : c.connect.skt ≥ 0 ∧ io.fdIsset w c.connect.skt
  · have hret : ¬ nRet ≤ 0 := fun hret => hnot ⟨hset, hret⟩
    let connect : TcpConnect := { c.connect with curRecvOffset := offset }
    have hstored : ClientsIn (s.setConnect c.p connect)
        (ds ++ { c with connect := connect } :: es) used := h.setConnect rfl
    refine ⟨(s.setConnect c.p connect, w'), ?_, _, used, hstored, by simp [Client.node]⟩
    simp only [TravelCB.visit, commRecvCallback, Client.node, hdata, Option.bind_eq_bind,
      Option.bind_some, if_pos hset, hrecv, if_neg hret, Option.map_some]
    rfl
  · refine ⟨(s, w), ?_, _, used, h, rfl⟩
    simp only [TravelCB.visit, commRecvCallback, Client.node, hdata, Option.bind_eq_bind,
      Option.bind_some, if_neg hset, Option.map_some]

/-- **`__comm_recv_callback` removes the client it is called on or none.** -/
theorem ownUnlink_commRecvCallback (io : Sockets W) (hfuel : maxSinkNum ≤ fuel) :
    OwnUnlink listNodes listPhead (commRecvCallback io fuel).visit ListOf where
  ring := by
    rintro s xs ⟨cs, used, h, rfl⟩
    obtain ⟨plst, -, hholds⟩ := h.list
    exact hholds.ring
  first := by
    rintro s xs ⟨cs, used, h, rfl⟩
    obtain ⟨plst, hplst, hholds⟩ := h.list
    rw [listPhead, hplst]
    exact hholds.head
  visit := by
    rintro ⟨s, w⟩ ys zs x ⟨cs, used, h, hcs⟩
    obtain ⟨ds, es', rfl, rfl, hes'⟩ := List.map_eq_append_iff.1 hcs
    obtain ⟨c, es, rfl, rfl, rfl⟩ := List.map_eq_cons_iff.1 hes'
    by_cases hgone : (c.connect.skt ≥ 0 ∧ io.fdIsset w c.connect.skt) ∧
        (io.commTcpRecv w c.connect).2.2 ≤ 0
    · obtain ⟨t, hvisit, hrest, hfreed⟩ := commRecvCallback_gone io hfuel h hgone.1 hgone.2
      exact ⟨t, hvisit, Or.inr ⟨by rwa [List.map_append] at hrest, hfreed⟩⟩
    · obtain ⟨t, hvisit, hkept⟩ := commRecvCallback_kept io fuel h hgone
      exact ⟨t, hvisit, Or.inl (by rwa [List.map_append] at hkept)⟩

/-! ## Traversals -/

/-- The traversal gets through: it calls the callback on every node of the list, once and in order,
    and the nodes that are still allocated are the list. -/
def Survives {σ : Type} (nodes : σ → Heap Addr (DlinklistNode K)) (phead : σ → Option Addr)
    (fuel : Nat) (pfn : TravelCB K σ) (s : σ) (xs : List (Addr × Entry K)) : Prop :=
  ∃ t, travelDlinklist nodes phead fuel pfn s = some (t, (xs.length : Int)) ∧
    run (visitStep pfn.visit) s xs = some (t, xs) ∧
    Dlinklist.Holds ⟨phead t⟩ (nodes t) (present nodes t xs)

/-- **Removing the current client.** The traversal with a callback that removes the node it is
    called on or none gets through exactly when no node but the last one is removed: the link of
    every other node is read after the call for it. -/
theorem travelDlinklist_survives_iff {σ : Type} {nodes : σ → Heap Addr (DlinklistNode K)}
    {phead : σ → Option Addr} {pfn : TravelCB K σ} {Inv : σ → List (Addr × Entry K) → Prop}
    (hpfn : OwnUnlink nodes phead pfn.visit Inv) {s : σ} {xs : List (Addr × Entry K)}
    (hs : Inv s xs) {fuel : Nat} (hfuel : xs.length ≤ fuel) :
    Survives nodes phead fuel pfn s xs ↔
      EachStep (visitStep pfn.visit) (Spares nodes pfn.visit) s xs.dropLast := by
  have hhead := hpfn.first hs
  cases xs with
  | nil =>
      refine ⟨fun _ => EachStep.nil _ s, fun _ => ⟨s, ?_, rfl, hpfn.ring hs, hhead⟩⟩
      rw [travelDlinklist, hhead]
      rfl
  | cons x zs =>
      replace hhead : phead s = some x.1 := hhead
      replace hs : Inv s ([] ++ x :: zs) := hs
      constructor
      · rintro ⟨t, htravel, -⟩
        by_contra hnot
        rw [travelDlinklist, hhead] at htravel
        simp only [hpfn.tour_of_not_spared hs hnot fuel] at htravel
        exact absurd htravel (by simp)
      · intro hspared
        obtain ⟨t, htour, hrun, hinv⟩ := hpfn.tour_of_spared hs hfuel hspared
        refine ⟨t, ?_, hrun, hpfn.ring hinv, hpfn.first hinv⟩
        rw [travelDlinklist, hhead]
        simp only [htour, Option.map_some, List.length_cons]

/-- Two clients come, with the sockets 5 and 6. -/
theorem exists_twoClients :
    let s₀ : ClientMgr := ⟨⟨fun _ => ⟨0, 0⟩, 0⟩, ⟨fun _ => none, fun _ => none⟩, none⟩
    ∃ s rets c d, run (ClientMgr.step maxSinkNum) (commLinklistInit true s₀)
        [.insert 10 20 5 [], .insert 11 21 6 []] = some (s, rets) ∧
      ClientInv s [c, d] ∧ c.connect.skt = 5 ∧ d.connect.skt = 6 := by
  intro s₀
  have has : EachStep (ClientMgr.step maxSinkNum) (ClientMgr.Permitted maxSinkNum)
      (commLinklistInit true s₀) [.insert 10 20 5 [], .insert 11 21 6 []] := by decide +kernel
  obtain ⟨s, rets, hrun, cs, h⟩ := ClientMgr.run_inv (Nat.le_refl maxSinkNum) s₀ has
  have hskts : (run (ClientMgr.step maxSinkNum) (commLinklistInit true s₀)
      [.insert 10 20 5 [], .insert 11 21 6 []]).bind (fun r =>
        (r.1.clients maxSinkNum).map fun vs => vs.map fun v => v.2.skt) = some [5, 6] := by
    decide +kernel
  rw [hrun, Option.bind_some, h.clients_eq (Nat.le_refl maxSinkNum), Option.map_some,
    Option.some.injEq, List.map_map] at hskts
  obtain ⟨c, cs, rfl, hc, hcs⟩ := List.map_eq_cons_iff.1 hskts
  obtain ⟨d, ds, rfl, hd, hds⟩ := List.map_eq_cons_iff.1 hcs
  obtain rfl := List.map_eq_nil_iff.1 hds
  exact ⟨s, rets, c, d, hrun, h, hc, hd⟩

/-- Of two clients the last one is gone: the first one is left. -/
theorem travelDlinklist_last_removed :
    let s₀ : ClientMgr := ⟨⟨fun _ => ⟨0, 0⟩, 0⟩, ⟨fun _ => none, fun _ => none⟩, none⟩
    let io : Sockets Unit := ⟨fun _ skt => skt == 6, fun w _ => (w, 0, 0), fun w _ => w⟩
    ∃ s rets xs, run (ClientMgr.step maxSinkNum) (commLinklistInit true s₀)
        [.insert 10 20 5 [], .insert 11 21 6 []] = some (s, rets) ∧ xs.length = 2 ∧
      Survives listNodes listPhead maxSinkNum (commRecvCallback io maxSinkNum) (s, ()) xs := by
  intro s₀ io
  obtain ⟨s, rets, c, d, hrun, h, hc, -⟩ := exists_twoClients
  have hin : ClientsIn s ([] ++ c :: [d]) _ := clientInv_iff.1 h
  have hspared : EachStep (visitStep (commRecvCallback io maxSinkNum).visit)
      (Spares listNodes (commRecvCallback io maxSinkNum).visit) (s, ()) [c.node] := by
    refine eachStep_cons.2 ⟨fun t ht => ?_, fun _ _ _ => EachStep.nil _ _⟩
    obtain ⟨t', hvisit, hkept⟩ := commRecvCallback_kept io maxSinkNum (w := ()) hin (by simp [io, hc])
    obtain rfl : t' = t := Option.some.inj (hvisit.symm.trans ht)
    have hring := (ownUnlink_commRecvCallback io (Nat.le_refl maxSinkNum)).ring hkept
    obtain ⟨p, q, hnode⟩ := hring.exists_node (x := c.node) (by simp)
    rw [show listNodes t' c.node.1 = _ from hnode]
    exact Option.some_ne_none _
  exact ⟨s, rets, [c, d].map Client.node, hrun, rfl,
    (travelDlinklist_survives_iff (ownUnlink_commRecvCallback io (Nat.le_refl maxSinkNum))
      ⟨[c, d], _, hin, rfl⟩ (by simp [maxSinkNum])).2 hspared⟩

/-- Of two clients the first one is gone: its node is read when it is freed. -/
theorem travelDlinklist_first_removed :
    let s₀ : ClientMgr := ⟨⟨fun _ => ⟨0, 0⟩, 0⟩, ⟨fun _ => none, fun _ => none⟩, none⟩
    let io : Sockets Unit := ⟨fun _ skt => skt == 5, fun w _ => (w, 0, 0), fun w _ => w⟩
    ∃ s rets xs, run (ClientMgr.step maxSinkNum) (commLinklistInit true s₀)
        [.insert 10 20 5 [], .insert 11 21 6 []] = some (s, rets) ∧ ListOf (s, ()) xs ∧
      ∀ fuel, commLinklistTravel fuel (commRecvCallback io maxSinkNum) (s, ()) = none ∧
        ¬ Survives listNodes listPhead fuel (commRecvCallback io maxSinkNum) (s, ()) xs := by
  intro s₀ io
  obtain ⟨s, rets, c, d, hrun, h, hc, -⟩ := exists_twoClients
  have hin : ClientsIn s ([] ++ c :: [d]) _ := clientInv_iff.1 h
  have hpfn := ownUnlink_commRecvCallback io (Nat.le_refl maxSinkNum)
  have hlist : ListOf (s, ()) ([] ++ c.node :: [d.node]) := ⟨[c, d], _, hin, rfl⟩
  obtain ⟨t, hvisit, -, hgone⟩ := commRecvCallback_gone io (Nat.le_refl maxSinkNum) (w := ()) hin
    (by simp [io, hc]) (Int.le_refl 0)
  have hnot : ¬ EachStep (visitStep (commRecvCallback io maxSinkNum).visit)
      (Spares listNodes (commRecvCallback io maxSinkNum).visit) (s, ()) [c.node] :=
    fun hall => (eachStep_cons.1 hall).1 t hvisit hgone
  have htour := hpfn.tour_of_not_spared hlist hnot
  have htravel : ∀ fuel, travelDlinklist listNodes listPhead fuel
      (commRecvCallback io maxSinkNum) (s, ()) = none := by
    intro fuel
    rw [travelDlinklist, show listPhead (s, ()) = some c.node.1 from hpfn.first hlist]
    simp only [htour fuel, Option.map_none]
  obtain ⟨plst, hplst, -⟩ := h.list
  refine ⟨s, rets, _, hrun, hlist, fun fuel => ⟨?_, ?_⟩⟩
  · simp only [commLinklistTravel, hplst, htravel fuel]
  · rintro ⟨t, hsome, -⟩
    rw [htravel fuel] at hsome
    cases hsome

end XToolkits.Comm
