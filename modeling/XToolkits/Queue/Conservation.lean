import XToolkits.Ipc.Data
import XToolkits.Queue.Queue

set_option autoImplicit false

/-! # No push is returned twice, and none vanishes

The entry table of the queue is that of the packet ring, so a run of the queue is a run of the ring
(`queueStep_toShm`), and the log of its events knows which pushes were returned, wait or are lost.
What is added here are the headers: the header record of an entry in which a push waits is that of
the push, since a push writes the record of its own entry only. -/

namespace XToolkits.Queue

open XToolkits.Ipc

variable {N headerSize size total : Nat} {tr : List QueueEvent} {s s' : ShmSys}

/-! ## The queue as a packet ring -/

/-- The event without the header. -/
def QueueEvent.toShm : QueueEvent → ShmEvent
  | .pushed entry offset _ payload => .sent entry offset payload
  | .popped r => .received r
  | .refused => .refused
  | .stuck => .stuck

/-- The step of the ring. -/
def QueueAction.toShm : QueueAction → ShmAction
  | .push header payload => .send (some header) payload
  | .popStart len => .recvStart len
  | .popWake => .recvWake

theorem slotTrace_toShm (tr : List QueueEvent) :
    slotTrace (tr.map QueueEvent.toShm) = tableTrace tr := by
  induction tr with
  | nil => rfl
  | cons e tr ih =>
      rw [List.map_cons, slotTrace, List.flatMap_cons, ← slotTrace, ih, tableTrace, tableTrace,
        List.filterMap_cons]
      cases e <;> rfl

theorem toShm_ofShm (header : List UInt8) (es : List ShmEvent) :
    (es.map (QueueEvent.ofShm header)).map QueueEvent.toShm = es := by
  rw [List.map_map]
  refine (List.map_congr_left fun e _ => ?_).trans (List.map_id es)
  cases e <;> rfl

/-- **A step of the queue is a step of the ring.** -/
theorem queueStep_toShm {a : QueueAction} {es : List QueueEvent}
    (hstep : queueStep s a = some (s', es)) :
    shmStep s a.toShm = some (s', es.map QueueEvent.toShm) := by
  cases a with
  | push header payload =>
      simp only [queueStep] at hstep
      simp only [QueueAction.toShm, shmStep]
      split at hstep
      · case isTrue h =>
          obtain ⟨rfl, rfl⟩ := Prod.mk.inj (Option.some.inj hstep)
          rw [if_pos h]
          rfl
      · case isFalse h =>
          obtain ⟨rfl, rfl⟩ := Prod.mk.inj (Option.some.inj hstep)
          rw [if_neg h]
          rfl
  | popStart len =>
      obtain ⟨r, hr, heq⟩ := Option.map_eq_some_iff.1 hstep
      obtain ⟨rfl, rfl⟩ := Prod.mk.inj heq
      rw [toShm_ofShm]
      exact hr
  | popWake =>
      obtain ⟨r, hr, heq⟩ := Option.map_eq_some_iff.1 hstep
      obtain ⟨rfl, rfl⟩ := Prod.mk.inj heq
      rw [toShm_ofShm]
      exact hr

/-! ## The pushes of a trace and its log -/

@[simp] theorem pushes_concat (tr : List QueueEvent) (e : QueueEvent) :
    pushes (tr ++ [e]) = pushes tr ++ e.push?.toList := by
  rw [pushes, List.filterMap_append]
  cases h : e.push? <;> simp [pushes, h]

@[simp] theorem tableTrace_concat (tr : List QueueEvent) (e : QueueEvent) :
    tableTrace (tr ++ [e]) = tableTrace tr ++ e.slotEvent?.toList := by
  rw [tableTrace, List.filterMap_append]
  cases h : e.slotEvent? <;> simp [tableTrace, h]

theorem queueLog_pushed (tr : List QueueEvent) (entry offset : Nat) (header payload : List UInt8) :
    queueLog (tr ++ [.pushed entry offset header payload]) =
      (queueLog tr).apply (.fill entry ⟨offset, payload⟩) := by
  rw [queueLog, tableTrace_concat, QueueEvent.slotEvent?, Option.toList_some,
    SlotLog.ofTrace_concat, queueLog]

theorem queueLog_popped (tr : List QueueEvent) (r : RecvResult) :
    queueLog (tr ++ [.popped r]) = (queueLog tr).apply (.take r.entry ⟨r.offset, r.copied⟩) := by
  rw [queueLog, tableTrace_concat, QueueEvent.slotEvent?, Option.toList_some,
    SlotLog.ofTrace_concat, queueLog]

/-- The log has the entry and the payload of every push. -/
theorem log_pushes (tr : List QueueEvent) :
    SlotLog.slotsOf (tableTrace tr) = (pushes tr).map Push.entry ∧
      (queueLog tr).written.map Placed.bytes = (pushes tr).map Push.payload := by
  induction tr using List.reverseRecOn with
  | nil => exact ⟨rfl, rfl⟩
  | append_singleton tr e ih =>
      obtain ⟨hslots, hbytes⟩ := ih
      cases e with
      | pushed entry offset header payload =>
          rw [queueLog_pushed, tableTrace_concat, pushes_concat]
          simp [QueueEvent.slotEvent?, QueueEvent.push?, SlotLog.apply, hslots, hbytes]
      | popped r =>
          rw [queueLog_popped, tableTrace_concat, pushes_concat]
          simp [QueueEvent.slotEvent?, QueueEvent.push?, SlotLog.apply, hslots, hbytes]
      | refused =>
          rw [queueLog, tableTrace_concat, pushes_concat]
          simpa [QueueEvent.slotEvent?, QueueEvent.push?] using ⟨hslots, hbytes⟩
      | stuck =>
          rw [queueLog, tableTrace_concat, pushes_concat]
          simpa [QueueEvent.slotEvent?, QueueEvent.push?] using ⟨hslots, hbytes⟩

theorem length_pushes (tr : List QueueEvent) : (pushes tr).length = (queueLog tr).written.length := by
  have h := congrArg List.length (log_pushes tr).2
  rw [List.length_map, List.length_map] at h
  exact h.symm

/-- A push in the log, with its entry and its payload. -/
theorem exists_push {e : Stored Placed}
    (he : e ∈ (queueLog tr).taken ++ (queueLog tr).live ++ SlotLog.lostOf (tableTrace tr)) :
    ∃ q, (pushes tr)[e.seq]? = some q ∧ q.entry = e.slot ∧ q.payload = e.pkt.bytes := by
  obtain ⟨hslots, hbytes⟩ := log_pushes tr
  have hacc := SlotLog.accounted (tableTrace tr)
  have hslot := hacc.slot e he
  have hpkt := congrArg (Option.map Placed.bytes) (hacc.pkt e he)
  rw [hslots, List.getElem?_map] at hslot
  rw [← List.getElem?_map, ← queueLog, hbytes, List.getElem?_map] at hpkt
  obtain ⟨q, hq, hentry⟩ := Option.map_eq_some_iff.1 hslot
  rw [hq, Option.map_some, Option.map_some, Option.some.injEq] at hpkt
  exact ⟨q, hq, hentry, hpkt⟩

/-! ## Steps -/

/-- What a pop hands out: the length and the header of a push that waits, which is returned by it. -/
def Returns (pre : List QueueEvent) : QueueEvent → Prop
  | .popped r => ∃ n ∈ unread pre, ∃ q, (pushes pre)[n]? = some q ∧ r.rev = q.payload.length ∧
      r.header = q.header ∧ returned (pre ++ [.popped r]) = returned pre ++ [n]
  | _ => True

/-- A payload is written inside a data area of `total` bytes. -/
def Inside (total : Nat) : QueueEvent → Prop
  | .pushed _ offset _ payload => offset + payload.length ≤ total
  | _ => True

/-- The queue and its reader against the trace so far. -/
structure QueueInv (N headerSize size total : Nat) (tr : List QueueEvent) (s : ShmSys) : Prop where
  sys : SysInv N size (tr.map QueueEvent.toShm) s
  record : s.ring.headerSize = headerSize
  headers : ∀ e ∈ (queueLog tr).live, ∀ q, (pushes tr)[e.seq]? = some q →
    s.ring.headers.read ↑(e.slot * headerSize) headerSize = q.header
  totalSize : s.ring.bufTotalSize = total
  next : s.ring.bufNextWriteOffset ≤ total
  sizes : ∀ q ∈ pushes tr, q.payload.length ≤ size
  returns : EachEvent Returns tr
  inside : ∀ e ∈ tr, Inside total e

theorem QueueInv.table (h : QueueInv N headerSize size total tr s) : TbsbInv N s.ring (queueLog tr) := by
  have htable := h.sys.table
  rwa [slotTrace_toShm] at htable

theorem map_toShm_eq_received {es : List QueueEvent} {r : RecvResult}
    (h : es.map QueueEvent.toShm = [.received r]) : es = [.popped r] := by
  obtain ⟨e, rfl, he⟩ := List.map_eq_singleton_iff.1 h
  cases e with
  | popped r' =>
      cases he
      rfl
  | _ => cases he

/-- A pop waits when no push does, and otherwise takes one that waits. -/
theorem QueueInv.pop_cases (hsize : 1 ≤ size) (h : QueueInv N headerSize size total tr s)
    {b : ShmAction} {es : List QueueEvent} (hrecv : b.IsRecv) (hb : b.Valid size)
    (hstep : shmStep s b = some (s', es.map QueueEvent.toShm)) :
    ((∃ n, s' = ⟨freeBeingUsed s.ring, some n⟩) ∧ es = []) ∨
    (∃ n, size ≤ n ∧ ∃ e ∈ (queueLog tr).live,
      s' = ⟨markBeingUsed (freeBeingUsed s.ring) e.slot, none⟩ ∧
      es = [.popped (recvResult (freeBeingUsed s.ring) e.slot n)]) := by
  rcases h.sys.step_cases hsize hb hstep with ⟨header, packet, rfl, -⟩ | ⟨-, n, -, -, rfl, hes⟩ |
      ⟨-, n, hn, e, he, -, rfl, hes⟩
  · exact absurd hrecv id
  · exact Or.inl ⟨⟨n, rfl⟩, List.map_eq_nil_iff.1 hes⟩
  · rw [slotTrace_toShm] at he
    exact Or.inr ⟨n, hn, e, he, rfl, map_toShm_eq_received hes⟩

/-- **What a step can do.** A call with a size of zero is refused; a push goes to an entry; a pop
    waits when no push does, and otherwise takes one that waits. -/
theorem QueueInv.step_cases (hsize : 1 ≤ size) {a : QueueAction} {es : List QueueEvent}
    (ha : a.Valid headerSize size) (h : QueueInv N headerSize size total tr s)
    (hstep : queueStep s a = some (s', es)) :
    (s' = s ∧ es = [.refused]) ∨
    (∃ header payload, a = .push header payload ∧ header.length = headerSize ∧
      1 ≤ payload.length ∧ payload.length ≤ size ∧
      s' = { s with ring := (tbsbWriteOnePacket s.ring (some header) payload).1 } ∧
      es = [.pushed (curWriteIndex s.ring) (curPacketWriteOffset s.ring payload.length) header
        payload]) ∨
    (a.toShm.Valid size ∧ (∃ n, s' = ⟨freeBeingUsed s.ring, some n⟩) ∧ es = []) ∨
    (a.toShm.Valid size ∧ ∃ n, size ≤ n ∧ ∃ e ∈ (queueLog tr).live,
      s' = ⟨markBeingUsed (freeBeingUsed s.ring) e.slot, none⟩ ∧
      es = [.popped (recvResult (freeBeingUsed s.ring) e.slot n)]) := by
  have hshm := queueStep_toShm hstep
  cases a with
  | push header payload =>
      simp only [queueStep] at hstep
      split at hstep
      · obtain ⟨rfl, rfl⟩ := Prod.mk.inj (Option.some.inj hstep)
        exact Or.inl ⟨rfl, rfl⟩
      · case isFalse hlen =>
          obtain ⟨rfl, rfl⟩ := Prod.mk.inj (Option.some.inj hstep)
          exact Or.inr (Or.inl ⟨header, payload, rfl, ha.1, Nat.one_le_iff_ne_zero.2 hlen, ha.2,
            rfl, rfl⟩)
  | popStart len =>
      rcases ha with rfl | hlen
      · simp only [queueStep, queuePopStart, shmStep] at hstep
        split at hstep
        · cases hstep
        · obtain ⟨rfl, rfl⟩ := Prod.mk.inj (Option.some.inj hstep)
          exact Or.inl ⟨rfl, rfl⟩
      · exact Or.inr (Or.inr ((h.pop_cases (b := .recvStart len) hsize trivial hlen hshm).imp
          (And.intro hlen) (And.intro hlen)))
  | popWake =>
      exact Or.inr (Or.inr ((h.pop_cases (b := .recvWake) hsize trivial trivial hshm).imp
        (And.intro trivial) (And.intro trivial)))

/-! ## Headers and the data area -/

theorem freeBeingUsed_headers (p : Shm) : (freeBeingUsed p).headers = p.headers ∧
    (freeBeingUsed p).headerSize = p.headerSize := by
  unfold freeBeingUsed
  split <;> exact ⟨rfl, rfl⟩

/-- A push writes the header record of its own entry only. -/
theorem QueueInv.headers_push (h : QueueInv N headerSize size total tr s) {header : List UInt8}
    (hheader : header.length = headerSize) {payload : List UInt8} (hlen : 1 ≤ payload.length) :
    ∀ e ∈ (queueLog (tr ++ [.pushed (curWriteIndex s.ring)
        (curPacketWriteOffset s.ring payload.length) header payload])).live,
      ∀ q, (pushes (tr ++ [.pushed (curWriteIndex s.ring)
        (curPacketWriteOffset s.ring payload.length) header payload]))[e.seq]? = some q →
      (tbsbWriteOnePacket s.ring (some header) payload).1.headers.read ↑(e.slot * headerSize)
        headerSize = q.header := by
  subst hheader
  rw [tbsbWriteOnePacket, if_neg (by omega), queueLog_pushed, pushes_concat, QueueEvent.push?,
    Option.toList_some]
  show ∀ e ∈ _, ∀ q, _ → (s.ring.headers.write _ (header.take s.ring.headerSize)).read _ _ = _
  rw [h.record, List.take_length]
  refine SlotLog.forall_live_fill (fun e he hne q hq => ?_) fun q hq => ?_
  · rw [Mem.read_write_of_disjoint]
    · refine h.headers e he q ?_
      have hseq := (SlotLog.wf_ofTrace (tableTrace tr)).seq_lt he
      rwa [List.getElem?_append_left (by rw [length_pushes]; exact hseq)] at hq
    · exact Mem.disjoint_records hne.symm (Nat.le_refl _) (Nat.le_refl _)
  · rw [← length_pushes, List.getElem?_concat_length, Option.some.injEq] at hq
    subst hq
    exact Mem.read_write_self ..

/-- The offset of a payload, and the one behind it. -/
theorem QueueInv.next_push (h : QueueInv N headerSize size total tr s) (hsmall : total < 2 ^ 31)
    (header : Option (List UInt8)) {payload : List UInt8} (hlen : 1 ≤ payload.length)
    (hle : payload.length ≤ total) :
    curPacketWriteOffset s.ring payload.length + payload.length ≤ total ∧
      (tbsbWriteOnePacket s.ring header payload).1.bufNextWriteOffset ≤ total := by
  have hnext := h.next
  have hfit : curPacketWriteOffset s.ring payload.length + payload.length ≤ total := by
    rw [curPacketWriteOffset, h.totalSize, u32_of_lt (by omega)]
    split <;> omega
  refine ⟨hfit, ?_⟩
  rw [tbsbWriteOnePacket, if_neg (by omega)]
  show (if u32 _ ≥ s.ring.bufTotalSize then u32 _ - s.ring.bufTotalSize else u32 _) ≤ total
  rw [u32_of_lt (by omega)]
  split <;> omega

/-! ## Runs -/

/-- A step with a call that is refused. -/
theorem QueueInv.refuse (h : QueueInv N headerSize size total tr s) :
    QueueInv N headerSize size total (tr ++ [.refused]) s := by
  have htrace : tableTrace (tr ++ [.refused]) = tableTrace tr := by simp [QueueEvent.slotEvent?]
  have hpushes : pushes (tr ++ [.refused]) = pushes tr := by simp [QueueEvent.push?]
  have hlog : queueLog (tr ++ [.refused]) = queueLog tr := congrArg SlotLog.ofTrace htrace
  refine ⟨⟨?_, h.sys.waiting, ?_⟩, h.record, ?_, h.totalSize, h.next, ?_, ?_, ?_⟩
  · rw [slotTrace_toShm, htrace]
    exact h.table
  · simpa [QueueEvent.toShm] using h.sys.live
  · rw [hlog, hpushes]
    exact h.headers
  · rw [hpushes]
    exact h.sizes
  · exact eachEvent_concat.2 ⟨h.returns, trivial⟩
  · exact List.forall_mem_append.2 ⟨h.inside, List.forall_mem_singleton.2 trivial⟩

/-- A pop hands out the push that waits in the entry. -/
theorem QueueInv.returns_pop (h : QueueInv N headerSize size total tr s) {e : Stored Placed}
    (he : e ∈ (queueLog tr).live) {n : Nat} (hn : size ≤ n) :
    Returns tr (.popped (recvResult (freeBeingUsed s.ring) e.slot n)) := by
  obtain ⟨hheaders, hrecord⟩ := freeBeingUsed_headers s.ring
  obtain ⟨q, hq, -, hpayload⟩ := exists_push (by simp [he] : e ∈ _ ++ (queueLog tr).live ++ _)
  have hlen := h.sizes q (List.mem_of_getElem? hq)
  rw [hpayload] at hlen
  have hres := recvResult_of_le h.table.free he (Nat.le_trans hlen hn)
  refine ⟨e.seq, List.mem_map_of_mem he, q, hq, ?_, ?_, ?_⟩
  · rw [hres, hpayload]
  · rw [hres, hheaders, hrecord, h.record]
    exact h.headers e he q hq
  · have hwf : (queueLog tr).WF := SlotLog.wf_ofTrace (tableTrace tr)
    rw [returned, queueLog_popped]
    show ((queueLog tr).taken ++ (queueLog tr).live.filter (fun a => a.slot = e.slot)).map
      Stored.seq = _
    rw [hwf.filter_slot he, List.map_append]
    rfl

/-- Every step keeps the invariant. -/
theorem QueueInv.step (hN : 2 ≤ N) (hsize : 1 ≤ size) (hle : size ≤ total) (hsmall : total < 2 ^ 31)
    {a : QueueAction} {es : List QueueEvent} (ha : a.Valid headerSize size)
    (h : QueueInv N headerSize size total tr s) (hstep : queueStep s a = some (s', es)) :
    QueueInv N headerSize size total (tr ++ es) s' := by
  obtain ⟨hheaders, hrecord⟩ := freeBeingUsed_headers s.ring
  obtain ⟨-, hnext, htotal⟩ := freeBeingUsed_data s.ring
  have hsys : a.toShm.Valid size → SysInv N size ((tr ++ es).map QueueEvent.toShm) s' := fun hv => by
    rw [List.map_append]
    exact h.sys.step hN hsize hv (queueStep_toShm hstep)
  rcases h.step_cases hsize ha hstep with ⟨rfl, rfl⟩ |
      ⟨header, payload, rfl, hheader, hlen, hlen', rfl, rfl⟩ | ⟨hv, ⟨n, rfl⟩, rfl⟩ |
      ⟨hv, n, hn, e, he, rfl, rfl⟩
  · exact h.refuse
  · obtain ⟨hfit, hnext'⟩ := h.next_push hsmall (some header) hlen (by omega)
    refine ⟨hsys ⟨hlen, hlen'⟩, ?_, h.headers_push hheader hlen, ?_, hnext', ?_, ?_, ?_⟩
    · show (tbsbWriteOnePacket s.ring (some header) payload).1.headerSize = headerSize
      rw [tbsbWriteOnePacket, if_neg (by omega)]
      exact h.record
    · show (tbsbWriteOnePacket s.ring (some header) payload).1.bufTotalSize = total
      rw [tbsbWriteOnePacket, if_neg (by omega)]
      exact h.totalSize
    · rw [pushes_concat]
      exact List.forall_mem_append.2 ⟨h.sizes, List.forall_mem_singleton.2 hlen'⟩
    · exact eachEvent_concat.2 ⟨h.returns, trivial⟩
    · exact List.forall_mem_append.2 ⟨h.inside, List.forall_mem_singleton.2 hfit⟩
  · have hsys := hsys hv
    rw [List.append_nil] at hsys ⊢
    refine ⟨hsys, hrecord.trans h.record, ?_, htotal.trans h.totalSize, ?_, h.sizes, h.returns,
      h.inside⟩
    · show ∀ e ∈ _, ∀ q, _ → (freeBeingUsed s.ring).headers.read _ _ = _
      rw [hheaders]
      exact h.headers
    · exact hnext.trans_le h.next
  · refine ⟨hsys hv, hrecord.trans h.record, ?_, htotal.trans h.totalSize, hnext.trans_le h.next,
      ?_, eachEvent_concat.2 ⟨h.returns, h.returns_pop he hn⟩, ?_⟩
    · show ∀ e ∈ _, ∀ q, _ → (freeBeingUsed s.ring).headers.read _ _ = _
      rw [hheaders, queueLog_popped, pushes_concat]
      intro b hb q hq
      exact h.headers b (SlotLog.mem_others.1 hb).1 q (by simpa [QueueEvent.push?] using hq)
    · rw [pushes_concat]
      simpa [QueueEvent.push?] using h.sizes
    · exact List.forall_mem_append.2 ⟨h.inside, List.forall_mem_singleton.2 trivial⟩

theorem queueInv_creat (hN : 0 < N) {packetSize : Nat} {ring : Shm}
    (hring : queueCreat N packetSize headerSize = some ring) :
    QueueInv N headerSize size (packetSize * N) [] ⟨ring, none⟩ := by
  simp only [queueCreat] at hring
  split at hring
  · cases hring
    exact ⟨⟨tbsbInv_init _ _ hN, by simp, by simp⟩, rfl, by simp [queueLog, tableTrace, SlotLog.empty],
      rfl, Nat.zero_le _, by simp [pushes], EachEvent.nil _, by simp⟩
  · cases hring

/-- Every run keeps the invariant. -/
theorem QueueInv.run (hN : 2 ≤ N) (hsize : 1 ≤ size) {packetSize : Nat}
    (hle : size ≤ packetSize * N) {ring : Shm}
    (hring : queueCreat N packetSize headerSize = some ring) {as : List QueueAction}
    (hvalid : ∀ a ∈ as, a.Valid headerSize size) (hrun : run queueStep ⟨ring, none⟩ as = some (s, tr)) :
    QueueInv N headerSize size (packetSize * N) tr s := by
  have hsmall : packetSize * N < 2 ^ 31 := by
    simp only [queueCreat] at hring
    split at hring
    · omega
    · cases hring
  exact run_induction (·.Valid headerSize size) (QueueInv N headerSize size (packetSize * N))
    (queueInv_creat (by omega) hring)
    (fun _ _ _ _ _ ha h hstep => h.step hN hsize hle hsmall ha hstep) hvalid hrun

/-- A push does not go to the entry being used. -/
def SparesUsed (s : ShmSys) : QueueAction → Prop
  | .push _ _ => s.ring.shmIndexForBeingUsed ≠ some (curWriteIndex s.ring)
  | _ => True

/-- Every push is in one of three states. The numbers of the pushes are those of the pushes returned,
    of those that wait and of those that are lost, each once. A push that waits is in a valid entry
    that is not being used, and in every such entry one waits; a push that is lost was followed by
    one to the same entry. -/
structure Conserved (N : Nat) (tr : List QueueEvent) (ring : Shm) : Prop where
  once : (returned tr ++ unread tr ++ lost tr).Perm (List.range (pushes tr).length)
  waits : ∀ n ∈ unread tr, ∃ q, (pushes tr)[n]? = some q ∧ q.entry < N ∧ ring.Unread q.entry ∧
    (ring.packets q.entry).packetSize = q.payload.length ∧
    ring.headers.read ↑(q.entry * ring.headerSize) ring.headerSize = q.header
  entry : ∀ i < N, ring.Unread i → ∃ n ∈ unread tr, ∃ q, (pushes tr)[n]? = some q ∧ q.entry = i
  reused : ∀ n ∈ lost tr, ∃ q, (pushes tr)[n]? = some q ∧
    ∃ k, n < k ∧ ∃ q', (pushes tr)[k]? = some q' ∧ q'.entry = q.entry

theorem QueueInv.conserved (h : QueueInv N headerSize size total tr s) : Conserved N tr s.ring := by
  have hacc := SlotLog.accounted (tableTrace tr)
  constructor
  · have hperm := hacc.perm
    rw [List.map_append, List.map_append, ← queueLog, ← length_pushes] at hperm
    exact hperm
  · rintro n hn
    obtain ⟨e, he, rfl⟩ := List.mem_map.1 hn
    obtain ⟨q, hq, hentry, hpayload⟩ := exists_push (by simp [he] : e ∈ _ ++ (queueLog tr).live ++ _)
    have hlt := h.table.slot_lt e he
    refine ⟨q, hq, ?_, ?_, ?_, ?_⟩ <;> rw [hentry]
    · exact hlt
    · exact (h.table.unread_iff hlt).2 ⟨e, he, rfl⟩
    · rw [h.table.entry e he, hpayload]
    · rw [h.record]
      exact h.headers e he q hq
  · rintro i hi hunread
    obtain ⟨e, he, rfl⟩ := (h.table.unread_iff hi).1 hunread
    obtain ⟨q, hq, hentry, -⟩ := exists_push (by simp [he] : e ∈ _ ++ (queueLog tr).live ++ _)
    exact ⟨e.seq, List.mem_map_of_mem he, q, hq, hentry⟩
  · rintro n hn
    obtain ⟨e, he, rfl⟩ := List.mem_map.1 hn
    obtain ⟨q, hq, hentry, -⟩ := exists_push (by simp [he] : e ∈ _ ++ SlotLog.lostOf (tableTrace tr))
    obtain ⟨k, hk, hslot⟩ := hacc.later e he
    rw [(log_pushes tr).1, List.getElem?_map] at hslot
    obtain ⟨q', hq', hentry'⟩ := Option.map_eq_some_iff.1 hslot
    exact ⟨q, hq, k, hk, q', hq', by rw [hentry', hentry]⟩

/-- **No push is returned twice, and none vanishes.** On a queue of two entries or more, with any
    number of pushing threads and one that pops, after every run: every pop returned the length and
    the header of one push made before that waited, and that push then counts as returned; every
    push is returned, waits or is lost, exactly one of them; no push goes to the entry being used;
    no payload leaves the data area, and no pop hangs. -/
theorem queue_conservation (packetNum packetSize headerSize size : Nat) (hnum : 2 ≤ packetNum)
    (hsize : 1 ≤ size) (hle : size ≤ packetSize * packetNum) (ring : Shm)
    (hring : queueCreat packetNum packetSize headerSize = some ring) (as : List QueueAction)
    (s : ShmSys) (tr : List QueueEvent) (hvalid : ∀ a ∈ as, a.Valid headerSize size)
    (hrun : run queueStep ⟨ring, none⟩ as = some (s, tr)) :
    EachEvent Returns tr ∧ Conserved packetNum tr s.ring ∧
      EachStep queueStep SparesUsed ⟨ring, none⟩ as ∧
      (∀ e ∈ tr, Inside (packetSize * packetNum) e) ∧ QueueEvent.stuck ∉ tr := by
  have inv := QueueInv.run hnum hsize hle hring hvalid hrun
  refine ⟨inv.returns, inv.conserved, ?_, inv.inside, ?_⟩
  · rintro pre a post s₁ tr₁ rfl hpre
    have inv₁ := QueueInv.run hnum hsize hle hring
      (fun b hb => hvalid b (List.mem_append_left _ hb)) hpre
    cases a with
    | push header payload => exact inv₁.table.entry_ne_used hnum
    | popStart len => trivial
    | popWake => trivial
  · intro hmem
    exact inv.sys.live (List.mem_map_of_mem (f := QueueEvent.toShm) hmem)

/-- The third push goes over the first one; the two others are returned. -/
theorem queue_conservation_three : ∃ ring s tr, queueCreat 2 1 1 = some ring ∧
    run queueStep ⟨ring, none⟩ [.push [1] [10], .push [2] [20], .push [3] [30], .popStart 1,
      .popStart 1] = some (s, tr) ∧
    returned tr = [2, 1] ∧ lost tr = [0] ∧ Conserved 2 tr s.ring :=
  ⟨_, _, _, rfl, rfl, by decide, by decide,
    (queue_conservation 2 1 1 1 (by decide) (by decide) (by decide) _ rfl
      [.push [1] [10], .push [2] [20], .push [3] [30], .popStart 1, .popStart 1] _ _
      (by simp [QueueAction.Valid]) rfl).2.1⟩

end XToolkits.Queue
