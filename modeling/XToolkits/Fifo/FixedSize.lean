import XToolkits.Fifo.Entries
import XToolkits.Fifo.ZeroCopy

set_option autoImplicit false

/-! # Packets of one size

Entries and data positions go round with different periods: a write takes the next entry that is not
in use, and the next of the `M` positions of `size` bytes that the buffer has room for. Since the
last flush, write `k` went to position `k % M`. An unread entry is at most `N` writes old, and less
than that when it is not the one to be written next (`Kept.age`), so with `N ≤ M` positions no write
comes round to its data. -/

namespace XToolkits.Fifo

/-! ## What was written -/

/-- The last write to an entry since the last flush, with its number. -/
structure LastWrite where
  seq : Nat
  header : List UInt8
  packet : List UInt8
  deriving DecidableEq, Repr

/-- The number of writes since the last flush, and the last one to every entry. -/
structure WriteLog where
  count : Nat
  last : Nat → Option LastWrite

/-- The log before the first write. -/
def WriteLog.empty : WriteLog := ⟨0, fun _ => none⟩

/-- The log after one more event. -/
def WriteLog.apply (l : WriteLog) : FifoEvent → WriteLog
  | .wrote entry header packet =>
      ⟨l.count + 1, Function.update l.last entry (some ⟨l.count, header, packet⟩)⟩
  | .flushed => .empty
  | _ => l

/-- The log of a trace. -/
def writeLog (tr : List FifoEvent) : WriteLog := tr.foldl WriteLog.apply .empty

@[simp] theorem writeLog_concat (tr : List FifoEvent) (e : FifoEvent) :
    writeLog (tr ++ [e]) = (writeLog tr).apply e := by
  simp [writeLog]

/-- What puts an end to the packet of entry `i`: another write to it, or a flush. -/
def FifoEvent.Ends (i : Nat) : FifoEvent → Prop
  | .wrote entry _ _ => entry = i
  | .flushed => True
  | _ => False

/-- The last write to an entry is in the trace, and nothing behind it has put an end to it. -/
theorem writeLog_last {tr : List FifoEvent} {i : Nat} {w : LastWrite}
    (h : (writeLog tr).last i = some w) :
    ∃ pre post, tr = pre ++ .wrote i w.header w.packet :: post ∧ ∀ e ∈ post, ¬ e.Ends i := by
  induction tr using List.reverseRecOn with
  | nil => simp [writeLog, WriteLog.empty] at h
  | append_singleton tr e ih =>
      rw [writeLog_concat] at h
      -- an event that leaves the entry alone
      have hold (hlast : (writeLog tr).last i = some w) (hends : ¬ e.Ends i) :
          ∃ pre post, tr ++ [e] = pre ++ .wrote i w.header w.packet :: post ∧
            ∀ e ∈ post, ¬ e.Ends i := by
        obtain ⟨pre, post, rfl, hpost⟩ := ih hlast
        refine ⟨pre, post ++ [e], by simp, fun e' he' => ?_⟩
        rcases List.mem_append.1 he' with he' | he'
        · exact hpost e' he'
        · exact List.mem_singleton.1 he' ▸ hends
      cases e with
      | wrote entry header packet =>
          by_cases hi : entry = i
          · subst hi
            simp only [WriteLog.apply, Function.update_self, Option.some.injEq] at h
            subst h
            exact ⟨tr, [], rfl, by simp⟩
          · simp only [WriteLog.apply, Function.update_of_ne (Ne.symm hi)] at h
            exact hold h hi
      | flushed => simp [WriteLog.apply, WriteLog.empty] at h
      | returned r => exact hold h id
      | stuck => exact hold h id

/-- Entry `i` holds a packet that no read has returned. -/
def EasyFifo.Unread (f : EasyFifo) (i : Nat) : Prop :=
  (f.packetInfoEntries i).entryState = .valid ∧ f.entryIndexBeingUsed ≠ some i

variable {N M size headerSize : Nat} {f : EasyFifo} {l : WriteLog} {i : Nat} {w : LastWrite}

/-- Entry `i` has the packet of write `w`, its position and its bytes. `age` bounds how many writes
    came after it by how far the write index has come since. -/
structure Kept (N M size headerSize : Nat) (f : EasyFifo) (l : WriteLog) (i : Nat) (w : LastWrite) :
    Prop where
  last : l.last i = some w
  seq_lt : w.seq < l.count
  age : l.count + cdist N f.entryIndexForNextWrite i ≤ N + w.seq
  info : f.packetInfoEntries i = ⟨w.seq % M * size, size, .valid⟩
  header : f.headerEntries.read ↑(i * headerSize) headerSize = w.header
  bytes : f.buffer.read ↑(w.seq % M * size) size = w.packet

/-- The fifo against the log of its writes, with room for `M` positions. -/
structure FixedInv (N M size headerSize : Nat) (f : EasyFifo) (l : WriteLog) : Prop where
  table : Entries N f
  record : f.headerSize = headerSize
  room : M * size ≤ f.bufferTotalSize
  full : f.bufferTotalSize < (M + 1) * size
  next : f.addrForNextWrite = l.count % M * size ∨ f.addrForNextWrite = M * size ∧ l.count % M = 0
  kept : ∀ i < N, f.Unread i → ∃ w, Kept N M size headerSize f l i w

/-! ## Where a write goes -/

/-- Write `k` goes to position `k % M`. -/
theorem FixedInv.addr (h : FixedInv N M size headerSize f l) (hM : 1 ≤ M) :
    addrForThisWrite f size = l.count % M * size := by
  have hroom := h.room
  have hfull := h.full
  rw [Nat.succ_mul] at hfull
  rw [addrForThisWrite]
  rcases h.next with hnext | ⟨hnext, hzero⟩
  · have hle : (l.count % M + 1) * size ≤ M * size := Nat.mul_le_mul_right size (Nat.mod_lt _ hM)
    rw [Nat.succ_mul] at hle
    rw [hnext, if_neg (by omega)]
  · rw [hnext, hzero, if_pos (by omega), Nat.zero_mul]

/-- The address behind the position written: the next position, or the end of the last one when
    the buffer goes on behind it. -/
theorem FixedInv.next_write (h : FixedInv N M size headerSize f l) (hM : 1 ≤ M) (hsize : 1 ≤ size)
    (header : List UInt8) {packet : List UInt8} (hlen : packet.length = size) :
    (fifoWriteOnePacket f header packet).1.addrForNextWrite = (l.count + 1) % M * size ∨
      (fifoWriteOnePacket f header packet).1.addrForNextWrite = M * size ∧
        (l.count + 1) % M = 0 := by
  have hroom := h.room
  have hlt := Nat.mod_lt l.count hM
  have hnext : (fifoWriteOnePacket f header packet).1.addrForNextWrite =
      if (l.count % M + 1) * size ≥ f.bufferTotalSize then
        (l.count % M + 1) * size - f.bufferTotalSize
      else (l.count % M + 1) * size := by
    simp only [fifoWriteOnePacket, hlen, h.addr hM, Nat.succ_mul]
  rw [hnext, ← cnext_mod hM, cnext]
  by_cases hlast : l.count % M + 1 < M
  · have hbelow : (l.count % M + 1) * size < M * size := Nat.mul_lt_mul_of_pos_right hlast hsize
    rw [if_pos hlast, if_neg (by omega)]
    exact Or.inl rfl
  · have heq : l.count % M + 1 = M := by omega
    rw [if_neg hlast, heq, Nat.zero_mul]
    split
    · exact Or.inl (Nat.sub_eq_zero_of_le hroom)
    · exact Or.inr ⟨rfl, rfl⟩

/-- Seen from the next write index, a write brings an unread entry that it does not go to one or two
    steps closer. -/
theorem FixedInv.cdist_write (h : FixedInv N M size headerSize f l) (hN : 1 ≤ N) (hi : i < N)
    (hunread : f.Unread i) (hne : i ≠ entryIndexForThisWrite f) :
    ∃ d, 1 ≤ d ∧ cdist N (cnext N (entryIndexForThisWrite f)) i + d =
      cdist N f.entryIndexForNextWrite i := by
  have hw := h.table.write_lt
  rw [entryIndexForThisWrite] at hne ⊢
  split
  · case isTrue hused =>
      rw [if_pos hused, h.table.next_eq hw] at hne
      have h1 := cdist_cnext hw hi fun heq => hunread.2 (by rw [← hused, heq])
      have h2 := cdist_cnext (cnext_lt hN) hi (Ne.symm hne)
      rw [h.table.next_eq hw]
      exact ⟨2, by omega, by omega⟩
  · case isFalse hused =>
      rw [if_neg hused] at hne
      exact ⟨1, Nat.le_refl 1, cdist_cnext hw hi (Ne.symm hne)⟩

/-- **The age of an unread entry is less than the number of positions**, unless it is written over:
    the position of a write is not its own. -/
theorem FixedInv.pos_ne (h : FixedInv N M size headerSize f l) (hN : 1 ≤ N) (hM : N ≤ M) (hi : i < N)
    (hunread : f.Unread i) (hne : i ≠ entryIndexForThisWrite f)
    (hkept : Kept N M size headerSize f l i w) : l.count % M ≠ w.seq % M := by
  obtain ⟨d, hd, hdist⟩ := h.cdist_write hN hi hunread hne
  have hseq := hkept.seq_lt
  have hage := hkept.age
  intro heq
  have hzero := Nat.sub_mod_eq_zero_of_mod_eq heq
  rw [Nat.mod_eq_of_lt (by omega)] at hzero
  omega

/-- **No write goes to the data of another unread entry.** -/
theorem FixedInv.write_disjoint (h : FixedInv N M size headerSize f l) (hN : 1 ≤ N) (hM : N ≤ M)
    {packet : List UInt8} (hlen : packet.length = size) (hi : i < N) (hunread : f.Unread i)
    (hne : i ≠ entryIndexForThisWrite f) :
    Mem.Disjoint ↑(addrForThisWrite f packet.length) packet.length
      ↑(f.packetInfoEntries i).packetAddr (f.packetInfoEntries i).packetSize := by
  obtain ⟨w, hkept⟩ := h.kept i hi hunread
  rw [hlen, h.addr (by omega), hkept.info]
  exact Mem.disjoint_records (h.pos_ne hN hM hi hunread hne hkept) (Nat.le_refl size)
    (Nat.le_refl size)

/-! ## Steps -/

theorem FixedInv.create (junk : Mem UInt8) (headerSize : Nat) {bufferSize : Nat} (hN : 1 ≤ N)
    (hsize : 1 ≤ size) :
    FixedInv N (bufferSize / size) size headerSize (fifoCreate junk bufferSize headerSize N)
      .empty where
  table := Entries.create junk bufferSize headerSize hN
  record := rfl
  room := Nat.div_mul_le_self bufferSize size
  full := (Nat.div_lt_iff_lt_mul hsize).1 (Nat.lt_succ_self _)
  next := Or.inl (by simp [fifoCreate, WriteLog.empty])
  kept := fun i _ hi => by simp [EasyFifo.Unread, fifoCreate] at hi

/-- A step that writes nothing, and leaves no entry unread that was not. -/
theorem FixedInv.frame (h : FixedInv N M size headerSize f l) {f' : EasyFifo} (htable : Entries N f')
    (hbuffer : f'.buffer = f.buffer) (htotal : f'.bufferTotalSize = f.bufferTotalSize)
    (hheaders : f'.headerEntries = f.headerEntries) (hrecord : f'.headerSize = f.headerSize)
    (hnext : f'.addrForNextWrite = f.addrForNextWrite)
    (hwrite : f'.entryIndexForNextWrite = f.entryIndexForNextWrite)
    (hunread : ∀ i, f'.Unread i →
      f.Unread i ∧ f'.packetInfoEntries i = f.packetInfoEntries i) :
    FixedInv N M size headerSize f' l where
  table := htable
  record := hrecord.trans h.record
  room := htotal ▸ h.room
  full := htotal ▸ h.full
  next := hnext ▸ h.next
  kept := fun i hi hi' => by
    obtain ⟨hold, hinfo⟩ := hunread i hi'
    obtain ⟨w, hkept⟩ := h.kept i hi hold
    exact ⟨w, { hkept with
      age := hwrite ▸ hkept.age
      info := hinfo.trans hkept.info
      header := hheaders ▸ hkept.header
      bytes := hbuffer ▸ hkept.bytes }⟩

theorem FixedInv.free (h : FixedInv N M size headerSize f l) :
    FixedInv N M size headerSize (freeLastReadPacket f) l := by
  have htable := h.table.free
  unfold freeLastReadPacket at htable ⊢
  split at htable
  · exact h
  · case h_2 u hu =>
      refine h.frame htable rfl rfl rfl rfl rfl rfl fun i hi => ?_
      have hiu : i ≠ u := by
        rintro rfl
        simp [EasyFifo.Unread] at hi
      have hne : f.entryIndexBeingUsed ≠ some i := hu ▸ fun heq => hiu (Option.some.inj heq).symm
      simp only [EasyFifo.Unread, Function.update_of_ne hiu] at hi ⊢
      exact ⟨⟨hi.1, hne⟩, trivial⟩

theorem FixedInv.take (h : FixedInv N M size headerSize f l) (hN : 1 ≤ N)
    (hused : f.entryIndexBeingUsed = none) (hi : i ∈ validEntries N f) :
    FixedInv N M size headerSize (useEntry f i) l :=
  h.frame (h.table.take hN hi) rfl rfl rfl rfl rfl rfl fun _ hj =>
    ⟨⟨hj.1, hused ▸ Option.some_ne_none _ ∘ Eq.symm⟩, rfl⟩

theorem FixedInv.flush (h : FixedInv N M size headerSize f l) (hN : 1 ≤ N) :
    FixedInv N M size headerSize (fifoFlush f) .empty where
  table := h.table.flush hN
  record := h.record
  room := h.room
  full := h.full
  next := Or.inl (by simp [fifoFlush, WriteLog.empty])
  kept := fun i hi hi' => by
    have hlast := h.table.last
    have hle : i ≤ f.lastEntryIndex := by omega
    simp [EasyFifo.Unread, fifoFlush, hle] at hi'

theorem FixedInv.write_next (h : FixedInv N M size headerSize f l) (hN : 1 ≤ N)
    (header packet : List UInt8) :
    (fifoWriteOnePacket f header packet).1.entryIndexForNextWrite =
      cnext N (entryIndexForThisWrite f) :=
  h.table.next_eq (h.table.entry_lt hN)

/-- The entry of a write has its packet. -/
theorem FixedInv.kept_self (h : FixedInv N M size headerSize f l) (hN : 1 ≤ N) (hM : N ≤ M)
    {header packet : List UInt8} (hheader : header.length = headerSize)
    (hlen : packet.length = size) :
    Kept N M size headerSize (fifoWriteOnePacket f header packet).1
      (l.apply (.wrote (entryIndexForThisWrite f) header packet)) (entryIndexForThisWrite f)
      ⟨l.count, header, packet⟩ := by
  have haddr : addrForThisWrite f size = l.count % M * size := h.addr (by omega)
  refine ⟨by simp [WriteLog.apply], Nat.lt_succ_self _, ?_, ?_, ?_, ?_⟩
  · rw [h.write_next hN, cdist_cnext_self (h.table.entry_lt hN), WriteLog.apply]
    show l.count + 1 + (N - 1) ≤ N + l.count
    omega
  · simp [fifoWriteOnePacket, hlen, haddr]
  · simp only [fifoWriteOnePacket, h.record, ← hheader, List.take_length]
    exact Mem.read_write_self _ _ _
  · simp only [fifoWriteOnePacket, hlen, haddr]
    rw [← hlen]
    exact Mem.read_write_self _ _ _

/-- The other unread entries keep theirs, and come closer to their turn. -/
theorem FixedInv.kept_other (h : FixedInv N M size headerSize f l) (hN : 1 ≤ N) (hM : N ≤ M)
    {header packet : List UInt8} (hheader : header.length = headerSize)
    (hlen : packet.length = size) (hi : i < N) (hunread : f.Unread i)
    (hne : i ≠ entryIndexForThisWrite f) (hkept : Kept N M size headerSize f l i w) :
    Kept N M size headerSize (fifoWriteOnePacket f header packet).1
      (l.apply (.wrote (entryIndexForThisWrite f) header packet)) i w := by
  obtain ⟨d, hd, hdist⟩ := h.cdist_write hN hi hunread hne
  have hdisj := h.write_disjoint hN hM hlen hi hunread hne
  have hage := hkept.age
  refine ⟨?_, Nat.lt_succ_of_lt hkept.seq_lt, ?_, ?_, ?_, ?_⟩
  · simp only [WriteLog.apply, Function.update_of_ne hne]
    exact hkept.last
  · rw [h.write_next hN, WriteLog.apply]
    show l.count + 1 + _ ≤ _
    omega
  · exact (Function.update_of_ne hne _ _).trans hkept.info
  · rw [← hkept.header]
    refine Mem.read_write_of_disjoint _ ?_
    rw [h.record, ← hheader, List.take_length]
    exact Mem.disjoint_records (Ne.symm hne) (Nat.le_refl _) (Nat.le_refl _)
  · rw [← hkept.bytes]
    rw [hkept.info] at hdisj
    exact Mem.read_write_of_disjoint _ hdisj

theorem FixedInv.write (h : FixedInv N M size headerSize f l) (hN : 1 ≤ N) (hM : N ≤ M)
    (hsize : 1 ≤ size) {header packet : List UInt8} (hheader : header.length = headerSize)
    (hlen : packet.length = size) :
    FixedInv N M size headerSize (fifoWriteOnePacket f header packet).1
      (l.apply (.wrote (entryIndexForThisWrite f) header packet)) where
  table := h.table.write hN header packet
  record := h.record
  room := h.room
  full := h.full
  next := h.next_write (by omega) hsize header hlen
  kept := fun i hi hunread' => by
    by_cases hie : i = entryIndexForThisWrite f
    · rw [hie]
      exact ⟨_, h.kept_self hN hM hheader hlen⟩
    · have hinfo : (fifoWriteOnePacket f header packet).1.packetInfoEntries i =
          f.packetInfoEntries i := Function.update_of_ne hie _ _
      have hunread : f.Unread i := ⟨hinfo ▸ hunread'.1, hunread'.2⟩
      obtain ⟨w, hkept⟩ := h.kept i hi hunread
      exact ⟨w, h.kept_other hN hM hheader hlen hi hunread hie hkept⟩

/-! ## Runs -/

/-- The fifo with its reader against the trace. -/
structure FixedSys (N M size headerSize : Nat) (tr : List FifoEvent) (s : FifoSys) : Prop where
  fixed : FixedInv N M size headerSize s.fifo (writeLog tr)
  waiting : s.waiting = true → s.fifo.entryIndexBeingUsed = none

variable {s s' : FifoSys} {a : FifoAction} {es tr : List FifoEvent}

theorem FixedSys.entries (h : FixedSys N M size headerSize tr s) : EntriesSys N s :=
  ⟨h.fixed.table, h.waiting⟩

theorem FixedSys.step (hN : 1 ≤ N) (hM : N ≤ M) (hsize : 1 ≤ size) (ha : a.Fixed size headerSize)
    (h : FixedSys N M size headerSize tr s) (hstep : fifoStep s a = some (s', es)) :
    FixedSys N M size headerSize (tr ++ es) s' := by
  rcases h.entries.step_cases hstep with ⟨header, packet, rfl, rfl, rfl⟩ | ⟨rfl, rfl⟩ |
      ⟨-, rfl, rfl⟩ | ⟨i, hi, rfl, rfl⟩
  · exact ⟨writeLog_concat tr _ ▸ h.fixed.write hN hM hsize ha.1 ha.2, h.waiting⟩
  · exact ⟨writeLog_concat tr _ ▸ h.fixed.flush hN, fun _ => rfl⟩
  · exact ⟨(List.append_nil tr).symm ▸ h.fixed.free, fun _ => freeLastReadPacket_used s.fifo⟩
  · refine ⟨writeLog_concat tr _ ▸ ?_, fun hwait => absurd hwait Bool.false_ne_true⟩
    exact h.fixed.free.take hN (freeLastReadPacket_used s.fifo) hi

theorem FixedSys.run (hN : 1 ≤ N) (hsize : 1 ≤ size) {bufferSize : Nat}
    (hbuffer : N * size ≤ bufferSize) {junk : Mem UInt8} {as : List FifoAction}
    (hfixed : ∀ a ∈ as, a.Fixed size headerSize)
    (hrun : run fifoStep (fifoSysCreate junk bufferSize headerSize N) as = some (s, tr)) :
    FixedSys N (bufferSize / size) size headerSize tr s :=
  run_induction (·.Fixed size headerSize) (FixedSys N (bufferSize / size) size headerSize)
    ⟨FixedInv.create junk headerSize hN hsize, fun _ => rfl⟩
    (fun _ _ _ _ _ ha h hstep => h.step hN ((Nat.le_div_iff_mul_le hsize).2 hbuffer) hsize ha hstep)
    hfixed hrun

/-- What a read returns is the last write to its entry. -/
theorem FixedSys.returned {r : ReadResult} (h : FixedSys N M size headerSize tr s)
    (hstep : fifoStep s a = some (s', es)) (hmem : .returned r ∈ es) :
    ∃ w, (writeLog tr).last r.entry = some w ∧ r.header = w.header ∧ r.packetSize = size ∧
      heldBytes s'.fifo r = w.packet := by
  rcases h.entries.step_cases hstep with ⟨header, packet, -, -, rfl⟩ | ⟨-, rfl⟩ |
      ⟨-, -, rfl⟩ | ⟨i, hi, rfl, rfl⟩
  · simp at hmem
  · simp at hmem
  · simp at hmem
  · rw [List.mem_singleton, FifoEvent.returned.injEq] at hmem
    subst hmem
    have hfree := h.fixed.free
    have hunread : (freeLastReadPacket s.fifo).Unread i :=
      ⟨(mem_validEntries.1 hi).2, by rw [freeLastReadPacket_used]; simp⟩
    obtain ⟨w, hkept⟩ := hfree.kept i (mem_validEntries.1 hi).1 hunread
    refine ⟨w, hkept.last, ?_, ?_, ?_⟩
    · rw [readResultOf, hfree.record]
      exact hkept.header
    · simp [readResultOf, hkept.info]
    · simp only [heldBytes, readResultOf, hkept.info]
      exact hkept.bytes

/-- **Data integrity with packets of one size.** In every run of writes, flushes and reads over a
    buffer with room for one packet an entry, what a read returns is the header and the bytes of the
    last write to its entry, and no write goes to the data of another entry that is unread. -/
theorem fixedSize_integrity (junk : Mem UInt8) (bufferSize headerSize maxPacketNum size : Nat)
    (hnum : 1 ≤ maxPacketNum) (hsize : 1 ≤ size) (hbuffer : maxPacketNum * size ≤ bufferSize)
    (as : List FifoAction) (a : FifoAction) (s s' : FifoSys) (tr es : List FifoEvent)
    (hfixed : ∀ b ∈ as ++ [a], b.Fixed size headerSize)
    (hrun : run fifoStep (fifoSysCreate junk bufferSize headerSize maxPacketNum) as = some (s, tr))
    (hstep : fifoStep s a = some (s', es)) :
    (∀ r, .returned r ∈ es →
      ∃ pre post packet, tr = pre ++ .wrote r.entry r.header packet :: post ∧
        (∀ e ∈ post, ¬ e.Ends r.entry) ∧ r.packetSize = size ∧ heldBytes s'.fifo r = packet) ∧
    (∀ header packet, a = .write header packet → ∀ i < maxPacketNum, s.fifo.Unread i →
      i ≠ entryIndexForThisWrite s.fifo →
      Mem.Disjoint ↑(addrForThisWrite s.fifo packet.length) packet.length
        ↑(s.fifo.packetInfoEntries i).packetAddr (s.fifo.packetInfoEntries i).packetSize) := by
  have inv := FixedSys.run hnum hsize hbuffer (fun b hb => hfixed b (List.mem_append_left _ hb)) hrun
  constructor
  · intro r hr
    obtain ⟨w, hlast, hheader, hrsize, hbytes⟩ := inv.returned hstep hr
    obtain ⟨pre, post, htr, hpost⟩ := writeLog_last hlast
    exact ⟨pre, post, w.packet, hheader ▸ htr, hpost, hrsize, hbytes⟩
  · rintro header packet rfl i hi hunread hne
    have hlen := (hfixed (.write header packet) (by simp)).2
    exact inv.fixed.write_disjoint hnum ((Nat.le_div_iff_mul_le hsize).2 hbuffer) hlen hi hunread hne

/-- Two entries and a buffer of five bytes: the last write goes round to the first position, and to
    the entry that is not in use. -/
theorem fixedSize_integrity_two : ∃ s s' tr r,
    run fifoStep (fifoSysCreate (fun _ => 0) 5 1 2)
      [.write [1] [10, 11], .readStart, .write [2] [20, 21], .write [3] [30, 31]] = some (s, tr) ∧
    fifoStep s .readStart = some (s', [.returned r]) ∧ r.header = [3] ∧
    ∃ pre post packet, tr = pre ++ .wrote r.entry r.header packet :: post ∧
      (∀ e ∈ post, ¬ e.Ends r.entry) ∧ r.packetSize = 2 ∧ heldBytes s'.fifo r = packet :=
  ⟨_, _, _, _, rfl, rfl, rfl, (fixedSize_integrity (fun _ => 0) 5 1 2 2 (by decide) (by decide)
    (by decide) [.write [1] [10, 11], .readStart, .write [2] [20, 21], .write [3] [30, 31]] .readStart
    _ _ _ _ (by simp [FifoAction.Fixed]) rfl rfl).1 _ (List.mem_singleton_self _)⟩

end XToolkits.Fifo
