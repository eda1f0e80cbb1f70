import XToolkits.Fifo.Entries

set_option autoImplicit false

/-! # Lifetime of the packet a reader holds

`fifo_read_one_packet` hands out the address of the packet instead of a copy, and writers skip the
entry in use so that the packet stays. The data address does not skip: with packets of one size,
in the layout of `fifo_mgr.h`, writes go round the data positions one by one and come to the held
packet's after as many writes as there are positions from the next write address to it. Up to
there the bytes stay, and the write after that replaces them (`heldPacket_kept_iff`). -/

namespace XToolkits.Fifo

variable {N size : Nat} {f : EasyFifo}

/-- Writers one after the other, each with its header and its packet. -/
def writeMany (f : EasyFifo) (ws : List (List UInt8 × List UInt8)) : EasyFifo :=
  ws.foldl (fun f w => (fifoWriteOnePacket f w.1 w.2).1) f

@[simp] theorem writeMany_nil (f : EasyFifo) : writeMany f [] = f := rfl

@[simp] theorem writeMany_cons (f : EasyFifo) (w : List UInt8 × List UInt8)
    (ws : List (List UInt8 × List UInt8)) :
    writeMany f (w :: ws) = writeMany (fifoWriteOnePacket f w.1 w.2).1 ws := rfl

/-- The bytes at the address a read has returned. -/
def heldBytes (f : EasyFifo) (r : ReadResult) : List UInt8 :=
  f.buffer.read r.packetAddr r.packetSize

/-- A writer of the fixed-unit layout: every packet has the unit's size. -/
def FifoAction.Fixed (size headerSize : Nat) : FifoAction → Prop
  | .write header packet => header.length = headerSize ∧ packet.length = size
  | _ => True

/-! ## Data positions -/

/-- The buffer is `N` positions of `size` bytes; every valid entry has one and the next write goes
    to one. -/
structure UnitInv (N size : Nat) (f : EasyFifo) : Prop where
  total : f.bufferTotalSize = N * size
  next : ∃ c < N, f.addrForNextWrite = c * size
  entries : ∀ i, (f.packetInfoEntries i).entryState = .valid →
    (f.packetInfoEntries i).packetSize = size ∧
      ∃ p < N, (f.packetInfoEntries i).packetAddr = p * size

/-- A packet written at position `c` stays there: it does not run over the end of the buffer. -/
theorem addrForThisWrite_unit (htotal : f.bufferTotalSize = N * size) {c : Nat} (hc : c < N)
    (hnext : f.addrForNextWrite = c * size) : addrForThisWrite f size = c * size := by
  have hle : (c + 1) * size ≤ N * size := Nat.mul_le_mul_right size hc
  rw [Nat.succ_mul] at hle
  rw [addrForThisWrite, htotal, hnext, if_neg (by omega)]

/-- The position after a write is the next one on the cycle. -/
theorem addrForNextWrite_unit (htotal : f.bufferTotalSize = N * size) (hsize : 1 ≤ size) {c : Nat}
    (hc : c < N) (hnext : f.addrForNextWrite = c * size) (header packet : List UInt8)
    (hlen : packet.length = size) :
    (fifoWriteOnePacket f header packet).1.addrForNextWrite = cnext N c * size := by
  simp only [fifoWriteOnePacket, hlen, addrForThisWrite_unit htotal hc hnext, htotal, cnext]
  by_cases hlast : c + 1 < N
  · have hlt : (c + 1) * size < N * size := Nat.mul_lt_mul_of_pos_right hlast hsize
    rw [if_pos hlast, if_neg (by rw [Nat.succ_mul] at hlt; omega), Nat.succ_mul]
  · have heq : c + 1 = N := by omega
    rw [if_neg hlast, ← heq, Nat.succ_mul, if_pos (Nat.le_refl _)]
    omega

theorem UnitInv.create (junk : Mem UInt8) (headerSize : Nat) (hN : 0 < N) :
    UnitInv N size (fifoCreate junk (N * size) headerSize N) :=
  ⟨rfl, ⟨0, hN, by simp [fifoCreate]⟩, by simp [fifoCreate]⟩

theorem UnitInv.write (h : UnitInv N size f) (hsize : 1 ≤ size) (header packet : List UInt8)
    (hlen : packet.length = size) : UnitInv N size (fifoWriteOnePacket f header packet).1 := by
  obtain ⟨c, hc, hnext⟩ := h.next
  refine ⟨h.total, ⟨cnext N c, cnext_lt (by omega), ?_⟩, fun i hi => ?_⟩
  · exact addrForNextWrite_unit h.total hsize hc hnext header packet hlen
  · by_cases hie : i = entryIndexForThisWrite f
    · subst hie
      simp only [fifoWriteOnePacket, Function.update_self, hlen, true_and]
      exact ⟨c, hc, addrForThisWrite_unit h.total hc hnext⟩
    · simp only [fifoWriteOnePacket, Function.update_of_ne hie] at hi ⊢
      exact h.entries i hi

theorem UnitInv.free (h : UnitInv N size f) : UnitInv N size (freeLastReadPacket f) := by
  unfold freeLastReadPacket
  split
  · exact h
  · next u _ =>
      refine ⟨h.total, h.next, fun i hi => ?_⟩
      by_cases hiu : i = u
      · subst hiu
        simp at hi
      · simp only [Function.update_of_ne hiu] at hi ⊢
        exact h.entries i hi

theorem UnitInv.flush (h : UnitInv N size f) (hN : 0 < N) : UnitInv N size (fifoFlush f) := by
  refine ⟨h.total, ⟨0, hN, by simp [fifoFlush]⟩, fun i hi => ?_⟩
  simp only [fifoFlush] at hi ⊢
  split at hi
  · simp at hi
  · next hlast =>
      rw [if_neg hlast]
      exact h.entries i hi

/-- The fifo with its reader, and its data positions. -/
structure UnitSys (N size : Nat) (s : FifoSys) : Prop where
  entries : EntriesSys N s
  units : UnitInv N size s.fifo

theorem UnitSys.step (hN : 0 < N) (hsize : 1 ≤ size) {headerSize : Nat} {s s' : FifoSys}
    {a : FifoAction} {es : List FifoEvent} (ha : a.Fixed size headerSize)
    (h : UnitSys N size s) (hstep : fifoStep s a = some (s', es)) : UnitSys N size s' := by
  refine ⟨h.entries.step hN hstep, ?_⟩
  rcases h.entries.step_cases hstep with ⟨header, packet, rfl, rfl, -⟩ | ⟨rfl, -⟩ | ⟨-, rfl, -⟩ |
      ⟨i, -, rfl, -⟩
  · exact h.units.write hsize header packet ha.2
  · exact h.units.flush hN
  · exact h.units.free
  · have hfree := h.units.free
    exact ⟨hfree.total, hfree.next, hfree.entries⟩

/-- A step that returns a packet returns a whole position. -/
theorem UnitSys.returned {s s' : FifoSys} {a : FifoAction} {r : ReadResult}
    (h : UnitSys N size s) (hstep : fifoStep s a = some (s', [.returned r])) :
    r.packetSize = size ∧ ∃ p < N, r.packetAddr = p * size := by
  rcases h.entries.step_cases hstep with ⟨header, packet, -, -, hes⟩ | ⟨-, hes⟩ | ⟨-, -, hes⟩ |
      ⟨i, hi, -, hes⟩
  · simp at hes
  · simp at hes
  · simp at hes
  · rw [List.singleton_inj, FifoEvent.returned.injEq] at hes
    subst hes
    exact h.units.free.entries i (mem_validEntries.1 hi).2

theorem UnitSys.run (hN : 0 < N) (hsize : 1 ≤ size) {junk : Mem UInt8} {headerSize : Nat}
    {as : List FifoAction} {s : FifoSys} {tr : List FifoEvent}
    (hfixed : ∀ a ∈ as, a.Fixed size headerSize)
    (hrun : run fifoStep (fifoSysCreate junk (N * size) headerSize N) as = some (s, tr)) :
    UnitSys N size s :=
  run_induction (·.Fixed size headerSize) (fun _ s => UnitSys N size s)
    ⟨EntriesSys.create junk (N * size) headerSize hN, UnitInv.create junk headerSize hN⟩
    (fun _ _ _ _ _ ha h hstep => h.step hN hsize ha hstep) hfixed hrun

/-! ## Writes against a held position -/

/-- A write at another position leaves a position alone. -/
theorem write_other_unit (htotal : f.bufferTotalSize = N * size) {c p : Nat} (hc : c < N)
    (hnext : f.addrForNextWrite = c * size) (hne : c ≠ p) (header packet : List UInt8)
    (hlen : packet.length = size) :
    (fifoWriteOnePacket f header packet).1.buffer.read ↑(p * size) size =
      f.buffer.read ↑(p * size) size := by
  simp only [fifoWriteOnePacket, hlen, addrForThisWrite_unit htotal hc hnext]
  exact Mem.read_write_of_disjoint _ (Mem.disjoint_records hne (by omega) (by omega))

/-- A write at a position replaces its bytes. -/
theorem write_same_unit (htotal : f.bufferTotalSize = N * size) {c : Nat} (hc : c < N)
    (hnext : f.addrForNextWrite = c * size) (header packet : List UInt8)
    (hlen : packet.length = size) :
    (fifoWriteOnePacket f header packet).1.buffer.read ↑(c * size) size = packet := by
  have hself := Mem.read_write_self f.buffer ↑(c * size) packet
  rw [hlen] at hself
  simpa only [fifoWriteOnePacket, hlen, addrForThisWrite_unit htotal hc hnext] using hself

/-- Writes that stop short of a position leave it alone. -/
theorem writeMany_kept (hsize : 1 ≤ size) {p : Nat} (hp : p < N) :
    ∀ (ws : List (List UInt8 × List UInt8)) (f : EasyFifo) (c : Nat),
      f.bufferTotalSize = N * size → c < N → f.addrForNextWrite = c * size →
      (∀ w ∈ ws, w.2.length = size) → ws.length ≤ cdist N c p →
      (writeMany f ws).buffer.read ↑(p * size) size = f.buffer.read ↑(p * size) size := by
  intro ws
  induction ws with
  | nil => intros; rfl
  | cons w ws ih =>
      intro f c htotal hc hnext hlen hle
      have hw := hlen w (by simp)
      have hne : c ≠ p := by
        rintro rfl
        simp at hle
      have hdist := cdist_cnext hc hp hne
      simp only [List.length_cons] at hle
      rw [writeMany_cons, ih (fifoWriteOnePacket f w.1 w.2).1 (cnext N c) htotal (cnext_lt (by omega))
        (addrForNextWrite_unit htotal hsize hc hnext w.1 w.2 hw)
        (fun v hv => hlen v (by simp [hv])) (by omega)]
      exact write_other_unit htotal hc hnext hne w.1 w.2 hw

/-- Equal packets written up to a position and beyond are what it holds afterwards. -/
theorem writeMany_filled (hsize : 1 ≤ size) {p : Nat} (hp : p < N) (header packet : List UInt8)
    (hlen : packet.length = size) :
    ∀ (m : Nat) (f : EasyFifo) (c : Nat),
      f.bufferTotalSize = N * size → c < N → f.addrForNextWrite = c * size →
      cdist N c p < m ∨ f.buffer.read ↑(p * size) size = packet →
      (writeMany f (List.replicate m (header, packet))).buffer.read ↑(p * size) size = packet := by
  intro m
  induction m with
  | zero =>
      intro f c _ _ _ h
      simpa using h
  | succ m ih =>
      intro f c htotal hc hnext h
      rw [List.replicate_succ, writeMany_cons]
      refine ih _ (cnext N c) htotal (cnext_lt (by omega))
        (addrForNextWrite_unit htotal hsize hc hnext header packet hlen) ?_
      by_cases hcp : c = p
      · subst hcp
        exact Or.inr (write_same_unit htotal hc hnext header packet hlen)
      · rcases h with h | h
        · have hdist := cdist_cnext hc hp hcp
          exact Or.inl (by omega)
        · rw [write_other_unit htotal hc hnext hcp header packet hlen]
          exact Or.inr h

/-- The bytes from the next write address round to a position, in positions. -/
theorem distance_unit {c p m : Nat} (hc : c < N) (hp : p < N) (hsize : 1 ≤ size) :
    m * size ≤ (p * size + N * size - c * size) % (N * size) ↔ m ≤ cdist N c p := by
  have hdist : (p * size + N * size - c * size) % (N * size) = cdist N c p * size := by
    have hlt : cdist N c p * size < N * size := Nat.mul_lt_mul_of_pos_right (cdist_lt hc hp) hsize
    unfold cdist at hlt ⊢
    by_cases hcp : c ≤ p
    · have hle : c * size ≤ p * size := Nat.mul_le_mul_right size hcp
      rw [if_pos hcp] at hlt ⊢
      rw [Nat.sub_mul] at hlt ⊢
      rw [show p * size + N * size - c * size = (p * size - c * size) + N * size by omega,
        Nat.add_mod_right, Nat.mod_eq_of_lt hlt]
    · rw [if_neg hcp] at hlt ⊢
      rw [Nat.sub_mul, Nat.add_mul] at hlt ⊢
      exact Nat.mod_eq_of_lt hlt
  rw [hdist]
  exact Nat.mul_le_mul_right_iff hsize

/-- **How long a reader may keep its packet.** In the fixed-unit layout, in every reachable state in
    which a read has just returned, no sequence of `m` writes changes the bytes handed out exactly
    when the `m` packets, laid end to end from the next write address and round the end of the
    buffer, stop short of the address handed out. -/
theorem heldPacket_kept_iff (junk : Mem UInt8) (headerSize maxPacketNum size : Nat)
    (hnum : 2 ≤ maxPacketNum) (hsize : 1 ≤ size) (as : List FifoAction) (a : FifoAction)
    (s s' : FifoSys) (tr : List FifoEvent) (r : ReadResult)
    (hfixed : ∀ a ∈ as, a.Fixed size headerSize)
    (hrun : run fifoStep (fifoSysCreate junk (maxPacketNum * size) headerSize maxPacketNum) as =
      some (s, tr))
    (hread : fifoStep s a = some (s', [.returned r])) (m : Nat) :
    (∀ ws : List (List UInt8 × List UInt8), ws.length = m →
      (∀ w ∈ ws, w.1.length = headerSize ∧ w.2.length = size) →
      heldBytes (writeMany s'.fifo ws) r = heldBytes s'.fifo r) ↔
    m * size ≤ (r.packetAddr + maxPacketNum * size - s'.fifo.addrForNextWrite) %
      (maxPacketNum * size) := by
  have inv : UnitSys maxPacketNum size s := UnitSys.run (by omega) hsize hfixed hrun
  obtain ⟨hrsize, p, hp, hraddr⟩ := inv.returned hread
  have hfixedRead : a.Fixed size headerSize := by
    cases a with
    | write header packet => simp [fifoStep] at hread
    | _ => trivial
  have inv' : UnitInv maxPacketNum size s'.fifo :=
    (inv.step (by omega) hsize hfixedRead hread).units
  obtain ⟨c, hc, hnext⟩ := inv'.next
  simp only [heldBytes, hrsize, hraddr, hnext]
  rw [distance_unit hc hp hsize]
  constructor
  · intro hkept
    by_contra hlt
    -- a packet of one byte value that the held packet does not start with
    obtain ⟨b, hb⟩ : ∃ b : UInt8, b ≠ s'.fifo.buffer ↑(p * size) := by
      by_cases h0 : s'.fifo.buffer ↑(p * size) = 0
      · exact ⟨1, by rw [h0]; decide⟩
      · exact ⟨0, Ne.symm h0⟩
    have hfill := writeMany_filled hsize hp (List.replicate headerSize 0) (List.replicate size b)
      (by simp) m s'.fifo c inv'.total hc hnext (Or.inl (by omega))
    have hsame := hkept (List.replicate m (List.replicate headerSize 0, List.replicate size b))
      (by simp) (fun w hw => by simp [(List.mem_replicate.1 hw).2])
    rw [hfill] at hsame
    have hfirst := congrArg (fun l => l[0]?) hsame
    simp only [Mem.getElem?_read _ _ _ 0 (show 0 < size by omega),
      List.getElem?_replicate_of_lt (show 0 < size by omega), Option.some.injEq] at hfirst
    exact hb (by simpa using hfirst)
  · intro hle ws hlen hws
    exact writeMany_kept hsize hp ws s'.fifo c inv'.total hc hnext (fun w hw => (hws w hw).2)
      (by omega)

/-- Two entries: one write after the read leaves the held packet alone. -/
theorem heldPacket_kept_once : ∃ s s' r,
    run fifoStep (fifoSysCreate (fun _ => 0) (2 * 1) 1 2) [.write [1] [10]] =
      some (s, [.wrote 0 [1] [10]]) ∧
    fifoStep s .readStart = some (s', [.returned r]) ∧
    ∀ ws : List (List UInt8 × List UInt8), ws.length = 1 →
      (∀ w ∈ ws, w.1.length = 1 ∧ w.2.length = 1) →
      heldBytes (writeMany s'.fifo ws) r = heldBytes s'.fifo r :=
  ⟨_, _, _, rfl, rfl, (heldPacket_kept_iff (fun _ => 0) 1 2 1 (by decide) (by decide)
    [.write [1] [10]] .readStart _ _ _ _ (by simp [FifoAction.Fixed]) rfl rfl 1).2 (by decide)⟩

/-- Two entries: the second write after the read replaces the packet the reader still holds. -/
theorem heldPacket_overwritten : ∃ s s' r,
    run fifoStep (fifoSysCreate (fun _ => 0) (2 * 1) 1 2) [.write [1] [10]] =
      some (s, [.wrote 0 [1] [10]]) ∧
    fifoStep s .readStart = some (s', [.returned r]) ∧
    heldBytes s'.fifo r = [10] ∧
    heldBytes (writeMany s'.fifo [([2], [20]), ([3], [30])]) r = [30] :=
  ⟨_, _, _, rfl, rfl, rfl, rfl⟩

end XToolkits.Fifo
