import XToolkits.Ipc.Calls
import XToolkits.Ipc.Data

set_option autoImplicit false

/-! # Writes and the data area

`tbsb_write_one_packet` puts a packet that does not fit before the end at the start of the data area,
and takes the size of the data area off an offset that has reached it, once. Both keep the offset in
range for a packet that is not larger than the data area. Nothing tests this. -/

namespace XToolkits.Ipc

/-- The next write offset lies in the data area. -/
def NextInside (s : ShmSys) : Prop := s.ring.bufNextWriteOffset < s.ring.bufTotalSize

/-- A write is refused and changes nothing, or copies to a range of the data area. -/
def WritesInside (s : ShmSys) : TbsbAction → Prop
  | .write header packetAddr packetSize =>
      tbsbWriteCall s.ring header packetAddr packetSize = (s.ring, -1) ∨
        ∃ (packet : Mem UInt8) (offset : Nat), packetAddr = some packet ∧
          (tbsbWriteCall s.ring header packetAddr packetSize).1.buf =
            s.ring.buf.write ↑offset (packet.read 0 packetSize.toNat) ∧
          offset + packetSize.toNat ≤ s.ring.bufTotalSize
  | _ => True

/-- The packet of a write is `NULL`, or not larger than the data area. -/
def SizeFits (s : ShmSys) : TbsbAction → Prop
  | .write _ packetAddr packetSize => packetAddr = none ∨ packetSize ≤ s.ring.bufTotalSize
  | _ => True

instance (s : ShmSys) (a : TbsbAction) : Decidable (SizeFits s a) :=
  match a with
  | .write _ packetAddr packetSize =>
      decidable_of_iff (packetAddr.isNone ∨ packetSize ≤ s.ring.bufTotalSize)
        (or_congr_left Option.isNone_iff_eq_none)
  | .readStart _ => isTrue trivial
  | .readWake => isTrue trivial

variable {s s' : ShmSys} {a : TbsbAction} {es : List ShmEvent} {p : Shm} {T : Nat}

/-! ## One call -/

/-- The offsets of a write of a packet that fits. -/
theorem curPacketWriteOffset_add_le (hnext : p.bufNextWriteOffset < p.bufTotalSize)
    (hsmall : p.bufTotalSize < 2 ^ 31) {n : Nat} (hn : n ≤ p.bufTotalSize) :
    curPacketWriteOffset p n + n ≤ p.bufTotalSize := by
  rw [curPacketWriteOffset, u32_of_lt (by omega)]
  split <;> omega

/-- A packet that fits leaves the next offset in the data area. -/
theorem tbsbWriteOnePacket_next (hnext : p.bufNextWriteOffset < p.bufTotalSize)
    (hsmall : p.bufTotalSize < 2 ^ 31) (header : Option (List UInt8)) {packet : List UInt8}
    (hn : packet.length ≤ p.bufTotalSize) :
    (tbsbWriteOnePacket p header packet).1.bufNextWriteOffset < p.bufTotalSize := by
  have hle := curPacketWriteOffset_add_le hnext hsmall hn
  rw [tbsbWriteOnePacket]
  split
  · exact hnext
  · simp only [u32_of_lt (Nat.lt_of_le_of_lt hle (by omega))]
    split <;> omega

theorem tbsbWriteOnePacket_total (p : Shm) (header : Option (List UInt8)) (packet : List UInt8) :
    (tbsbWriteOnePacket p header packet).1.bufTotalSize = p.bufTotalSize := by
  rw [tbsbWriteOnePacket]
  split <;> rfl

/-- The data area and the offset into it. -/
structure InArea (T : Nat) (p : Shm) : Prop where
  total : p.bufTotalSize = T
  next : p.bufNextWriteOffset < T

/-- **One write** is refused or stays in the data area exactly when its size fits. -/
theorem InArea.writesInside_iff (h : InArea T s.ring) (hsmall : T < 2 ^ 31) (a : TbsbAction) :
    WritesInside s a ↔ SizeFits s a := by
  cases a with
  | readStart packetSize => exact Iff.rfl
  | readWake => exact Iff.rfl
  | write header packetAddr packetSize =>
      cases packetAddr with
      | none => exact iff_of_true (Or.inl rfl) (Or.inl rfl)
      | some packet =>
          have hlen : (packet.read 0 packetSize.toNat).length = packetSize.toNat := Mem.length_read ..
          by_cases hpos : packetSize ≤ 0
          · have hzero : packetSize.toNat = 0 := by omega
            refine iff_of_true (Or.inl ?_) (Or.inr (by omega))
            rw [tbsbWriteCall, tbsbWriteOnePacket, if_pos (by rw [hlen, hzero])]
          · have hne : ¬ (packet.read 0 packetSize.toNat).length = 0 := by omega
            constructor
            · rintro (hrefused | ⟨_, offset, _, -, hin⟩)
              · rw [tbsbWriteCall, tbsbWriteOnePacket, if_neg hne, Prod.mk.injEq] at hrefused
                omega
              · exact Or.inr (by omega)
            · rintro (hnone | hle)
              · cases hnone
              · have hin := curPacketWriteOffset_add_le (p := s.ring) (n := packetSize.toNat)
                  (by rw [h.total]; exact h.next) (by rw [h.total]; exact hsmall) (by omega)
                refine Or.inr ⟨packet, _, rfl, ?_, hin⟩
                rw [tbsbWriteCall, tbsbWriteOnePacket, if_neg hne, hlen]

theorem recvTest_area (p : Shm) (n : Nat) :
    (recvTest p n).1.ring.bufTotalSize = p.bufTotalSize ∧
      (recvTest p n).1.ring.bufNextWriteOffset = p.bufNextWriteOffset := by
  rw [recvTest, tbsbTakePacket]
  split
  · exact ⟨rfl, rfl⟩
  · cases curReadIndex p <;> exact ⟨rfl, rfl⟩

theorem shmStep_recv_area {a : ShmAction} (hrecv : a.IsRecv) (hstep : shmStep s a = some (s', es)) :
    s'.ring.bufTotalSize = s.ring.bufTotalSize ∧
      s'.ring.bufNextWriteOffset = s.ring.bufNextWriteOffset := by
  obtain ⟨-, hnext, htotal⟩ := freeBeingUsed_data s.ring
  cases a with
  | send header packet => exact absurd hrecv id
  | recvStart n =>
      simp only [shmStep] at hstep
      split at hstep
      · cases hstep
      · split at hstep
        · obtain ⟨rfl, -⟩ := Prod.mk.inj (Option.some.inj hstep)
          exact ⟨rfl, rfl⟩
        · have hs : (recvTest (freeBeingUsed s.ring) n).1 = s' :=
            congrArg Prod.fst (Option.some.inj hstep)
          have harea := recvTest_area (freeBeingUsed s.ring) n
          rwa [hs, hnext, htotal] at harea
  | recvWake =>
      simp only [shmStep] at hstep
      split at hstep
      · cases hstep
      · next n _ =>
          have hs : (recvTest s.ring n).1 = s' := congrArg Prod.fst (Option.some.inj hstep)
          have harea := recvTest_area s.ring n
          rwa [hs] at harea

/-- **One step** keeps the offset in the data area, when it is no write that does not fit. -/
theorem InArea.step (h : InArea T s.ring) (hsmall : T < 2 ^ 31) (ha : SizeFits s a)
    (hstep : tbsbStep s a = some (s', es)) : InArea T s'.ring := by
  cases a with
  | write header packetAddr packetSize =>
      rw [tbsbStep_write hstep]
      cases packetAddr with
      | none => exact h
      | some packet =>
          have hle : packetSize ≤ s.ring.bufTotalSize := ha.resolve_left (by simp)
          have hlen : (packet.read 0 packetSize.toNat).length ≤ s.ring.bufTotalSize := by
            rw [Mem.length_read]
            omega
          have hnext := tbsbWriteOnePacket_next (by rw [h.total]; exact h.next)
            (by rw [h.total]; exact hsmall) header hlen
          exact ⟨(tbsbWriteOnePacket_total ..).trans h.total, h.total ▸ hnext⟩
  | readStart packetSize =>
      have hrecv : (TbsbAction.readStart packetSize).toShm.IsRecv := trivial
      obtain ⟨htotal, hnext⟩ := shmStep_recv_area hrecv hstep
      exact ⟨htotal.trans h.total, hnext ▸ h.next⟩
  | readWake =>
      have hrecv : TbsbAction.readWake.toShm.IsRecv := trivial
      obtain ⟨htotal, hnext⟩ := shmStep_recv_area hrecv hstep
      exact ⟨htotal.trans h.total, hnext ▸ h.next⟩

/-- **Writes stay in the data area.** Of a ring made by any of the three functions, in every state of
    a run the next offset lies in the data area and every write is refused or stays in it, exactly
    when no packet of the run is larger than the data area. -/
theorem tbsbWrite_inside_iff (packetNum packetSize : Nat) (hnum : 1 ≤ packetNum)
    (hsize : 1 ≤ packetSize) (ring : Shm) (hring : Created packetNum packetSize ring)
    (as : List TbsbAction) :
    EachState tbsbStep NextInside ⟨ring, none⟩ as ∧ EachStep tbsbStep WritesInside ⟨ring, none⟩ as ↔
      EachStep tbsbStep SizeFits ⟨ring, none⟩ as := by
  obtain ⟨headerSize, rfl, hsmall⟩ := hring.eq_init
  have hinit : InArea (packetSize * packetNum)
      (⟨tbsbInit headerSize packetNum (packetSize * packetNum), none⟩ : ShmSys).ring :=
    ⟨rfl, Nat.mul_pos hsize hnum⟩
  have hiff : EachStep tbsbStep WritesInside
        ⟨tbsbInit headerSize packetNum (packetSize * packetNum), none⟩ as ↔
      EachStep tbsbStep SizeFits
        ⟨tbsbInit headerSize packetNum (packetSize * packetNum), none⟩ as :=
    eachStep_iff_of_inv (fun s => InArea (packetSize * packetNum) s.ring) hinit
      (fun _ _ _ _ h ha hstep => h.step hsmall ha hstep) fun _ a h => h.writesInside_iff hsmall a
  rw [hiff]
  refine and_iff_right_of_imp fun hfits pre post s tr hsplit hrun => ?_
  have harea := EachStep.eachState (fun s => InArea (packetSize * packetNum) s.ring) hinit
    (fun _ _ _ _ h ha hstep => h.step hsmall ha hstep) hfits pre post s tr hsplit hrun
  rw [NextInside, harea.total]
  exact harea.next

/-- Three packets of two bytes in a data area of four. -/
theorem tbsbWrite_inside_three : ∃ ring, fifoCreat 2 2 = some ring ∧
    EachState tbsbStep NextInside ⟨ring, none⟩
      [.write none (some fun _ => 7) 2, .write none none 9, .write none (some fun _ => 8) 2,
        .readStart 1, .write none (some fun _ => 9) 4] ∧
    EachStep tbsbStep WritesInside ⟨ring, none⟩
      [.write none (some fun _ => 7) 2, .write none none 9, .write none (some fun _ => 8) 2,
        .readStart 1, .write none (some fun _ => 9) 4] := by
  exact ⟨_, rfl, (tbsbWrite_inside_iff 2 2 (by decide) (by decide) _ (.fifo rfl) _).2 (by decide)⟩

/-- A packet of two bytes in a data area of one. -/
theorem tbsbWrite_larger : ∃ ring, fifoCreat 1 1 = some ring ∧
    ¬ EachStep tbsbStep WritesInside ⟨ring, none⟩ [.write none (some fun _ => 7) 2] := by
  refine ⟨_, rfl, fun h => ?_⟩
  rcases (eachStep_cons.1 h).1 with hrefused | ⟨packet, offset, -, -, hin⟩
  · exact absurd (Prod.mk.inj hrefused).2 (by decide)
  · exact absurd hin (by simp [tbsbInit])

end XToolkits.Ipc
