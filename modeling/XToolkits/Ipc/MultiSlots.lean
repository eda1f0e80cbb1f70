import XToolkits.Ipc.MultiReader

set_option autoImplicit false

/-! # The slots of the multi-reader ring

What holds of the slots after any number of writes, also when the numbers have wrapped: the packet a
slot describes lies in the data area, going round its end, and the bytes in use are counted. So a
slot that is not empty can always be read.

A write gives up the packet in its slot before it knows whether the new one fits. When it does not,
that packet is gone. -/

namespace XToolkits.Ipc

variable {N T : Nat} {p : MultiShm}

/-- The slots describe packets of the data area. -/
structure SlotsInv (N T : Nat) (p : MultiShm) : Prop where
  num : p.bufPacketNum = N
  total : p.bufTotalSize = T
  offset : 0 < T → p.curWriteOffset < T
  packetOffset : ∀ i < N, 0 < (p.packets i).packetSize → (p.packets i).packetOffset < T
  sum : p.curUsedBufSize = ∑ i ∈ Finset.range N, (p.packets i).packetSize
  used_le : p.curUsedBufSize ≤ T

theorem slotsInv_init (N T : Nat) : SlotsInv N T (shmMutilInit N T) := by
  constructor <;> simp [shmMutilInit]

/-- A packet is no larger than what is in use. -/
theorem SlotsInv.packetSize_le (h : SlotsInv N T p) {i : Nat} (hi : i < N) :
    (p.packets i).packetSize ≤ p.curUsedBufSize := by
  have hsum := sum_update p.packets hi ⟨0, 0, 0⟩
  rw [← h.sum] at hsum
  exact Nat.le_of_add_left_le (Nat.le_of_eq hsum)

/-! ## Writing -/

/-- The slot of a write is given up: what it had in use is free. -/
theorem SlotsInv.freeSlot (h : SlotsInv N T p) (hT : T < 2 ^ 31) {i : Nat} (hi : i < N) :
    SlotsInv N T (freeSlot p i) ∧ ((freeSlot p i).packets i).packetSize = 0 ∧
      (freeSlot p i).curUsedBufSize + (p.packets i).packetSize = p.curUsedBufSize := by
  have hle := h.packetSize_le hi
  have hused := h.used_le
  unfold Ipc.freeSlot
  split
  · next hsize =>
      have hsum := sum_update p.packets hi { p.packets i with packetSize := 0 }
      rw [← h.sum] at hsum
      rw [subU32_of_le (by omega) hle]
      refine ⟨?_, by simp, Nat.sub_add_cancel hle⟩
      exact {
        num := h.num, total := h.total, offset := h.offset
        packetOffset := by
          intro j hj hlive
          by_cases hne : j = i
          · subst hne
            simp at hlive
          · simp only [Function.update_of_ne hne] at hlive ⊢
            exact h.packetOffset j hj hlive
        sum := (Nat.eq_sub_of_add_eq hsum).symm
        used_le := Nat.le_trans (Nat.sub_le _ _) hused }
  · exact ⟨h, by omega, by omega⟩

/-- A packet that fits is copied, in one piece or two, and described in the slot, which was free. -/
theorem SlotsInv.copy (h : SlotsInv N T p) (hT : T < 2 ^ 31) {i : Nat} (hi : i < N)
    (hfree : (p.packets i).packetSize = 0) {packet : List UInt8} (hpacket : packet.length ≠ 0)
    (hroom : p.curUsedBufSize + packet.length ≤ T) :
    ∃ buf, (if u32 (p.curWriteOffset + packet.length) > p.bufTotalSize then writeSplit p i packet
        else writeWhole p i packet) = some (appendPacket p i packet buf) ∧
      ∀ index, SlotsInv N T { appendPacket p i packet buf with curWriteIndex := index } := by
  have htotal := h.total
  have hoffset := h.offset (by omega)
  have hinv : ∀ buf index,
      SlotsInv N T { appendPacket p i packet buf with curWriteIndex := index } := by
    intro buf index
    exact {
      num := h.num, total := h.total
      offset := by
        intro hpos
        show (p.curWriteOffset + packet.length) % p.bufTotalSize < T
        rw [htotal]
        exact Nat.mod_lt _ hpos
      packetOffset := by
        intro j hj hlive
        by_cases hne : j = i
        · subst hne
          simp only [appendPacket, Function.update_self, slotInfo]
          exact hoffset
        · simp only [appendPacket, Function.update_of_ne hne] at hlive ⊢
          exact h.packetOffset j hj hlive
      sum := by
        have hsum := sum_update p.packets hi (slotInfo p packet)
        rw [hfree, ← h.sum] at hsum
        exact hsum.symm
      used_le := hroom }
  rw [u32_of_lt (by omega)]
  split
  · exact ⟨_, writeSplit_eq (by omega) i (by omega) (by omega) (by omega), hinv _⟩
  · exact ⟨_, writeWhole_eq (by omega) i (by omega) (by omega), hinv _⟩

/-- A write for whose packet there is room, when the slot has been given up. -/
theorem SlotsInv.write_room (h : SlotsInv N T p) (hN : 1 ≤ N) (hT : T < 2 ^ 31) {packet : List UInt8}
    (hpacket : packet.length ≠ 0)
    (hroom : (Ipc.freeSlot p (p.curWriteIndex % N)).curUsedBufSize + packet.length ≤ T) :
    ∃ p', shmMutilWriteOnePacket p packet = some (p', 0) ∧ SlotsInv N T p' := by
  have hi : p.curWriteIndex % N < N := Nat.mod_lt _ hN
  obtain ⟨hinv, hfree, -⟩ := h.freeSlot hT hi
  obtain ⟨buf, hcopy, hslots⟩ := hinv.copy hT hi hfree hpacket hroom
  refine ⟨_, ?_, hslots (u32 ((Ipc.freeSlot p (p.curWriteIndex % N)).curWriteIndex + 1))⟩
  rw [hinv.total] at hcopy
  rw [shmMutilWriteOnePacket_room (by rw [h.num]) hT hinv.total hpacket hroom, hcopy]
  rfl

/-- **What a write does.** No copy leaves the area and the slots stay right. A write for which there
    is no room has given up its slot, and that is all it does. -/
theorem SlotsInv.write (h : SlotsInv N T p) (hN : 1 ≤ N) (hT : T < 2 ^ 31) {packet : List UInt8}
    (hsize : packet.length < 2 ^ 31) :
    ∃ p' r, shmMutilWriteOnePacket p packet = some (p', r) ∧ SlotsInv N T p' ∧
      (r = errorTotalBufferNotEnough → p' = Ipc.freeSlot p (p.curWriteIndex % N)) := by
  by_cases hempty : packet.length = 0
  · exact ⟨p, errorNormal, by rw [shmMutilWriteOnePacket, if_pos hempty], h,
      fun heq => absurd heq (by decide)⟩
  · by_cases hroom : (Ipc.freeSlot p (p.curWriteIndex % N)).curUsedBufSize + packet.length ≤ T
    · obtain ⟨p', hwrite, hslots⟩ := h.write_room hN hT hempty hroom
      exact ⟨p', 0, hwrite, hslots, fun heq => absurd heq (by decide)⟩
    · obtain ⟨hinv, -, -⟩ := h.freeSlot hT (Nat.mod_lt p.curWriteIndex hN)
      exact ⟨_, _, shmMutilWriteOnePacket_full (by rw [h.num]) hT hinv.total hinv.used_le hempty
        hsize (Nat.not_le.1 hroom), hinv, fun _ => rfl⟩

/-- The slots are right after every sequence of writes. -/
theorem slotsInv_writes (hN : 1 ≤ N) (hT : T < 2 ^ 31) {packets : List (List UInt8)}
    (hsizes : ∀ packet ∈ packets, packet.length < 2 ^ 31) {tr : List MultiEvent}
    (hrun : run multiWriteStep (shmMutilInit N T) packets = some (p, tr)) : SlotsInv N T p := by
  refine run_induction (fun packet => packet.length < 2 ^ 31) (fun _ p => SlotsInv N T p)
    (slotsInv_init N T) ?_ hsizes hrun
  intro tr p packet p' es hsize h hstep
  obtain ⟨q, r, hwrite, hq, -⟩ := h.write hN hT hsize
  rw [multiWriteStep, hwrite, Option.map_some, Option.some.injEq, Prod.mk.injEq] at hstep
  exact hstep.1 ▸ hq

/-! ## Reading -/

/-- The bytes of the packet that slot `i` describes: those up to the end of the area, and the rest of
    them from its start on. -/
def slotBytes (p : MultiShm) (i : Nat) : List UInt8 :=
  let info := p.packets i
  let tail := p.bufTotalSize - info.packetOffset
  p.buf.read info.packetOffset (min info.packetSize tail) ++ p.buf.read 0 (info.packetSize - tail)

/-- A slot that is not empty is read in full. -/
theorem SlotsInv.readSlot_eq (h : SlotsInv N T p) (hT : T < 2 ^ 31) {i : Nat} (hi : i < N)
    (hsize : 0 < (p.packets i).packetSize) : readSlot p i = some (slotBytes p i) := by
  have hoffset := h.packetOffset i hi hsize
  have hle := Nat.le_trans (h.packetSize_le hi) h.used_le
  simp only [readSlot, slotBytes, h.total]
  rw [u32_of_lt (by omega)]
  split
  · next hwrap =>
      rw [subU32_of_le (by omega) (by omega), subU32_of_le (by omega) (by omega),
        Mem.readIn_eq_some _ _ _ _ (by omega) (by omega)]
      dsimp only
      rw [Mem.readIn_eq_some _ _ _ _ (by omega) (by omega), Option.map_some,
        Nat.min_eq_right (by omega)]
  · next hfits =>
      rw [Mem.readIn_eq_some _ _ _ _ (by omega) (by omega), Nat.min_eq_left (by omega),
        Nat.sub_eq_zero_of_le (by omega), Mem.read_zero, List.append_nil]

/-- The packet `bytes` can be read: with the cursor `c` and some buffer. -/
def Readable (p : MultiShm) (c : Cursor) (bytes : List UInt8) : Prop :=
  ∃ len r, shmMutilReadOnePacket p len c = some r ∧ r.copied = some bytes

/-- Only the packet in its slot can be read with a cursor. -/
theorem Readable.holds {c : Cursor} {bytes : List UInt8} (h : Readable p c bytes) :
    p.Holds (c.readIndex % p.bufPacketNum) c.packetIndex := by
  obtain ⟨len, r, hread, hcopied⟩ := h
  by_contra hnot
  have hother : ¬ (p.Holds (c.readIndex % p.bufPacketNum) c.packetIndex ∧
      (p.packets (c.readIndex % p.bufPacketNum)).packetSize ≤ len) := fun hc => hnot hc.1
  obtain ⟨result, hread', -⟩ := shmMutilRead_of_not hother
  rw [hread', Option.some.injEq] at hread
  subst hread
  cases hcopied

/-- And it can be read. -/
theorem SlotsInv.readable (h : SlotsInv N T p) (hN : 1 ≤ N) (hT : T < 2 ^ 31) {c : Cursor}
    (hold : p.Holds (c.readIndex % N) c.packetIndex) :
    Readable p c (slotBytes p (c.readIndex % N)) := by
  have hbytes := h.readSlot_eq hT (Nat.mod_lt _ hN) hold.1
  have hnum := h.num
  subst hnum
  exact ⟨_, _, by rw [shmMutilRead_of_holds hold (Nat.le_refl _), hbytes, Option.map_some], rfl⟩

/-! ## A write that fails -/

/-- Between the two rings no packet was lost, and what is in use is the same. -/
structure KeepsPackets (p p' : MultiShm) : Prop where
  readable : ∀ c bytes, Readable p c bytes → Readable p' c bytes
  used : p'.curUsedBufSize = p.curUsedBufSize

/-- Giving up a slot keeps the packets only when it was empty. -/
theorem SlotsInv.keepsPackets_freeSlot_iff (h : SlotsInv N T p) (hT : T < 2 ^ 31) {i : Nat}
    (hi : i < N) : KeepsPackets p (Ipc.freeSlot p i) ↔ (p.packets i).packetSize = 0 := by
  obtain ⟨-, -, hused⟩ := h.freeSlot hT hi
  constructor
  · intro hkeeps
    have heq := hkeeps.used
    omega
  · intro hempty
    rw [Ipc.freeSlot, if_neg (by omega)]
    exact ⟨fun _ _ hread => hread, rfl⟩

/-- The packet in a slot that is given up is gone. -/
theorem SlotsInv.lost_freeSlot (h : SlotsInv N T p) (hN : 1 ≤ N) (hT : T < 2 ^ 31) {i : Nat}
    (hi : i < N) (hsize : (p.packets i).packetSize ≠ 0) :
    ∃ c bytes, Readable p c bytes ∧ ∀ bytes', ¬ Readable (Ipc.freeSlot p i) c bytes' := by
  obtain ⟨hinv, hempty, -⟩ := h.freeSlot hT hi
  have hslot : i % N = i := Nat.mod_eq_of_lt hi
  refine ⟨⟨i, (p.packets i).packetIdx⟩, _, h.readable hN hT ?_, fun bytes' hread => ?_⟩
  · rw [hslot]
    exact ⟨Nat.pos_of_ne_zero hsize, rfl⟩
  · have hlive := hread.holds.1
    rw [hinv.num, hslot] at hlive
    omega

/-- **When a failed write loses nothing.** After any sequence of writes, a write that returns
    `ERROR_TOTAL_BUFFER_NOT_ENOUGH` leaves every packet readable and the bytes in use as they were
    exactly when the slot it would have used is empty; otherwise the packet in it is lost. -/
theorem multiWrite_keepsPackets_iff (packetNum totalSize : Nat) (hnum : 1 ≤ packetNum)
    (htotal : totalSize < 2 ^ 31) (packets : List (List UInt8))
    (hsizes : ∀ packet ∈ packets, packet.length < 2 ^ 31) (p : MultiShm) (tr : List MultiEvent)
    (hrun : run multiWriteStep (shmMutilInit packetNum totalSize) packets = some (p, tr))
    (packet : List UInt8) (hsize : packet.length < 2 ^ 31) (p' : MultiShm)
    (hfailed : shmMutilWriteOnePacket p packet = some (p', errorTotalBufferNotEnough)) :
    (KeepsPackets p p' ↔ (p.packets (p.curWriteIndex % packetNum)).packetSize = 0) ∧
      ((p.packets (p.curWriteIndex % packetNum)).packetSize ≠ 0 →
        ∃ c bytes, Readable p c bytes ∧ ∀ bytes', ¬ Readable p' c bytes') := by
  have h := slotsInv_writes hnum htotal hsizes hrun
  have hi := Nat.mod_lt p.curWriteIndex hnum
  obtain ⟨q, r, hwrite, -, hfree⟩ := h.write hnum htotal hsize
  rw [hwrite, Option.some.injEq, Prod.mk.injEq] at hfailed
  obtain ⟨rfl, rfl⟩ := hfailed
  rw [hfree rfl]
  exact ⟨h.keepsPackets_freeSlot_iff htotal hi, h.lost_freeSlot hnum htotal hi⟩

/-- The second slot is empty, and the packet for it does not fit beside the first one. -/
theorem multiWrite_keepsPackets_first : ∃ p tr p',
    run multiWriteStep (shmMutilInit 2 4) [[1, 2]] = some (p, tr) ∧
    shmMutilWriteOnePacket p [3, 4, 5] = some (p', errorTotalBufferNotEnough) ∧
    KeepsPackets p p' :=
  ⟨_, _, _, rfl, rfl, (multiWrite_keepsPackets_iff 2 4 (by decide) (by decide) [[1, 2]] (by decide)
    _ _ rfl [3, 4, 5] (by decide) _ rfl).1.2 rfl⟩

/-- Both slots are in use, and a packet as large as the area is refused: the first packet is lost. -/
theorem multiWrite_loses_first : ∃ p tr p',
    run multiWriteStep (shmMutilInit 2 4) [[1, 2], [3]] = some (p, tr) ∧
    shmMutilWriteOnePacket p [4, 5, 6, 7] = some (p', errorTotalBufferNotEnough) ∧
    ¬ KeepsPackets p p' := by
  refine ⟨_, _, _, rfl, rfl, fun hkeeps => ?_⟩
  exact absurd (hkeeps.readable ⟨0, 0⟩ [1, 2] ⟨4, _, rfl, rfl⟩).holds.1 (by decide)

end XToolkits.Ipc
