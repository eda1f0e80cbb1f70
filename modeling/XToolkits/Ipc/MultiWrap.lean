import XToolkits.Ipc.MultiSlots

set_option autoImplicit false

/-! # The multi-reader ring past the last number

A reader counts slots round the ring and packets in 32 bits. The writer takes the slot from the
number of the packet, so after the packet `2 ^ 32 - 1` it starts again at slot `0`, and the reader
goes on to the slot after the last one it read. `advanceTogether_iff` says for which rings and
packets both come to the same slot, and `exists_run_comeApart` that writes alone lead to where they do
not. -/

namespace XToolkits.Ipc

variable {N T n idx i : Nat} {p p' : MultiShm} {packet : List UInt8}

/-- The write from `p` to `p'` stored the packet in slot `i`. -/
def StoredIn (p p' : MultiShm) (packet : List UInt8) (i : Nat) : Prop :=
  p'.packets = Function.update p.packets i (slotInfo p packet)

/-- When a reader at the slot of packet `idx` has read it, the slot it goes on to is the one in which
    the packet with the next number is stored. -/
def AdvanceTogether (N idx : Nat) : Prop :=
  ∀ (p : MultiShm) (len : Nat) (c : Cursor) (r : MultiRead) (bytes : List UInt8),
    p.bufPacketNum = N → c.readIndex % N = idx % N → c.packetIndex = idx →
    shmMutilReadOnePacket p len c = some r → r.copied = some bytes →
    ∀ (q q' : MultiShm) (packet : List UInt8),
      q.bufPacketNum = N → q.curWriteIndex = u32 (idx + 1) →
      shmMutilWriteOnePacket q packet = some (q', 0) →
      StoredIn q q' packet (r.cursor.readIndex % N)

/-- Reader and writer of a ring come apart: packet `idx` is read from its slot, the next one is
    written, and not stored in the slot that the reader goes on to. -/
def ComeApart (N idx : Nat) (p : MultiShm) : Prop :=
  p.bufPacketNum = N ∧ p.curWriteIndex = u32 (idx + 1) ∧
    ∃ len r bytes packet p', shmMutilReadOnePacket p len ⟨idx % N, idx⟩ = some r ∧
      r.copied = some bytes ∧ shmMutilWriteOnePacket p packet = some (p', 0) ∧
      ¬ StoredIn p p' packet (r.cursor.readIndex % N)

theorem ComeApart.not_advanceTogether (h : ComeApart N idx p) : ¬ AdvanceTogether N idx := by
  obtain ⟨hnum, hindex, len, r, bytes, packet, p', hread, hcopied, hwrite, hstored⟩ := h
  intro htogether
  exact hstored (htogether p len _ r bytes hnum (Nat.mod_mod _ _) rfl hread hcopied p p' packet hnum
    hindex hwrite)

/-! ## Where the writer stores -/

theorem writeSplit_packets (h : writeSplit p i packet = some p') :
    p'.packets = Function.update p.packets i (slotInfo p packet) := by
  simp only [writeSplit] at h
  split at h
  · cases h
  · split at h
    · cases h
    · cases h
      rfl

theorem writeWhole_packets (h : writeWhole p i packet = some p') :
    p'.packets = Function.update p.packets i (slotInfo p packet) := by
  simp only [writeWhole] at h
  split at h
  · cases h
  · cases h
    rfl

theorem update_freeSlot (p : MultiShm) (i : Nat) (info : MultiPacketInfo) :
    Function.update (freeSlot p i).packets i info = Function.update p.packets i info := by
  unfold freeSlot
  split
  · exact Function.update_idem _ _ _
  · rfl

theorem slotInfo_freeSlot (p : MultiShm) (i : Nat) (packet : List UInt8) :
    slotInfo (freeSlot p i) packet = slotInfo p packet := by
  unfold freeSlot
  split <;> rfl

/-- **A write stores its packet in the slot of its number.** -/
theorem storedIn_write (h : shmMutilWriteOnePacket p packet = some (p', 0)) :
    StoredIn p p' packet (p.curWriteIndex % p.bufPacketNum) := by
  rw [shmMutilWriteOnePacket] at h
  split at h
  · cases h
  · dsimp only at h
    split at h
    · cases h
    · obtain ⟨q, hcopy, heq⟩ := Option.map_eq_some_iff.1 h
      obtain ⟨rfl, -⟩ := Prod.mk.inj heq
      show q.packets = Function.update p.packets _ (slotInfo p packet)
      rw [← update_freeSlot, ← slotInfo_freeSlot p (p.curWriteIndex % p.bufPacketNum)]
      split at hcopy
      · exact writeSplit_packets hcopy
      · exact writeWhole_packets hcopy

/-- In no other one, when the packet is not there already. -/
theorem StoredIn.eq {j : Nat} (h : StoredIn p p' packet i) (h' : StoredIn p p' packet j)
    (hnew : p.packets i ≠ slotInfo p packet) : j = i := by
  by_contra hne
  have hi := congrFun (h.symm.trans h') i
  rw [Function.update_self, Function.update_of_ne (Ne.symm hne)] at hi
  exact hnew hi.symm

/-! ## Where the reader goes on to -/

/-- A read that copies something moves the cursor on by one. -/
theorem cursor_of_copied {len : Nat} {c : Cursor} {r : MultiRead} {bytes : List UInt8}
    (hread : shmMutilReadOnePacket p len c = some r) (hcopied : r.copied = some bytes) :
    r.cursor = ⟨u32 (c.readIndex % p.bufPacketNum + 1), u32 (c.packetIndex + 1)⟩ := by
  by_cases hold : p.Holds (c.readIndex % p.bufPacketNum) c.packetIndex ∧
      (p.packets (c.readIndex % p.bufPacketNum)).packetSize ≤ len
  · rw [shmMutilRead_of_holds hold.1 hold.2] at hread
    obtain ⟨-, -, rfl⟩ := Option.map_eq_some_iff.1 hread
    rfl
  · obtain ⟨result, hnone, -⟩ := shmMutilRead_of_not hold
    rw [hread] at hnone
    obtain rfl := Option.some.inj hnone
    cases hcopied

/-- The slot behind the one of a packet is the one of the next number, when the number does not wrap
    or the slots come out even. -/
theorem nextSlot_iff (hN : 1 ≤ N) (hN32 : N < 2 ^ 32) (hidx : idx < 2 ^ 32) :
    u32 (idx % N + 1) % N = u32 (idx + 1) % N ↔ idx + 1 < 2 ^ 32 ∨ N ∣ 2 ^ 32 := by
  have hslot := Nat.mod_lt idx hN
  rw [u32_of_lt (n := idx % N + 1) (by omega), Nat.mod_add_mod]
  rcases Nat.lt_or_ge (idx + 1) (2 ^ 32) with hlt | hge
  · rw [u32_of_lt hlt]
    exact iff_of_true rfl (Or.inl hlt)
  · have hlast : idx + 1 = 2 ^ 32 := by omega
    rw [hlast, or_iff_right (Nat.lt_irrefl _), show u32 (2 ^ 32) = 0 from Nat.mod_self _, Nat.zero_mod,
      Nat.dvd_iff_mod_eq_zero]

/-- When the slots do not come out even, a ring with the last packet in its slot and room for another
    one. -/
theorem SlotsInv.comeApart (h : SlotsInv N T p) (hN : 1 ≤ N) (hT : T < 2 ^ 31)
    (hold : p.Holds (idx % N) idx) (hindex : p.curWriteIndex = u32 (idx + 1))
    (hroom : p.curUsedBufSize + 1 ≤ T)
    (hslot : u32 (idx % N + 1) % N ≠ u32 (idx + 1) % N)
    (hnew : p.packets (p.curWriteIndex % N) ≠ slotInfo p [0x2a]) : ComeApart N idx p := by
  have hcursor : p.Holds (idx % N % N) idx := by rwa [Nat.mod_mod]
  obtain ⟨len, r, hread, hcopied⟩ := h.readable (c := ⟨idx % N, idx⟩) hN hT hcursor
  obtain ⟨-, -, hused⟩ := h.freeSlot hT (Nat.mod_lt p.curWriteIndex hN)
  have hfits : (Ipc.freeSlot p (p.curWriteIndex % N)).curUsedBufSize + [(0x2a : UInt8)].length ≤ T := by
    rw [List.length_singleton]
    omega
  obtain ⟨p', hwrite, -⟩ := h.write_room hN hT (by decide) hfits
  refine ⟨h.num, hindex, len, r, _, [0x2a], p', hread, hcopied, hwrite, fun hstored => hslot ?_⟩
  have hat := storedIn_write hwrite
  rw [h.num] at hat
  have heq := hat.eq hstored hnew
  rw [cursor_of_copied hread hcopied, h.num, hindex] at heq
  simpa using heq

/-! ## Every ring and every number -/

/-- A ring of two bytes with one packet. -/
def ringWith (N idx : Nat) : MultiShm where
  buf := fun _ => 0
  packets := Function.update (fun _ => ⟨idx, 0, 0⟩) (idx % N) ⟨idx, 0, 1⟩
  bufTotalSize := 2
  bufPacketNum := N
  curWriteIndex := u32 (idx + 1)
  curWriteOffset := 1
  curUsedBufSize := 1

theorem packets_ringWith (N idx i : Nat) : ((ringWith N idx).packets i).packetIdx = idx ∧
    ((ringWith N idx).packets i).packetOffset = 0 := by
  by_cases hi : i = idx % N
  · simp [ringWith, hi]
  · simp [ringWith, hi]

theorem slotsInv_ringWith (hN : 1 ≤ N) (idx : Nat) : SlotsInv N 2 (ringWith N idx) where
  num := rfl
  total := rfl
  offset := fun _ => Nat.one_lt_two
  packetOffset := by
    intro i _ _
    rw [(packets_ringWith N idx i).2]
    decide
  sum := by
    have hsum := sum_update (fun _ => ⟨idx, 0, 0⟩) (Nat.mod_lt idx hN) ⟨idx, 0, 1⟩
    simp only [Finset.sum_const_zero, Nat.zero_add, Nat.add_zero] at hsum
    exact hsum.symm
  used_le := Nat.le_succ 1

/-- **Reader and writer advance to the same slot** exactly when the number does not wrap, or the slots
    of the ring come out even over all numbers: for every number of slots, every packet, every state
    of the ring when it is read and when the next one is written, and every reader at its slot. -/
theorem advanceTogether_iff (N idx : Nat) (hN : 1 ≤ N) (hN32 : N < 2 ^ 32) (hidx : idx < 2 ^ 32) :
    AdvanceTogether N idx ↔ idx + 1 < 2 ^ 32 ∨ N ∣ 2 ^ 32 := by
  rw [← nextSlot_iff hN hN32 hidx]
  constructor
  · intro h
    by_contra hslot
    have hold : (ringWith N idx).Holds (idx % N) idx := by
      simp [MultiShm.Holds, ringWith]
    have hnew : (ringWith N idx).packets ((ringWith N idx).curWriteIndex % N) ≠
        slotInfo (ringWith N idx) [0x2a] := by
      intro heq
      have hnumber : idx = u32 (idx + 1) :=
        (packets_ringWith N idx _).1.symm.trans (congrArg MultiPacketInfo.packetIdx heq)
      rw [u32] at hnumber
      omega
    exact ((slotsInv_ringWith hN idx).comeApart hN (by decide) hold rfl (Nat.le_refl 2) hslot
      hnew).not_advanceTogether h
  · intro hslot p len c r bytes hnum hread hidx' hcopy hcopied q q' packet hqnum hqindex hwrite
    have hstored := storedIn_write hwrite
    rw [hqnum, hqindex, ← hslot] at hstored
    rw [cursor_of_copied hcopy hcopied, hnum, hread]
    exact hstored

/-- A ring of four slots after the last number. -/
theorem advanceTogether_four : AdvanceTogether 4 (2 ^ 32 - 1) :=
  (advanceTogether_iff 4 (2 ^ 32 - 1) (by decide) (by decide) (by decide)).2 (Or.inr (by decide))

/-! ## After `2 ^ 32` writes -/

/-- Packets of one byte: what is in use is their number. -/
theorem RingInv.used_of_oneByte {k : Nat} {b : UInt8} (h : RingInv N T p (List.replicate n [b]) k) :
    p.curUsedBufSize = k := by
  have hle := h.live_le
  have hused := h.used
  simp only [streamStart, List.take_replicate, List.flatten_replicate_singleton,
    List.length_replicate] at hle hused
  omega

/-- With a byte for every slot and one more there is always room for a packet of one byte. -/
theorem RingInv.write_oneByte {k : Nat} {b : UInt8} (hN : 1 ≤ N) (hT : N + 1 < 2 ^ 31)
    (h : RingInv N (N + 1) p (List.replicate n [b]) k) :
    ∃ p' k', shmMutilWriteOnePacket p [b] = some (p', 0) ∧ p'.curWriteIndex = u32 (n + 1) ∧ 1 ≤ k' ∧
      RingInv N (N + 1) { p' with curWriteIndex := n + 1 } (List.replicate (n + 1) [b]) k' := by
  obtain ⟨k', hk', hinv, -⟩ := h.freeSlot hN hT
  have hroom : (Ipc.freeSlot p ((List.replicate n [b]).length % N)).curUsedBufSize + [b].length ≤
      N + 1 := by
    rw [hinv.used_of_oneByte, List.length_singleton]
    omega
  have hone : 1 ≤ [b].length := Nat.le_refl 1
  obtain ⟨p', k'', hwrite, hindex, hlive, hring⟩ := h.write_room hN hT hone hroom
  rw [List.length_replicate] at hindex hring
  rw [← List.replicate_succ'] at hring
  exact ⟨p', k'', hwrite, hindex, hlive, hring⟩

/-- The ring after writes of one byte, one for each number but the last one. -/
theorem run_oneByte (hN : 1 ≤ N) (hT : N + 1 < 2 ^ 31) (b : UInt8) (hn : n < 2 ^ 32) :
    ∃ p tr k, run multiWriteStep (shmMutilInit N (N + 1)) (List.replicate n [b]) = some (p, tr) ∧
      RingInv N (N + 1) p (List.replicate n [b]) k := by
  induction n with
  | zero => exact ⟨_, _, 0, rfl, ringInv_init N (N + 1)⟩
  | succ n ih =>
      obtain ⟨p, tr, k, hrun, h⟩ := ih (by omega)
      obtain ⟨p', k', hwrite, hindex, -, h'⟩ := h.write_oneByte hN hT
      have hself : { p' with curWriteIndex := n + 1 } = p' := by rw [← u32_of_lt hn, ← hindex]
      rw [hself] at h'
      refine ⟨p', tr ++ [.wrote [b] 0], k', ?_, h'⟩
      rw [List.replicate_succ']
      exact run_multiWriteStep_concat hrun hwrite

/-- **Writes alone lead to where reader and writer come apart**, whenever the slots of the ring do not
    come out even over all numbers. -/
theorem exists_run_comeApart (hN : 1 ≤ N) (hT : N + 1 < 2 ^ 31) (hodd : ¬ N ∣ 2 ^ 32) :
    ∃ p tr, run multiWriteStep (shmMutilInit N (N + 1)) (List.replicate (2 ^ 32) [0x2a]) =
      some (p, tr) ∧ ComeApart N (2 ^ 32 - 1) p := by
  obtain ⟨n, hn⟩ : ∃ n, 2 ^ 32 = n + 1 := ⟨2 ^ 32 - 1, by decide⟩
  obtain ⟨p, tr, k, hrun, h⟩ := run_oneByte hN hT 0x2a (show n < 2 ^ 32 by omega)
  obtain ⟨p', k', hwrite, hindex, hlive, h'⟩ := h.write_oneByte hN hT
  have hrun' : run multiWriteStep (shmMutilInit N (N + 1)) (List.replicate (n + 1) [0x2a]) =
      some (p', tr ++ [.wrote [0x2a] 0]) := by
    rw [List.replicate_succ']
    exact run_multiWriteStep_concat hrun hwrite
  have hslots : SlotsInv N (N + 1) p' := by
    refine slotsInv_writes hN hT (fun packet hpacket => ?_) hrun'
    rw [List.eq_of_mem_replicate hpacket]
    decide
  have hused : p'.curUsedBufSize = k' := h'.used_of_oneByte
  have hle := h'.live_le_num
  have hlen : (List.replicate (n + 1) [(0x2a : UInt8)]).length = n + 1 := List.length_replicate
  have hlast : p'.packets (n % N) = ⟨n, _, 1⟩ :=
    h'.live n [0x2a] (by omega) (by rw [List.getElem?_replicate, if_pos (Nat.lt_succ_self n)])
  have hzero : p'.curWriteIndex = 0 := by
    rw [hindex, ← hn]
    rfl
  have hslot : u32 (n % N + 1) % N ≠ u32 (n + 1) % N := by
    rw [Ne, nextSlot_iff hN (by omega) (by omega), or_iff_left hodd]
    omega
  rw [hn, Nat.add_sub_cancel]
  refine ⟨p', _, hrun', hslots.comeApart hN hT ?_ hindex (by omega) hslot fun heq => ?_⟩
  · rw [MultiShm.Holds, hlast]
    exact ⟨Nat.one_pos, rfl⟩
  · -- the packet in the slot of the writer is one of the last ones, and not number `0`
    have hsize : (p'.packets (p'.curWriteIndex % N)).packetSize ≠ 0 := by
      rw [heq]
      exact Nat.one_ne_zero
    obtain ⟨j, b, hj, -, -, hinfo⟩ := h'.exists_live (Nat.mod_lt _ hN) hsize
    have hnumber : j = p'.curWriteIndex :=
      congrArg MultiPacketInfo.packetIdx (hinfo.symm.trans heq)
    omega

/-- After `2 ^ 32` writes to a ring of three slots the last packet is in slot `0`, the reader goes on
    to slot `1`, and the next packet is stored in slot `0`. -/
theorem advanceTogether_three : ¬ AdvanceTogether 3 (2 ^ 32 - 1) ∧
    ∃ p tr, run multiWriteStep (shmMutilInit 3 4) (List.replicate (2 ^ 32) [0x2a]) = some (p, tr) ∧
      ComeApart 3 (2 ^ 32 - 1) p := by
  obtain ⟨p, tr, hrun, happart⟩ := exists_run_comeApart (N := 3) (by decide) (by decide) (by decide)
  exact ⟨happart.not_advanceTogether, p, tr, hrun, happart⟩

end XToolkits.Ipc
