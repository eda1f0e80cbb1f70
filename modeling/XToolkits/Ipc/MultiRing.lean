import Mathlib.Algebra.BigOperators.Group.Finset.Basic
import XToolkits.Ipc.MultiShm
import XToolkits.Lib.StreamWindow

set_option autoImplicit false

/-! # Integrity of the multi-reader ring

The ring against the list of the packets written successfully. The packets still in the ring are the
last `k` of them for some `k ≤ N`; as a stream of bytes they are the window of the data area that
ends at the write offset (`RingInv`). A write gives up at most the oldest of them, in its own slot,
and the window grows at its end. That the code never compares a write with the ranges of other
slots is made up for by its one test, that the bytes in use and the new ones fit the area. -/

namespace XToolkits.Ipc

variable {N T k : Nat} {p : MultiShm} {written : List (List UInt8)}

/-- The position in the stream at which packet number `j` starts. -/
def streamStart (written : List (List UInt8)) (j : Nat) : Nat := (written.take j).flatten.length

/-- The ring after the packets `written`, of which the last `k` are still there. -/
structure RingInv (N T : Nat) (p : MultiShm) (written : List (List UInt8)) (k : Nat) : Prop where
  num : p.bufPacketNum = N
  total : p.bufTotalSize = T
  index : p.curWriteIndex = written.length
  offset : p.curWriteOffset = written.flatten.length % T
  live_le : k ≤ written.length
  live_le_num : k ≤ N
  nonempty : ∀ b ∈ written, 1 ≤ b.length
  live : ∀ (j : Nat) (b : List UInt8), written.length ≤ j + k → written[j]? = some b →
    p.packets (j % N) = ⟨j, streamStart written j % T, b.length⟩
  empty : ∀ i < N, (p.packets i).packetSize ≠ 0 →
    ∃ j, written.length ≤ j + k ∧ j < written.length ∧ j % N = i
  used : p.curUsedBufSize = written.flatten.length - streamStart written (written.length - k)
  sum : p.curUsedBufSize = ∑ i ∈ Finset.range N, (p.packets i).packetSize
  window : Window T p.buf written.flatten p.curUsedBufSize

theorem ringInv_init (N T : Nat) : RingInv N T (shmMutilInit N T) [] 0 := by
  constructor <;> simp [shmMutilInit, streamStart]
  exact Window.empty T _

/-! ## Positions in the stream -/

theorem streamStart_concat {j : Nat} (hj : j ≤ written.length) (packet : List UInt8) :
    streamStart (written ++ [packet]) j = streamStart written j := by
  rw [streamStart, streamStart, List.take_append_of_le_length hj]

@[simp] theorem streamStart_length (written : List (List UInt8)) :
    streamStart written written.length = written.flatten.length := by
  rw [streamStart, List.take_length]

/-- A packet ends where the next one starts. -/
theorem streamStart_succ {j : Nat} {b : List UInt8} (hb : written[j]? = some b) :
    streamStart written (j + 1) = streamStart written j + b.length := by
  simp [streamStart, List.take_add_one, hb]

theorem streamStart_le (written : List (List UInt8)) {i j : Nat} (hij : i ≤ j) :
    streamStart written i ≤ streamStart written j := by
  obtain ⟨d, rfl⟩ := Nat.exists_eq_add_of_le hij
  simp [streamStart, List.take_add]

theorem streamStart_le_length (written : List (List UInt8)) (j : Nat) :
    streamStart written j ≤ written.flatten.length := by
  rw [← streamStart_length]
  rcases Nat.le_total j written.length with hj | hj
  · exact streamStart_le written hj
  · rw [streamStart, List.take_of_length_le hj, streamStart_length]

/-- The bytes of packet number `j` in the stream. -/
theorem packet_in_stream {j : Nat} {b : List UInt8} (hb : written[j]? = some b) :
    (written.flatten.drop (streamStart written j)).take b.length = b := by
  obtain ⟨hj, rfl⟩ := List.getElem?_eq_some_iff.1 hb
  have hsplit : written.flatten =
      (written.take j).flatten ++ (written[j] ++ (written.drop (j + 1)).flatten) := by
    rw [← List.flatten_cons, ← List.drop_eq_getElem_cons hj, ← List.flatten_append,
      List.take_append_drop]
  rw [hsplit, streamStart, List.drop_left, List.take_left]

/-! ## The packets in the ring -/

/-- A packet in the ring lies in the window. -/
theorem RingInv.in_window (h : RingInv N T p written k) {j : Nat} {b : List UInt8}
    (hj : written.length ≤ j + k) (hb : written[j]? = some b) :
    written.flatten.length ≤ streamStart written j + p.curUsedBufSize ∧
      streamStart written j + b.length ≤ written.flatten.length := by
  have hstart := streamStart_le written (show written.length - k ≤ j by omega)
  have hend := streamStart_le_length written (j + 1)
  rw [streamStart_succ hb] at hend
  have hused := h.used
  omega

/-- **What a read finds.** The slot of a packet in the ring yields the bytes it was written with. -/
theorem RingInv.readSlot_live (h : RingInv N T p written k) (hT : T < 2 ^ 31) {j : Nat}
    {b : List UInt8} (hj : written.length ≤ j + k) (hb : written[j]? = some b) :
    readSlot p (j % N) = some b := by
  obtain ⟨hv, hn⟩ := h.in_window hj hb
  have hle := h.window.le_area
  have hlen := h.nonempty b (List.mem_of_getElem? hb)
  have hT0 : 0 < T := by omega
  have hlt := Nat.mod_lt (streamStart written j) hT0
  simp only [readSlot, h.live j b hj hb, h.total]
  rw [u32_of_lt (by omega)]
  split
  · next hwrap =>
      have hread := h.window.read_wrap hv hn hT0 (by omega) hwrap
      rw [subU32_of_le (by omega) (by omega), subU32_of_le (by omega) (by omega),
        Mem.readIn_eq_some _ _ _ _ (by omega) (by omega),
        Mem.readIn_eq_some _ _ _ _ (by omega) (by omega)]
      rw [packet_in_stream hb] at hread
      simpa using hread
  · next hfits =>
      rw [Mem.readIn_eq_some _ _ _ _ (by omega) (by omega),
        h.window.read hv hn (by omega), packet_in_stream hb]

/-- A slot that is not empty holds a packet in the ring. -/
theorem RingInv.exists_live (h : RingInv N T p written k) {i : Nat} (hi : i < N)
    (hsize : (p.packets i).packetSize ≠ 0) :
    ∃ j b, written.length ≤ j + k ∧ written[j]? = some b ∧ j % N = i ∧
      p.packets i = ⟨j, streamStart written j % T, b.length⟩ := by
  obtain ⟨j, hj, hlt, rfl⟩ := h.empty i hi hsize
  have hb := List.getElem?_eq_getElem hlt
  exact ⟨j, written[j], hj, hb, rfl, h.live j _ hj hb⟩

/-! ## Giving up a slot -/

/-- Changing one slot changes the sum of the sizes by the difference. -/
theorem sum_update (packets : Nat → MultiPacketInfo) {i : Nat} (hi : i < N) (info : MultiPacketInfo) :
    ∑ x ∈ Finset.range N, (Function.update packets i info x).packetSize +
        (packets i).packetSize =
      ∑ x ∈ Finset.range N, (packets x).packetSize + info.packetSize := by
  have hmem := Finset.mem_range.2 hi
  have hrest : ∀ x ∈ (Finset.range N).erase i,
      (Function.update packets i info x).packetSize = (packets x).packetSize := by
    intro x hx
    rw [Function.update_of_ne (Finset.ne_of_mem_erase hx)]
  rw [← Finset.add_sum_erase _ _ hmem, ← Finset.add_sum_erase _ (fun x => (packets x).packetSize) hmem,
    Finset.sum_congr rfl hrest, Function.update_self]
  omega

/-- A packet in the slot of the next write is the oldest of `N` packets in the ring. -/
theorem RingInv.eq_oldest (h : RingInv N T p written k) {j : Nat} (hj : written.length ≤ j + k)
    (hlt : j < written.length) (hslot : j % N = written.length % N) :
    k = N ∧ j = written.length - N := by
  have hle := h.live_le_num
  have hge : N ≤ written.length - j := by
    by_contra hnear
    exact mod_ne_of_lt hlt (by omega) hslot
  omega

/-- When the slot of the next write is free, the ring is not full: a full one has a packet in every
    slot. -/
theorem RingInv.lt_of_free (h : RingInv N T p written k) (hN : 1 ≤ N)
    (hfree : (p.packets (written.length % N)).packetSize = 0) : k < N := by
  refine Nat.lt_of_le_of_ne h.live_le_num fun hk => ?_
  subst hk
  have hle := h.live_le
  have hlt : written.length - k < written.length := by omega
  have hlive := h.live _ _ (by omega) (List.getElem?_eq_getElem hlt)
  have hlen := h.nonempty _ (List.getElem_mem hlt)
  rw [show (written.length - k) % k = written.length % k from (Nat.mod_eq_sub_mod hle).symm] at hlive
  rw [hlive] at hfree
  exact absurd hfree (Nat.ne_of_gt hlen)

/-- After a write has given up what was in its slot, the slot is free and the other packets are
    still in the ring. -/
theorem RingInv.freeSlot (h : RingInv N T p written k) (hN : 1 ≤ N) (hT : T < 2 ^ 31) :
    ∃ k' < N, RingInv N T (freeSlot p (written.length % N)) written k' ∧
      ((freeSlot p (written.length % N)).packets (written.length % N)).packetSize = 0 := by
  have hi : written.length % N < N := Nat.mod_lt _ hN
  unfold Ipc.freeSlot
  split
  · next hsize =>
      obtain ⟨j, b, hj, hb, hslot, hinfo⟩ := h.exists_live hi (by omega)
      have hlt := (List.getElem?_eq_some_iff.1 hb).1
      obtain ⟨rfl, rfl⟩ := h.eq_oldest hj hlt hslot
      have hlen : (p.packets (written.length % k)).packetSize = b.length := by rw [hinfo]
      have hsum := sum_update p.packets hi { p.packets (written.length % k) with packetSize := 0 }
      rw [← h.sum, hlen] at hsum
      have hle := h.live_le
      have hused := h.used
      have harea := h.window.le_area
      have hnext := streamStart_succ hb
      have hend := streamStart_le_length written (written.length - k + 1)
      have hsub : subU32 p.curUsedBufSize (p.packets (written.length % k)).packetSize =
          p.curUsedBufSize - b.length := by
        rw [hlen, subU32_of_le (by omega) (by omega)]
      rw [hsub]
      refine ⟨k - 1, by omega, ?_, by simp⟩
      exact {
        num := h.num, total := h.total, index := h.index, offset := h.offset
        live_le := by omega
        live_le_num := by omega
        nonempty := h.nonempty
        live := by
          intro j' b' hj' hb'
          have hlt' := (List.getElem?_eq_some_iff.1 hb').1
          have hne : j' % k ≠ written.length % k := mod_ne_of_lt hlt' (by omega)
          simp only [Function.update_of_ne hne]
          exact h.live j' b' (by omega) hb'
        empty := by
          intro i' hi' hsize'
          by_cases hne : i' = written.length % k
          · subst hne
            simp at hsize'
          · simp only [Function.update_of_ne hne] at hsize'
            obtain ⟨j', hj', hlt', rfl⟩ := h.empty i' hi' hsize'
            -- only the oldest packet is in the slot given up
            have hyoung : j' ≠ written.length - k := fun heq => hne (heq ▸ hslot)
            exact ⟨j', by omega, hlt', rfl⟩
        used := by
          rw [show written.length - (k - 1) = written.length - k + 1 by omega, hnext]
          show p.curUsedBufSize - b.length = _
          omega
        sum := by
          show p.curUsedBufSize - b.length = _
          exact (Nat.eq_sub_of_add_eq hsum).symm
        window := h.window.shrink (Nat.sub_le _ _) }
  · next hsize => exact ⟨k, h.lt_of_free hN (by omega), h, by omega⟩

/-! ## Writing -/

/-- What both branches of a write come to: the packet goes to the end of the window. -/
def appendPacket (p : MultiShm) (i : Nat) (packet : List UInt8) (buf : Mem UInt8) : MultiShm :=
  { p with
    buf := buf
    packets := Function.update p.packets i (slotInfo p packet)
    curUsedBufSize := p.curUsedBufSize + packet.length
    curWriteOffset := (p.curWriteOffset + packet.length) % p.bufTotalSize }

theorem writeWhole_eq (hT : p.bufTotalSize < 2 ^ 31) (i : Nat) {packet : List UInt8}
    (hroom : p.curUsedBufSize + packet.length ≤ p.bufTotalSize)
    (hfits : p.curWriteOffset + packet.length ≤ p.bufTotalSize) :
    writeWhole p i packet =
      some (appendPacket p i packet (p.buf.write p.curWriteOffset packet)) := by
  have hnext : (if p.curWriteOffset + packet.length ≥ p.bufTotalSize then 0
      else p.curWriteOffset + packet.length) =
      (p.curWriteOffset + packet.length) % p.bufTotalSize := by
    split
    · next hend =>
        rw [show p.curWriteOffset + packet.length = p.bufTotalSize by omega, Nat.mod_self]
    · next hend => exact (Nat.mod_eq_of_lt (by omega)).symm
  rw [writeWhole, Mem.writeIn_eq_some _ _ _ _ (by omega) (by omega)]
  dsimp only
  rw [u32_of_lt (n := p.curWriteOffset + packet.length) (by omega), u32_of_lt (by omega), hnext]
  rfl

theorem writeSplit_eq (hT : p.bufTotalSize < 2 ^ 31) (i : Nat) {packet : List UInt8}
    (hroom : p.curUsedBufSize + packet.length ≤ p.bufTotalSize)
    (hlt : p.curWriteOffset < p.bufTotalSize)
    (hwrap : p.bufTotalSize < p.curWriteOffset + packet.length) :
    writeSplit p i packet =
      some (appendPacket p i packet
        ((p.buf.write p.curWriteOffset (packet.take (p.bufTotalSize - p.curWriteOffset))).write 0
          (packet.drop (p.bufTotalSize - p.curWriteOffset)))) := by
  have hcopy : subU32 p.bufTotalSize p.curWriteOffset = p.bufTotalSize - p.curWriteOffset :=
    subU32_of_le (by omega) (by omega)
  have htail : (packet.take (p.bufTotalSize - p.curWriteOffset)).length =
      p.bufTotalSize - p.curWriteOffset := by
    rw [List.length_take]
    omega
  have hhead : (packet.drop (p.bufTotalSize - p.curWriteOffset)).length =
      packet.length - (p.bufTotalSize - p.curWriteOffset) := List.length_drop
  have hused : u32 (u32 (p.curUsedBufSize + (p.bufTotalSize - p.curWriteOffset)) +
      (packet.length - (p.bufTotalSize - p.curWriteOffset))) =
      p.curUsedBufSize + packet.length := by
    rw [u32_of_lt (n := p.curUsedBufSize + (p.bufTotalSize - p.curWriteOffset)) (by omega),
      u32_of_lt (by omega)]
    omega
  -- the part before the end of the area makes up a whole turn
  have hnext : packet.length - (p.bufTotalSize - p.curWriteOffset) =
      (p.curWriteOffset + packet.length) % p.bufTotalSize := by
    rw [Nat.mod_eq_sub_mod (by omega), Nat.mod_eq_of_lt (by omega)]
    omega
  rw [writeSplit, hcopy, subU32_of_le (a := packet.length) (by omega) (by omega),
    List.take_of_length_le (Nat.le_of_eq hhead),
    Mem.writeIn_eq_some _ _ _ _ (by omega) (by omega)]
  dsimp only
  rw [Mem.writeIn_eq_some _ _ _ _ (by omega) (by omega), hused, hnext]
  rfl

/-- The ring after a packet was copied to the end of the window and described in its slot, which was
    free. -/
theorem RingInv.append (h : RingInv N T p written k) (hN : 1 ≤ N) (hk : k < N)
    (hfree : (p.packets (written.length % N)).packetSize = 0) {packet : List UInt8}
    (hpacket : 1 ≤ packet.length) {buf : Mem UInt8}
    (hwindow : Window T buf (written.flatten ++ packet) (p.curUsedBufSize + packet.length)) :
    RingInv N T
      { appendPacket p (written.length % N) packet buf with curWriteIndex := written.length + 1 }
      (written ++ [packet]) (k + 1) := by
  have hi : written.length % N < N := Nat.mod_lt _ hN
  have hflatten : (written ++ [packet]).flatten = written.flatten ++ packet := by simp
  have hlength : (written ++ [packet]).length = written.length + 1 := by simp
  have hle := h.live_le
  exact {
    num := h.num, total := h.total
    index := hlength.symm
    offset := by
      show (p.curWriteOffset + packet.length) % p.bufTotalSize = _
      rw [hflatten, List.length_append, h.offset, h.total, Nat.mod_add_mod]
    live_le := by omega
    live_le_num := hk
    nonempty := List.forall_mem_append.2 ⟨h.nonempty, List.forall_mem_singleton.2 hpacket⟩
    live := by
      intro j b hj hb
      have hlt := (List.getElem?_eq_some_iff.1 hb).1
      show Function.update p.packets _ _ (j % N) = _
      by_cases hold : j < written.length
      · have hne : j % N ≠ written.length % N := mod_ne_of_lt hold (by omega)
        rw [List.getElem?_append_left hold] at hb
        rw [streamStart_concat (Nat.le_of_lt hold), Function.update_of_ne hne]
        exact h.live j b (by omega) hb
      · obtain rfl : j = written.length := by omega
        rw [List.getElem?_concat_length, Option.some.injEq] at hb
        rw [streamStart_concat (Nat.le_refl _), streamStart_length, ← hb, Function.update_self,
          slotInfo, h.index, h.offset]
    empty := by
      intro i hi' hsize
      by_cases hne : i = written.length % N
      · exact ⟨written.length, by omega, by omega, hne.symm⟩
      · simp only [appendPacket, Function.update_of_ne hne] at hsize
        obtain ⟨j, hj, hlt, rfl⟩ := h.empty i hi' hsize
        exact ⟨j, by omega, by omega, rfl⟩
    used := by
      have hused := h.used
      have hstart := streamStart_le_length written (written.length - k)
      rw [hlength, show written.length + 1 - (k + 1) = written.length - k by omega, hflatten,
        streamStart_concat (Nat.sub_le _ _), List.length_append]
      show p.curUsedBufSize + packet.length = _
      omega
    sum := by
      have hsum := sum_update p.packets hi (slotInfo p packet)
      rw [hfree, ← h.sum] at hsum
      exact hsum.symm
    window := hflatten ▸ hwindow }

/-- A packet that fits is appended, in one piece or two. -/
theorem RingInv.copy (h : RingInv N T p written k) (hN : 1 ≤ N) (hT : T < 2 ^ 31) (hk : k < N)
    (hfree : (p.packets (written.length % N)).packetSize = 0) (packet : List UInt8)
    (hpacket : 1 ≤ packet.length) (hroom : p.curUsedBufSize + packet.length ≤ T) :
    ∃ p', (if u32 (p.curWriteOffset + packet.length) > T then
        writeSplit p (written.length % N) packet
      else writeWhole p (written.length % N) packet) = some p' ∧
      p'.curWriteIndex = written.length ∧
      RingInv N T { p' with curWriteIndex := written.length + 1 } (written ++ [packet]) (k + 1) := by
  have hlt : p.curWriteOffset < T := by
    rw [h.offset]
    exact Nat.mod_lt _ (by omega)
  rw [u32_of_lt (by omega)]
  have htotal := h.total
  split
  · next hwrap =>
      have hwindow := h.window.append_wrap (by omega) packet hroom (by rwa [← h.offset])
      rw [← h.offset, ← htotal] at hwindow
      exact ⟨_, writeSplit_eq (by omega) _ (by omega) (by omega) (by omega), h.index,
        h.append hN hk hfree hpacket (htotal ▸ hwindow)⟩
  · next hfits =>
      have hwindow := h.window.append packet hroom (by rw [← h.offset]; omega)
      rw [← h.offset] at hwindow
      exact ⟨_, writeWhole_eq (by omega) _ (by omega) (by omega), h.index,
        h.append hN hk hfree hpacket hwindow⟩

/-- A write when the packet fits beside those that are left. -/
theorem shmMutilWriteOnePacket_room {i : Nat} (hi : p.curWriteIndex % p.bufPacketNum = i)
    (hT : T < 2 ^ 31) (htotal : (Ipc.freeSlot p i).bufTotalSize = T) {packet : List UInt8}
    (hpacket : packet.length ≠ 0) (hroom : (Ipc.freeSlot p i).curUsedBufSize + packet.length ≤ T) :
    shmMutilWriteOnePacket p packet =
      (if u32 ((Ipc.freeSlot p i).curWriteOffset + packet.length) > T then
        writeSplit (Ipc.freeSlot p i) i packet
      else writeWhole (Ipc.freeSlot p i) i packet).map
        fun p => ({ p with curWriteIndex := u32 (p.curWriteIndex + 1) }, 0) := by
  rw [shmMutilWriteOnePacket, if_neg hpacket, hi]
  dsimp only
  rw [u32_of_lt (n := (Ipc.freeSlot p i).curUsedBufSize + packet.length) (by omega), htotal,
    if_neg (Nat.not_lt.2 hroom)]

/-- And when it does not. -/
theorem shmMutilWriteOnePacket_full {i : Nat} (hi : p.curWriteIndex % p.bufPacketNum = i)
    (hT : T < 2 ^ 31) (htotal : (Ipc.freeSlot p i).bufTotalSize = T)
    (hused : (Ipc.freeSlot p i).curUsedBufSize ≤ T) {packet : List UInt8}
    (hpacket : packet.length ≠ 0) (hsize : packet.length < 2 ^ 31)
    (hfull : T < (Ipc.freeSlot p i).curUsedBufSize + packet.length) :
    shmMutilWriteOnePacket p packet = some (Ipc.freeSlot p i, errorTotalBufferNotEnough) := by
  rw [shmMutilWriteOnePacket, if_neg hpacket, hi]
  dsimp only
  rw [u32_of_lt (by omega), htotal, if_pos hfull]

/-- A write for whose packet there is room, when the slot has been given up. But for the number of the
    next packet, which wraps, the ring holds the packets. -/
theorem RingInv.write_room (h : RingInv N T p written k) (hN : 1 ≤ N) (hT : T < 2 ^ 31)
    {packet : List UInt8} (hpacket : 1 ≤ packet.length)
    (hroom : (Ipc.freeSlot p (written.length % N)).curUsedBufSize + packet.length ≤ T) :
    ∃ p' k', shmMutilWriteOnePacket p packet = some (p', 0) ∧
      p'.curWriteIndex = u32 (written.length + 1) ∧ 1 ≤ k' ∧
      RingInv N T { p' with curWriteIndex := written.length + 1 } (written ++ [packet]) k' := by
  obtain ⟨k', hk', hinv, hfree⟩ := h.freeSlot hN hT
  obtain ⟨p', hp', hindex, hring⟩ := hinv.copy hN hT hk' hfree packet hpacket hroom
  refine ⟨{ p' with curWriteIndex := u32 (written.length + 1) }, k' + 1, ?_, rfl,
    Nat.succ_pos k', hring⟩
  rw [shmMutilWriteOnePacket_room (by rw [h.index, h.num]) hT hinv.total (by omega) hroom, hp',
    Option.map_some, hindex]

/-- **What a write does.** No copy leaves the area, and the ring holds the packets written
    successfully. -/
theorem RingInv.write (h : RingInv N T p written k) (hN : 1 ≤ N) (hT : T < 2 ^ 31)
    {packet : List UInt8} (hsize : packet.length < 2 ^ 31) (hcount : written.length + 1 < 2 ^ 32) :
    ∃ p' r k', shmMutilWriteOnePacket p packet = some (p', r) ∧
      RingInv N T p' (if r = 0 then written ++ [packet] else written) k' := by
  by_cases hempty : packet.length = 0
  · exact ⟨p, errorNormal, k, by rw [shmMutilWriteOnePacket, if_pos hempty], h⟩
  · by_cases hroom : (Ipc.freeSlot p (written.length % N)).curUsedBufSize + packet.length ≤ T
    · obtain ⟨p', k', hwrite, hindex, -, hinv⟩ := h.write_room hN hT (by omega) hroom
      rw [← u32_of_lt hcount, ← hindex] at hinv
      exact ⟨p', 0, k', hwrite, hinv⟩
    · obtain ⟨k', -, hinv, -⟩ := h.freeSlot hN hT
      exact ⟨_, _, k', shmMutilWriteOnePacket_full (by rw [h.index, h.num]) hT hinv.total
        hinv.window.le_area hempty hsize (Nat.not_le.1 hroom), hinv⟩

/-! ## The bytes of a slot -/

/-- The offsets of the bytes of slot `i`, wrapped at the end of the area. -/
def slotCells (p : MultiShm) (i : Nat) : List Nat :=
  (List.range (p.packets i).packetSize).map fun d =>
    ((p.packets i).packetOffset + d) % p.bufTotalSize

/-- A position in the stream belongs to one packet. -/
theorem streamStart_add_inj {i j d e : Nat} {a b : List UInt8} (ha : written[i]? = some a)
    (hb : written[j]? = some b) (hd : d < a.length) (he : e < b.length)
    (h : streamStart written i + d = streamStart written j + e) : i = j := by
  have hi := streamStart_succ ha
  have hj := streamStart_succ hb
  rcases Nat.lt_trichotomy i j with hlt | heq | hgt
  · have hle := streamStart_le written (show i + 1 ≤ j from hlt)
    omega
  · exact heq
  · have hle := streamStart_le written (show j + 1 ≤ i from hgt)
    omega

/-- A byte of a slot is a byte of a packet in the ring. -/
theorem RingInv.of_mem_slotCells (h : RingInv N T p written k) {i x : Nat} (hi : i < N)
    (hx : x ∈ slotCells p i) :
    ∃ j b d, written.length ≤ j + k ∧ written[j]? = some b ∧ j % N = i ∧ d < b.length ∧
      x = (streamStart written j + d) % T := by
  obtain ⟨d, hd, rfl⟩ := List.mem_map.1 hx
  rw [List.mem_range] at hd
  obtain ⟨j, b, hj, hb, hslot, hinfo⟩ := h.exists_live hi (by omega)
  rw [hinfo] at hd ⊢
  exact ⟨j, b, d, hj, hb, hslot, hd, by rw [h.total, Nat.mod_add_mod]⟩

/-- Two slots have no byte in common. -/
theorem RingInv.slotCells_disjoint (h : RingInv N T p written k) {i j : Nat} (hi : i < N) (hj : j < N)
    (hne : i ≠ j) : (slotCells p i).Disjoint (slotCells p j) := by
  intro x hxi hxj
  obtain ⟨a, pa, d, hia, hpa, rfl, hd, hx⟩ := h.of_mem_slotCells hi hxi
  obtain ⟨b, pb, e, hib, hpb, rfl, he, hx'⟩ := h.of_mem_slotCells hj hxj
  have hwa := h.in_window hia hpa
  have hwb := h.in_window hib hpb
  have harea := h.window.le_area
  rw [hx] at hx'
  -- both positions lie in the window, where equal offsets mean equal positions
  rcases Nat.lt_trichotomy (streamStart written a + d) (streamStart written b + e) with
      hlt | heq | hgt
  · exact mod_ne_of_lt hlt (by omega) hx'
  · exact hne (by rw [streamStart_add_inj hpa hpb hd he heq])
  · exact mod_ne_of_lt hgt (by omega) hx'.symm

/-! ## Sequences of writes -/

/-- A call of `shm_mutil_write_one_packet`. -/
def multiWriteStep (p : MultiShm) (packet : List UInt8) : Option (MultiShm × List MultiEvent) :=
  (shmMutilWriteOnePacket p packet).map fun (p', r) => (p', [.wrote packet r])

@[simp] theorem writtenPackets_wrote (tr : List MultiEvent) (packet : List UInt8) (r : Int) :
    writtenPackets (tr ++ [.wrote packet r]) =
      if r = 0 then writtenPackets tr ++ [packet] else writtenPackets tr := by
  unfold writtenPackets
  rw [List.filterMap_append]
  split <;> simp [*]

theorem length_writtenPackets_le (tr : List MultiEvent) (packet : List UInt8) (r : Int) :
    (writtenPackets (tr ++ [.wrote packet r])).length ≤ (writtenPackets tr).length + 1 := by
  rw [writtenPackets_wrote]
  split <;> simp

/-- One more write. -/
theorem run_multiWriteStep_concat {q p' : MultiShm} {packets : List (List UInt8)}
    {tr : List MultiEvent} (hrun : run multiWriteStep q packets = some (p, tr)) {packet : List UInt8}
    {r : Int} (hwrite : shmMutilWriteOnePacket p packet = some (p', r)) :
    run multiWriteStep q (packets ++ [packet]) = some (p', tr ++ [.wrote packet r]) :=
  run_concat_eq_some.2 ⟨p, tr, _, hrun, by rw [multiWriteStep, hwrite]; rfl, rfl⟩

/-- Every sequence of writes goes through and keeps the ring whole. -/
theorem ringInv_writes (hN : 1 ≤ N) (hT : T < 2 ^ 31) {packets : List (List UInt8)}
    (hcount : packets.length < 2 ^ 32) (hsizes : ∀ packet ∈ packets, packet.length < 2 ^ 31) :
    ∃ p tr k, run multiWriteStep (shmMutilInit N T) packets = some (p, tr) ∧
      RingInv N T p (writtenPackets tr) k ∧ (writtenPackets tr).length ≤ packets.length := by
  induction packets using List.reverseRecOn with
  | nil => exact ⟨_, _, 0, rfl, ringInv_init N T, Nat.le_refl _⟩
  | append_singleton packets packet ih =>
      rw [List.length_append, List.length_singleton] at hcount ⊢
      obtain ⟨p, tr, k, hrun, hinv, hlen⟩ :=
        ih (by omega) fun b hb => hsizes b (List.mem_append_left _ hb)
      obtain ⟨p', r, k', hwrite, hinv'⟩ :=
        hinv.write hN hT (hsizes packet (by simp)) (by omega)
      refine ⟨p', tr ++ [.wrote packet r], k', run_multiWriteStep_concat hrun hwrite, ?_, ?_⟩
      · rwa [writtenPackets_wrote]
      · exact Nat.le_trans (length_writtenPackets_le tr packet r) (by omega)

/-- **Integrity of the multi-reader ring.** After any sequence of fewer than `2 ^ 32` writes, some of
    which may have failed for lack of room: no copy has left the data area, the write offset lies in
    it, the bytes in use are those of the slots and fit it, no two slots share a byte, and a slot
    that is not empty is read as exactly the packet with its number. -/
theorem multiRing_integrity (packetNum totalSize : Nat) (hnum : 1 ≤ packetNum)
    (htotal : 1 ≤ totalSize ∧ totalSize < 2 ^ 31) (packets : List (List UInt8))
    (hcount : packets.length < 2 ^ 32)
    (hsizes : ∀ packet ∈ packets, 1 ≤ packet.length ∧ packet.length < 2 ^ 31) :
    ∃ p tr, run multiWriteStep (shmMutilInit packetNum totalSize) packets = some (p, tr) ∧
      p.curWriteOffset < totalSize ∧
      p.curUsedBufSize = ∑ i ∈ Finset.range packetNum, (p.packets i).packetSize ∧
      p.curUsedBufSize ≤ totalSize ∧
      (∀ i < packetNum, ∀ j < packetNum, i ≠ j → (slotCells p i).Disjoint (slotCells p j)) ∧
      ∀ i < packetNum, (p.packets i).packetSize > 0 →
        ∃ bytes, (writtenPackets tr)[(p.packets i).packetIdx]? = some bytes ∧
          readSlot p i = some bytes := by
  obtain ⟨p, tr, k, hrun, hinv, -⟩ :=
    ringInv_writes hnum htotal.2 hcount fun packet hpacket => (hsizes packet hpacket).2
  refine ⟨p, tr, hrun, ?_, hinv.sum, hinv.window.le_area,
    fun i hi j hj hne => hinv.slotCells_disjoint hi hj hne, fun i hi hsize => ?_⟩
  · rw [hinv.offset]
    exact Nat.mod_lt _ htotal.1
  · obtain ⟨j, b, hj, hb, rfl, hinfo⟩ := hinv.exists_live hi (by omega)
    rw [hinfo]
    exact ⟨b, hb, hinv.readSlot_live htotal.2 hj hb⟩

/-- Three writes to an area of five bytes, the last of them across its end and over the first slot. -/
theorem run_wrap : (run multiWriteStep (shmMutilInit 2 5) [[1, 2, 3], [4], [5, 6, 7]]).map (fun r =>
      (writtenPackets r.2, ((r.1.packets 0).packetSize, (r.1.packets 0).packetIdx),
        ((r.1.packets 1).packetSize, (r.1.packets 1).packetIdx), r.1.curWriteOffset)) =
    some ([[1, 2, 3], [4], [5, 6, 7]], (3, 2), (1, 1), 2) := rfl

/-- **A witness**: both slots are read as they were written, the split one too. -/
theorem multiRing_integrity_wrap :
    ∃ p tr, run multiWriteStep (shmMutilInit 2 5) [[1, 2, 3], [4], [5, 6, 7]] = some (p, tr) ∧
      p.curWriteOffset = 2 ∧ readSlot p 0 = some [5, 6, 7] ∧ readSlot p 1 = some [4] := by
  obtain ⟨p, tr, hrun, -, -, -, -, hslots⟩ := multiRing_integrity 2 5 (by decide) (by decide)
    [[1, 2, 3], [4], [5, 6, 7]] (by decide) (by decide)
  have hwrap := run_wrap
  rw [hrun] at hwrap
  simp only [Option.map_some, Option.some.injEq, Prod.mk.injEq] at hwrap
  obtain ⟨hwritten, ⟨hsize₀, hidx₀⟩, ⟨hsize₁, hidx₁⟩, hoffset⟩ := hwrap
  obtain ⟨b₀, hb₀, hread₀⟩ := hslots 0 (by decide) (by omega)
  obtain ⟨b₁, hb₁, hread₁⟩ := hslots 1 (by decide) (by omega)
  rw [hwritten, hidx₀] at hb₀
  rw [hwritten, hidx₁] at hb₁
  obtain rfl : [5, 6, 7] = b₀ := Option.some.inj hb₀
  obtain rfl : [4] = b₁ := Option.some.inj hb₁
  exact ⟨p, tr, hrun, hoffset, hread₀, hread₁⟩

end XToolkits.Ipc
