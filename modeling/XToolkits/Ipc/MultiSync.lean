import XToolkits.Ipc.MultiReader

set_option autoImplicit false

/-! # The newest packet of the multi-reader ring

`shm_multi_read_sync` takes the number in slot `0` and follows the slots while their numbers go on.
The packets in the ring are the last ones written, so from the packet in slot `0` to the newest one
no slot is empty and no number is missing; and no slot has the number after it. The walk ends at the
newest packet, whatever older ones a failed write has given up. -/

namespace XToolkits.Ipc

variable {N T k : Nat} {p : MultiShm} {written : List (List UInt8)}

/-- The slot of the packet `i` places after one in slot `0`. -/
theorem add_mod_of_slot {j i : Nat} (hslot : j % N = 0) (hi : i < N) : (j + i) % N = i := by
  rw [Nat.add_mod, hslot, Nat.zero_add, Nat.mod_mod, Nat.mod_eq_of_lt hi]

/-- The walk goes on to a packet in the ring. -/
theorem RingInv.syncNext_live (h : RingInv N T p written k) (hcount : written.length < 2 ^ 32)
    {j i : Nat} (hj : written.length ≤ j + k) (hslot : j % N = 0) (hi : i + 1 < N)
    (hlt : j + i + 1 < written.length) :
    syncNext p (i + 1) ⟨i, j + i⟩ = some ⟨i + 1, j + i + 1⟩ := by
  have hlive := h.live (j + i + 1) _ (by omega) (List.getElem?_eq_getElem hlt)
  rw [show (j + i + 1) % N = i + 1 from add_mod_of_slot hslot hi] at hlive
  have hlen := h.nonempty _ (List.getElem_mem hlt)
  have hnext : u32 (j + i + 1) = j + i + 1 := u32_of_lt (by omega)
  have hread : u32 (i + 1) = i + 1 := u32_of_lt (by omega)
  simp only [syncNext, hlive, hnext, hread]
  rw [if_pos ⟨by omega, trivial⟩]

/-- It does not go on after the newest one. -/
theorem RingInv.syncNext_newest (h : RingInv N T p written k) (hcount : written.length < 2 ^ 32)
    {i : Nat} (hi : i < N) {c : Cursor} (hc : c.packetIndex + 1 = written.length) :
    syncNext p i c = none := by
  rw [syncNext, hc, u32_of_lt hcount]
  refine if_neg ?_
  rintro ⟨hsize, hidx⟩
  obtain ⟨-, b, -, hb, -⟩ := h.of_holds hi ⟨Nat.pos_of_ne_zero hsize, hidx⟩
  exact Nat.lt_irrefl _ (List.getElem?_eq_some_iff.1 hb).1

/-- **The walk ends at the newest packet.** Packet `j` is in slot `0`, and the newest one `d` places
    after it. -/
theorem RingInv.syncLoop_newest (h : RingInv N T p written k) (hcount : written.length < 2 ^ 32)
    {j d : Nat} (hj : written.length ≤ j + k) (hslot : j % N = 0)
    (hd : j + d + 1 = written.length) {n i : Nat} (hn : i + 1 + n = N) (hi : i ≤ d) :
    syncLoop p n (i + 1) ⟨i, j + i⟩ = ⟨d, j + d⟩ := by
  have hle := h.live_le_num
  induction n generalizing i with
  | zero =>
      obtain rfl : i = d := by omega
      rfl
  | succ n ih =>
      rcases Nat.eq_or_lt_of_le hi with rfl | hlt
      · rw [syncLoop, h.syncNext_newest hcount (by omega) hd]
      · rw [syncLoop, h.syncNext_live hcount hj hslot (by omega) (by omega)]
        exact ih (by omega) hlt

/-- What `shm_multi_read_sync` finds when slot `0` is not empty. -/
theorem RingInv.shmMultiReadSync_eq (h : RingInv N T p written k) (hN : 1 ≤ N)
    (hcount : written.length < 2 ^ 32) (hsize : (p.packets 0).packetSize ≠ 0) (c : Cursor) :
    ∃ w, written.length = w + 1 ∧ shmMultiReadSync p c = (0, ⟨w % N, w⟩) ∧ p.Holds (w % N) w := by
  obtain ⟨j, b, hj, hb, hslot, hinfo⟩ := h.exists_live hN hsize
  have hlt := (List.getElem?_eq_some_iff.1 hb).1
  have hle := h.live_le_num
  obtain ⟨d, hd⟩ := Nat.exists_eq_add_of_lt hlt
  have hmod : (j + d) % N = d := add_mod_of_slot hslot (by omega)
  have hnewest : j + d < written.length := by omega
  have hlive := h.live (j + d) _ (by omega) (List.getElem?_eq_getElem hnewest)
  have hlen := h.nonempty _ (List.getElem_mem hnewest)
  refine ⟨j + d, hd, ?_, ?_⟩
  · have hwalk := h.syncLoop_newest hcount hj hslot hd.symm (i := 0) (n := N - 1) (by omega) (by omega)
    rw [shmMultiReadSync, syncFirst, if_pos hsize, h.num, hinfo, hmod]
    exact congrArg (Prod.mk 0) hwalk
  · rw [MultiShm.Holds, hlive]
    exact ⟨hlen, rfl⟩

/-- **`shm_multi_read_sync` finds the newest packet.** After any sequence of fewer than `2 ^ 32`
    writes, some of which may have failed, it sets the cursor to the last number given out and its
    slot, and a read with a large enough buffer copies the packet written last; when slot `0` is
    empty, it says so and leaves the cursor alone. -/
theorem shmMultiReadSync_newest (packetNum totalSize : Nat) (hnum : 1 ≤ packetNum)
    (htotal : totalSize < 2 ^ 31) (packets : List (List UInt8)) (hcount : packets.length < 2 ^ 32)
    (hsizes : ∀ packet ∈ packets, packet.length < 2 ^ 31) :
    ∃ p tr, run multiWriteStep (shmMutilInit packetNum totalSize) packets = some (p, tr) ∧
      ∀ c : Cursor,
        ((p.packets 0).packetSize ≠ 0 →
          (∃ w, p.curWriteIndex = w + 1 ∧ shmMultiReadSync p c = (0, ⟨w % packetNum, w⟩)) ∧
          ∃ last, (writtenPackets tr).getLast? = some last ∧
            ∀ len ≥ last.length, ∃ next,
              shmMutilReadOnePacket p len (shmMultiReadSync p c).2 = some ⟨next, 0, some last⟩) ∧
        ((p.packets 0).packetSize = 0 → shmMultiReadSync p c = (errorNoSync, c)) := by
  obtain ⟨p, tr, k, hrun, h, hlen⟩ := ringInv_writes hnum htotal hcount hsizes
  have hwritten : (writtenPackets tr).length < 2 ^ 32 := by omega
  refine ⟨p, tr, hrun, fun c => ⟨fun hsize => ?_, fun hempty => ?_⟩⟩
  · obtain ⟨w, hw, hsync, hold⟩ := h.shmMultiReadSync_eq hnum hwritten hsize c
    obtain ⟨-, b, -, hb, hbytes⟩ := h.of_holds (Nat.mod_lt _ hnum) hold
    refine ⟨⟨w, by rw [h.index, hw], hsync⟩, b, ?_, fun len hle => ?_⟩
    · rwa [List.getLast?_eq_getElem?, hw]
    · rw [hsync]
      rcases h.read_cases hnum htotal hwritten len ⟨w % packetNum, w⟩ with
          ⟨-, -, b', hb', hread⟩ | ⟨hnot, -⟩
      · rw [hb, Option.some.injEq] at hb'
        exact ⟨_, hb' ▸ hread⟩
      · refine absurd ⟨?_, ?_⟩ hnot
        · rwa [Nat.mod_mod]
        · rwa [Nat.mod_mod, hbytes]
  · rw [shmMultiReadSync, syncFirst, if_neg (not_not.2 hempty)]

/-- Two slots, the third write in slot `0` again: the walk stops there. -/
theorem shmMultiReadSync_newest_lap :
    ∃ p tr, run multiWriteStep (shmMutilInit 2 5) [[1, 2], [3, 4], [5]] = some (p, tr) ∧
      shmMultiReadSync p ⟨0, 0⟩ = (0, ⟨0, 2⟩) := by
  obtain ⟨p, tr, hrun, hsync⟩ := shmMultiReadSync_newest 2 5 (by decide) (by decide)
    [[1, 2], [3, 4], [5]] (by decide) (by decide)
  have hring : (run multiWriteStep (shmMutilInit 2 5) [[1, 2], [3, 4], [5]]).map
      (fun r => (r.1.curWriteIndex, (r.1.packets 0).packetSize)) = some (3, 1) := by decide
  obtain ⟨hindex, hsize⟩ : p.curWriteIndex = 3 ∧ (p.packets 0).packetSize = 1 := by
    simpa [hrun] using hring
  obtain ⟨⟨w, hw, heq⟩, -⟩ := (hsync ⟨0, 0⟩).1 (by omega)
  obtain rfl : w = 2 := by omega
  exact ⟨p, tr, hrun, heq⟩

end XToolkits.Ipc
