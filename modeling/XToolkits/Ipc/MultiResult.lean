import XToolkits.Ipc.MultiSlots

set_option autoImplicit false

/-! # What a read of the multi-reader ring returns

`shm_mutil_read_one_packet` sets its result where it finds something wrong and leaves it `0`
elsewhere: after a packet was copied, and also when the slot is empty. A reader that has caught up
with the writer gets the same answer as one that got a packet. -/

namespace XToolkits.Ipc

variable {N T : Nat} {p : MultiShm} {len : Int} {locked : Bool} {c : Cursor}

/-- `shm_mutil_read_one_packet` with its arguments: the size is an `int`, and somebody else may own
    the slot's mutex. -/
def multiReadCall (p : MultiShm) (packetSize : Int) (locked : Bool) (c : Cursor) :
    Option MultiRead :=
  if packetSize ≤ 0 then some ⟨c, errorNormal, none⟩
  else if locked then some ⟨c, -1, none⟩
  else shmMutilReadOnePacket p packetSize.toNat c

/-- `fifo_multi_recv` with its arguments, with no write between its synchronisation and its read. -/
def multiRecvCall (p : MultiShm) (len : Int) (locked : Bool) (c : Cursor) : Option MultiRead :=
  multiReadCall p len locked (recvCursor p c)

/-- A read with the cursor `c` has delivered a packet: the one whose number the cursor held, with all
    its bytes, and the cursor is one slot and one number further. -/
structure Delivered (p : MultiShm) (c : Cursor) (r : MultiRead) : Prop where
  holds : p.Holds (c.readIndex % p.bufPacketNum) c.packetIndex
  copied : r.copied = some (slotBytes p (c.readIndex % p.bufPacketNum))
  slot : r.cursor.readIndex % p.bufPacketNum = (c.readIndex + 1) % p.bufPacketNum
  number : r.cursor.packetIndex = u32 (c.packetIndex + 1)

/-- A call that starts with the cursor `start` and reads with `c` returns `0` when it has delivered a
    packet, and otherwise an error, with the cursor and the buffer as they were. -/
structure ReportsDelivery (p : MultiShm) (start c : Cursor) (r : MultiRead) : Prop where
  success : r.result = 0 ↔ Delivered p c r
  failure : ¬ Delivered p c r → r.result < 0 ∧ r.cursor = start ∧ r.copied = none

/-- The slot holds the packet expected, and the buffer is large enough. -/
def FindsPacket (p : MultiShm) (len : Int) (locked : Bool) (c : Cursor) : Prop :=
  locked = false ∧ p.Holds (c.readIndex % p.bufPacketNum) c.packetIndex ∧
    (p.packets (c.readIndex % p.bufPacketNum)).packetSize ≤ len

/-- The slot is looked at and is empty. -/
def FindsEmpty (p : MultiShm) (len : Int) (locked : Bool) (c : Cursor) : Prop :=
  0 < len ∧ locked = false ∧ (p.packets (c.readIndex % p.bufPacketNum)).packetSize = 0

instance : Decidable (FindsPacket p len locked c) := inferInstanceAs (Decidable (_ ∧ _ ∧ _))

instance : Decidable (FindsEmpty p len locked c) := inferInstanceAs (Decidable (_ ∧ _ ∧ _))

/-- **What a call returns.** It delivers a packet, or it copies nothing and leaves the cursor; then
    the result is `0` only for an empty slot. -/
theorem SlotsInv.multiReadCall_cases (h : SlotsInv N T p) (hN : 1 ≤ N ∧ N < 2 ^ 31)
    (hT : T < 2 ^ 31) (len : Int) (locked : Bool) (c : Cursor) :
    (FindsPacket p len locked c ∧
      ∃ r, multiReadCall p len locked c = some r ∧ r.result = 0 ∧ Delivered p c r) ∨
    (¬ FindsPacket p len locked c ∧
      ∃ result, multiReadCall p len locked c = some ⟨c, result, none⟩ ∧ result ≤ 0 ∧
        (result = 0 ↔ FindsEmpty p len locked c)) := by
  have hnum := h.num
  subst hnum
  have hi := Nat.mod_lt c.readIndex hN.1
  unfold multiReadCall
  by_cases hlen : len ≤ 0
  · refine Or.inr ⟨fun hfinds => ?_, errorNormal, by rw [if_pos hlen], by decide, ?_⟩
    · have hsize := hfinds.2.1.1
      have hle := hfinds.2.2
      omega
    · exact iff_of_false (by decide) fun hfinds => absurd hfinds.1 (Int.not_lt.2 hlen)
  rw [if_neg hlen]
  cases locked with
  | true =>
      exact Or.inr ⟨fun hfinds => Bool.noConfusion hfinds.1, -1, rfl, by decide,
        iff_of_false (by decide) fun hfinds => Bool.noConfusion hfinds.2.1⟩
  | false =>
      rw [if_neg Bool.false_ne_true]
      by_cases hread : p.Holds (c.readIndex % p.bufPacketNum) c.packetIndex ∧
          (p.packets (c.readIndex % p.bufPacketNum)).packetSize ≤ len.toNat
      · obtain ⟨hold, hle⟩ := hread
        have hread : shmMutilReadOnePacket p len.toNat c =
            some ⟨⟨u32 (c.readIndex % p.bufPacketNum + 1), u32 (c.packetIndex + 1)⟩, 0,
              some (slotBytes p (c.readIndex % p.bufPacketNum))⟩ := by
          rw [shmMutilRead_of_holds hold hle, h.readSlot_eq hT hi hold.1, Option.map_some]
        refine Or.inl ⟨⟨rfl, hold, by omega⟩, _, hread, rfl, ⟨hold, rfl, ?_, rfl⟩⟩
        rw [u32_of_lt (by omega), Nat.mod_add_mod]
      · obtain ⟨result, hresult, hle, hzero⟩ := shmMutilRead_of_not hread
        refine Or.inr ⟨fun hfinds => hread ⟨hfinds.2.1, ?_⟩, result, hresult, hle, ?_⟩
        · have hsize := hfinds.2.2
          omega
        · rw [hzero, FindsEmpty]
          exact and_congr (by omega) (by simp)

/-- A call reports what it did exactly when it finds no empty slot, and either delivers or has not
    moved its cursor before. -/
theorem SlotsInv.reportsDelivery_iff (h : SlotsInv N T p) (hN : 1 ≤ N ∧ N < 2 ^ 31)
    (hT : T < 2 ^ 31) (len : Int) (locked : Bool) (start c : Cursor) :
    ∃ r, multiReadCall p len locked c = some r ∧
      (ReportsDelivery p start c r ↔
        ¬ FindsEmpty p len locked c ∧ (FindsPacket p len locked c ∨ c = start)) := by
  rcases h.multiReadCall_cases hN hT len locked c with
      ⟨hfinds, r, hcall, hresult, hdelivered⟩ | ⟨hnot, result, hcall, hle, hzero⟩
  · refine ⟨r, hcall, iff_of_true ⟨iff_of_true hresult hdelivered, ?_⟩ ⟨?_, Or.inl hfinds⟩⟩
    · exact fun hfailed => absurd hdelivered hfailed
    · exact fun hempty => absurd hfinds.2.1.1 (by rw [hempty.2.2]; exact Nat.lt_irrefl 0)
  · have hfailed : ¬ Delivered p c ⟨c, result, none⟩ := fun hd => nomatch hd.copied
    refine ⟨_, hcall, ?_⟩
    rw [← hzero, or_iff_right hnot]
    constructor
    · intro hreports
      obtain ⟨hneg, hcursor, -⟩ := hreports.failure hfailed
      exact ⟨Int.ne_of_lt hneg, hcursor⟩
    · rintro ⟨hne, rfl⟩
      exact ⟨iff_of_false hne hfailed, fun _ => ⟨lt_of_le_of_ne hle hne, rfl, rfl⟩⟩

/-- **When `0` means that a packet was delivered.** In every ring that writes lead to, with every
    cursor, buffer size and state of the mutex, `shm_mutil_read_one_packet` returns `0` for a packet
    delivered and an error with nothing changed otherwise, exactly when it does not find an empty
    slot. For `fifo_multi_recv` it is the same with the cursor it reads with; when it fails, its
    synchronisation must not have moved that cursor before. While numbers have not wrapped,
    the bytes delivered are those of the packet written with the number. -/
theorem multiRead_reportsDelivery_iff (packetNum totalSize : Nat)
    (hnum : 1 ≤ packetNum ∧ packetNum < 2 ^ 31) (htotal : totalSize < 2 ^ 31)
    (packets : List (List UInt8)) (hsizes : ∀ packet ∈ packets, packet.length < 2 ^ 31)
    (p : MultiShm) (tr : List MultiEvent)
    (hrun : run multiWriteStep (shmMutilInit packetNum totalSize) packets = some (p, tr))
    (len : Int) (locked : Bool) (c : Cursor) :
    (∃ r, multiReadCall p len locked c = some r ∧
      (ReportsDelivery p c c r ↔ ¬ FindsEmpty p len locked c)) ∧
    (∃ r, multiRecvCall p len locked c = some r ∧
      (ReportsDelivery p c (recvCursor p c) r ↔
        ¬ FindsEmpty p len locked (recvCursor p c) ∧
          (FindsPacket p len locked (recvCursor p c) ∨ recvCursor p c = c))) ∧
    (packets.length < 2 ^ 32 → p.Holds (c.readIndex % packetNum) c.packetIndex →
      (writtenPackets tr)[c.packetIndex]? = some (slotBytes p (c.readIndex % packetNum))) := by
  have h := slotsInv_writes hnum.1 htotal hsizes hrun
  refine ⟨?_, h.reportsDelivery_iff hnum htotal len locked c (recvCursor p c), fun hcount hold => ?_⟩
  · obtain ⟨r, hcall, hiff⟩ := h.reportsDelivery_iff hnum htotal len locked c c
    refine ⟨r, hcall, hiff.trans ?_⟩
    rw [and_iff_left (Or.inr rfl)]
  · obtain ⟨p', tr', k, hrun', hring, -⟩ := ringInv_writes hnum.1 htotal hcount hsizes
    rw [hrun, Option.some.injEq, Prod.mk.injEq] at hrun'
    obtain ⟨rfl, rfl⟩ := hrun'
    have hi := Nat.mod_lt c.readIndex hnum.1
    obtain ⟨hslot, b, hj, hb, -⟩ := hring.of_holds hi hold
    have hbytes := hring.readSlot_live htotal hj hb
    rw [hslot, h.readSlot_eq htotal hi hold.1] at hbytes
    rw [hb, hbytes]

/-- A first call that synchronises on the only packet and gets it. -/
theorem multiRead_reportsDelivery_first : ∃ p tr r,
    run multiWriteStep (shmMutilInit 2 4) [[1, 2]] = some (p, tr) ∧
    multiRecvCall p 4 false ⟨0, 0⟩ = some r ∧ ReportsDelivery p ⟨0, 0⟩ (recvCursor p ⟨0, 0⟩) r := by
  obtain ⟨-, ⟨r, hcall, hiff⟩, -⟩ := multiRead_reportsDelivery_iff 2 4 (by decide) (by decide)
    [[1, 2]] (by decide) _ _ rfl 4 false ⟨0, 0⟩
  exact ⟨_, _, r, rfl, hcall, hiff.2 (by decide)⟩

/-- The reader has caught up with the writer: the call returns `0` and copies nothing. -/
theorem multiRead_caught_up : ∃ p tr,
    run multiWriteStep (shmMutilInit 2 4) [[1, 2]] = some (p, tr) ∧
    multiRecvCall p 4 false ⟨1, 1⟩ = some ⟨⟨1, 1⟩, 0, none⟩ ∧
    ¬ ReportsDelivery p ⟨1, 1⟩ (recvCursor p ⟨1, 1⟩) ⟨⟨1, 1⟩, 0, none⟩ := by
  refine ⟨_, _, rfl, rfl, fun hreports => ?_⟩
  cases (hreports.success.1 rfl).copied

end XToolkits.Ipc
