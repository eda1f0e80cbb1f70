import XToolkits.Ipc.Shm
import XToolkits.Lib.Transition

set_option autoImplicit false

/-! # Order of delivery of the packet ring

The entry table of a `Shm` against the log of its events. Seen from the next write index, the
unread packets lie in order of age (`TbsbInv`); a read looks for its packet from the next read
index, which a write that comes round to it does not move. The two orders agree until unread
packets lie on both sides of the read index (`Lapped`). -/

namespace XToolkits.Ipc

variable {N : Nat} {p : Shm} {l : SlotLog Placed}

/-- Entry `i` holds a packet that was not received yet. -/
def Shm.Unread (p : Shm) (i : Nat) : Prop :=
  (p.packets i).packetState = .valid ∧ p.shmIndexForBeingUsed ≠ some i

/-- The writer has come round past the read index: walking on from the next write index, there is
    an unread packet before the next read index and another one from there on. -/
def Lapped (p : Shm) : Prop :=
  ∃ i < p.bufPacketNum, ∃ j < p.bufPacketNum, p.Unread i ∧ p.Unread j ∧
    cdist p.bufPacketNum p.shmIndexForNextWrite i <
      cdist p.bufPacketNum p.shmIndexForNextWrite p.shmIndexForNextRead ∧
    cdist p.bufPacketNum p.shmIndexForNextWrite p.shmIndexForNextRead ≤
      cdist p.bufPacketNum p.shmIndexForNextWrite j

/-- The table against the log of its events. `age` bounds how many packets were sent after an
    unread one by how far the write index has come since. -/
structure TbsbInv (N : Nat) (p : Shm) (l : SlotLog Placed) : Prop where
  first : p.shmIndexFirst = 0
  last : p.shmIndexLast = N - 1
  num : p.bufPacketNum = N
  read_lt : p.shmIndexForNextRead < N
  write_lt : p.shmIndexForNextWrite < N
  used_lt : ∀ u, p.shmIndexForBeingUsed = some u → u < N
  used_not_live : ∀ u, p.shmIndexForBeingUsed = some u → ∀ e ∈ l.live, e.slot ≠ u
  slot_lt : ∀ e ∈ l.live, e.slot < N
  valid_iff : ∀ i < N, (p.packets i).packetState = .valid ↔
    (∃ e ∈ l.live, e.slot = i) ∨ p.shmIndexForBeingUsed = some i
  entry : ∀ e ∈ l.live, p.packets e.slot = ⟨e.pkt.offset, e.pkt.bytes.length, .valid⟩
  count : p.curPacketNum = l.live.length + (if p.shmIndexForBeingUsed.isSome then 1 else 0)
  sorted : l.live.Pairwise fun a b =>
    cdist N p.shmIndexForNextWrite a.slot < cdist N p.shmIndexForNextWrite b.slot
  age : ∀ e ∈ l.live,
    l.written.length + cdist N p.shmIndexForNextWrite e.slot ≤ N + e.seq

theorem tbsbInv_init (headerSize totalSize : Nat) (hN : 0 < N) :
    TbsbInv N (tbsbInit headerSize N totalSize) SlotLog.empty := by
  constructor <;> simp [tbsbInit, SlotLog.empty, hN]

theorem TbsbInv.next_eq (h : TbsbInv N p l) {i : Nat} (hi : i < N) : nextShmIndex p i = cnext N i := by
  simp only [nextShmIndex, cnext, h.first, h.last]
  split <;> split <;> omega

/-- The unread entries are the ones the log has a packet waiting in. -/
theorem TbsbInv.unread_iff (h : TbsbInv N p l) {i : Nat} (hi : i < N) :
    p.Unread i ↔ ∃ e ∈ l.live, e.slot = i := by
  rw [Shm.Unread, h.valid_iff i hi]
  constructor
  · rintro ⟨hlive | hused, hne⟩
    · exact hlive
    · exact absurd hused hne
  · rintro ⟨e, he, rfl⟩
    exact ⟨Or.inl ⟨e, he, rfl⟩, fun hu => h.used_not_live _ hu e he rfl⟩

/-! ## Giving up the entry of the previous read -/

theorem TbsbInv.free (h : TbsbInv N p l) : TbsbInv N (freeBeingUsed p) l := by
  unfold freeBeingUsed
  split
  · exact h
  · next u hu =>
      have hlive := h.used_not_live u hu
      refine { h with
        used_lt := by simp
        used_not_live := by simp
        valid_iff := ?_
        entry := fun e he => ?_
        count := ?_ }
      · refine SlotLog.Occupied.free (hu ▸ h.valid_iff) hlive fun j => ?_
        by_cases hju : j = u <;> simp [hju]
      · simpa [Function.update_of_ne (hlive e he)] using h.entry e he
      · have hcount := h.count
        rw [hu] at hcount
        simp [hcount, decU32_add_one]

@[simp] theorem freeBeingUsed_used (p : Shm) : (freeBeingUsed p).shmIndexForBeingUsed = none := by
  unfold freeBeingUsed
  split <;> simp [*]

/-- Giving up an entry that was received changes nothing about the unread ones. -/
theorem lapped_freeBeingUsed (p : Shm) : Lapped (freeBeingUsed p) ↔ Lapped p := by
  have hunread : ∀ i, (freeBeingUsed p).Unread i ↔ p.Unread i := by
    intro i
    cases hu : p.shmIndexForBeingUsed with
    | none => simp [freeBeingUsed, hu]
    | some u =>
        by_cases hiu : i = u
        · subst hiu
          simp [Shm.Unread, freeBeingUsed, hu]
        · simp [Shm.Unread, freeBeingUsed, hu, Function.update_of_ne hiu, Ne.symm hiu]
  have hnum : (freeBeingUsed p).bufPacketNum = p.bufPacketNum := by
    unfold freeBeingUsed
    split <;> rfl
  have hread : (freeBeingUsed p).shmIndexForNextRead = p.shmIndexForNextRead := by
    unfold freeBeingUsed
    split <;> rfl
  have hwrite : (freeBeingUsed p).shmIndexForNextWrite = p.shmIndexForNextWrite := by
    unfold freeBeingUsed
    split <;> rfl
  simp only [Lapped, hunread, hnum, hread, hwrite]

/-! ## Writing -/

theorem TbsbInv.entry_lt (h : TbsbInv N p l) : curWriteIndex p < N := by
  unfold curWriteIndex
  split
  · rw [h.next_eq h.write_lt]
    exact cnext_lt (Nat.zero_lt_of_lt h.write_lt)
  · exact h.write_lt

/-- A write goes to the next entry, or over the entry being used to the one after it. -/
theorem TbsbInv.entry_cases (h : TbsbInv N p l) :
    (p.shmIndexForBeingUsed ≠ some p.shmIndexForNextWrite ∧
      curWriteIndex p = p.shmIndexForNextWrite) ∨
    (p.shmIndexForBeingUsed = some p.shmIndexForNextWrite ∧
      curWriteIndex p = cnext N p.shmIndexForNextWrite) := by
  by_cases hw : p.shmIndexForBeingUsed = some p.shmIndexForNextWrite
  · exact Or.inr ⟨hw, by rw [curWriteIndex, if_pos hw.symm, h.next_eq h.write_lt]⟩
  · exact Or.inl ⟨hw, if_neg (Ne.symm hw)⟩

/-- A write never goes to the entry being used. -/
theorem TbsbInv.entry_ne_used (h : TbsbInv N p l) (hN : 2 ≤ N) :
    p.shmIndexForBeingUsed ≠ some (curWriteIndex p) := by
  rcases h.entry_cases with ⟨hne, hentry⟩ | ⟨hused, hentry⟩ <;> rw [hentry]
  · exact hne
  · rw [hused]
    exact fun he => cnext_ne hN (Option.some.inj he).symm

/-- Seen from the next write index, a write brings the other unread packets one or two steps
    closer. -/
theorem TbsbInv.cdist_write (h : TbsbInv N p l) (hN : 2 ≤ N) :
    ∃ d, 1 ≤ d ∧ ∀ e ∈ l.others (curWriteIndex p),
      cdist N (cnext N (curWriteIndex p)) e.slot + d = cdist N p.shmIndexForNextWrite e.slot := by
  have hw := h.write_lt
  rcases h.entry_cases with ⟨-, hentry⟩ | ⟨hused, hentry⟩ <;> rw [hentry]
  · refine ⟨1, Nat.le_refl 1, fun e he => ?_⟩
    obtain ⟨hmem, hne⟩ := SlotLog.mem_others.1 he
    exact cdist_cnext hw (h.slot_lt e hmem) hne.symm
  · refine ⟨2, by omega, fun e he => ?_⟩
    obtain ⟨hmem, hne⟩ := SlotLog.mem_others.1 he
    have h1 := cdist_cnext hw (h.slot_lt e hmem) (h.used_not_live _ hused e hmem).symm
    have h2 := cdist_cnext (cnext_lt (by omega)) (h.slot_lt e hmem) hne.symm
    omega

/-- The counter after a write counts the packets it leaves unread, its own and the one being
    used. -/
theorem TbsbInv.count_write (h : TbsbInv N p l) (hN : 2 ≤ N) (hwf : l.WF) :
    (if (p.packets (curWriteIndex p)).packetState = .invalid then p.curPacketNum + 1
      else p.curPacketNum) =
    (l.others (curWriteIndex p)).length + 1 +
      (if p.shmIndexForBeingUsed.isSome then 1 else 0) := by
  refine SlotLog.Occupied.count_fill h.valid_iff hwf h.entry_lt (h.entry_ne_used hN) h.count ?_ ?_
  · intro hvalid
    rw [hvalid, if_neg (by simp)]
  · intro hvalid
    rw [if_pos]
    cases hs : (p.packets (curWriteIndex p)).packetState with
    | invalid => rfl
    | valid => exact absurd hs hvalid

/-- A write keeps the unread packets in order of age from the next write index on. -/
theorem TbsbInv.write (h : TbsbInv N p l) (hN : 2 ≤ N) (hwf : l.WF) (header : Option (List UInt8))
    {packet : List UInt8} (hpacket : packet.length ≠ 0) :
    TbsbInv N (tbsbWriteOnePacket p header packet).1
      (l.apply (.fill (curWriteIndex p) ⟨curPacketWriteOffset p packet.length, packet⟩)) := by
  obtain ⟨d, hd, hdist⟩ := h.cdist_write hN
  have hentry := h.entry_lt
  have hnext := h.next_eq hentry
  have hself := cdist_cnext_self hentry
  rw [tbsbWriteOnePacket, if_neg hpacket]
  exact {
    first := h.first, last := h.last, num := h.num, read_lt := h.read_lt, used_lt := h.used_lt
    write_lt := by
      show nextShmIndex p (curWriteIndex p) < N
      rw [hnext]
      exact cnext_lt (by omega)
    used_not_live := fun u hu =>
      SlotLog.forall_live_fill (fun a ha _ => h.used_not_live u hu a ha)
        fun heq => h.entry_ne_used hN (hu.trans (by simp [← heq]))
    slot_lt := SlotLog.forall_live_fill (fun a ha _ => h.slot_lt a ha) hentry
    valid_iff := by
      refine SlotLog.Occupied.fill h.valid_iff (fun j => ?_) _
      by_cases hj : j = curWriteIndex p <;> simp [hj]
    entry := by
      refine SlotLog.forall_live_fill (fun a ha hne => ?_) (by simp)
      simp only [Function.update_of_ne hne]
      exact h.entry a ha
    count := by
      simp only [SlotLog.apply, List.length_append, List.length_singleton]
      exact h.count_write hN hwf
    sorted := by
      show List.Pairwise (fun a b : Stored Placed =>
        cdist N (nextShmIndex p (curWriteIndex p)) a.slot <
          cdist N (nextShmIndex p (curWriteIndex p)) b.slot) _
      rw [hnext]
      refine SlotLog.pairwise_live_fill ((h.sorted.filter _).imp_of_mem fun {a b} ha hb hlt => ?_)
        fun a ha => ?_
      · have h1 := hdist a ha
        have h2 := hdist b hb
        omega
      · -- the entry just written is the farthest one
        have h1 := hdist a ha
        have h2 := cdist_lt h.write_lt (h.slot_lt a (SlotLog.mem_others.1 ha).1)
        show _ < cdist N _ (curWriteIndex p)
        omega
    age := by
      simp only [SlotLog.apply, List.length_append, List.length_singleton, hnext]
      refine SlotLog.forall_live_fill (fun a ha hne => ?_) ?_
      · have h1 := hdist a (SlotLog.mem_others.2 ⟨ha, hne⟩)
        have h2 := h.age a ha
        omega
      · show _ + cdist N _ (curWriteIndex p) ≤ N + l.written.length
        omega }

/-! ## Reading -/

/-- The scan of a read stops at the unread packet nearest to the next read index. -/
theorem TbsbInv.scan (h : TbsbInv N p l) (hused : p.shmIndexForBeingUsed = none)
    (hlive : l.live ≠ []) :
    ∃ e ∈ l.live, curReadIndex p = some e.slot ∧ ∀ a ∈ l.live,
      cdist N p.shmIndexForNextRead e.slot ≤ cdist N p.shmIndexForNextRead a.slot := by
  have hvalid : ∀ a ∈ l.live, decide ((p.packets a.slot).packetState = .valid) = true := by
    intro a ha
    simpa using (h.valid_iff a.slot (h.slot_lt a ha)).2 (Or.inl ⟨a, ha, rfl⟩)
  obtain ⟨a, ha⟩ := List.exists_mem_of_ne_nil _ hlive
  obtain ⟨k, hk, hkN, hkv, hmin⟩ := csearch_spec
    (p := fun i => decide ((p.packets i).packetState = .valid)) h.read_lt (h.slot_lt a ha)
    (hvalid a ha)
  have hlast : p.shmIndexLast + 1 = N := by
    have := h.last
    have := h.read_lt
    omega
  obtain ⟨e, he, rfl⟩ : ∃ e ∈ l.live, e.slot = k := by
    simpa [hused] using (h.valid_iff k hkN).1 (by simpa using hkv)
  refine ⟨e, he, ?_, fun b hb => hmin b.slot (h.slot_lt b hb) (hvalid b hb)⟩
  rw [curReadIndex, hlast, h.num]
  exact hk

/-- Handing a packet out leaves the others where they are. -/
theorem TbsbInv.take (h : TbsbInv N p l) (hN : 2 ≤ N) (hwf : l.WF)
    (hused : p.shmIndexForBeingUsed = none) {e : Stored Placed} (he : e ∈ l.live)
    (copied : Placed) :
    TbsbInv N (markBeingUsed p e.slot) (l.apply (.take e.slot copied)) := by
  have heN := h.slot_lt e he
  have hin : ∀ a ∈ (l.apply (.take e.slot copied)).live, a ∈ l.live ∧ a.slot ≠ e.slot :=
    fun a ha => SlotLog.mem_others.1 ha
  exact {
    first := h.first, last := h.last, num := h.num, write_lt := h.write_lt
    read_lt := by
      show nextShmIndex p e.slot < N
      rw [h.next_eq heN]
      exact cnext_lt (by omega)
    used_lt := by
      rintro u ⟨⟩
      exact heN
    used_not_live := by
      rintro u ⟨⟩ a ha
      exact (hin a ha).2
    slot_lt := fun a ha => h.slot_lt a (hin a ha).1
    valid_iff := SlotLog.Occupied.take (hused ▸ h.valid_iff) he copied
    entry := fun a ha => h.entry a (hin a ha).1
    count := by
      have hlen := hwf.length_others he
      have hcount := h.count
      rw [hused] at hcount
      show p.curPacketNum = (l.others e.slot).length + 1
      rw [hlen]
      simpa using hcount
    sorted := h.sorted.filter _
    age := fun a ha => h.age a (hin a ha).1 }

/-- **When a read finds the oldest packet.** The unread packet nearest to the next read index is the
    oldest one exactly when the writer has not come round past the read index. -/
theorem TbsbInv.oldest_iff (h : TbsbInv N p l) {e : Stored Placed} (he : e ∈ l.live)
    (hmin : ∀ a ∈ l.live,
      cdist N p.shmIndexForNextRead e.slot ≤ cdist N p.shmIndexForNextRead a.slot)
    (copied : Placed) : OldestFirst l (.take e.slot copied) ↔ ¬ Lapped p := by
  obtain ⟨o, rest, hlive⟩ := List.exists_cons_of_ne_nil (List.ne_nil_of_mem he)
  have ho : o ∈ l.live := by simp [hlive]
  have hoN := h.slot_lt o ho
  have heN := h.slot_lt e he
  have hoe := cdist_shift h.write_lt h.read_lt hoN
  have hee := cdist_shift h.write_lt h.read_lt heN
  -- the oldest packet is the one nearest to the write index
  have holdest : ∀ a ∈ l.live,
      cdist N p.shmIndexForNextWrite o.slot ≤ cdist N p.shmIndexForNextWrite a.slot :=
    fun a ha => SlotLog.key_first_le h.sorted hlive ha
  have hfirst : OldestFirst l (.take e.slot copied) ↔ o.slot = e.slot := by
    simp [OldestFirst, hlive]
  rw [hfirst, Lapped, h.num]
  have hmine := hmin o ho
  have hminw := holdest e he
  constructor
  · rintro hoe' ⟨i, hi, j, hj, hui, huj, hbefore, hafter⟩
    obtain ⟨a, ha, rfl⟩ := (h.unread_iff hi).1 hui
    obtain ⟨b, hb, rfl⟩ := (h.unread_iff hj).1 huj
    have h1 := holdest a ha
    have h2 := hmin b hb
    have h3 := cdist_shift h.write_lt h.read_lt hj
    have h4 := cdist_lt h.write_lt hj
    rw [hoe'] at h1
    rw [if_pos (by omega)] at hee
    rw [if_neg (by omega)] at h3
    omega
  · intro hlapped
    have huo := (h.unread_iff hoN).2 ⟨o, ho, rfl⟩
    have hue := (h.unread_iff heN).2 ⟨e, he, rfl⟩
    have hside : ¬ (cdist N p.shmIndexForNextWrite o.slot <
        cdist N p.shmIndexForNextWrite p.shmIndexForNextRead ∧
        cdist N p.shmIndexForNextWrite p.shmIndexForNextRead ≤
          cdist N p.shmIndexForNextWrite e.slot) := fun hc =>
      hlapped ⟨o.slot, hoN, e.slot, heN, huo, hue, hc.1, hc.2⟩
    refine cdist_inj h.write_lt hoN heN ?_
    by_cases hbefore : cdist N p.shmIndexForNextWrite e.slot <
        cdist N p.shmIndexForNextWrite p.shmIndexForNextRead
    · rw [if_pos hbefore] at hee
      rw [if_pos (by omega)] at hoe
      omega
    · rw [if_neg hbefore] at hee
      rw [if_neg (by omega)] at hoe
      omega

/-! ## Steps -/

/-- The steps of a reader. -/
def ShmAction.IsRecv : ShmAction → Prop
  | .send _ _ => False
  | .recvStart _ => True
  | .recvWake => True

/-- The state of the ring and its reader against the trace so far. -/
structure SysInv (N size : Nat) (tr : List ShmEvent) (s : ShmSys) : Prop where
  table : TbsbInv N s.ring (SlotLog.ofTrace (slotTrace tr))
  waiting : ∀ n, s.waiting = some n → s.ring.shmIndexForBeingUsed = none ∧ size ≤ n
  live : ShmEvent.stuck ∉ tr

/-- The test of a reader that has no entry in use: it waits on an empty ring, and otherwise takes
    the unread packet nearest to the read index. -/
theorem TbsbInv.recvTest_cases (h : TbsbInv N p l) (hused : p.shmIndexForBeingUsed = none) (n : Nat) :
    (l.live = [] ∧ recvTest p n = (⟨p, some n⟩, [])) ∨
    (∃ e ∈ l.live,
      (∀ a ∈ l.live,
        cdist N p.shmIndexForNextRead e.slot ≤ cdist N p.shmIndexForNextRead a.slot) ∧
      recvTest p n = (⟨markBeingUsed p e.slot, none⟩, [.received (recvResult p e.slot n)])) := by
  have hcount := h.count
  simp only [hused, Option.isSome_none, Bool.false_eq_true, if_false, Nat.add_zero] at hcount
  by_cases hlive : l.live = []
  · refine Or.inl ⟨hlive, ?_⟩
    rw [recvTest, if_pos (by simp [hcount, hlive])]
  · obtain ⟨e, he, hscan, hmin⟩ := h.scan hused hlive
    refine Or.inr ⟨e, he, hmin, ?_⟩
    have hne : p.curPacketNum ≠ 0 := by
      rw [hcount]
      exact fun h0 => hlive (List.length_eq_zero_iff.1 h0)
    rw [recvTest, if_neg hne, tbsbTakePacket, hscan]
    rfl

/-- The size of the reader's buffer in a step of the reader. -/
def recvSize (s : ShmSys) : ShmAction → Option Nat
  | .send _ _ => none
  | .recvStart packetSize => some packetSize
  | .recvWake => s.waiting

/-- A reader that waits has given its last entry up. -/
structure TableSys (N : Nat) (l : SlotLog Placed) (s : ShmSys) : Prop where
  table : TbsbInv N s.ring l
  waiting : s.waiting.isSome → s.ring.shmIndexForBeingUsed = none

variable {s s' : ShmSys} {a : ShmAction} {es : List ShmEvent}

/-- A start that is not refused and a wakeup both test the ring after the last entry was given up. -/
theorem TableSys.recv_eq (h : TableSys N l s) {n : Nat} (hn : recvSize s a = some n)
    (hstep : shmStep s a = some (s', es)) :
    (a = .recvStart 0 ∧ s' = s ∧ es = [.refused]) ∨ recvTest (freeBeingUsed s.ring) n = (s', es) := by
  cases a with
  | send header packet => cases hn
  | recvStart packetSize =>
      obtain rfl := Option.some.inj hn
      simp only [shmStep] at hstep
      split at hstep
      · cases hstep
      · split at hstep
        · next hzero =>
            obtain ⟨rfl, rfl⟩ := Prod.mk.inj (Option.some.inj hstep)
            exact Or.inl ⟨by rw [hzero], rfl, rfl⟩
        · exact Or.inr (Option.some.inj hstep)
  | recvWake =>
      have hwaiting : s.waiting = some n := hn
      have hfree : freeBeingUsed s.ring = s.ring := by
        simp [freeBeingUsed, h.waiting (by rw [hwaiting]; rfl)]
      simp only [shmStep, hwaiting] at hstep
      rw [hfree]
      exact Or.inr (Option.some.inj hstep)

/-- **What a step can do.** A call with a size of zero is refused. Any other send writes; a read
    waits when nothing is unread, and otherwise takes the unread packet nearest to the read index. -/
theorem TableSys.step_cases (h : TableSys N l s) (hstep : shmStep s a = some (s', es)) :
    ((a = .recvStart 0 ∨ ∃ header, a = .send header []) ∧ s' = s ∧ es = [.refused]) ∨
    (∃ header packet, a = .send header packet ∧ packet.length ≠ 0 ∧
      s' = { s with ring := (tbsbWriteOnePacket s.ring header packet).1 } ∧
      es = [.sent (curWriteIndex s.ring) (curPacketWriteOffset s.ring packet.length) packet]) ∨
    (∃ n, recvSize s a = some n ∧ l.live = [] ∧ s' = ⟨freeBeingUsed s.ring, some n⟩ ∧ es = []) ∨
    (∃ n, recvSize s a = some n ∧ ∃ e ∈ l.live,
      (∀ b ∈ l.live, cdist N (freeBeingUsed s.ring).shmIndexForNextRead e.slot ≤
        cdist N (freeBeingUsed s.ring).shmIndexForNextRead b.slot) ∧
      s' = ⟨markBeingUsed (freeBeingUsed s.ring) e.slot, none⟩ ∧
      es = [.received (recvResult (freeBeingUsed s.ring) e.slot n)]) := by
  cases hsize : recvSize s a with
  | none =>
      cases a with
      | send header packet =>
          simp only [shmStep] at hstep
          split at hstep
          · next hzero =>
              obtain ⟨rfl, rfl⟩ := Prod.mk.inj (Option.some.inj hstep)
              obtain rfl := List.length_eq_zero_iff.1 hzero
              exact Or.inl ⟨Or.inr ⟨header, rfl⟩, rfl, rfl⟩
          · next hlen =>
              obtain ⟨rfl, rfl⟩ := Prod.mk.inj (Option.some.inj hstep)
              exact Or.inr (Or.inl ⟨header, packet, rfl, hlen, rfl, rfl⟩)
      | recvStart packetSize => cases hsize
      | recvWake =>
          have hwaiting : s.waiting = none := hsize
          simp only [shmStep, hwaiting] at hstep
          cases hstep
  | some n =>
      rcases h.recv_eq hsize hstep with ⟨rfl, rfl, rfl⟩ | htest
      · exact Or.inl ⟨Or.inl rfl, rfl, rfl⟩
      · rcases h.table.free.recvTest_cases (freeBeingUsed_used s.ring) n with
            ⟨hlive, heq⟩ | ⟨e, he, hmin, heq⟩ <;>
          rw [heq, Prod.mk.injEq] at htest
        · exact Or.inr (Or.inr (Or.inl ⟨n, rfl, hlive, htest.1.symm, htest.2.symm⟩))
        · exact Or.inr (Or.inr (Or.inr ⟨n, rfl, e, he, hmin, htest.1.symm, htest.2.symm⟩))

theorem SysInv.tableSys {size : Nat} {tr : List ShmEvent} (h : SysInv N size tr s) :
    TableSys N (SlotLog.ofTrace (slotTrace tr)) s := by
  refine ⟨h.table, fun hsome => ?_⟩
  obtain ⟨n, hn⟩ := Option.isSome_iff_exists.1 hsome
  exact (h.waiting n hn).1

/-- The buffer of a valid read holds `size` bytes. -/
theorem SysInv.recvSize_le {size : Nat} {tr : List ShmEvent} (h : SysInv N size tr s)
    (ha : a.Valid size) {n : Nat} (hn : recvSize s a = some n) : a.IsRecv ∧ size ≤ n := by
  cases a with
  | send header packet => cases hn
  | recvStart packetSize =>
      obtain rfl := Option.some.inj hn
      exact ⟨trivial, ha⟩
  | recvWake => exact ⟨trivial, (h.waiting n hn).2⟩

/-- What a valid step can do: a send writes; a read waits when nothing is unread, and otherwise
    takes the unread packet nearest to the read index. -/
theorem SysInv.step_cases {size : Nat} (hsize : 1 ≤ size) {tr : List ShmEvent} {s s' : ShmSys}
    {a : ShmAction} {es : List ShmEvent} (ha : a.Valid size) (h : SysInv N size tr s)
    (hstep : shmStep s a = some (s', es)) :
    (∃ header packet, a = .send header packet ∧ 1 ≤ packet.length ∧ packet.length ≤ size ∧
      s' = { s with ring := (tbsbWriteOnePacket s.ring header packet).1 } ∧
      es = [.sent (curWriteIndex s.ring) (curPacketWriteOffset s.ring packet.length) packet]) ∨
    (a.IsRecv ∧ ∃ n, size ≤ n ∧ (SlotLog.ofTrace (slotTrace tr)).live = [] ∧
      s' = ⟨freeBeingUsed s.ring, some n⟩ ∧ es = []) ∨
    (a.IsRecv ∧ ∃ n, size ≤ n ∧ ∃ e ∈ (SlotLog.ofTrace (slotTrace tr)).live,
      (∀ b ∈ (SlotLog.ofTrace (slotTrace tr)).live,
        cdist N (freeBeingUsed s.ring).shmIndexForNextRead e.slot ≤
          cdist N (freeBeingUsed s.ring).shmIndexForNextRead b.slot) ∧
      s' = ⟨markBeingUsed (freeBeingUsed s.ring) e.slot, none⟩ ∧
      es = [.received (recvResult (freeBeingUsed s.ring) e.slot n)]) := by
  rcases h.tableSys.step_cases hstep with ⟨hrefused, -, -⟩ | ⟨header, packet, rfl, -, hs, hes⟩ |
      ⟨n, hn, hlive, hs, hes⟩ | ⟨n, hn, e, he, hmin, hs, hes⟩
  · rcases hrefused with rfl | ⟨header, rfl⟩
    · exact absurd (Nat.le_trans hsize ha) (by decide)
    · exact absurd ha.1 (by decide)
  · exact Or.inl ⟨header, packet, rfl, ha.1, ha.2, hs, hes⟩
  · obtain ⟨hrecv, hle⟩ := h.recvSize_le ha hn
    exact Or.inr (Or.inl ⟨hrecv, n, hle, hlive, hs, hes⟩)
  · obtain ⟨hrecv, hle⟩ := h.recvSize_le ha hn
    exact Or.inr (Or.inr ⟨hrecv, n, hle, e, he, hmin, hs, hes⟩)

/-- Every step keeps the table and its log together. -/
theorem TableSys.step (hN : 2 ≤ N) {tr : List ShmEvent}
    (h : TableSys N (SlotLog.ofTrace (slotTrace tr)) s) (hstep : shmStep s a = some (s', es)) :
    TableSys N (SlotLog.ofTrace (slotTrace (tr ++ es))) s' ∧ ShmEvent.stuck ∉ es := by
  have hwf := SlotLog.wf_ofTrace (slotTrace tr)
  rcases h.step_cases hstep with ⟨-, rfl, rfl⟩ | ⟨header, packet, rfl, hlen, rfl, rfl⟩ |
      ⟨n, -, -, rfl, rfl⟩ | ⟨n, -, e, he, -, rfl, rfl⟩
  · exact ⟨by simpa [ShmEvent.slotEvents] using h, by simp⟩
  · refine ⟨⟨?_, fun hsome => ?_⟩, by simp⟩
    · simpa [ShmEvent.slotEvents] using h.table.write hN hwf header hlen
    · show (tbsbWriteOnePacket s.ring header packet).1.shmIndexForBeingUsed = none
      rw [tbsbWriteOnePacket, if_neg hlen]
      exact h.waiting hsome
  · refine ⟨⟨by simpa using h.table.free, fun _ => freeBeingUsed_used s.ring⟩, by simp⟩
  · refine ⟨⟨?_, fun hsome => by cases hsome⟩, by simp⟩
    simp only [slotTrace_concat, ShmEvent.slotEvents, SlotLog.ofTrace_concat]
    exact h.table.free.take hN hwf (freeBeingUsed_used s.ring) he _

/-- Every step keeps the invariant. -/
theorem SysInv.step (hN : 2 ≤ N) {size : Nat} (hsize : 1 ≤ size) {tr : List ShmEvent}
    {s s' : ShmSys} {a : ShmAction} {es : List ShmEvent} (ha : a.Valid size) (h : SysInv N size tr s)
    (hstep : shmStep s a = some (s', es)) : SysInv N size (tr ++ es) s' := by
  obtain ⟨hnext, hstuck⟩ := h.tableSys.step hN hstep
  refine ⟨hnext.table, fun n hw => ⟨hnext.waiting (by rw [hw]; rfl), ?_⟩, by simp [h.live, hstuck]⟩
  rcases h.step_cases hsize ha hstep with ⟨header, packet, -, -, -, rfl, -⟩ |
      ⟨-, m, hm, -, rfl, -⟩ | ⟨-, m, -, e, -, -, rfl, -⟩
  · exact (h.waiting n hw).2
  · obtain rfl := Option.some.inj hw
    exact hm
  · cases hw

theorem sysInv_creat (hN : 0 < N) {size : Nat} {ring : Shm}
    (hring : fifoCreat N size = some ring) : SysInv N size [] ⟨ring, none⟩ := by
  simp only [fifoCreat] at hring
  split at hring
  · cases hring
    exact ⟨tbsbInv_init _ _ hN, by simp, by simp⟩
  · cases hring

/-- Every run keeps the invariant. -/
theorem SysInv.run (hN : 2 ≤ N) {size : Nat} (hsize : 1 ≤ size) {ring : Shm}
    (hring : fifoCreat N size = some ring) {as : List ShmAction} {s : ShmSys} {tr : List ShmEvent}
    (hvalid : ∀ a ∈ as, a.Valid size) (hrun : run shmStep ⟨ring, none⟩ as = some (s, tr)) :
    SysInv N size tr s :=
  run_induction (·.Valid size) (SysInv N size) (sysInv_creat (by omega) hring)
    (fun _ _ _ _ _ ha h hstep => h.step hN hsize ha hstep) hvalid hrun

/-! ## First in, first out -/

/-- No read is made while the writer has come round past the read index. -/
def RecvNotLapped (s : ShmSys) (a : ShmAction) : Prop := a.IsRecv → ¬ Lapped s.ring

/-- The last step of a run hands out the oldest packet, if any, exactly when it is not a read of a
    lapped ring. -/
theorem SysInv.oldest_step_iff {size : Nat} (hsize : 1 ≤ size) {tr : List ShmEvent}
    {s s' : ShmSys} {a : ShmAction} {es : List ShmEvent} (ha : a.Valid size) (h : SysInv N size tr s)
    (hstep : shmStep s a = some (s', es)) :
    Each OldestFirst (slotTrace (tr ++ es)) ↔
      Each OldestFirst (slotTrace tr) ∧ RecvNotLapped s a := by
  rcases h.step_cases hsize ha hstep with ⟨header, packet, rfl, -, -, -, rfl⟩ |
      ⟨hrecv, n, -, hlive, -, rfl⟩ | ⟨hrecv, n, -, e, he, hmin, -, rfl⟩
  · rw [slotTrace_concat, ShmEvent.slotEvents, each_concat]
    exact and_congr_right fun _ => iff_of_true trivial False.elim
  · -- nothing is unread, so the ring is not lapped
    have hnot : RecvNotLapped s a := by
      rintro - ⟨i, hi, -, -, hui, -⟩
      obtain ⟨b, hb, -⟩ := (h.table.unread_iff (h.table.num ▸ hi)).1 hui
      simp [hlive] at hb
    simp [hnot]
  · rw [slotTrace_concat, ShmEvent.slotEvents, each_concat]
    have hold := h.table.free.oldest_iff he hmin
    rw [lapped_freeBeingUsed] at hold
    exact and_congr_right fun _ => (hold _).trans ⟨fun hl _ => hl, fun hl => hl hrecv⟩

/-- Over a whole run. -/
theorem oldest_iff_recvNotLapped (hN : 2 ≤ N) {size : Nat} (hsize : 1 ≤ size) {ring : Shm}
    (hring : fifoCreat N size = some ring) {as : List ShmAction} {s : ShmSys} {tr : List ShmEvent}
    (hvalid : ∀ a ∈ as, a.Valid size) (hrun : run shmStep ⟨ring, none⟩ as = some (s, tr)) :
    Each OldestFirst (slotTrace tr) ↔ EachStep shmStep RecvNotLapped ⟨ring, none⟩ as := by
  induction as using List.reverseRecOn generalizing s tr with
  | nil =>
      simp only [run_nil, Option.some.injEq, Prod.mk.injEq] at hrun
      obtain ⟨-, rfl⟩ := hrun
      exact iff_of_true (Each.nil _) (EachStep.nil _ _)
  | append_singleton as a ih =>
      obtain ⟨s₁, tr₁, es, hpre, hstep, rfl⟩ := run_concat_eq_some.1 hrun
      have hvalid₁ : ∀ b ∈ as, b.Valid size := fun b hb => hvalid b (List.mem_append_left _ hb)
      have inv := SysInv.run hN hsize hring hvalid₁ hpre
      rw [inv.oldest_step_iff hsize (hvalid a (by simp)) hstep, eachStep_concat hpre,
        ih hvalid₁ hpre]

/-- **First in, first out, until the writer laps the reader.** On a ring of two entries or more,
    with any number of senders and one receiver, no read hangs, and the log of the trace knows which
    entries are unread. Every packet received is the oldest unread one exactly when no read is made
    of a lapped ring; then the packets are received in the order in which they were sent. -/
theorem fifoRecv_oldest_iff (packetNum packetSize : Nat) (hnum : 2 ≤ packetNum)
    (hsize : 1 ≤ packetSize) (ring : Shm) (hring : fifoCreat packetNum packetSize = some ring)
    (as : List ShmAction) (s : ShmSys) (tr : List ShmEvent)
    (hvalid : ∀ a ∈ as, a.Valid packetSize) (hrun : run shmStep ⟨ring, none⟩ as = some (s, tr)) :
    ShmEvent.stuck ∉ tr ∧
    (∀ i < packetNum,
      s.ring.Unread i ↔ ∃ e ∈ (SlotLog.ofTrace (slotTrace tr)).live, e.slot = i) ∧
    (Each OldestFirst (slotTrace tr) ↔ EachStep shmStep RecvNotLapped ⟨ring, none⟩ as) ∧
    (EachStep shmStep RecvNotLapped ⟨ring, none⟩ as →
      ((SlotLog.ofTrace (slotTrace tr)).taken.map Stored.pkt).Sublist
        (SlotLog.ofTrace (slotTrace tr)).written) := by
  have inv := SysInv.run hnum hsize hring hvalid hrun
  have hiff := oldest_iff_recvNotLapped hnum hsize hring hvalid hrun
  exact ⟨inv.live, fun i hi => inv.table.unread_iff hi, hiff, fun h => taken_sublist (hiff.2 h)⟩

/-- A ring of three entries that goes round. -/
def lapActions : List ShmAction :=
  [.send none [10], .send none [20], .recvStart 1, .send none [30], .recvStart 1, .send none [40],
    .recvStart 1, .recvStart 1]

/-- **A witness**: no read finds the ring lapped, and four packets are received as they were sent. -/
theorem fifoRecv_oldest_four : ∃ ring s tr, fifoCreat 3 1 = some ring ∧
    run shmStep ⟨ring, none⟩ lapActions = some (s, tr) ∧ ShmEvent.stuck ∉ tr ∧
    EachStep shmStep RecvNotLapped ⟨ring, none⟩ lapActions ∧
    [⟨0, [10]⟩, ⟨1, [20]⟩, ⟨2, [30]⟩, ⟨0, [40]⟩].Sublist (SlotLog.ofTrace (slotTrace tr)).written := by
  have holdest : Each OldestFirst [.fill 0 (⟨0, [10]⟩ : Placed), .fill 1 ⟨1, [20]⟩, .take 0 ⟨0, [10]⟩,
      .fill 2 ⟨2, [30]⟩, .take 1 ⟨1, [20]⟩, .fill 0 ⟨0, [40]⟩, .take 2 ⟨2, [30]⟩,
      .take 0 ⟨0, [40]⟩] := by decide
  have h := fifoRecv_oldest_iff 3 1 (by decide) (by decide) _ rfl lapActions _ _
    (by simp [lapActions, ShmAction.Valid]) rfl
  have hsteps := h.2.2.1.1 holdest
  exact ⟨_, _, _, rfl, rfl, h.1, hsteps, h.2.2.2 hsteps⟩

/-- The third packet goes over the first one, to the entry the read index points to, and is
    received before the second one. -/
theorem fifoRecv_newest_first : ∃ ring s tr, fifoCreat 2 1 = some ring ∧
    (∀ a ∈ [ShmAction.send none [10], .send none [20], .send none [30], .recvStart 1],
      a.Valid 1) ∧
    run shmStep ⟨ring, none⟩ [.send none [10], .send none [20], .send none [30], .recvStart 1] =
      some (s, tr) ∧
    ¬ Each OldestFirst (slotTrace tr) := by
  refine ⟨_, _, _, rfl, by simp [ShmAction.Valid], rfl, fun h => ?_⟩
  have holdest := h [.fill 0 ⟨0, [10]⟩, .fill 1 ⟨1, [20]⟩, .fill 0 ⟨0, [30]⟩]
    (.take 0 ⟨0, [30]⟩) [] rfl
  exact absurd holdest (by decide)

end XToolkits.Ipc
