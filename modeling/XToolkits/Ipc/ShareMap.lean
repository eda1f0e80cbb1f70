import XToolkits.Ipc.WriteBounds

set_option autoImplicit false

/-! # The packet ring of `xlib_shmmap`

`sh_tbitstream.c` has `tbsb_write_one_packet` and `tbsb_read_one_packet` once more. Its areas are arrays
of a fixed size in the structure, every call needs a header, and both functions refuse a size that is
larger than the data area. So no call needs to be well behaved for the ring to stay inside of its
arrays. -/

namespace XToolkits.Ipc

/-- `DEF_MAX_PACKETNUM` and `DEF_MAX_SHARE_BUFSIZE`. -/
def defMaxPacketnum : Nat := 8
def defMaxShareBufsize : Nat := 1024 * 1024

/-- `creat_shm_t`: `tbsb_init` of the segment. -/
def creatShmT : Shm := tbsbInit sizeofHeaderInfo defMaxPacketnum defMaxShareBufsize

/-- The test at the start of both functions. -/
def Refuses (header packetAddr : Bool) (packetSize : Int) : Prop :=
  ¬ header ∨ ¬ packetAddr ∨ packetSize ≤ 0 ∨ packetSize > defMaxShareBufsize

instance (header packetAddr : Bool) (packetSize : Int) :
    Decidable (Refuses header packetAddr packetSize) :=
  inferInstanceAs (Decidable (_ ∨ _ ∨ _ ∨ _))

/-- A call, and what it passes. A reader only passes where to copy to, or `NULL`. -/
inductive ShareAction where
  | write (header : Option (List UInt8)) (packetAddr : Option (Mem UInt8)) (packetSize : Int)
  | readStart (header packetAddr : Bool) (packetSize : Int)
  | readWake

/-- A step behind the test. A refused call is one of `utils_shm.c` with nothing to copy. -/
def ShareAction.toTbsb : ShareAction → TbsbAction
  | .write header packetAddr packetSize =>
      if Refuses header.isSome packetAddr.isSome packetSize then .write header none packetSize
      else .write header packetAddr packetSize
  | .readStart header packetAddr packetSize =>
      if Refuses header packetAddr packetSize then .readStart 0 else .readStart packetSize
  | .readWake => .readWake

/-- `tbsb_write_one_packet` and `tbsb_read_one_packet`. -/
def shareStep (s : ShmSys) (a : ShareAction) : Option (ShmSys × List ShmEvent) := tbsbStep s a.toTbsb

/-- What a step copies lies in the arrays: a packet in the data area, and its entry and header in theirs. -/
def ShmEvent.Inside (packetNum size : Nat) : ShmEvent → Prop
  | .sent entry offset packet => entry < packetNum ∧ offset + packet.length ≤ size
  | .received r => r.entry < packetNum ∧ r.offset + r.copied.length ≤ size
  | .refused => True
  | .stuck => False

variable {s s' : ShmSys} {p : Shm} {T : Nat} {b : TbsbAction} {tr es : List ShmEvent}

/-! ## One step -/

/-- A call that gets behind the test does not write more than the data area holds. -/
theorem sizeFits_toTbsb (htotal : s.ring.bufTotalSize = defMaxShareBufsize) (a : ShareAction) :
    SizeFits s a.toTbsb := by
  cases a with
  | write header packetAddr packetSize =>
      rw [ShareAction.toTbsb]
      split
      · exact Or.inl rfl
      · next hpass =>
          have hle : ¬ (defMaxShareBufsize : Int) < packetSize := fun hlarge =>
            hpass (Or.inr (Or.inr (Or.inr hlarge)))
          exact Or.inr (htotal.symm ▸ Int.not_lt.1 hle)
  | readStart header packetAddr packetSize =>
      rw [ShareAction.toTbsb]
      split <;> trivial
  | readWake => trivial

theorem SizeFits.length_le {a : TbsbAction} (h : SizeFits s a) {header : Option (List UInt8)}
    {packet : List UInt8} (hsend : a.toShm = .send header packet) :
    packet.length ≤ s.ring.bufTotalSize := by
  cases a with
  | write header' packetAddr packetSize =>
      cases packetAddr with
      | none =>
          obtain ⟨-, rfl⟩ := ShmAction.send.inj hsend
          exact Nat.zero_le _
      | some mem =>
          obtain ⟨-, rfl⟩ := ShmAction.send.inj hsend
          have hle : packetSize ≤ s.ring.bufTotalSize := h.resolve_left (by simp)
          rw [Mem.length_read]
          omega
  | readStart | readWake => cases hsend

/-- The packets of all entries lie in the data area, also of those that were read. -/
def PacketsInside (T : Nat) (packets : Nat → PacketInfo) : Prop :=
  ∀ i, (packets i).packetOffset + (packets i).packetSize ≤ T

theorem PacketsInside.update {packets : Nat → PacketInfo} (h : PacketsInside T packets) (i : Nat)
    {info : PacketInfo} (hinfo : info.packetOffset + info.packetSize ≤ T) :
    PacketsInside T (Function.update packets i info) := by
  intro j
  by_cases hj : j = i
  · rw [hj, Function.update_self]
    exact hinfo
  · rw [Function.update_of_ne hj]
    exact h j

theorem PacketsInside.free (h : PacketsInside T p.packets) :
    PacketsInside T (freeBeingUsed p).packets := by
  unfold freeBeingUsed
  split
  · exact h
  · next u _ => exact h.update u (h u)

theorem PacketsInside.write (h : PacketsInside T p.packets) (harea : InArea T p) (hsmall : T < 2 ^ 31)
    (header : Option (List UInt8)) {packet : List UInt8} (hlen : packet.length ≤ T) :
    curPacketWriteOffset p packet.length + packet.length ≤ T ∧
      PacketsInside T (tbsbWriteOnePacket p header packet).1.packets := by
  have hin := curPacketWriteOffset_add_le (harea.total.symm ▸ harea.next) (harea.total.symm ▸ hsmall)
    (harea.total.symm ▸ hlen)
  rw [harea.total] at hin
  refine ⟨hin, ?_⟩
  rw [tbsbWriteOnePacket]
  split
  · exact h
  · exact h.update _ hin

/-- What a read copies lies where its entry says. -/
theorem PacketsInside.copied (h : PacketsInside T p.packets) (i n : Nat) :
    (recvResult p i n).offset + (recvResult p i n).copied.length ≤ T := by
  refine Nat.le_trans ?_ (h i)
  simp only [recvResult]
  split
  · exact Nat.add_le_add_left (Nat.le_of_eq (Mem.length_read ..)) _
  · exact Nat.le_add_right _ _

/-- The ring and its reader after the events of a trace. -/
structure ShareInv (tr : List ShmEvent) (s : ShmSys) : Prop where
  table : TableSys defMaxPacketnum (SlotLog.ofTrace (slotTrace tr)) s
  area : InArea defMaxShareBufsize s.ring
  packets : PacketsInside defMaxShareBufsize s.ring.packets
  inside : ∀ e ∈ tr, e.Inside defMaxPacketnum defMaxShareBufsize

theorem shareInv_creat : ShareInv [] ⟨creatShmT, none⟩ where
  table := ⟨tbsbInv_init _ _ (by decide), fun _ => rfl⟩
  area := ⟨rfl, by decide⟩
  packets := fun _ => Nat.zero_le _
  inside := fun _ h => absurd h List.not_mem_nil

/-- **One step** copies inside of the arrays and keeps the invariant. -/
theorem ShareInv.step (h : ShareInv tr s) {a : ShareAction} (hstep : shareStep s a = some (s', es)) :
    ShareInv (tr ++ es) s' := by
  have hsmall : defMaxShareBufsize < 2 ^ 31 := by decide
  have hfits := sizeFits_toTbsb h.area.total a
  obtain ⟨htable, -⟩ := h.table.step (by decide) hstep
  have harea := h.area.step hsmall hfits hstep
  have hinside : ∀ {e : ShmEvent}, e.Inside defMaxPacketnum defMaxShareBufsize →
      ∀ e' ∈ tr ++ [e], e'.Inside defMaxPacketnum defMaxShareBufsize := by
    intro e he e' he'
    rcases List.mem_append.1 he' with he' | he'
    · exact h.inside e' he'
    · rw [List.mem_singleton.1 he']
      exact he
  rcases h.table.step_cases hstep with ⟨-, rfl, rfl⟩ | ⟨header, packet, hsend, hne, rfl, rfl⟩ |
      ⟨n, -, -, rfl, rfl⟩ | ⟨n, -, e, he, -, rfl, rfl⟩
  · exact ⟨htable, harea, h.packets, hinside trivial⟩
  · have hlen := hfits.length_le hsend
    rw [h.area.total] at hlen
    obtain ⟨hin, hpackets⟩ := h.packets.write h.area hsmall header hlen
    exact ⟨htable, harea, hpackets, hinside ⟨h.table.table.entry_lt, hin⟩⟩
  · refine ⟨htable, harea, h.packets.free, ?_⟩
    rw [List.append_nil]
    exact h.inside
  · exact ⟨htable, harea, h.packets.free, hinside ⟨h.table.table.slot_lt e he, h.packets.free.copied _ n⟩⟩

/-- Every run keeps the invariant. -/
theorem ShareInv.run {as : List ShareAction} (hrun : run shareStep ⟨creatShmT, none⟩ as = some (s, tr)) :
    ShareInv tr s :=
  run_induction (fun _ => True) ShareInv shareInv_creat (fun _ _ _ _ _ _ h hstep => h.step hstep)
    (fun _ _ => trivial) hrun

/-- **Whatever is passed, the ring stays inside of its arrays.** In every run of any number of writers
    and one reader, each packet that is written or read lies in the data area and its entry is one of
    the eight, no read scans for ever, and no size lets the next offset leave the data area. -/
theorem shareMap_inside (as : List ShareAction) {s : ShmSys} {tr : List ShmEvent}
    (hrun : run shareStep ⟨creatShmT, none⟩ as = some (s, tr)) :
    NextInside s ∧ ∀ e ∈ tr, e.Inside defMaxPacketnum defMaxShareBufsize := by
  have h := ShareInv.run hrun
  refine ⟨?_, h.inside⟩
  rw [NextInside, h.area.total]
  exact h.area.next

/-- A write, one that is larger than the data area, a read with too small a buffer and one that
    waits. -/
theorem shareMap_inside_large : ∃ s tr, run shareStep ⟨creatShmT, none⟩
      [.write (some []) (some fun _ => 7) 3, .write (some []) (some fun _ => 8) 1048577,
        .readStart true true 1, .readStart true true 9] = some (s, tr) ∧
    NextInside s ∧ ∀ e ∈ tr, e.Inside defMaxPacketnum defMaxShareBufsize :=
  ⟨_, _, rfl, shareMap_inside
    [.write (some []) (some fun _ => 7) 3, .write (some []) (some fun _ => 8) 1048577,
      .readStart true true 1, .readStart true true 9] rfl⟩

/-! ## First in, first out -/

/-- The step goes on to look for a packet. -/
def ShareAction.Reads : ShareAction → Prop
  | .write .. => False
  | .readStart header packetAddr packetSize => ¬ Refuses header packetAddr packetSize
  | .readWake => True

/-- No such step is taken while the writer has come round past the read index. -/
def ReadsNotLapped (s : ShmSys) (a : ShareAction) : Prop := a.Reads → ¬ Lapped s.ring

theorem reads_of_recvSize {a : ShareAction} {n : Nat} (hn : recvSize s a.toTbsb.toShm = some n)
    (hrefused : a.toTbsb.toShm ≠ .recvStart 0) : a.Reads := by
  cases a with
  | write header packetAddr packetSize =>
      rw [ShareAction.toTbsb] at hn
      split at hn
      · cases hn
      · cases packetAddr <;> cases hn
  | readStart header packetAddr packetSize =>
      intro hrefuses
      rw [ShareAction.toTbsb, if_pos hrefuses] at hrefused
      exact hrefused rfl
  | readWake => trivial

theorem not_reads_of_refused {a : ShareAction}
    (h : a.toTbsb.toShm = .recvStart 0 ∨ ∃ header packet, a.toTbsb.toShm = .send header packet) :
    ¬ a.Reads := by
  cases a with
  | write header packetAddr packetSize => exact id
  | readStart header packetAddr packetSize =>
      intro hreads
      rw [ShareAction.toTbsb, if_neg hreads] at h
      rcases h with h | ⟨_, _, h⟩
      · have hzero := ShmAction.recvStart.inj h
        exact hreads (Or.inr (Or.inr (Or.inl (by omega))))
      · cases h
  | readWake => rcases h with h | ⟨_, _, h⟩ <;> cases h

theorem ne_refused (hstep : tbsbStep s b = some (s', es)) (hes : es ≠ [.refused]) :
    b.toShm ≠ .recvStart 0 := by
  intro hb
  rw [tbsbStep, hb, shmStep] at hstep
  split at hstep
  · cases hstep
  · exact hes (Prod.mk.inj (Option.some.inj hstep)).2.symm

/-- The last step of a run hands out the oldest packet, if any, exactly when it is not a read of a
    lapped ring. -/
theorem ShareInv.oldest_step_iff (h : ShareInv tr s) {a : ShareAction}
    (hstep : shareStep s a = some (s', es)) :
    Each OldestFirst (slotTrace (tr ++ es)) ↔
      Each OldestFirst (slotTrace tr) ∧ ReadsNotLapped s a := by
  rcases h.table.step_cases hstep with ⟨hrefused, -, rfl⟩ | ⟨header, packet, hsend, -, -, rfl⟩ |
      ⟨n, hn, hlive, -, rfl⟩ | ⟨n, hn, e, he, hmin, -, rfl⟩
  · have hreads : ReadsNotLapped s a := fun hreads => absurd hreads (not_reads_of_refused
      (hrefused.imp_right fun ⟨header, hsend⟩ => ⟨header, [], hsend⟩))
    have hslots : ShmEvent.refused.slotEvents = [] := rfl
    rw [slotTrace_concat, hslots, List.append_nil]
    exact (and_iff_left hreads).symm
  · have hreads : ReadsNotLapped s a := fun hreads => absurd hreads (not_reads_of_refused
      (Or.inr ⟨header, packet, hsend⟩))
    rw [slotTrace_concat, ShmEvent.slotEvents, each_concat]
    exact and_congr_right fun _ => iff_of_true trivial hreads
  · -- nothing is unread, so the ring is not lapped
    have hnot : ReadsNotLapped s a := by
      rintro - ⟨i, hi, -, -, hui, -⟩
      obtain ⟨b, hb, -⟩ := (h.table.table.unread_iff (h.table.table.num ▸ hi)).1 hui
      rw [hlive] at hb
      cases hb
    rw [List.append_nil]
    exact (and_iff_left hnot).symm
  · have hreads : a.Reads := reads_of_recvSize hn (ne_refused hstep (by simp))
    have hold := h.table.table.free.oldest_iff he hmin
    rw [lapped_freeBeingUsed] at hold
    rw [slotTrace_concat, ShmEvent.slotEvents, each_concat]
    exact and_congr_right fun _ => (hold _).trans ⟨fun hl _ => hl, fun hl => hl hreads⟩

/-- **First in, first out, until the writers lap the reader**, for packets of any sizes and buffers that
    may be too small: each packet that a read comes to is the oldest unread one exactly when no read is
    made of a lapped ring. -/
theorem shareMap_oldest_iff (as : List ShareAction) {s : ShmSys} {tr : List ShmEvent}
    (hrun : run shareStep ⟨creatShmT, none⟩ as = some (s, tr)) :
    Each OldestFirst (slotTrace tr) ↔ EachStep shareStep ReadsNotLapped ⟨creatShmT, none⟩ as := by
  induction as using List.reverseRecOn generalizing s tr with
  | nil =>
      obtain ⟨-, rfl⟩ := Prod.mk.inj (Option.some.inj hrun)
      exact iff_of_true (Each.nil _) (EachStep.nil _ _)
  | append_singleton as a ih =>
      obtain ⟨s₁, tr₁, es, hpre, hstep, rfl⟩ := run_concat_eq_some.1 hrun
      rw [(ShareInv.run hpre).oldest_step_iff hstep, eachStep_concat hpre, ih hpre]

/-- Nine packets in eight entries: the ninth one is read first. -/
theorem shareMap_oldest_lapped : ∃ s tr, run shareStep ⟨creatShmT, none⟩
      (List.replicate 9 (.write (some []) (some fun _ => 7) 1) ++ [.readStart true true 1]) =
        some (s, tr) ∧
    (Each OldestFirst (slotTrace tr) ↔ EachStep shareStep ReadsNotLapped ⟨creatShmT, none⟩
      (List.replicate 9 (.write (some []) (some fun _ => 7) 1) ++ [.readStart true true 1])) :=
  ⟨_, _, rfl, shareMap_oldest_iff
    (List.replicate 9 (.write (some []) (some fun _ => 7) 1) ++ [.readStart true true 1]) rfl⟩

end XToolkits.Ipc
