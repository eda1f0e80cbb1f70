import XToolkits.Fifo.Entries

set_option autoImplicit false

/-! # Order of delivery of the packet fifo

The entry table of an `EasyFifo` of three entries or more against the log of its events. The
waiting packets of the log sit in the table in order of age from the next read index on, the newest
one right before the next write index (`TableInv`). The cases of a write differ in where the read
index goes; `TableInv.write` treats them by the one fact they share, that the entry written is
farther from the new read index than every other waiting packet. -/

namespace XToolkits.Fifo

variable {N headerSize : Nat} {f : EasyFifo} {l : SlotLog HeaderAndSize}

/-- The table against the log of its events. -/
structure TableInv (N headerSize : Nat) (f : EasyFifo) (l : SlotLog HeaderAndSize) : Prop where
  first : f.firstEntryIndex = 0
  last : f.lastEntryIndex = N - 1
  max : f.maxEntryNum = N
  hsize : f.headerSize = headerSize
  read_lt : f.entryIndexForNextRead < N
  write_lt : f.entryIndexForNextWrite < N
  used_lt : ∀ u, f.entryIndexBeingUsed = some u → u < N
  used_ne_read : f.entryIndexBeingUsed ≠ some f.entryIndexForNextRead
  used_not_live : ∀ u, f.entryIndexBeingUsed = some u → ∀ e ∈ l.live, e.slot ≠ u
  slot_lt : ∀ e ∈ l.live, e.slot < N
  valid_iff : ∀ i < N, (f.packetInfoEntries i).entryState = .valid ↔
    (∃ e ∈ l.live, e.slot = i) ∨ f.entryIndexBeingUsed = some i
  count : f.usedEntryNum = l.live.length + (if f.entryIndexBeingUsed.isSome then 1 else 0)
  header : ∀ e ∈ l.live, f.headerEntries.read ↑(e.slot * headerSize) headerSize = e.pkt.1
  size : ∀ e ∈ l.live, (f.packetInfoEntries e.slot).packetSize = e.pkt.2
  sorted : l.live.Pairwise fun a b =>
    cdist N f.entryIndexForNextRead a.slot < cdist N f.entryIndexForNextRead b.slot
  newest : ∀ e, l.live.getLast? = some e → f.entryIndexForNextWrite = cnext N e.slot
  idle : l.live = [] → f.entryIndexForNextRead = f.entryIndexForNextWrite

/-- With no entry in use, the waiting packets are the entries right after the next read index. -/
def Packed (N : Nat) (f : EasyFifo) (l : SlotLog HeaderAndSize) : Prop :=
  f.entryIndexBeingUsed = none → ∀ e ∈ l.live,
    cdist N f.entryIndexForNextRead e.slot < l.live.length

theorem tableInv_create (junk : Mem UInt8) (bufferSize headerSize N : Nat) (hN : 0 < N) :
    TableInv N headerSize (fifoCreate junk bufferSize headerSize N) SlotLog.empty := by
  constructor <;> simp [fifoCreate, SlotLog.empty, hN]

theorem TableInv.next_eq (h : TableInv N headerSize f l) {i : Nat} (hi : i < N) :
    nextEntryIndex f i = cnext N i :=
  nextEntryIndex_eq h.first h.last hi

/-! ## Freeing and flushing -/

/-- Freeing the packet of the previous read touches no waiting packet. -/
theorem TableInv.free (h : TableInv N headerSize f l) :
    TableInv N headerSize (freeLastReadPacket f) l := by
  unfold freeLastReadPacket
  split
  · exact h
  · next u hu =>
      have hlive := h.used_not_live u hu
      refine { h with
        used_lt := by simp
        used_ne_read := by simp
        used_not_live := by simp
        valid_iff := ?_
        count := ?_
        size := fun e he => ?_ }
      · refine SlotLog.Occupied.free (hu ▸ h.valid_iff) hlive fun j => ?_
        by_cases hju : j = u <;> simp [hju]
      · have hcount := h.count
        rw [hu] at hcount
        simp [hcount, decU32_add_one]
      · simpa [Function.update_of_ne (hlive e he)] using h.size e he

/-- A flush empties the table. -/
theorem TableInv.flush (h : TableInv N headerSize f l) (hN : 0 < N) :
    TableInv N headerSize (fifoFlush f) SlotLog.empty := by
  have hle : ∀ i < N, i ≤ f.lastEntryIndex := fun i hi => by
    have := h.last
    omega
  exact {
    first := h.first, last := h.last, max := h.max, hsize := h.hsize
    read_lt := hN
    write_lt := hN
    used_lt := by simp [fifoFlush]
    used_ne_read := by simp [fifoFlush]
    used_not_live := by simp [SlotLog.empty]
    slot_lt := by simp [SlotLog.empty]
    valid_iff := fun i hi => by simp [fifoFlush, SlotLog.empty, hle i hi]
    count := by simp [fifoFlush, SlotLog.empty]
    header := by simp [SlotLog.empty]
    size := by simp [SlotLog.empty]
    sorted := by simp [SlotLog.empty]
    newest := by simp [SlotLog.empty]
    idle := by simp [fifoFlush] }

/-! ## Reading -/

/-- The scan of a read stops at the oldest waiting packet. -/
theorem TableInv.scan (h : TableInv N headerSize f l) (hused : f.entryIndexBeingUsed = none)
    {e : Stored HeaderAndSize} {rest : List (Stored HeaderAndSize)} (hlive : l.live = e :: rest) :
    entryIndexForThisRead f = some e.slot := by
  have hmem : e ∈ l.live := by simp [hlive]
  have heN : e.slot < N := h.slot_lt e hmem
  have hvalid : ∀ i < N, (f.packetInfoEntries i).entryState = .valid →
      ∃ a ∈ l.live, a.slot = i := by
    intro i hi hv
    simpa [hused] using (h.valid_iff i hi).1 hv
  have hev : (f.packetInfoEntries e.slot).entryState = .valid :=
    (h.valid_iff e.slot heN).2 (Or.inl ⟨e, hmem, rfl⟩)
  obtain ⟨k, hk, hkN, hkv, hmin⟩ :=
    csearch_spec (p := fun i => (f.packetInfoEntries i).entryState = .valid) h.read_lt heN
      (by simpa using hev)
  have hlast : f.lastEntryIndex + 1 = N := by
    have := h.last
    omega
  rw [entryIndexForThisRead, hlast, h.max, hk]
  obtain ⟨a, ha, rfl⟩ := hvalid k hkN (by simpa using hkv)
  have hle := hmin e.slot heN (by simpa using hev)
  have holdest := SlotLog.key_first_le h.sorted hlive ha
  exact congrArg some (cdist_inj h.read_lt hkN heN (Nat.le_antisymm hle holdest))

/-- A read takes the oldest waiting packet and leaves the others in order. -/
theorem TableInv.take (h : TableInv N headerSize f l) (hN : 2 ≤ N) (hwf : l.WF)
    (hused : f.entryIndexBeingUsed = none) {e : Stored HeaderAndSize}
    {rest : List (Stored HeaderAndSize)} (hlive : l.live = e :: rest) :
    ∃ f' r, fifoTakeOnePacket f = some (f', r) ∧ r.entry = e.slot ∧
      (r.header, r.packetSize) = e.pkt ∧ f'.entryIndexBeingUsed = some e.slot ∧
      TableInv N headerSize f' (l.apply (.take e.slot e.pkt)) := by
  have hmem : e ∈ l.live := by simp [hlive]
  have heN : e.slot < N := h.slot_lt e hmem
  have hothers : (l.apply (.take e.slot e.pkt)).live = rest :=
    hwf.others_of_split (show l.live = [] ++ e :: rest from hlive)
  have hsorted := h.sorted
  rw [hlive, List.pairwise_cons] at hsorted
  have hin : ∀ a ∈ rest, a ∈ l.live := fun a ha => by simp [hlive, ha]
  have hslots := hwf.slots
  rw [hlive, List.pairwise_cons] at hslots
  refine ⟨_, _, by rw [fifoTakeOnePacket, h.scan hused hlive], rfl, ?_, rfl, ?_⟩
  · rw [h.hsize, h.header e hmem, h.size e hmem]
  · exact {
      first := h.first, last := h.last, max := h.max, hsize := h.hsize, write_lt := h.write_lt
      read_lt := by
        rw [h.next_eq heN]
        exact cnext_lt (by omega)
      used_lt := by
        rintro u ⟨⟩
        exact heN
      used_ne_read := by
        rw [h.next_eq heN]
        exact fun he => cnext_ne hN (Option.some.inj he).symm
      used_not_live := by
        rintro u ⟨⟩ a ha
        rw [hothers] at ha
        exact (hslots.1 a ha).symm
      slot_lt := fun a ha => h.slot_lt a (hin a (hothers ▸ ha))
      valid_iff := SlotLog.Occupied.take (hused ▸ h.valid_iff) hmem e.pkt
      count := by
        rw [hothers, h.count, hused, hlive]
        simp
      header := fun a ha => h.header a (hin a (hothers ▸ ha))
      size := fun a ha => h.size a (hin a (hothers ▸ ha))
      sorted := by
        rw [hothers, h.next_eq heN]
        refine hsorted.2.imp_of_mem fun {a b} ha hb hlt => ?_
        have h1 := cdist_cnext_of_lt h.read_lt heN (h.slot_lt a (hin a ha)) (hsorted.1 a ha)
        have h2 := cdist_cnext_of_lt h.read_lt heN (h.slot_lt b (hin b hb)) (hsorted.1 b hb)
        change cdist N (cnext N e.slot) a.slot < cdist N (cnext N e.slot) b.slot
        omega
      newest := by
        intro a ha
        rw [hothers] at ha
        apply h.newest
        rw [hlive, List.getLast?_cons, ha]
        rfl
      idle := by
        intro hnil
        rw [hothers] at hnil
        rw [h.next_eq heN]
        exact (h.newest e (by simp [hlive, hnil])).symm }

/-! ## Writing -/

theorem TableInv.entry_lt (h : TableInv N headerSize f l) : entryIndexForThisWrite f < N := by
  unfold entryIndexForThisWrite
  split
  · rw [h.next_eq h.write_lt]
    exact cnext_lt (Nat.zero_lt_of_lt h.write_lt)
  · exact h.write_lt

/-- A write goes to the entry after the one in use, when that one is next. -/
theorem TableInv.entry_of_used (h : TableInv N headerSize f l)
    (hw : f.entryIndexBeingUsed = some f.entryIndexForNextWrite) :
    entryIndexForThisWrite f = cnext N f.entryIndexForNextWrite := by
  rw [entryIndexForThisWrite, if_pos hw.symm, h.next_eq h.write_lt]

theorem entry_of_not_used (hw : f.entryIndexBeingUsed ≠ some f.entryIndexForNextWrite) :
    entryIndexForThisWrite f = f.entryIndexForNextWrite :=
  if_neg (Ne.symm hw)

/-- A write never goes to the entry in use. -/
theorem TableInv.entry_ne_used (h : TableInv N headerSize f l) (hN : 2 ≤ N) :
    f.entryIndexBeingUsed ≠ some (entryIndexForThisWrite f) := by
  by_cases hw : f.entryIndexBeingUsed = some f.entryIndexForNextWrite
  · rw [h.entry_of_used hw, hw]
    exact fun he => cnext_ne hN (Option.some.inj he).symm
  · rwa [entry_of_not_used hw]

/-- The counter after a write counts the packets it leaves waiting, its own and the one in use. -/
theorem TableInv.count_after (h : TableInv N headerSize f l) (hN : 2 ≤ N) (hwf : l.WF) :
    usedEntryNumAfterWrite f = (l.others (entryIndexForThisWrite f)).length + 1 +
      (if f.entryIndexBeingUsed.isSome then 1 else 0) := by
  refine SlotLog.Occupied.count_fill h.valid_iff hwf h.entry_lt (h.entry_ne_used hN) h.count ?_ ?_
  · intro hvalid
    rw [usedEntryNumAfterWrite, hvalid, if_neg (by simp)]
  · intro hvalid
    rw [usedEntryNumAfterWrite, if_pos]
    cases hs : (f.packetInfoEntries (entryIndexForThisWrite f)).entryState with
    | invalid => rfl
    | valid => exact absurd hs hvalid

/-- When nothing waits, a write goes to the read index. -/
theorem TableInv.entry_of_idle (h : TableInv N headerSize f l) (hnil : l.live = []) :
    entryIndexForThisWrite f = f.entryIndexForNextRead := by
  have hrw := h.idle hnil
  rw [hrw]
  exact entry_of_not_used (hrw ▸ h.used_ne_read)

/-- With no entry in use, a write that goes to the read index although packets wait finds the table
    full. -/
theorem TableInv.full_of_entry_eq_read (h : TableInv N headerSize f l) (hpacked : Packed N f l)
    {e : Stored HeaderAndSize} (hlast : l.live.getLast? = some e)
    (hnone : f.entryIndexBeingUsed = none)
    (hentry : entryIndexForThisWrite f = f.entryIndexForNextRead) : N ≤ l.live.length := by
  have hmem := List.mem_of_getLast? hlast
  rw [entry_of_not_used (by simp [hnone]), h.newest e hlast] at hentry
  have hdist := hpacked hnone e hmem
  have hround := cdist_of_cnext_eq h.read_lt (h.slot_lt e hmem) hentry
  omega

/-- Any other write goes behind the newest packet, right behind it when no entry is in use. -/
theorem TableInv.entry_behind (h : TableInv N headerSize f l) {e : Stored HeaderAndSize}
    (hlast : l.live.getLast? = some e)
    (hentry : entryIndexForThisWrite f ≠ f.entryIndexForNextRead) :
    cdist N f.entryIndexForNextRead e.slot <
        cdist N f.entryIndexForNextRead (entryIndexForThisWrite f) ∧
      (f.entryIndexBeingUsed = none →
        cdist N f.entryIndexForNextRead (entryIndexForThisWrite f) =
          cdist N f.entryIndexForNextRead e.slot + 1) := by
  have heN := h.slot_lt e (List.mem_of_getLast? hlast)
  have hw := h.newest e hlast
  by_cases hu : f.entryIndexBeingUsed = some f.entryIndexForNextWrite
  · have hwr : cnext N e.slot ≠ f.entryIndexForNextRead := fun heq =>
      h.used_ne_read (by rw [hu, hw, heq])
    rw [h.entry_of_used hu] at hentry ⊢
    have h1 := cdist_to_cnext h.read_lt heN hwr
    have h2 := cdist_to_cnext h.read_lt h.write_lt hentry
    rw [hw] at h2 ⊢
    exact ⟨by omega, fun hn => by simp [hn] at hu⟩
  · rw [entry_of_not_used hu, hw] at hentry ⊢
    have h1 := cdist_to_cnext h.read_lt heN hentry
    exact ⟨by omega, fun _ => h1⟩

/-- **Where a write leaves the read index.** It stays when the entry written is the only one left
    or lies behind the newest waiting packet; otherwise the write has come round to the read index
    and pushes it on, over the entry in use. -/
theorem TableInv.readAfter_cases (h : TableInv N headerSize f l) (hN : 3 ≤ N) (hwf : l.WF)
    (hpacked : Packed N f l) :
    (entryIndexForNextReadAfterWrite f = f.entryIndexForNextRead ∧
      l.others (entryIndexForThisWrite f) = [] ∧
      (f.entryIndexBeingUsed = none → entryIndexForThisWrite f = f.entryIndexForNextRead)) ∨
    (entryIndexForNextReadAfterWrite f = f.entryIndexForNextRead ∧
      ∃ e, l.live.getLast? = some e ∧
        cdist N f.entryIndexForNextRead e.slot <
          cdist N f.entryIndexForNextRead (entryIndexForThisWrite f) ∧
        (f.entryIndexBeingUsed = none →
          cdist N f.entryIndexForNextRead (entryIndexForThisWrite f) =
            cdist N f.entryIndexForNextRead e.slot + 1)) ∨
    (entryIndexForThisWrite f = f.entryIndexForNextRead ∧
      entryIndexForNextReadAfterWrite f = cnext N f.entryIndexForNextRead ∧
      f.entryIndexBeingUsed ≠ some (cnext N f.entryIndexForNextRead) ∧
      (f.entryIndexBeingUsed = none → N ≤ l.live.length)) ∨
    (entryIndexForThisWrite f = f.entryIndexForNextRead ∧
      entryIndexForNextReadAfterWrite f = cnext N (cnext N f.entryIndexForNextRead) ∧
      f.entryIndexBeingUsed = some (cnext N f.entryIndexForNextRead)) := by
  have hcount := h.count_after (by omega) hwf
  have hnext := h.next_eq h.read_lt
  rcases List.eq_nil_or_concat l.live with hnil | ⟨front, e, hlive⟩
  · -- nothing waits: the write goes to the read index
    have hothers : l.others (entryIndexForThisWrite f) = [] := by simp [SlotLog.others, hnil]
    refine Or.inl ⟨?_, hothers, fun _ => h.entry_of_idle hnil⟩
    have hle : ¬ usedEntryNumAfterWrite f > 2 := by
      rw [hcount, hothers]
      simp only [List.length_nil]
      split <;> omega
    rw [entryIndexForNextReadAfterWrite, if_neg (fun hc => hle hc.2)]
  · have hlast : l.live.getLast? = some e := by simp [hlive]
    by_cases hentry : entryIndexForThisWrite f = f.entryIndexForNextRead
    · by_cases hmany : usedEntryNumAfterWrite f > 2
      · refine Or.inr (Or.inr ?_)
        have hread : entryIndexForNextReadAfterWrite f =
            if some (cnext N f.entryIndexForNextRead) = f.entryIndexBeingUsed then
              cnext N (cnext N f.entryIndexForNextRead)
            else cnext N f.entryIndexForNextRead := by
          rw [entryIndexForNextReadAfterWrite, if_pos ⟨hentry, hmany⟩, hnext,
            h.next_eq (cnext_lt (by omega))]
        by_cases hu : some (cnext N f.entryIndexForNextRead) = f.entryIndexBeingUsed
        · exact Or.inr ⟨hentry, by rw [hread, if_pos hu], hu.symm⟩
        · exact Or.inl ⟨hentry, by rw [hread, if_neg hu], Ne.symm hu,
            fun hnone => h.full_of_entry_eq_read hpacked hlast hnone hentry⟩
      · refine Or.inl ⟨?_, ?_, fun _ => hentry⟩
        · rw [entryIndexForNextReadAfterWrite, if_neg (fun hc => hmany hc.2)]
        · cases hused : f.entryIndexBeingUsed with
          | some u =>
              rw [hused] at hcount
              simp only [Option.isSome_some, if_true] at hcount
              exact List.length_eq_zero_iff.1 (by omega)
          | none =>
              have h1 := h.full_of_entry_eq_read hpacked hlast hused hentry
              have h2 := hwf.length_le_others (entryIndexForThisWrite f)
              omega
    · refine Or.inr (Or.inl ⟨?_, e, hlast, h.entry_behind hlast hentry⟩)
      rw [entryIndexForNextReadAfterWrite, if_neg (fun hc => hentry hc.1)]

/-- The newest packet is the farthest from the next read index. -/
theorem TableInv.le_newest (h : TableInv N headerSize f l) {e : Stored HeaderAndSize}
    (hlast : l.live.getLast? = some e) {a : Stored HeaderAndSize} (ha : a ∈ l.live) :
    cdist N f.entryIndexForNextRead a.slot ≤ cdist N f.entryIndexForNextRead e.slot :=
  SlotLog.key_le_last h.sorted hlast ha

/-- Seen from the new read index, the waiting packets keep their distances to each other and the
    entry written is the farthest. -/
theorem TableInv.readAfter_spec (h : TableInv N headerSize f l) (hN : 3 ≤ N) (hwf : l.WF)
    (hpacked : Packed N f l) :
    entryIndexForNextReadAfterWrite f < N ∧
    f.entryIndexBeingUsed ≠ some (entryIndexForNextReadAfterWrite f) ∧
    (∃ d, ∀ a ∈ l.others (entryIndexForThisWrite f),
      cdist N (entryIndexForNextReadAfterWrite f) a.slot + d =
        cdist N f.entryIndexForNextRead a.slot) ∧
    (∀ a ∈ l.others (entryIndexForThisWrite f),
      cdist N (entryIndexForNextReadAfterWrite f) a.slot <
        cdist N (entryIndexForNextReadAfterWrite f) (entryIndexForThisWrite f)) := by
  have hr := h.read_lt
  have hr1 : cnext N f.entryIndexForNextRead < N := cnext_lt (by omega)
  have hothers : ∀ a ∈ l.others (entryIndexForThisWrite f),
      a ∈ l.live ∧ a.slot ≠ entryIndexForThisWrite f ∧ a.slot < N := fun a ha =>
    have hin := SlotLog.mem_others.1 ha
    ⟨hin.1, hin.2, h.slot_lt a hin.1⟩
  rcases h.readAfter_cases hN hwf hpacked with ⟨hread, hnil, -⟩ | ⟨hread, e, hlast, hlt, -⟩ |
      ⟨hentry, hread, hu, -⟩ | ⟨hentry, hread, hu⟩ <;> rw [hread]
  · rw [hnil]
    exact ⟨hr, h.used_ne_read, ⟨0, by simp⟩, by simp⟩
  · refine ⟨hr, h.used_ne_read, ⟨0, fun a _ => rfl⟩, fun a ha => ?_⟩
    obtain ⟨hmem, -, -⟩ := hothers a ha
    exact Nat.lt_of_le_of_lt (h.le_newest hlast hmem) hlt
  · rw [hentry] at hothers ⊢
    refine ⟨hr1, hu, ⟨1, fun a ha => ?_⟩, fun a ha => ?_⟩
    · exact cdist_cnext hr (hothers a ha).2.2 (hothers a ha).2.1.symm
    · have h1 := cdist_cnext hr (hothers a ha).2.2 (hothers a ha).2.1.symm
      have h2 := cdist_lt hr (hothers a ha).2.2
      rw [cdist_cnext_self hr]
      omega
  · rw [hentry] at hothers ⊢
    have hne : ∀ a ∈ l.others f.entryIndexForNextRead, cnext N f.entryIndexForNextRead ≠ a.slot :=
      fun a ha => (h.used_not_live _ hu a (hothers a ha).1).symm
    refine ⟨cnext_lt (by omega), ?_, ⟨2, fun a ha => ?_⟩, fun a ha => ?_⟩
    · rw [hu]
      exact fun he => cnext_ne (by omega) (Option.some.inj he).symm
    · have h1 := cdist_cnext hr (hothers a ha).2.2 (hothers a ha).2.1.symm
      have h2 := cdist_cnext hr1 (hothers a ha).2.2 (hne a ha)
      omega
    · have h1 := cdist_cnext hr (hothers a ha).2.2 (hothers a ha).2.1.symm
      have h2 := cdist_cnext hr1 (hothers a ha).2.2 (hne a ha)
      have h3 := cdist_cnext hr1 hr (cnext_ne (by omega))
      have h4 := cdist_lt hr (hothers a ha).2.2
      rw [cdist_cnext_self hr] at h3
      omega

/-- A write keeps the table in order of age. -/
theorem TableInv.write (h : TableInv N headerSize f l) (hN : 3 ≤ N) (hwf : l.WF)
    (hpacked : Packed N f l) (header packet : List UInt8) (hheader : header.length = headerSize) :
    TableInv N headerSize (fifoWriteOnePacket f header packet).1
      (l.apply (.fill (entryIndexForThisWrite f) (header, packet.length))) := by
  obtain ⟨hread, hused, ⟨d, hdist⟩, hfar⟩ := h.readAfter_spec hN hwf hpacked
  have hentry := h.entry_lt
  have htake : header.take headerSize = header := List.take_of_length_le (by omega)
  exact {
    first := h.first, last := h.last, max := h.max, hsize := h.hsize
    read_lt := hread
    write_lt := by
      change nextEntryIndex f (entryIndexForThisWrite f) < N
      rw [h.next_eq hentry]
      exact cnext_lt (by omega)
    used_lt := h.used_lt
    used_ne_read := hused
    used_not_live := fun u hu =>
      SlotLog.forall_live_fill (fun a ha _ => h.used_not_live u hu a ha)
        fun heq => h.entry_ne_used (by omega) (hu.trans (by simp [← heq]))
    slot_lt := SlotLog.forall_live_fill (fun a ha _ => h.slot_lt a ha) hentry
    valid_iff := by
      refine SlotLog.Occupied.fill h.valid_iff (fun j => ?_) _
      by_cases hj : j = entryIndexForThisWrite f <;> simp [fifoWriteOnePacket, hj]
    count := by
      simp only [fifoWriteOnePacket, SlotLog.apply, List.length_append, List.length_singleton]
      exact h.count_after (by omega) hwf
    header := by
      simp only [fifoWriteOnePacket, h.hsize, htake]
      refine SlotLog.forall_live_fill (fun a ha hne => ?_) ?_
      · rw [Mem.read_write_of_disjoint _ (Mem.disjoint_records hne.symm (by omega) (by omega))]
        exact h.header a ha
      · have hself := Mem.read_write_self f.headerEntries
          ↑(entryIndexForThisWrite f * headerSize) header
        rwa [hheader] at hself
    size := by
      refine SlotLog.forall_live_fill (fun a ha hne => ?_) (by simp [fifoWriteOnePacket])
      simp only [fifoWriteOnePacket, Function.update_of_ne hne]
      exact h.size a ha
    sorted := by
      refine SlotLog.pairwise_live_fill ((h.sorted.filter _).imp_of_mem fun {a b} ha hb hlt => ?_) hfar
      have h1 := hdist a ha
      have h2 := hdist b hb
      change cdist N (entryIndexForNextReadAfterWrite f) a.slot <
        cdist N (entryIndexForNextReadAfterWrite f) b.slot
      omega
    newest := by
      intro a ha
      simp only [SlotLog.apply, List.getLast?_append_cons, List.getLast?_singleton,
        Option.some.injEq] at ha
      subst ha
      exact h.next_eq hentry
    idle := by simp [SlotLog.apply] }

/-- A write keeps the waiting packets packed while no entry is in use. -/
theorem TableInv.packed_write (h : TableInv N headerSize f l) (hN : 3 ≤ N) (hwf : l.WF)
    (hpacked : Packed N f l) (header packet : List UInt8) :
    Packed N (fifoWriteOnePacket f header packet).1
      (l.apply (.fill (entryIndexForThisWrite f) (header, packet.length))) := by
  intro hnone a ha
  change f.entryIndexBeingUsed = none at hnone
  obtain ⟨hread, -, -, hfar⟩ := h.readAfter_spec hN hwf hpacked
  have hle : cdist N (entryIndexForNextReadAfterWrite f) a.slot ≤
      cdist N (entryIndexForNextReadAfterWrite f) (entryIndexForThisWrite f) := by
    rcases List.mem_append.1 ha with ha | ha
    · exact Nat.le_of_lt (hfar a ha)
    · exact List.mem_singleton.1 ha ▸ Nat.le_refl _
  have hlen := hwf.length_le_others (entryIndexForThisWrite f)
  simp only [fifoWriteOnePacket, SlotLog.apply, List.length_append, List.length_singleton]
  refine Nat.lt_of_le_of_lt hle ?_
  rcases h.readAfter_cases hN hwf hpacked with ⟨hr, -, hentry⟩ | ⟨hr, e, hlast, hlt, hnext⟩ |
      ⟨-, -, -, hfull⟩ | ⟨-, -, hu⟩
  · rw [hr, hentry hnone]
    simp
  · -- the entry written is the first free one: nothing waits there
    have hmem : e ∈ l.live := List.mem_of_getLast? hlast
    have hbehind : ∀ b ∈ l.live, b.slot ≠ entryIndexForThisWrite f := by
      intro b hb heq
      have hle := h.le_newest hlast hb
      rw [heq] at hle
      omega
    rw [SlotLog.others_eq_self hbehind, hr, hnext hnone]
    have := hpacked hnone e hmem
    omega
  · have h1 := hfull hnone
    have h2 := cdist_lt hread h.entry_lt
    omega
  · simp [hnone] at hu

/-! ## Runs -/

/-- A writer passes `header_size` bytes of header. -/
def FifoAction.HeaderFits (headerSize : Nat) : FifoAction → Prop
  | .write header _ => header.length = headerSize
  | _ => True

theorem FifoAction.Valid.headerFits {bufferSize : Nat} {a : FifoAction}
    (ha : a.Valid bufferSize headerSize) : a.HeaderFits headerSize := by
  cases a with
  | write header packet => exact ha.1
  | flush => trivial
  | readStart => trivial
  | readWake => trivial

/-- The state of the fifo and its reader against the trace so far. -/
structure SysInv (N headerSize : Nat) (tr : List FifoEvent) (s : FifoSys) : Prop where
  table : TableInv N headerSize s.fifo (SlotLog.ofTrace (slotTrace tr))
  packed : Packed N s.fifo (SlotLog.ofTrace (slotTrace tr))
  waiting : s.waiting = true → s.fifo.entryIndexBeingUsed = none
  oldest : Each OldestFirst (slotTrace tr)
  stored : Each AsStored (slotTrace tr)
  live : FifoEvent.stuck ∉ tr

/-- The test of a reader that has no entry in use: it waits when nothing waits for it, and takes
    the oldest packet otherwise. -/
theorem SysInv.readTest (hN : 3 ≤ N) {tr : List FifoEvent} {f : EasyFifo} {s' : FifoSys}
    {es : List FifoEvent} (table : TableInv N headerSize f (SlotLog.ofTrace (slotTrace tr)))
    (hused : f.entryIndexBeingUsed = none) (oldest : Each OldestFirst (slotTrace tr))
    (stored : Each AsStored (slotTrace tr)) (live : FifoEvent.stuck ∉ tr) (h : readTest f = (s', es)) :
    SysInv N headerSize (tr ++ es) s' := by
  have hcount := table.count
  simp only [hused, Option.isSome_none, Bool.false_eq_true, if_false, Nat.add_zero] at hcount
  cases hlive : (SlotLog.ofTrace (slotTrace tr)).live with
  | nil =>
      rw [hlive] at hcount
      simp only [Fifo.readTest, hcount, List.length_nil, if_true, Prod.mk.injEq] at h
      obtain ⟨rfl, rfl⟩ := h
      simp only [List.append_nil]
      exact ⟨table, fun _ e he => by simp [hlive] at he, fun _ => hused, oldest, stored, live⟩
  | cons e rest =>
      rw [hlive] at hcount
      obtain ⟨f', r, htake, hentry, hpkt, hused', table'⟩ :=
        table.take (by omega) (SlotLog.wf_ofTrace _) hused hlive
      have hne : f.usedEntryNum ≠ 0 := by simp [hcount]
      simp only [Fifo.readTest, hne, if_false, htake, Prod.mk.injEq] at h
      obtain ⟨rfl, rfl⟩ := h
      have hslot : (FifoEvent.returned r).slotEvents = [.take e.slot e.pkt] := by
        simp [FifoEvent.slotEvents, hentry, hpkt]
      refine ⟨?_, ?_, by simp, ?_, ?_, by simp [live]⟩ <;>
        simp only [slotTrace_concat, hslot, SlotLog.ofTrace_concat, each_concat]
      · exact table'
      · intro hnone
        simp [hused'] at hnone
      · exact ⟨oldest, e, rest, hlive, rfl⟩
      · exact ⟨stored, e, by simp [hlive], rfl, rfl⟩

/-- Every step keeps the invariant. -/
theorem SysInv.step (hN : 3 ≤ N) {tr : List FifoEvent} {s s' : FifoSys} {a : FifoAction}
    {es : List FifoEvent} (ha : a.HeaderFits headerSize)
    (h : SysInv N headerSize tr s) (hstep : fifoStep s a = some (s', es)) :
    SysInv N headerSize (tr ++ es) s' := by
  have hwf := SlotLog.wf_ofTrace (slotTrace tr)
  rcases fifoStep_cases h.waiting hstep with ⟨header, packet, rfl, rfl, rfl⟩ | ⟨rfl, rfl⟩ | htest
  · refine ⟨?_, ?_, h.waiting, ?_, ?_, by simp [h.live]⟩ <;>
      simp only [slotTrace_concat, FifoEvent.slotEvents, SlotLog.ofTrace_concat, each_concat]
    · exact h.table.write hN hwf h.packed header packet ha
    · exact h.table.packed_write hN hwf h.packed header packet
    · exact ⟨h.oldest, trivial⟩
    · exact ⟨h.stored, trivial⟩
  · refine ⟨?_, ?_, fun _ => rfl, ?_, ?_, by simp [h.live]⟩ <;>
      simp only [slotTrace_concat, FifoEvent.slotEvents, SlotLog.ofTrace_concat, each_concat]
    · exact h.table.flush (by omega)
    · exact fun _ e he => by simp [SlotLog.apply, SlotLog.empty] at he
    · exact ⟨h.oldest, trivial⟩
    · exact ⟨h.stored, trivial⟩
  · exact SysInv.readTest hN h.table.free (freeLastReadPacket_used s.fifo) h.oldest h.stored h.live
      htest

/-- Every run keeps the invariant. -/
theorem SysInv.run (hN : 3 ≤ N) {junk : Mem UInt8} {bufferSize : Nat} {as : List FifoAction}
    {s : FifoSys} {tr : List FifoEvent} (hfits : ∀ a ∈ as, a.HeaderFits headerSize)
    (hrun : run fifoStep (fifoSysCreate junk bufferSize headerSize N) as = some (s, tr)) :
    SysInv N headerSize tr s := by
  refine run_induction (·.HeaderFits headerSize) (SysInv N headerSize) ?_ ?_ hfits hrun
  · have table := tableInv_create junk bufferSize headerSize N (by omega)
    exact ⟨table, by simp [Packed, SlotLog.empty], fun _ => rfl, Each.nil _, Each.nil _, by simp⟩
  · exact fun tr s a s' es ha h hstep => h.step hN ha hstep

/-- **Delivery in order and at most once.** In a fifo of three entries or more, with any number of
    writers and flushers and one reader, every read returns the oldest packet written since the
    last flush that was neither returned nor overwritten, with the header and size it was written
    with, and never hangs in its scan; so what the reads return between two flushes is a
    subsequence of what was written. -/
theorem fifoRead_oldest (junk : Mem UInt8) (bufferSize headerSize maxPacketNum : Nat)
    (hnum : 3 ≤ maxPacketNum) (as : List FifoAction) (s : FifoSys) (tr : List FifoEvent)
    (hvalid : ∀ a ∈ as, a.Valid bufferSize headerSize)
    (hrun : run fifoStep (fifoSysCreate junk bufferSize headerSize maxPacketNum) as =
      some (s, tr)) :
    FifoEvent.stuck ∉ tr ∧ Each OldestFirst (slotTrace tr) ∧ Each AsStored (slotTrace tr) ∧
      ((SlotLog.ofTrace (slotTrace tr)).taken.map Stored.pkt).Sublist
        (SlotLog.ofTrace (slotTrace tr)).written := by
  have inv := SysInv.run hnum (fun a ha => (hvalid a ha).headerFits) hrun
  exact ⟨inv.live, inv.oldest, inv.stored, taken_sublist inv.oldest⟩

/-- Four packets go round a fifo of three entries; the reader gets the second one. -/
theorem fifoRead_oldest_lap : ∃ s tr,
    run fifoStep (fifoSysCreate (fun _ => 0) 3 1 3)
      [.write [1] [10], .write [2] [20], .write [3] [30], .write [4] [40], .readStart] =
        some (s, tr) ∧
    tr.getLast? = some (.returned ⟨1, [2], 1, 1⟩) ∧ Each OldestFirst (slotTrace tr) :=
  ⟨_, _, rfl, rfl, (fifoRead_oldest (fun _ => 0) 3 1 3 (by decide)
    [.write [1] [10], .write [2] [20], .write [3] [30], .write [4] [40], .readStart] _ _
    (by simp [FifoAction.Valid]) rfl).2.1⟩

end XToolkits.Fifo
