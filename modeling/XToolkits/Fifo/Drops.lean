import XToolkits.Fifo.FixedSize
import XToolkits.Fifo.Order

set_option autoImplicit false

/-! # Packets that a write drops

A write that comes round to an unread packet drops it. The entry in use is stepped over, and when it
is given up later it stays free in the middle of the unread packets: then the writer comes round to
the oldest packet while that entry is free (`Hemmed`). -/

namespace XToolkits.Fifo

variable {N headerSize : Nat} {f : EasyFifo} {l : SlotLog HeaderAndSize}

instance (f : EasyFifo) (i : Nat) : Decidable (f.Unread i) := inferInstanceAs (Decidable (_ ∧ _))

def EasyFifo.Free (f : EasyFifo) (i : Nat) : Prop := (f.packetInfoEntries i).entryState = .invalid

instance (f : EasyFifo) (i : Nat) : Decidable (f.Free i) := inferInstanceAs (Decidable (_ = _))

/-- Entry `z` lies between two unread packets, on the way from the next read index. -/
def EasyFifo.Between (N : Nat) (f : EasyFifo) (z : Nat) : Prop :=
  (∃ i < N, f.Unread i ∧
    cdist N f.entryIndexForNextRead i < cdist N f.entryIndexForNextRead z) ∧
  ∃ j < N, f.Unread j ∧ cdist N f.entryIndexForNextRead z < cdist N f.entryIndexForNextRead j

instance (N : Nat) (f : EasyFifo) (z : Nat) : Decidable (f.Between N z) :=
  inferInstanceAs (Decidable (_ ∧ _))

/-- There are free entries, but they all lie between unread packets. -/
def EasyFifo.Hemmed (N : Nat) (f : EasyFifo) : Prop :=
  (∃ z < N, f.Free z) ∧ ∀ z < N, f.Free z → f.Between N z

instance (N : Nat) (f : EasyFifo) : Decidable (f.Hemmed N) := inferInstanceAs (Decidable (_ ∧ _))

/-- A write goes to an entry with an unread packet only when all entries are valid. -/
def DropsOnlyWhenFull (N : Nat) (s : FifoSys) : FifoAction → Prop
  | .write _ _ => s.fifo.Unread (entryIndexForThisWrite s.fifo) →
      ∀ i < N, (s.fifo.packetInfoEntries i).entryState = .valid
  | _ => True

/-- No write is made while the free entries all lie between unread packets. -/
def WriteNotHemmed (N : Nat) (s : FifoSys) : FifoAction → Prop
  | .write _ _ => ¬ s.fifo.Hemmed N
  | _ => True

instance (N : Nat) (s : FifoSys) (a : FifoAction) : Decidable (DropsOnlyWhenFull N s a) :=
  match a with
  | .write _ _ => inferInstanceAs (Decidable (_ → _))
  | .flush => isTrue trivial
  | .readStart => isTrue trivial
  | .readWake => isTrue trivial

instance (N : Nat) (s : FifoSys) (a : FifoAction) : Decidable (WriteNotHemmed N s a) :=
  match a with
  | .write _ _ => inferInstanceAs (Decidable (¬ _))
  | .flush => isTrue trivial
  | .readStart => isTrue trivial
  | .readWake => isTrue trivial

/-! ## The entry a write goes to -/

/-- The unread entries are those of the packets that wait in the log. -/
theorem TableInv.unread_iff (h : TableInv N headerSize f l) {i : Nat} (hi : i < N) :
    f.Unread i ↔ ∃ e ∈ l.live, e.slot = i := by
  rw [EasyFifo.Unread, h.valid_iff i hi]
  constructor
  · rintro ⟨hlive | hused, hnot⟩
    · exact hlive
    · exact absurd hused hnot
  · rintro ⟨e, he, rfl⟩
    exact ⟨Or.inl ⟨e, he, rfl⟩, fun hused => h.used_not_live _ hused e he rfl⟩

/-- **Where a write goes**: past the newest packet, or round to the next read index, when at most
    the entry in use is farther than the newest packet. -/
theorem TableInv.writeEntry_cases (h : TableInv N headerSize f l) {e : Stored HeaderAndSize}
    (hlast : l.live.getLast? = some e) :
    cdist N f.entryIndexForNextRead e.slot <
        cdist N f.entryIndexForNextRead (entryIndexForThisWrite f) ∨
      (entryIndexForThisWrite f = f.entryIndexForNextRead ∧
        ∀ z < N, f.entryIndexBeingUsed ≠ some z →
          cdist N f.entryIndexForNextRead z ≤ cdist N f.entryIndexForNextRead e.slot) := by
  have hr := h.read_lt
  have heN := h.slot_lt e (List.mem_of_getLast? hlast)
  have hw := h.newest e hlast
  by_cases hround : cnext N e.slot = f.entryIndexForNextRead
  · have hnot : f.entryIndexBeingUsed ≠ some f.entryIndexForNextWrite := by
      rw [hw, hround]
      exact h.used_ne_read
    have hfar := cdist_of_cnext_eq hr heN hround
    refine Or.inr ⟨by rw [entry_of_not_used hnot, hw, hround], fun z hz _ => ?_⟩
    have hlt := cdist_lt hr hz
    omega
  · have hnext := cdist_to_cnext hr heN hround
    rw [← hw] at hnext
    by_cases hused : f.entryIndexBeingUsed = some f.entryIndexForNextWrite
    · rw [h.entry_of_used hused]
      by_cases hround' : cnext N f.entryIndexForNextWrite = f.entryIndexForNextRead
      · have hfar := cdist_of_cnext_eq hr h.write_lt hround'
        refine Or.inr ⟨hround', fun z hz hne => ?_⟩
        have hlt := cdist_lt hr hz
        -- the entry in use is the only one farther than the newest packet
        have hdist : cdist N f.entryIndexForNextRead z ≠
            cdist N f.entryIndexForNextRead f.entryIndexForNextWrite :=
          fun heq => hne (cdist_inj hr hz h.write_lt heq ▸ hused)
        omega
      · have hnext' := cdist_to_cnext hr h.write_lt hround'
        exact Or.inl (by omega)
    · rw [entry_of_not_used hused]
      exact Or.inl (by omega)

/-- **A write drops a packet beside a free entry** exactly when the free entries all lie between
    unread packets. -/
theorem TableInv.drops_iff_hemmed (h : TableInv N headerSize f l) (hN : 2 ≤ N) :
    (f.Unread (entryIndexForThisWrite f) ∧ ∃ z < N, f.Free z) ↔ f.Hemmed N := by
  have hr := h.read_lt
  have hfree : ∀ z, f.Free z → (f.packetInfoEntries z).entryState ≠ .valid :=
    fun z hz hvalid => by simp [EasyFifo.Free, hvalid] at hz
  constructor
  · rintro ⟨hunread, hsome⟩
    refine ⟨hsome, fun z hz hzfree => ?_⟩
    obtain ⟨a, ha, hslot⟩ := (h.unread_iff h.entry_lt).1 hunread
    obtain ⟨e, hlast⟩ := Option.isSome_iff_exists.1 (List.getLast?_isSome.2 (List.ne_nil_of_mem ha))
    have hmem := List.mem_of_getLast? hlast
    have heN := h.slot_lt e hmem
    have hunread' : f.Unread e.slot := (h.unread_iff heN).2 ⟨e, hmem, rfl⟩
    rcases h.writeEntry_cases hlast with hfar | ⟨hentry, hall⟩
    · have hle := h.le_newest hlast ha
      rw [hslot] at hle
      omega
    · rw [hentry] at hunread
      have hnotused : f.entryIndexBeingUsed ≠ some z := fun hused =>
        hfree z hzfree ((h.valid_iff z hz).2 (Or.inr hused))
      have hzr : cdist N f.entryIndexForNextRead f.entryIndexForNextRead ≠
          cdist N f.entryIndexForNextRead z :=
        fun heq => hfree z hzfree (cdist_inj hr hr hz heq ▸ hunread.1)
      have hze : cdist N f.entryIndexForNextRead z ≠ cdist N f.entryIndexForNextRead e.slot :=
        fun heq => hfree z hzfree (cdist_inj hr hz heN heq ▸ hunread'.1)
      have hle := hall z hz hnotused
      rw [cdist_self] at hzr
      refine ⟨⟨_, hr, hunread, ?_⟩, e.slot, heN, hunread', by omega⟩
      rw [cdist_self]
      omega
  · rintro ⟨⟨z, hz, hzfree⟩, hall⟩
    refine ⟨?_, z, hz, hzfree⟩
    obtain ⟨-, j, hj, hunread, -⟩ := hall z hz hzfree
    obtain ⟨a, ha, -⟩ := (h.unread_iff hj).1 hunread
    obtain ⟨e, hlast⟩ := Option.isSome_iff_exists.1 (List.getLast?_isSome.2 (List.ne_nil_of_mem ha))
    by_contra hnot
    -- the entry written is free, so it lies before the newest packet
    have hentryfree : f.Free (entryIndexForThisWrite f) := by
      cases hs : (f.packetInfoEntries (entryIndexForThisWrite f)).entryState with
      | invalid => exact hs
      | valid => exact absurd ⟨hs, h.entry_ne_used hN⟩ hnot
    obtain ⟨⟨i, hi, -, hbefore⟩, j', hj', hunread', hbehind⟩ := hall _ h.entry_lt hentryfree
    obtain ⟨b, hb, rfl⟩ := (h.unread_iff hj').1 hunread'
    have hle := h.le_newest hlast hb
    rcases h.writeEntry_cases hlast with hfar | ⟨hentry, -⟩
    · omega
    · rw [hentry, cdist_self] at hbefore
      omega

/-- A step in any reachable state. -/
theorem SysInv.drops_iff {tr : List FifoEvent} {s : FifoSys} (h : SysInv N headerSize tr s)
    (hN : 3 ≤ N) (a : FifoAction) : DropsOnlyWhenFull N s a ↔ WriteNotHemmed N s a := by
  cases a with
  | write header packet =>
      rw [WriteNotHemmed, ← h.table.drops_iff_hemmed (by omega), DropsOnlyWhenFull, not_and]
      refine imp_congr_right fun _ => ?_
      constructor
      · rintro hall ⟨z, hz, hfree⟩
        simp [EasyFifo.Free, hall z hz] at hfree
      · intro hnone i hi
        cases hs : (s.fifo.packetInfoEntries i).entryState with
        | invalid => exact absurd ⟨i, hi, hs⟩ hnone
        | valid => rfl
  | flush => exact Iff.rfl
  | readStart => exact Iff.rfl
  | readWake => exact Iff.rfl

/-- **Drops of unread packets.** In a fifo of three entries or more the unread entries are those of
    the packets written and since neither returned, nor overwritten, nor flushed; and a write drops
    an unread packet only when all entries are valid, in exactly the runs in which no write is made
    while there are free entries and all of them lie between unread packets. -/
theorem fifoWrite_dropsOnlyWhenFull_iff (junk : Mem UInt8) (bufferSize headerSize maxPacketNum : Nat)
    (hnum : 3 ≤ maxPacketNum) (as : List FifoAction) (s : FifoSys) (tr : List FifoEvent)
    (hfits : ∀ a ∈ as, a.HeaderFits headerSize)
    (hrun : run fifoStep (fifoSysCreate junk bufferSize headerSize maxPacketNum) as =
      some (s, tr)) :
    (∀ i < maxPacketNum,
      s.fifo.Unread i ↔ ∃ e ∈ (SlotLog.ofTrace (slotTrace tr)).live, e.slot = i) ∧
    (EachStep fifoStep (DropsOnlyWhenFull maxPacketNum)
        (fifoSysCreate junk bufferSize headerSize maxPacketNum) as ↔
      EachStep fifoStep (WriteNotHemmed maxPacketNum)
        (fifoSysCreate junk bufferSize headerSize maxPacketNum) as) := by
  have inv := SysInv.run hnum hfits hrun
  refine ⟨fun i hi => inv.table.unread_iff hi, eachStep_congr fun pre a post s' tr' hsplit hpre => ?_⟩
  have hfits' : ∀ b ∈ pre, b.HeaderFits headerSize := fun b hb => hfits b (by simp [hsplit, hb])
  exact (SysInv.run hnum hfits' hpre).drops_iff hnum a

/-- A fifo of four entries is full when a packet is dropped. -/
theorem fifoWrite_drops_full : ∃ s tr,
    run fifoStep (fifoSysCreate (fun _ => 0) 8 1 4)
      [.write [1] [10], .write [2] [20], .write [3] [30], .write [4] [40], .readStart,
        .write [5] [50]] = some (s, tr) ∧
    EachStep fifoStep (DropsOnlyWhenFull 4) (fifoSysCreate (fun _ => 0) 8 1 4)
      [.write [1] [10], .write [2] [20], .write [3] [30], .write [4] [40], .readStart,
        .write [5] [50]] :=
  ⟨_, _, rfl, (fifoWrite_dropsOnlyWhenFull_iff (fun _ => 0) 8 1 4 (by decide)
    [.write [1] [10], .write [2] [20], .write [3] [30], .write [4] [40], .readStart,
      .write [5] [50]] _ _ (by simp [FifoAction.HeaderFits]) rfl).2.2 (by decide)⟩

/-- Entry 0 is given up after a write stepped over it, and stays free: the next write drops the
    packet of entry 3. -/
theorem fifoWrite_drops_beside_free :
    (∀ a ∈ [FifoAction.write [1] [10], .write [2] [20], .write [3] [30], .write [4] [40],
      .readStart, .write [5] [50], .readStart, .write [6] [60]], a.HeaderFits 1) ∧
    ¬ EachStep fifoStep (DropsOnlyWhenFull 4) (fifoSysCreate (fun _ => 0) 8 1 4)
      [.write [1] [10], .write [2] [20], .write [3] [30], .write [4] [40], .readStart,
        .write [5] [50], .readStart, .write [6] [60]] :=
  ⟨by simp [FifoAction.HeaderFits], by decide⟩

end XToolkits.Fifo
