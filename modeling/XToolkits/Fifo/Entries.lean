import Mathlib.Data.Finset.Card
import XToolkits.Fifo.EasyFifo
import XToolkits.Lib.Transition

set_option autoImplicit false

/-! # The entry table of a fifo of any size

What holds of the entry table also with one or two entries, where a write can go to the entry in
use: the indices stay in range, the entry in use is valid, and the counter is the number of valid
entries (`Entries`). So a reader that found the counter nonzero finds a valid entry. -/

namespace XToolkits.Fifo

variable {N : Nat} {f : EasyFifo}

/-- The increment and wrap of an entry index is a step on the cycle. -/
theorem nextEntryIndex_eq (hfirst : f.firstEntryIndex = 0) (hlast : f.lastEntryIndex = N - 1)
    {i : Nat} (hi : i < N) : nextEntryIndex f i = cnext N i := by
  simp only [nextEntryIndex, wraparoundEntryIndexIfNecessary, cnext, hfirst, hlast]
  split <;> split <;> omega

/-- The valid entries. -/
def validEntries (N : Nat) (f : EasyFifo) : Finset Nat :=
  (Finset.range N).filter fun i => (f.packetInfoEntries i).entryState = .valid

/-- The indices and the counter of a table of `N` entries. -/
structure Entries (N : Nat) (f : EasyFifo) : Prop where
  first : f.firstEntryIndex = 0
  last : f.lastEntryIndex = N - 1
  max : f.maxEntryNum = N
  read_lt : f.entryIndexForNextRead < N
  write_lt : f.entryIndexForNextWrite < N
  used_valid : ∀ u, f.entryIndexBeingUsed = some u → u ∈ validEntries N f
  count : f.usedEntryNum = (validEntries N f).card

theorem mem_validEntries {i : Nat} :
    i ∈ validEntries N f ↔ i < N ∧ (f.packetInfoEntries i).entryState = .valid := by
  rw [validEntries, Finset.mem_filter, Finset.mem_range]

theorem Entries.next_lt (h : Entries N f) (hN : 1 ≤ N) (i : Nat) : nextEntryIndex f i < N := by
  rw [nextEntryIndex, wraparoundEntryIndexIfNecessary, h.first, h.last]
  split <;> omega

theorem Entries.next_eq (h : Entries N f) {i : Nat} (hi : i < N) : nextEntryIndex f i = cnext N i :=
  nextEntryIndex_eq h.first h.last hi

theorem Entries.entry_lt (h : Entries N f) (hN : 1 ≤ N) : entryIndexForThisWrite f < N := by
  rw [entryIndexForThisWrite]
  split
  · exact h.next_lt hN _
  · exact h.write_lt

/-! ## Steps -/

theorem Entries.create (junk : Mem UInt8) (bufferSize headerSize : Nat) (hN : 1 ≤ N) :
    Entries N (fifoCreate junk bufferSize headerSize N) := by
  have hnone : validEntries N (fifoCreate junk bufferSize headerSize N) = ∅ :=
    Finset.filter_eq_empty_iff.2 fun i _ => by simp [fifoCreate]
  exact ⟨rfl, rfl, rfl, hN, hN, by simp [fifoCreate], by rw [hnone]; rfl⟩

/-- The entry of the previous read is the one that is no longer valid. -/
theorem Entries.free (h : Entries N f) : Entries N (freeLastReadPacket f) := by
  cases hu : f.entryIndexBeingUsed with
  | none =>
      rw [freeLastReadPacket, hu]
      exact h
  | some u =>
      have hfree : freeLastReadPacket f = { f with
          usedEntryNum := decU32 f.usedEntryNum
          packetInfoEntries := Function.update f.packetInfoEntries u
            { f.packetInfoEntries u with entryState := .invalid }
          entryIndexBeingUsed := none } := by rw [freeLastReadPacket, hu]
      have hmem := h.used_valid u hu
      have hvalid : validEntries N (freeLastReadPacket f) = (validEntries N f).erase u := by
        ext i
        rw [Finset.mem_erase, mem_validEntries, mem_validEntries, hfree]
        by_cases hiu : i = u
        · simp [hiu]
        · simp [hiu, Function.update_of_ne]
      have hcount : decU32 f.usedEntryNum = (validEntries N (freeLastReadPacket f)).card := by
        obtain ⟨n, hn⟩ := Nat.exists_eq_succ_of_ne_zero (Finset.card_ne_zero_of_mem hmem)
        rw [hvalid, Finset.card_erase_of_mem hmem, h.count, hn, decU32_add_one]
        rfl
      rw [hfree] at hcount ⊢
      exact ⟨h.first, h.last, h.max, h.read_lt, h.write_lt, by simp, hcount⟩

/-- A write makes its entry valid. -/
theorem validEntries_write (h : Entries N f) (hN : 1 ≤ N) (header packet : List UInt8) :
    validEntries N (fifoWriteOnePacket f header packet).1 =
      insert (entryIndexForThisWrite f) (validEntries N f) := by
  have hlt := h.entry_lt hN
  ext i
  rw [Finset.mem_insert, mem_validEntries, mem_validEntries]
  by_cases hi : i = entryIndexForThisWrite f
  · simp [fifoWriteOnePacket, hi, hlt]
  · simp [fifoWriteOnePacket, hi, Function.update_of_ne]

theorem Entries.write (h : Entries N f) (hN : 1 ≤ N) (header packet : List UInt8) :
    Entries N (fifoWriteOnePacket f header packet).1 := by
  have hvalid := validEntries_write h hN header packet
  refine ⟨h.first, h.last, h.max, ?_, h.next_lt hN _, fun u hu => ?_, ?_⟩
  · show entryIndexForNextReadAfterWrite f < N
    rw [entryIndexForNextReadAfterWrite]
    split
    · split
      · exact h.next_lt hN _
      · exact h.next_lt hN _
    · exact h.read_lt
  · rw [hvalid]
    exact Finset.mem_insert_of_mem (h.used_valid u hu)
  · show usedEntryNumAfterWrite f = _
    rw [hvalid, usedEntryNumAfterWrite, h.count]
    split
    · case isTrue hinvalid =>
        rw [Finset.card_insert_of_notMem]
        rw [mem_validEntries, hinvalid]
        simp
    · case isFalse hne =>
        rw [Finset.insert_eq_of_mem]
        refine mem_validEntries.2 ⟨h.entry_lt hN, ?_⟩
        cases hs : (f.packetInfoEntries (entryIndexForThisWrite f)).entryState with
        | invalid => exact absurd hs hne
        | valid => rfl

theorem Entries.flush (h : Entries N f) (hN : 1 ≤ N) : Entries N (fifoFlush f) := by
  have hnone : validEntries N (fifoFlush f) = ∅ := by
    refine Finset.filter_eq_empty_iff.2 fun i hi => ?_
    have hle : i ≤ f.lastEntryIndex := by
      rw [Finset.mem_range] at hi
      rw [h.last]
      omega
    simp [fifoFlush, hle]
  exact ⟨h.first, h.last, h.max, hN, hN, by simp [fifoFlush], by rw [hnone]; rfl⟩

/-- The scan of a read ends at a valid entry, when the counter is not zero. -/
theorem Entries.scan (h : Entries N f) (hcount : f.usedEntryNum ≠ 0) :
    ∃ i ∈ validEntries N f, entryIndexForThisRead f = some i := by
  have hpos : 0 < (validEntries N f).card := Nat.pos_of_ne_zero (h.count ▸ hcount)
  obtain ⟨j, hj⟩ := Finset.card_pos.1 hpos
  obtain ⟨hjN, hjv⟩ := mem_validEntries.1 hj
  obtain ⟨i, hi, hiN, hiv, -⟩ := csearch_spec
    (p := fun i => decide ((f.packetInfoEntries i).entryState = .valid)) h.read_lt hjN
    (by simpa using hjv)
  have hlast : f.lastEntryIndex + 1 = N := by
    rw [h.last]
    omega
  refine ⟨i, mem_validEntries.2 ⟨hiN, by simpa using hiv⟩, ?_⟩
  rw [entryIndexForThisRead, hlast, h.max]
  exact hi

/-- The fifo after a read has taken the packet of entry `i`, and what the read returns. -/
def useEntry (f : EasyFifo) (i : Nat) : EasyFifo :=
  { f with entryIndexForNextRead := nextEntryIndex f i, entryIndexBeingUsed := some i }

def readResultOf (f : EasyFifo) (i : Nat) : ReadResult where
  entry := i
  header := f.headerEntries.read ↑(i * f.headerSize) f.headerSize
  packetAddr := (f.packetInfoEntries i).packetAddr
  packetSize := (f.packetInfoEntries i).packetSize

theorem Entries.take (h : Entries N f) (hN : 1 ≤ N) {i : Nat} (hi : i ∈ validEntries N f) :
    Entries N (useEntry f i) :=
  ⟨h.first, h.last, h.max, h.next_lt hN i, h.write_lt, fun _ hu => Option.some.inj hu ▸ hi, h.count⟩

/-- The test of a reader: it waits on an empty table, and otherwise takes the packet of a valid
    entry. -/
theorem Entries.readTest_cases (h : Entries N f) :
    (f.usedEntryNum = 0 ∧ readTest f = (⟨f, true⟩, [])) ∨
    (∃ i ∈ validEntries N f,
      readTest f = (⟨useEntry f i, false⟩, [.returned (readResultOf f i)])) := by
  by_cases hcount : f.usedEntryNum = 0
  · exact Or.inl ⟨hcount, by rw [readTest, if_pos hcount]⟩
  · obtain ⟨i, hi, hscan⟩ := h.scan hcount
    refine Or.inr ⟨i, hi, ?_⟩
    rw [readTest, if_neg hcount, fifoTakeOnePacket, hscan]
    rfl

/-! ## The fifo and its reader -/

/-- A reader that waits has given its last entry up. -/
structure EntriesSys (N : Nat) (s : FifoSys) : Prop where
  table : Entries N s.fifo
  waiting : s.waiting = true → s.fifo.entryIndexBeingUsed = none

theorem freeLastReadPacket_of_none (h : f.entryIndexBeingUsed = none) : freeLastReadPacket f = f := by
  rw [freeLastReadPacket, h]

@[simp] theorem freeLastReadPacket_used (f : EasyFifo) :
    (freeLastReadPacket f).entryIndexBeingUsed = none := by
  unfold freeLastReadPacket
  split <;> simp [*]

variable {s s' : FifoSys} {a : FifoAction} {es : List FifoEvent}

/-- A step is a write, a flush, or the test of the reader, which has given its last entry up by
    then. -/
theorem fifoStep_cases (hwaiting : s.waiting = true → s.fifo.entryIndexBeingUsed = none)
    (hstep : fifoStep s a = some (s', es)) :
    (∃ header packet, a = .write header packet ∧
      s' = { s with fifo := (fifoWriteOnePacket s.fifo header packet).1 } ∧
      es = [.wrote (entryIndexForThisWrite s.fifo) header packet]) ∨
    (s' = { s with fifo := fifoFlush s.fifo } ∧ es = [.flushed]) ∨
    readTest (freeLastReadPacket s.fifo) = (s', es) := by
  cases a with
  | write header packet =>
      simp only [fifoStep] at hstep
      split at hstep
      · obtain ⟨rfl, rfl⟩ := Prod.mk.inj (Option.some.inj hstep)
        exact Or.inl ⟨header, packet, rfl, rfl, rfl⟩
      · cases hstep
  | flush =>
      obtain ⟨rfl, rfl⟩ := Prod.mk.inj (Option.some.inj hstep)
      exact Or.inr (Or.inl ⟨rfl, rfl⟩)
  | readStart =>
      simp only [fifoStep] at hstep
      split at hstep
      · cases hstep
      · exact Or.inr (Or.inr (Option.some.inj hstep))
  | readWake =>
      simp only [fifoStep] at hstep
      split at hstep
      · case isTrue hwait =>
          rw [← freeLastReadPacket_of_none (hwaiting hwait)] at hstep
          exact Or.inr (Or.inr (Option.some.inj hstep))
      · cases hstep

/-- **What a step can do** over a table of entries: the test of the reader finds the table empty, or
    takes the packet of a valid entry. -/
theorem EntriesSys.step_cases (h : EntriesSys N s) (hstep : fifoStep s a = some (s', es)) :
    (∃ header packet, a = .write header packet ∧
      s' = { s with fifo := (fifoWriteOnePacket s.fifo header packet).1 } ∧
      es = [.wrote (entryIndexForThisWrite s.fifo) header packet]) ∨
    (s' = { s with fifo := fifoFlush s.fifo } ∧ es = [.flushed]) ∨
    ((freeLastReadPacket s.fifo).usedEntryNum = 0 ∧ s' = ⟨freeLastReadPacket s.fifo, true⟩ ∧
      es = []) ∨
    (∃ i ∈ validEntries N (freeLastReadPacket s.fifo),
      s' = ⟨useEntry (freeLastReadPacket s.fifo) i, false⟩ ∧
      es = [.returned (readResultOf (freeLastReadPacket s.fifo) i)]) := by
  rcases fifoStep_cases h.waiting hstep with hwrite | hflush | htest
  · exact Or.inl hwrite
  · exact Or.inr (Or.inl hflush)
  · rcases h.table.free.readTest_cases with ⟨hcount, heq⟩ | ⟨i, hi, heq⟩
    · obtain ⟨rfl, rfl⟩ := Prod.mk.inj (heq.symm.trans htest)
      exact Or.inr (Or.inr (Or.inl ⟨hcount, rfl, rfl⟩))
    · obtain ⟨rfl, rfl⟩ := Prod.mk.inj (heq.symm.trans htest)
      exact Or.inr (Or.inr (Or.inr ⟨i, hi, rfl, rfl⟩))

theorem EntriesSys.step (hN : 1 ≤ N) (h : EntriesSys N s) (hstep : fifoStep s a = some (s', es)) :
    EntriesSys N s' := by
  rcases h.step_cases hstep with ⟨header, packet, -, rfl, -⟩ | ⟨rfl, -⟩ | ⟨-, rfl, -⟩ |
      ⟨i, hi, rfl, -⟩
  · exact ⟨h.table.write hN header packet, h.waiting⟩
  · exact ⟨h.table.flush hN, fun _ => rfl⟩
  · exact ⟨h.table.free, fun _ => freeLastReadPacket_used s.fifo⟩
  · exact ⟨h.table.free.take hN hi, fun hwait => absurd hwait Bool.false_ne_true⟩

theorem EntriesSys.create (junk : Mem UInt8) (bufferSize headerSize : Nat) (hN : 1 ≤ N) :
    EntriesSys N (fifoSysCreate junk bufferSize headerSize N) :=
  ⟨Entries.create junk bufferSize headerSize hN, fun _ => rfl⟩

end XToolkits.Fifo
