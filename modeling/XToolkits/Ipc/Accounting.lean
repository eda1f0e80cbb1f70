import Mathlib.Data.Finset.Card
import XToolkits.Ipc.Calls

set_option autoImplicit false

/-! # The counter of the packet ring

The scan of `tbsb_read_one_packet` stops only because `_cur_packet_num` agrees with the entry table.
Here any number of threads call the two functions, and each of them may wait: between giving its last
entry up and testing the counter again a reader has no mutex, so another reader may have taken an
entry by then, and there is one `_shm_index_for_being_used` for all of them. An entry whose mark is
overwritten stays valid and counted, so the counter is the number of valid entries all the same
(`Accounted`). -/

namespace XToolkits.Ipc

variable {N : Nat} {p : Shm}

/-! ## The valid entries -/

/-- The valid entries among the first `N`. -/
def validEntries (N : Nat) (packets : Nat → PacketInfo) : Finset Nat :=
  {i ∈ Finset.range N | (packets i).packetState = .valid}

theorem mem_validEntries {packets : Nat → PacketInfo} {i : Nat} :
    i ∈ validEntries N packets ↔ i < N ∧ (packets i).packetState = .valid := by
  rw [validEntries, Finset.mem_filter, Finset.mem_range]

/-- An entry becomes valid. -/
theorem validEntries_update_valid {packets : Nat → PacketInfo} {i : Nat} {info : PacketInfo}
    (hi : i < N) (hinfo : info.packetState = .valid) :
    validEntries N (Function.update packets i info) = insert i (validEntries N packets) := by
  ext j
  rw [Finset.mem_insert, mem_validEntries, mem_validEntries]
  by_cases hj : j = i
  · subst hj
    simp [hi, hinfo]
  · simp [hj]

/-- An entry becomes invalid. -/
theorem validEntries_update_invalid {packets : Nat → PacketInfo} {i : Nat} {info : PacketInfo}
    (hinfo : info.packetState = .invalid) :
    validEntries N (Function.update packets i info) = (validEntries N packets).erase i := by
  ext j
  rw [Finset.mem_erase, mem_validEntries, mem_validEntries]
  by_cases hj : j = i
  · subst hj
    simp [hinfo]
  · simp [hj]

/-- The entries are all there, the counter is the number of the valid ones, and the entry being used
    is one of them. -/
structure Accounted (N : Nat) (p : Shm) : Prop where
  first : p.shmIndexFirst = 0
  last : p.shmIndexLast + 1 = N
  num : p.bufPacketNum = N
  read_lt : p.shmIndexForNextRead < N
  write_lt : p.shmIndexForNextWrite < N
  used_valid : ∀ u, p.shmIndexForBeingUsed = some u → u ∈ validEntries N p.packets
  count : p.curPacketNum = (validEntries N p.packets).card

theorem accounted_init (headerSize totalSize : Nat) (hN : 0 < N) :
    Accounted N (tbsbInit headerSize N totalSize) where
  first := rfl
  last := Nat.sub_add_cancel hN
  num := rfl
  read_lt := hN
  write_lt := hN
  used_valid := fun u hu => by cases hu
  count := by
    have hnone : validEntries N (tbsbInit headerSize N totalSize).packets = ∅ :=
      Finset.filter_eq_empty_iff.2 fun i _ h => by cases h
    rw [hnone]
    rfl

theorem Accounted.next_eq (h : Accounted N p) (i : Nat) : nextShmIndex p i = cnext N i := by
  rw [nextShmIndex, cnext, h.first, ← h.last]
  split <;> split <;> omega

theorem Accounted.pos (h : Accounted N p) : 0 < N := Nat.zero_lt_of_lt h.read_lt

/-- The counter does not wrap below `0` when the entry being used is given up. -/
theorem Accounted.count_pos (h : Accounted N p) {u : Nat} (hu : p.shmIndexForBeingUsed = some u) :
    0 < p.curPacketNum := by
  rw [h.count]
  exact Finset.card_pos.2 ⟨u, h.used_valid u hu⟩

/-! ## The steps -/

/-- The entry being used is given up. -/
theorem Accounted.free (h : Accounted N p) : Accounted N (freeBeingUsed p) := by
  unfold freeBeingUsed
  split
  · exact h
  · next u hu =>
      refine { h with
        used_valid := fun u hu => by cases hu
        count := ?_ }
      have herase := Finset.card_erase_of_mem (h.used_valid u hu)
      have hpos := h.count_pos hu
      rw [validEntries_update_invalid rfl, herase, ← h.count]
      exact if_neg (Nat.ne_of_gt hpos)

theorem Accounted.curWriteIndex_lt (h : Accounted N p) : curWriteIndex p < N := by
  rw [curWriteIndex]
  split
  · rw [h.next_eq]
    exact cnext_lt h.pos
  · exact h.write_lt

/-- A packet is written. -/
theorem Accounted.write (h : Accounted N p) (header : Option (List UInt8)) (packet : List UInt8) :
    Accounted N (tbsbWriteOnePacket p header packet).1 := by
  rw [tbsbWriteOnePacket]
  split
  · exact h
  · have hentry := h.curWriteIndex_lt
    have hvalid : ∀ info : PacketInfo, info.packetState = .valid →
        validEntries N (Function.update p.packets (curWriteIndex p) info) =
          insert (curWriteIndex p) (validEntries N p.packets) := fun info hinfo =>
      validEntries_update_valid hentry hinfo
    refine { h with
      write_lt := ?_
      used_valid := fun u hu => ?_
      count := ?_ }
    · show nextShmIndex p (curWriteIndex p) < N
      rw [h.next_eq]
      exact cnext_lt h.pos
    · rw [hvalid _ rfl]
      exact Finset.mem_insert_of_mem (h.used_valid u hu)
    · rw [hvalid _ rfl]
      have hmem : curWriteIndex p ∈ validEntries N p.packets ↔ _ := mem_validEntries
      show (if (p.packets (curWriteIndex p)).packetState = .invalid then p.curPacketNum + 1
        else p.curPacketNum) = _
      cases hstate : (p.packets (curWriteIndex p)).packetState with
      | invalid =>
          have hnot : curWriteIndex p ∉ validEntries N p.packets := fun hin => by
            rw [(hmem.1 hin).2] at hstate
            cases hstate
          rw [if_pos rfl, Finset.card_insert_of_notMem hnot, h.count]
      | valid =>
          rw [if_neg (by decide), Finset.insert_eq_of_mem (hmem.2 ⟨hentry, hstate⟩), h.count]

/-- **The scan stops**: when the counter is not `0` it finds a valid entry within `N` steps. -/
theorem Accounted.search (h : Accounted N p) (hcount : p.curPacketNum ≠ 0) :
    ∃ i, curReadIndex p = some i ∧ i ∈ validEntries N p.packets := by
  rw [h.count, Finset.card_ne_zero] at hcount
  obtain ⟨j, hj⟩ := hcount
  obtain ⟨hjN, hvalid⟩ := mem_validEntries.1 hj
  obtain ⟨i, hi, hiN, hivalid, -⟩ := csearch_spec
    (p := fun i => decide ((p.packets i).packetState = .valid)) h.read_lt hjN (decide_eq_true hvalid)
  refine ⟨i, ?_, mem_validEntries.2 ⟨hiN, of_decide_eq_true hivalid⟩⟩
  rw [curReadIndex, h.last, h.num]
  exact hi

/-- A valid entry is read. -/
theorem Accounted.mark (h : Accounted N p) {i : Nat} (hi : i ∈ validEntries N p.packets) :
    Accounted N (markBeingUsed p i) :=
  { h with
    read_lt := by
      show nextShmIndex p i < N
      rw [h.next_eq]
      exact cnext_lt h.pos
    used_valid := fun u hu => Option.some.inj hu ▸ hi }

/-- A reader that has the mutex tests the counter: it waits or reads an entry. -/
theorem Accounted.recvTest (h : Accounted N p) (packetSize : Nat) :
    Accounted N (recvTest p packetSize).1.ring ∧ .stuck ∉ (recvTest p packetSize).2 := by
  rw [Ipc.recvTest]
  split
  · exact ⟨h, List.not_mem_nil⟩
  · case isFalse hcount =>
      obtain ⟨i, hsearch, hi⟩ := h.search hcount
      rw [tbsbTakePacket, hsearch]
      exact ⟨h.mark hi, by simp⟩

/-- **One step** of a thread, with any arguments. -/
theorem Accounted.step {s s' : ShmSys} {a : TbsbAction} {es : List ShmEvent}
    (h : Accounted N s.ring) (hstep : tbsbStep s a = some (s', es)) :
    Accounted N s'.ring ∧ .stuck ∉ es := by
  rw [tbsbStep] at hstep
  cases ha : a.toShm with
  | send header packet =>
      simp only [ha, shmStep] at hstep
      split at hstep
      · cases hstep
        exact ⟨h, by simp⟩
      · cases hstep
        exact ⟨h.write header packet, by simp⟩
  | recvStart packetSize =>
      simp only [ha, shmStep] at hstep
      split at hstep
      · cases hstep
      · split at hstep
        · cases hstep
          exact ⟨h, by simp⟩
        · obtain ⟨hring, hlive⟩ := h.free.recvTest packetSize
          rw [Option.some.inj hstep] at hring hlive
          exact ⟨hring, hlive⟩
  | recvWake =>
      simp only [ha, shmStep] at hstep
      split at hstep
      · cases hstep
      · next packetSize _ =>
          obtain ⟨hring, hlive⟩ := h.recvTest packetSize
          rw [Option.some.inj hstep] at hring hlive
          exact ⟨hring, hlive⟩

/-! ## Any number of threads -/

/-- The ring and its threads: for a reader that waits, the size of its buffer. -/
structure Threads (ι : Type) where
  ring : Shm
  waiting : ι → Option Nat

/-- A step of a thread: of a call it makes or is in, or it is cancelled while it waits. -/
inductive ThreadAction where
  | call (a : TbsbAction)
  | cancel

variable {ι : Type} [DecidableEq ι]

/-- One mutex-protected step of the thread `t`. -/
def threadStep (s : Threads ι) : ι × ThreadAction → Option (Threads ι × List ShmEvent)
  | (t, .call a) =>
      (tbsbStep ⟨s.ring, s.waiting t⟩ a).map fun r =>
        (⟨r.1.ring, Function.update s.waiting t r.1.waiting⟩, r.2)
  | (t, .cancel) =>
      if (s.waiting t).isSome then some ({ s with waiting := Function.update s.waiting t none }, [])
      else none

theorem Accounted.threadStep {s s' : Threads ι} {a : ι × ThreadAction} {es : List ShmEvent}
    (h : Accounted N s.ring) (hstep : threadStep s a = some (s', es)) :
    Accounted N s'.ring ∧ .stuck ∉ es := by
  obtain ⟨t, a | _⟩ := a
  · obtain ⟨⟨s₁, es₁⟩, hcall, heq⟩ := Option.map_eq_some_iff.1 hstep
    obtain ⟨rfl, rfl⟩ := Prod.mk.inj heq
    exact Accounted.step (s := ⟨s.ring, s.waiting t⟩) h hcall
  · simp only [Ipc.threadStep] at hstep
    split at hstep
    · cases hstep
      exact ⟨h, List.not_mem_nil⟩
    · cases hstep

/-- **Entry accounting and termination of the scan.** For every number of entries, any threads and
    every interleaving of their steps: the counter is the number of valid entries, and not `0` while
    an entry is being used, so giving that up does not wrap; the indices are below the number of
    entries and the entry being used is valid; and the scan finds a valid entry within that many
    steps when the counter is not `0`, so no reader ever scans on with the mutex held. -/
theorem tbsb_accounting (N headerSize totalSize : Nat) (hN : 0 < N) (as : List (ι × ThreadAction))
    (s : Threads ι) (tr : List ShmEvent)
    (hrun : run threadStep ⟨tbsbInit headerSize N totalSize, fun _ => none⟩ as = some (s, tr)) :
    Accounted N s.ring ∧ (s.ring.shmIndexForBeingUsed.isSome → 0 < s.ring.curPacketNum) ∧
      (s.ring.curPacketNum ≠ 0 → ∃ i, curReadIndex s.ring = some i ∧
        i ∈ validEntries N s.ring.packets) ∧ .stuck ∉ tr := by
  have hinv : Accounted N s.ring ∧ .stuck ∉ tr := by
    refine run_induction (fun _ => True) (fun tr s => Accounted N s.ring ∧ ShmEvent.stuck ∉ tr)
      ⟨accounted_init headerSize totalSize hN, List.not_mem_nil⟩ ?_ (fun _ _ => trivial) hrun
    rintro tr s a s' es - ⟨h, hlive⟩ hstep
    obtain ⟨h', hlive'⟩ := h.threadStep hstep
    exact ⟨h', by simp [hlive, hlive']⟩
  refine ⟨hinv.1, fun hused => ?_, hinv.1.search, hinv.2⟩
  obtain ⟨u, hu⟩ := Option.isSome_iff_exists.1 hused
  exact hinv.1.count_pos hu

/-- Two readers wait, a packet is written, and both of them read it. -/
def twoReaders : List (Bool × ThreadAction) :=
  [(true, .call (.readStart 4)), (false, .call (.readStart 4)),
    (true, .call (.write none (some fun _ => 0) 4)), (true, .call .readWake),
    (false, .call .readWake)]

theorem tbsb_accounting_twoReaders :
    ∃ s tr, run threadStep ⟨tbsbInit 8 1 4, fun _ => none⟩ twoReaders = some (s, tr) ∧
      Accounted 1 s.ring ∧ (s.ring.shmIndexForBeingUsed.isSome → 0 < s.ring.curPacketNum) ∧
      (s.ring.curPacketNum ≠ 0 → ∃ i, curReadIndex s.ring = some i ∧
        i ∈ validEntries 1 s.ring.packets) ∧ .stuck ∉ tr := by
  have hsome : (run threadStep ⟨tbsbInit 8 1 4, fun _ => none⟩ twoReaders).isSome := by decide
  obtain ⟨⟨s, tr⟩, hrun⟩ := Option.isSome_iff_exists.1 hsome
  exact ⟨s, tr, hrun, tbsb_accounting 1 8 4 (by decide) twoReaders s tr hrun⟩

end XToolkits.Ipc
