import XToolkits.Fifo.Entries

set_option autoImplicit false

/-! # The wakeup of a waiting reader

`FifoSys` lets a reader that waits test the counter again at any time. Here the condition variable
is part of the state: a reader inside `pthread_cond_wait` is blocked until a writer signals or it
wakes up for no reason, and only then goes for the mutex again, with any steps of the others in
between. Writers signal only when the counter is at most one after the write. The finer system is
simulated by `FifoSys`, a spurious wakeup being a stutter (`wakeStep_sim`), so what holds of the
entry table there holds here. -/

namespace XToolkits.Fifo

/-- Where the reader is: in no read, blocked in `pthread_cond_wait`, or woken and on its way to the
    mutex. -/
inductive ReaderPhase where
  | idle
  | waiting
  | woken
  deriving DecidableEq, Repr

/-- The fifo and its reader. -/
structure WakeSys where
  fifo : EasyFifo
  reader : ReaderPhase

/-- One mutex-protected step of some thread, or a wakeup without a signal. -/
inductive WakeAction where
  | write (header packet : List UInt8)
  | flush
  | readStart
  | spuriousWake
  | readResume

/-- `pthread_cond_signal`: it wakes the reader when the reader waits, and is lost otherwise. -/
def signalReader : ReaderPhase → ReaderPhase
  | .waiting => .woken
  | phase => phase

/-- The test of the reader in the loop around `pthread_cond_wait`. -/
def wakeTest (f : EasyFifo) : WakeSys × List FifoEvent :=
  let test := readTest f
  (⟨test.1.fifo, if test.1.waiting then .waiting else .idle⟩, test.2)

/-- One step. -/
def wakeStep (s : WakeSys) : WakeAction → Option (WakeSys × List FifoEvent)
  | .write header packet =>
      if s.fifo.HeadersFit then
        some (⟨(fifoWriteOnePacket s.fifo header packet).1,
            if (fifoWriteOnePacket s.fifo header packet).2 then signalReader s.reader else s.reader⟩,
          [.wrote (entryIndexForThisWrite s.fifo) header packet])
      else none
  | .flush => some ({ s with fifo := fifoFlush s.fifo }, [.flushed])
  | .readStart =>
      if s.reader = .idle then some (wakeTest (freeLastReadPacket s.fifo)) else none
  | .spuriousWake => if s.reader = .waiting then some ({ s with reader := .woken }, []) else none
  | .readResume => if s.reader = .woken then some (wakeTest s.fifo) else none

/-- A created fifo whose reader is in no read. -/
def wakeSysCreate (junk : Mem UInt8) (bufferSize headerSize maxPacketNum : Nat) : WakeSys :=
  ⟨fifoCreate junk bufferSize headerSize maxPacketNum, .idle⟩

/-! ## Simulation by the coarser system -/

/-- Without the condition variable, a reader that is blocked or woken is one that waits. -/
def WakeSys.toFifoSys (s : WakeSys) : FifoSys := ⟨s.fifo, s.reader ≠ .idle⟩

/-- The steps of the coarser system that make up a step. -/
def WakeAction.fifoActions : WakeAction → List FifoAction
  | .write header packet => [.write header packet]
  | .flush => [.flush]
  | .readStart => [.readStart]
  | .spuriousWake => []
  | .readResume => [.readWake]

variable {N : Nat} {s s' : WakeSys} {a : WakeAction} {f : EasyFifo} {es tr : List FifoEvent}

theorem signalReader_eq_idle {phase : ReaderPhase} : signalReader phase = .idle ↔ phase = .idle := by
  cases phase <;> simp [signalReader]

theorem wakeTest_toFifoSys (f : EasyFifo) :
    ((wakeTest f).1.toFifoSys, (wakeTest f).2) = readTest f := by
  cases hwait : (readTest f).1.waiting <;> simp [wakeTest, WakeSys.toFifoSys, ← hwait]

/-- **Every step is one of the coarser system**, or none. -/
theorem wakeStep_sim (hstep : wakeStep s a = some (s', es)) :
    run fifoStep s.toFifoSys a.fifoActions = some (s'.toFifoSys, es) := by
  cases a with
  | write header packet =>
      simp only [wakeStep] at hstep
      split at hstep
      · case isTrue hfit =>
          obtain ⟨rfl, rfl⟩ := Prod.mk.inj (Option.some.inj hstep)
          refine run_singleton ?_
          have hfit' : s.toFifoSys.fifo.HeadersFit := hfit
          rw [fifoStep, if_pos hfit', WakeSys.toFifoSys, WakeSys.toFifoSys]
          split <;> simp [signalReader_eq_idle]
      · cases hstep
  | flush =>
      obtain ⟨rfl, rfl⟩ := Prod.mk.inj (Option.some.inj hstep)
      exact run_singleton rfl
  | readStart =>
      simp only [wakeStep] at hstep
      split at hstep
      · case isTrue hidle =>
          refine run_singleton ?_
          simp [fifoStep, WakeSys.toFifoSys, hidle, ← wakeTest_toFifoSys, Option.some.inj hstep]
      · cases hstep
  | spuriousWake =>
      simp only [wakeStep] at hstep
      split at hstep
      · case isTrue hwait =>
          obtain ⟨rfl, rfl⟩ := Prod.mk.inj (Option.some.inj hstep)
          simp [WakeAction.fifoActions, WakeSys.toFifoSys, hwait]
      · cases hstep
  | readResume =>
      simp only [wakeStep] at hstep
      split at hstep
      · case isTrue hwoken =>
          refine run_singleton ?_
          simp [fifoStep, WakeSys.toFifoSys, hwoken, ← wakeTest_toFifoSys, Option.some.inj hstep]
      · cases hstep

/-- The entry table in every reachable state. -/
theorem wakeSys_entries {junk : Mem UInt8} {bufferSize headerSize : Nat} {as : List WakeAction}
    (hN : 1 ≤ N)
    (hrun : run wakeStep (wakeSysCreate junk bufferSize headerSize N) as = some (s, tr)) :
    EntriesSys N s.toFifoSys :=
  run_induction (fun _ => True) (fun _ => EntriesSys N)
    (EntriesSys.create junk bufferSize headerSize hN)
    (fun _ _ _ _ _ _ h hstep => h.step hN hstep) (fun _ _ => trivial)
    (run_simulates (fun _ _ _ _ => wakeStep_sim) hrun)

/-! ## No lost wakeup -/

/-- The reader is blocked only on an empty fifo. -/
def BlockedEmpty (s : WakeSys) : Prop := s.reader = .waiting → s.fifo.usedEntryNum = 0

/-- A reader that blocks has just found the fifo empty. -/
theorem blockedEmpty_wakeTest (f : EasyFifo) : BlockedEmpty (wakeTest f).1 := by
  intro hwait
  by_cases hcount : f.usedEntryNum = 0
  · simp [wakeTest, readTest, hcount]
  · have hreader : (wakeTest f).1.reader = .idle := by
      simp only [wakeTest, readTest, if_neg hcount]
      split <;> simp
    rw [hreader] at hwait
    cases hwait

theorem signalReader_ne_waiting (phase : ReaderPhase) : signalReader phase ≠ .waiting := by
  cases phase <;> simp [signalReader]

/-- A write to an empty fifo signals. -/
theorem signal_of_empty (hcount : f.usedEntryNum = 0) (header packet : List UInt8) :
    (fifoWriteOnePacket f header packet).2 = true := by
  have hle : usedEntryNumAfterWrite f ≤ 1 := by
    rw [usedEntryNumAfterWrite, hcount]
    split <;> omega
  exact decide_eq_true hle

/-- A reader that was blocked on the empty fifo is woken by the write that fills it, and nothing
    else fills it. -/
theorem BlockedEmpty.step (h : BlockedEmpty s) (hstep : wakeStep s a = some (s', es)) :
    BlockedEmpty s' := by
  cases a with
  | write header packet =>
      simp only [wakeStep] at hstep
      split at hstep
      · obtain ⟨rfl, -⟩ := Prod.mk.inj (Option.some.inj hstep)
        intro hwait
        by_cases hsignal : (fifoWriteOnePacket s.fifo header packet).2 = true
        · simp only [if_pos hsignal] at hwait
          exact absurd hwait (signalReader_ne_waiting s.reader)
        · simp only [if_neg hsignal] at hwait
          exact absurd (signal_of_empty (h hwait) header packet) hsignal
      · cases hstep
  | flush =>
      obtain ⟨rfl, -⟩ := Prod.mk.inj (Option.some.inj hstep)
      exact fun _ => rfl
  | readStart =>
      simp only [wakeStep] at hstep
      split at hstep
      · obtain ⟨rfl, -⟩ := Prod.mk.inj (Option.some.inj hstep)
        exact blockedEmpty_wakeTest (freeLastReadPacket s.fifo)
      · cases hstep
  | spuriousWake =>
      simp only [wakeStep] at hstep
      split at hstep
      · obtain ⟨rfl, -⟩ := Prod.mk.inj (Option.some.inj hstep)
        exact fun hwait => ReaderPhase.noConfusion hwait
      · cases hstep
  | readResume =>
      simp only [wakeStep] at hstep
      split at hstep
      · obtain ⟨rfl, -⟩ := Prod.mk.inj (Option.some.inj hstep)
        exact blockedEmpty_wakeTest s.fifo
      · cases hstep

/-- **No lost wakeup.** In every reachable state the reader is not blocked without a pending wakeup
    while the counter is positive; the counter is the number of valid entries, so a woken reader
    that finds it positive gets a packet. -/
theorem wakeup_not_lost (junk : Mem UInt8) (bufferSize headerSize maxPacketNum : Nat)
    (hnum : 1 ≤ maxPacketNum) (as : List WakeAction) (s : WakeSys) (tr : List FifoEvent)
    (hrun : run wakeStep (wakeSysCreate junk bufferSize headerSize maxPacketNum) as =
      some (s, tr)) :
    ¬ (s.reader = .waiting ∧ 0 < s.fifo.usedEntryNum) ∧
    s.fifo.usedEntryNum = (validEntries maxPacketNum s.fifo).card ∧
    (s.reader = .woken → 0 < s.fifo.usedEntryNum →
      ∃ s' r, wakeStep s .readResume = some (s', [.returned r])) := by
  have hblocked : BlockedEmpty s :=
    run_induction (fun _ => True) (fun _ => BlockedEmpty) (fun _ => rfl)
      (fun _ _ _ _ _ _ h hstep => h.step hstep) (fun _ _ => trivial) hrun
  have htable : Entries maxPacketNum s.fifo := (wakeSys_entries hnum hrun).table
  refine ⟨fun ⟨hwait, hpos⟩ => ?_, htable.count, fun hwoken hpos => ?_⟩
  · rw [hblocked hwait] at hpos
    exact Nat.lt_irrefl 0 hpos
  · rcases htable.readTest_cases with ⟨hcount, -⟩ | ⟨i, -, htest⟩
    · rw [hcount] at hpos
      exact absurd hpos (Nat.lt_irrefl 0)
    · exact ⟨⟨useEntry s.fifo i, .idle⟩, readResultOf s.fifo i,
        by simp [wakeStep, hwoken, wakeTest, htest]⟩

/-- A write, a flush and another write between a reader's blocking and its return. -/
theorem wakeup_not_lost_flush : ∃ s,
    run wakeStep (wakeSysCreate (fun _ => 0) 4 1 1)
      [.readStart, .write [1] [10], .flush, .write [2] [20]] =
      some (s, [.wrote 0 [1] [10], .flushed, .wrote 0 [2] [20]]) ∧
    s.fifo.usedEntryNum = 1 ∧ s.reader = .woken ∧
    ∃ s' r, wakeStep s .readResume = some (s', [.returned r]) :=
  ⟨_, rfl, rfl, rfl, (wakeup_not_lost (fun _ => 0) 4 1 1 (Nat.le_refl 1)
    [.readStart, .write [1] [10], .flush, .write [2] [20]] _ _ rfl).2.2 rfl Nat.one_pos⟩

end XToolkits.Fifo
