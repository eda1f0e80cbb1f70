import XToolkits.Lib.CInt
import XToolkits.Lib.Cyclic
import XToolkits.Lib.Memory
import XToolkits.Lib.SlotLog

set_option autoImplicit false

/-! # The packet fifo of `easy_fifo.c`

A table of packet entries over one data buffer. Every function below is the critical section of
the source function of the same name; the mutex makes it one atomic step. `fifo_read_one_packet`
gives the mutex up while it waits on the condition variable, so it is two steps: `readStart` frees
the packet of the previous read and tests the counter, `readWake` is the test after a wakeup.

Addresses are offsets from `buffer_start_addr` and the entry in use is `none` where the source has
`-1`. The tables are functions of the entry index; entry `i` has its header at offset
`i * header_size` of the header table. -/

namespace XToolkits.Fifo

/-- `ENTRY_INVALID` and `ENTRY_VALID`. -/
inductive EntryState where
  | invalid
  | valid
  deriving DecidableEq, Repr

/-- `packet_info_t`. -/
structure PacketInfo where
  packetAddr : Nat
  packetSize : Nat
  entryState : EntryState
  deriving DecidableEq, Repr

/-- `fifo_t`, with the memory behind `buffer_start_addr` and `header_entries`. -/
structure EasyFifo where
  buffer : Mem UInt8
  bufferTotalSize : Nat
  packetInfoEntries : Nat → PacketInfo
  maxEntryNum : Nat
  firstEntryIndex : Nat
  lastEntryIndex : Nat
  headerEntries : Mem UInt8
  headerSize : Nat
  addrForNextWrite : Nat
  entryIndexForNextRead : Nat
  entryIndexForNextWrite : Nat
  entryIndexBeingUsed : Option Nat
  usedEntryNum : Nat

/-- `fifo_create`. What `malloc` leaves in the two buffers is `junk`; the entry table is zeroed. -/
def fifoCreate (junk : Mem UInt8) (bufferSize headerSize maxPacketNum : Nat) : EasyFifo where
  buffer := junk
  bufferTotalSize := bufferSize
  packetInfoEntries := fun _ => ⟨0, 0, .invalid⟩
  maxEntryNum := maxPacketNum
  firstEntryIndex := 0
  lastEntryIndex := maxPacketNum - 1
  headerEntries := junk
  headerSize := headerSize
  addrForNextWrite := 0
  entryIndexForNextRead := 0
  entryIndexForNextWrite := 0
  entryIndexBeingUsed := none
  usedEntryNum := 0

/-- `wraparound_entry_index_if_necessary`. -/
def wraparoundEntryIndexIfNecessary (f : EasyFifo) (i : Nat) : Nat :=
  if i > f.lastEntryIndex then f.firstEntryIndex else i

/-- The entry index incremented, and wrapped if necessary. -/
def nextEntryIndex (f : EasyFifo) (i : Nat) : Nat := wraparoundEntryIndexIfNecessary f (i + 1)

/-- `free_last_read_packet`. -/
def freeLastReadPacket (f : EasyFifo) : EasyFifo :=
  match f.entryIndexBeingUsed with
  | none => f
  | some u => { f with
      usedEntryNum := decU32 f.usedEntryNum
      packetInfoEntries := Function.update f.packetInfoEntries u
        { f.packetInfoEntries u with entryState := .invalid }
      entryIndexBeingUsed := none }

/-! ## Writing -/

/-- `entry_index_for_this_write`: the next entry, but never the one being used. -/
def entryIndexForThisWrite (f : EasyFifo) : Nat :=
  if some f.entryIndexForNextWrite = f.entryIndexBeingUsed then
    nextEntryIndex f f.entryIndexForNextWrite
  else f.entryIndexForNextWrite

/-- `addr_for_this_write`: the next address, or the start when the packet would wrap around. -/
def addrForThisWrite (f : EasyFifo) (packetSize : Nat) : Nat :=
  if f.addrForNextWrite + packetSize > f.bufferTotalSize then 0 else f.addrForNextWrite

/-- The counter after the write: it grows when the entry was free. -/
def usedEntryNumAfterWrite (f : EasyFifo) : Nat :=
  if (f.packetInfoEntries (entryIndexForThisWrite f)).entryState = .invalid then
    f.usedEntryNum + 1
  else f.usedEntryNum

/-- The entry for the next read after the write: it moves on when this write has overwritten it. -/
def entryIndexForNextReadAfterWrite (f : EasyFifo) : Nat :=
  if entryIndexForThisWrite f = f.entryIndexForNextRead ∧ usedEntryNumAfterWrite f > 2 then
    if some (nextEntryIndex f f.entryIndexForNextRead) = f.entryIndexBeingUsed then
      nextEntryIndex f (nextEntryIndex f f.entryIndexForNextRead)
    else nextEntryIndex f f.entryIndexForNextRead
  else f.entryIndexForNextRead

/-- `fifo_write_one_packet`; the flag tells whether the condition variable is signalled. -/
def fifoWriteOnePacket (f : EasyFifo) (header packet : List UInt8) : EasyFifo × Bool :=
  let addr := addrForThisWrite f packet.length
  let entry := entryIndexForThisWrite f
  let next := addr + packet.length
  ({ f with
      buffer := f.buffer.write addr packet
      headerEntries := f.headerEntries.write ↑(entry * f.headerSize) (header.take f.headerSize)
      packetInfoEntries := Function.update f.packetInfoEntries entry ⟨addr, packet.length, .valid⟩
      usedEntryNum := usedEntryNumAfterWrite f
      entryIndexForNextRead := entryIndexForNextReadAfterWrite f
      entryIndexForNextWrite := nextEntryIndex f entry
      -- `next > buffer_end_addr` compares with the last address of the buffer
      addrForNextWrite := if next ≥ f.bufferTotalSize then next - f.bufferTotalSize else next },
    decide (usedEntryNumAfterWrite f ≤ 1))

/-! ## Reading and flushing -/

/-- What a read hands to its caller, and the entry it came from. -/
structure ReadResult where
  entry : Nat
  header : List UInt8
  packetAddr : Nat
  packetSize : Nat
  deriving DecidableEq, Repr

/-- The valid entry a read takes: `while (entry_state == ENTRY_INVALID)` from the next read index
    on. A scan that has seen every entry and none valid goes on for ever: `none`. -/
def entryIndexForThisRead (f : EasyFifo) : Option Nat :=
  csearch (f.lastEntryIndex + 1)
    (fun i => (f.packetInfoEntries i).entryState = .valid) f.maxEntryNum f.entryIndexForNextRead

/-- The rest of `fifo_read_one_packet`, once the counter was found nonzero. -/
def fifoTakeOnePacket (f : EasyFifo) : Option (EasyFifo × ReadResult) :=
  match entryIndexForThisRead f with
  | none => none
  | some i => some
      ({ f with
          entryIndexForNextRead := nextEntryIndex f i
          entryIndexBeingUsed := some i },
        { entry := i
          header := f.headerEntries.read ↑(i * f.headerSize) f.headerSize
          packetAddr := (f.packetInfoEntries i).packetAddr
          packetSize := (f.packetInfoEntries i).packetSize })

/-- `fifo_flush`. -/
def fifoFlush (f : EasyFifo) : EasyFifo :=
  { f with
    addrForNextWrite := 0
    entryIndexBeingUsed := none
    entryIndexForNextRead := 0
    entryIndexForNextWrite := 0
    usedEntryNum := 0
    packetInfoEntries := fun i =>
      if i ≤ f.lastEntryIndex then { f.packetInfoEntries i with entryState := .invalid }
      else f.packetInfoEntries i }

/-! ## Writers, flushers and one reader -/

/-- The fifo and its reader: `waiting` while the reader is inside `pthread_cond_wait`. -/
structure FifoSys where
  fifo : EasyFifo
  waiting : Bool

/-- One mutex-protected step of some thread. -/
inductive FifoAction where
  | write (header packet : List UInt8)
  | flush
  | readStart
  | readWake

/-- What a step makes visible. `stuck` is a reader that scans for ever with the mutex held. -/
inductive FifoEvent where
  | wrote (entry : Nat) (header packet : List UInt8)
  | flushed
  | returned (result : ReadResult)
  | stuck
  deriving DecidableEq, Repr

/-- The reader after it owns the mutex and has freed its last packet: it waits on an empty fifo and
    takes a packet otherwise. -/
def readTest (f : EasyFifo) : FifoSys × List FifoEvent :=
  if f.usedEntryNum = 0 then (⟨f, true⟩, [])
  else match fifoTakeOnePacket f with
    | none => (⟨f, false⟩, [.stuck])
    | some (f', r) => (⟨f', false⟩, [.returned r])

/-- The size of the headers and the offsets in them are computed in a `u32`. -/
def EasyFifo.HeadersFit (f : EasyFifo) : Prop := f.maxEntryNum * f.headerSize < 2 ^ 32

instance (f : EasyFifo) : Decidable f.HeadersFit := by
  unfold EasyFifo.HeadersFit
  infer_instance

/-- One step. The reader starts a read when it is in none, and wakes up only when it waits. A fifo whose
    headers do not fit has too little memory for them, and is not written to. -/
def fifoStep (s : FifoSys) : FifoAction → Option (FifoSys × List FifoEvent)
  | .write header packet =>
      if s.fifo.HeadersFit then
        some ({ s with fifo := (fifoWriteOnePacket s.fifo header packet).1 },
          [.wrote (entryIndexForThisWrite s.fifo) header packet])
      else none
  | .flush => some ({ s with fifo := fifoFlush s.fifo }, [.flushed])
  | .readStart => if s.waiting then none else some (readTest (freeLastReadPacket s.fifo))
  | .readWake => if s.waiting then some (readTest s.fifo) else none

/-- A created fifo whose reader is in no read. -/
def fifoSysCreate (junk : Mem UInt8) (bufferSize headerSize maxPacketNum : Nat) : FifoSys :=
  ⟨fifoCreate junk bufferSize headerSize maxPacketNum, false⟩

/-- A writer passes `header_size` bytes of header and a packet that fits the buffer. -/
def FifoAction.Valid (bufferSize headerSize : Nat) : FifoAction → Prop
  | .write header packet =>
      header.length = headerSize ∧ 1 ≤ packet.length ∧ packet.length ≤ bufferSize
  | _ => True

/-- A header and the size of the packet it goes with. -/
abbrev HeaderAndSize := List UInt8 × Nat

/-- An event as a step of the entry table: which entry a packet went into or came from. -/
def FifoEvent.slotEvents : FifoEvent → List (SlotEvent HeaderAndSize)
  | .wrote entry header packet => [.fill entry (header, packet.length)]
  | .flushed => [.clear]
  | .returned r => [.take r.entry (r.header, r.packetSize)]
  | .stuck => []

/-- The events of the entry table in a trace. -/
def slotTrace (tr : List FifoEvent) : List (SlotEvent HeaderAndSize) :=
  tr.flatMap FifoEvent.slotEvents

@[simp] theorem slotTrace_nil : slotTrace [] = [] := rfl

@[simp] theorem slotTrace_concat (tr : List FifoEvent) (e : FifoEvent) :
    slotTrace (tr ++ [e]) = slotTrace tr ++ e.slotEvents := by
  simp [slotTrace]

end XToolkits.Fifo
