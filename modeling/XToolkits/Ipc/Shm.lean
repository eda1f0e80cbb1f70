import XToolkits.Lib.CInt
import XToolkits.Lib.Cyclic
import XToolkits.Lib.Memory
import XToolkits.Lib.SlotLog

set_option autoImplicit false

/-! # The packet ring of `utils_shm.c`

`tbsb_write_one_packet` and `tbsb_read_one_packet` over a `shm_t`, and `fifo_send` and `fifo_recv`
over them. `utils_mem.c` has the same functions with a header size of its own, so the size of a
header record is a field. Each function below is one critical section of the source; a reader gives
the mutex up while it waits, so `tbsb_read_one_packet` is two steps.

Offsets are relative to the data area and the entry in use is `none` where the source has `-1`. The
three areas of the segment (headers, entries, data) are separate maps. -/

namespace XToolkits.Ipc

/-- `SHPKT_INVALID` and `SHPKET_VALID`. -/
inductive PacketState where
  | invalid
  | valid
  deriving DecidableEq, Repr

/-- `t_packet_info`. -/
structure PacketInfo where
  packetOffset : Nat
  packetSize : Nat
  packetState : PacketState
  deriving DecidableEq, Repr

/-- `shm_t` and the three areas behind it. -/
structure Shm where
  buf : Mem UInt8
  headers : Mem UInt8
  packets : Nat → PacketInfo
  headerSize : Nat
  bufNextWriteOffset : Nat
  bufTotalSize : Nat
  bufPacketNum : Nat
  curPacketNum : Nat
  shmIndexFirst : Nat
  shmIndexLast : Nat
  shmIndexForNextRead : Nat
  shmIndexForNextWrite : Nat
  shmIndexForBeingUsed : Option Nat

/-! ## Creating a ring -/

/-- `sizeof(shm_t)`, `sizeof(t_header_info)`, `sizeof(t_packet_info)` and the page size of x86-64
    glibc. -/
def sizeofShm : Nat := 160
def sizeofHeaderInfo : Nat := 8
def sizeofPacketInfo : Nat := 12
def pageSize : Nat := 4096

/-- A size rounded up to a page. -/
def roundToPage (n : Nat) : Nat := if n % pageSize = 0 then n else pageSize - n % pageSize + n

/-- `total_buffer_size` of a ring. -/
def totalBufferSize (headerSize packetNum packetSize : Nat) : Nat :=
  roundToPage (sizeofShm + headerSize * packetNum + sizeofPacketInfo * packetNum +
    packetSize * packetNum)

theorem le_roundToPage (n : Nat) : n ≤ roundToPage n := by
  rw [roundToPage]
  split
  · exact Nat.le_refl n
  · exact Nat.le_add_left n _

/-- The data area is a part of the segment. -/
theorem le_totalBufferSize (headerSize packetNum packetSize : Nat) :
    packetSize * packetNum ≤ totalBufferSize headerSize packetNum packetSize :=
  Nat.le_trans (Nat.le_add_left _ _) (le_roundToPage _)

/-- `tbsb_init`: the indices are reset and the three areas are zeroed. -/
def tbsbInit (headerSize packetNum totalSize : Nat) : Shm where
  buf := fun _ => 0
  headers := fun _ => 0
  packets := fun _ => ⟨0, 0, .invalid⟩
  headerSize := headerSize
  bufNextWriteOffset := 0
  bufTotalSize := totalSize
  bufPacketNum := packetNum
  curPacketNum := 0
  shmIndexFirst := 0
  shmIndexLast := packetNum - 1
  shmIndexForNextRead := 0
  shmIndexForNextWrite := 0
  shmIndexForBeingUsed := none

/-- `fifo_creat`. The size is computed in an `int`: a request that does not fit overflows it, and
    no ring is made. -/
def fifoCreat (packetNum packetSize : Nat) : Option Shm :=
  if totalBufferSize sizeofHeaderInfo packetNum packetSize < 2 ^ 31 then
    some (tbsbInit sizeofHeaderInfo packetNum (packetSize * packetNum))
  else none

/-! ## Sending -/

/-- An index incremented, and wrapped past the last one. -/
def nextShmIndex (p : Shm) (i : Nat) : Nat :=
  if i + 1 > p.shmIndexLast then p.shmIndexFirst else i + 1

/-- `cur_write_index`: the next entry, but not the one being used. -/
def curWriteIndex (p : Shm) : Nat :=
  if some p.shmIndexForNextWrite = p.shmIndexForBeingUsed then
    nextShmIndex p p.shmIndexForNextWrite
  else p.shmIndexForNextWrite

/-- `cur_packet_write_addr - _buf_start_addr`: the next offset, or `0` when the packet does not fit
    before the end. -/
def curPacketWriteOffset (p : Shm) (packetSize : Nat) : Nat :=
  if u32 (p.bufNextWriteOffset + packetSize) > p.bufTotalSize then 0 else p.bufNextWriteOffset

/-- `tbsb_write_one_packet`, with the value it returns. The header is copied when there is one. -/
def tbsbWriteOnePacket (p : Shm) (header : Option (List UInt8)) (packet : List UInt8) : Shm × Int :=
  if packet.length = 0 then (p, -1)
  else
    let i := curWriteIndex p
    let offset := curPacketWriteOffset p packet.length
    let next := u32 (offset + packet.length)
    ({ p with
        buf := p.buf.write offset packet
        headers := match header with
          | none => p.headers
          | some h => p.headers.write ↑(i * p.headerSize) (h.take p.headerSize)
        curPacketNum :=
          if (p.packets i).packetState = .invalid then p.curPacketNum + 1 else p.curPacketNum
        packets := Function.update p.packets i ⟨offset, packet.length, .valid⟩
        shmIndexForNextWrite := nextShmIndex p i
        bufNextWriteOffset := if next ≥ p.bufTotalSize then next - p.bufTotalSize else next },
      packet.length)

/-! ## Receiving -/

/-- The start of `tbsb_read_one_packet`: the entry of the previous read is given up. -/
def freeBeingUsed (p : Shm) : Shm :=
  match p.shmIndexForBeingUsed with
  | none => p
  | some u => { p with
      packets := Function.update p.packets u { p.packets u with packetState := .invalid }
      shmIndexForBeingUsed := none
      curPacketNum := decU32 p.curPacketNum }

/-- `cur_read_index`: the scan over invalid entries from the next read index on. A scan that has
    seen every entry and none valid goes on for ever: `none`. -/
def curReadIndex (p : Shm) : Option Nat :=
  csearch (p.shmIndexLast + 1) (fun i => (p.packets i).packetState = .valid) p.bufPacketNum
    p.shmIndexForNextRead

/-- What a read returns and copies out, and where it took it from. -/
structure RecvResult where
  entry : Nat
  offset : Nat
  rev : Int
  copied : List UInt8
  header : List UInt8
  deriving DecidableEq, Repr

/-- What a read gets out of entry `i`. A packet larger than the caller's buffer is not copied. -/
def recvResult (p : Shm) (i packetSize : Nat) : RecvResult where
  entry := i
  offset := (p.packets i).packetOffset
  rev := if packetSize ≥ (p.packets i).packetSize then (p.packets i).packetSize else -1
  copied :=
    if packetSize ≥ (p.packets i).packetSize then
      p.buf.read (p.packets i).packetOffset (p.packets i).packetSize
    else []
  header := p.headers.read ↑(i * p.headerSize) p.headerSize

/-- The end of `tbsb_read_one_packet`: the entry read is the one being used, also when its packet
    was not copied. -/
def markBeingUsed (p : Shm) (i : Nat) : Shm :=
  { p with
    shmIndexForNextRead := nextShmIndex p i
    shmIndexForBeingUsed := some i }

/-- The rest of `tbsb_read_one_packet`, once the counter was found nonzero. -/
def tbsbTakePacket (p : Shm) (packetSize : Nat) : Option (Shm × RecvResult) :=
  (curReadIndex p).map fun i => (markBeingUsed p i, recvResult p i packetSize)

/-! ## Senders and one receiver -/

/-- The ring and its reader: the size of the reader's buffer while it waits inside
    `pthread_cond_wait`. -/
structure ShmSys where
  ring : Shm
  waiting : Option Nat

/-- One mutex-protected step of some thread. -/
inductive ShmAction where
  | send (header : Option (List UInt8)) (packet : List UInt8)
  | recvStart (packetSize : Nat)
  | recvWake

/-- What a step makes visible. `stuck` is a reader that scans for ever with the mutex held. -/
inductive ShmEvent where
  | sent (entry offset : Nat) (packet : List UInt8)
  | received (result : RecvResult)
  | refused
  | stuck
  deriving DecidableEq, Repr

/-- The reader after it owns the mutex and has given its last entry up. -/
def recvTest (p : Shm) (packetSize : Nat) : ShmSys × List ShmEvent :=
  if p.curPacketNum = 0 then (⟨p, some packetSize⟩, [])
  else match tbsbTakePacket p packetSize with
    | none => (⟨p, none⟩, [.stuck])
    | some (p', r) => (⟨p', none⟩, [.received r])

/-- One step. A call with a size of zero is refused at once; the reader starts a call when it is in
    none, and wakes up only when it waits. -/
def shmStep (s : ShmSys) : ShmAction → Option (ShmSys × List ShmEvent)
  | .send header packet =>
      if packet.length = 0 then some (s, [.refused])
      else some ({ s with ring := (tbsbWriteOnePacket s.ring header packet).1 },
        [.sent (curWriteIndex s.ring) (curPacketWriteOffset s.ring packet.length) packet])
  | .recvStart packetSize =>
      if s.waiting.isSome then none
      else if packetSize = 0 then some (s, [.refused])
      else some (recvTest (freeBeingUsed s.ring) packetSize)
  | .recvWake =>
      match s.waiting with
      | none => none
      | some packetSize => some (recvTest s.ring packetSize)

/-- Senders send packets of `1..size` bytes and the reader's buffers hold `size` bytes. -/
def ShmAction.Valid (size : Nat) : ShmAction → Prop
  | .send _ packet => 1 ≤ packet.length ∧ packet.length ≤ size
  | .recvStart packetSize => size ≤ packetSize
  | .recvWake => True

/-- A packet where it lies in the data area. -/
structure Placed where
  offset : Nat
  bytes : List UInt8
  deriving DecidableEq, Repr

/-- An event as a step of the entry table: which entry a packet went into or came from. -/
def ShmEvent.slotEvents : ShmEvent → List (SlotEvent Placed)
  | .sent entry offset packet => [.fill entry ⟨offset, packet⟩]
  | .received r => [.take r.entry ⟨r.offset, r.copied⟩]
  | _ => []

/-- The events of the entry table in a trace. -/
def slotTrace (tr : List ShmEvent) : List (SlotEvent Placed) := tr.flatMap ShmEvent.slotEvents

@[simp] theorem slotTrace_nil : slotTrace [] = [] := rfl

@[simp] theorem slotTrace_concat (tr : List ShmEvent) (e : ShmEvent) :
    slotTrace (tr ++ [e]) = slotTrace tr ++ e.slotEvents := by
  simp [slotTrace]

end XToolkits.Ipc
