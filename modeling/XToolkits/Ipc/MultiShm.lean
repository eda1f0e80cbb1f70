import XToolkits.Lib.CInt
import XToolkits.Lib.Memory
import XToolkits.Lib.Transition

set_option autoImplicit false

/-! # The multi-reader ring of `utils_shm_hE.c`

One writer stores packets round the data area and numbers them; slot `index % N` describes the
packet with that number. A reader keeps its position in a cursor of its own and takes nothing out of
the ring. Every slot has its own mutex, so the steps below are the critical sections of one slot
each: a write, a slot visited by `shm_multi_read_sync`, and a read.

Offsets are relative to the data area; a `memcpy` that would leave the area makes a step `none`. -/

namespace XToolkits.Ipc

/-- `e_error_code`. -/
def errorNormal : Int := -1
def errorTotalBufferNotEnough : Int := -2
def errorReadBufferNotEnough : Int := -3
def errorNoFoundPacket : Int := -4
def errorNoSync : Int := -5

/-- `t_multi_packet_info`. -/
structure MultiPacketInfo where
  packetIdx : Nat
  packetOffset : Nat
  packetSize : Nat
  deriving DecidableEq, Repr

/-- `multi_shm_t`, with the slots and the data area behind it. -/
structure MultiShm where
  buf : Mem UInt8
  packets : Nat → MultiPacketInfo
  bufTotalSize : Nat
  bufPacketNum : Nat
  curWriteIndex : Nat
  curWriteOffset : Nat
  curUsedBufSize : Nat

/-- `shm_mutil_init`. -/
def shmMutilInit (packetNum totalSize : Nat) : MultiShm where
  buf := fun _ => 0
  packets := fun _ => ⟨0, 0, 0⟩
  bufTotalSize := totalSize
  bufPacketNum := packetNum
  curWriteIndex := 0
  curWriteOffset := 0
  curUsedBufSize := 0

/-! ## Writing -/

/-- A write first gives up the packet in its slot. -/
def freeSlot (p : MultiShm) (i : Nat) : MultiShm :=
  if (p.packets i).packetSize > 0 then
    { p with
      curUsedBufSize := subU32 p.curUsedBufSize (p.packets i).packetSize
      packets := Function.update p.packets i { p.packets i with packetSize := 0 } }
  else p

/-- The description of the packet about to be written. -/
def slotInfo (p : MultiShm) (packet : List UInt8) : MultiPacketInfo :=
  ⟨p.curWriteIndex, p.curWriteOffset, packet.length⟩

/-- The branch that splits the packet: the tail of the area takes what fits, the head the rest. -/
def writeSplit (p : MultiShm) (i : Nat) (packet : List UInt8) : Option MultiShm :=
  let copySize := subU32 p.bufTotalSize p.curWriteOffset
  let leftSize := subU32 packet.length copySize
  match p.buf.writeIn p.bufTotalSize p.curWriteOffset (packet.take copySize) with
  | none => none
  | some buf =>
      match buf.writeIn p.bufTotalSize 0 ((packet.drop copySize).take leftSize) with
      | none => none
      | some buf => some
          { p with
            buf := buf
            packets := Function.update p.packets i (slotInfo p packet)
            curUsedBufSize := u32 (u32 (p.curUsedBufSize + copySize) + leftSize)
            curWriteOffset := leftSize }

/-- The branch that copies the packet in one piece. -/
def writeWhole (p : MultiShm) (i : Nat) (packet : List UInt8) : Option MultiShm :=
  let offset := u32 (p.curWriteOffset + packet.length)
  match p.buf.writeIn p.bufTotalSize p.curWriteOffset packet with
  | none => none
  | some buf => some
      { p with
        buf := buf
        packets := Function.update p.packets i (slotInfo p packet)
        curUsedBufSize := u32 (p.curUsedBufSize + packet.length)
        curWriteOffset := if offset ≥ p.bufTotalSize then 0 else offset }

/-- `shm_mutil_write_one_packet`, with the value it returns. When the packet does not fit, the slot
    stays given up. -/
def shmMutilWriteOnePacket (p : MultiShm) (packet : List UInt8) : Option (MultiShm × Int) :=
  if packet.length = 0 then some (p, errorNormal)
  else
    let i := p.curWriteIndex % p.bufPacketNum
    let p := freeSlot p i
    if u32 (p.curUsedBufSize + packet.length) > p.bufTotalSize then
      some (p, errorTotalBufferNotEnough)
    else
      (if u32 (p.curWriteOffset + packet.length) > p.bufTotalSize then writeSplit p i packet
        else writeWhole p i packet).map
      fun p => ({ p with curWriteIndex := u32 (p.curWriteIndex + 1) }, 0)

/-! ## Reading -/

/-- A reader's position: the slot it reads next and the number it expects there. -/
structure Cursor where
  readIndex : Nat
  packetIndex : Nat
  deriving DecidableEq, Repr

/-- The bytes of the packet in slot `i`, in two pieces when it goes across the end of the area. -/
def readSlot (p : MultiShm) (i : Nat) : Option (List UInt8) :=
  let info := p.packets i
  if u32 (info.packetOffset + info.packetSize) > p.bufTotalSize then
    let copySize := subU32 p.bufTotalSize info.packetOffset
    match p.buf.readIn p.bufTotalSize info.packetOffset copySize with
    | none => none
    | some tail =>
        (p.buf.readIn p.bufTotalSize 0 (subU32 info.packetSize copySize)).map (tail ++ ·)
  else p.buf.readIn p.bufTotalSize info.packetOffset info.packetSize

/-- What a read leaves behind: the cursor, the value returned, and the bytes copied, if any. -/
structure MultiRead where
  cursor : Cursor
  result : Int
  copied : Option (List UInt8)
  deriving DecidableEq, Repr

/-- `shm_mutil_read_one_packet`, once it owns the slot's mutex. An empty slot is no error. -/
def shmMutilReadOnePacket (p : MultiShm) (packetSize : Nat) (c : Cursor) : Option MultiRead :=
  if packetSize = 0 then some ⟨c, errorNormal, none⟩
  else
    let i := c.readIndex % p.bufPacketNum
    if (p.packets i).packetSize > 0 then
      if packetSize ≥ (p.packets i).packetSize then
        if c.packetIndex = (p.packets i).packetIdx then
          (readSlot p i).map fun bytes =>
            ⟨⟨u32 (i + 1), u32 (c.packetIndex + 1)⟩, 0, some bytes⟩
        else some ⟨c, errorNoFoundPacket, none⟩
      else some ⟨c, errorReadBufferNotEnough, none⟩
    else some ⟨c, 0, none⟩

/-! ## Synchronising -/

/-- The visit of slot `0`: the number its packet has, or nothing when it is empty. -/
def syncFirst (p : MultiShm) : Option Cursor :=
  if (p.packets 0).packetSize ≠ 0 then some ⟨0, (p.packets 0).packetIdx⟩ else none

/-- The visit of a later slot: the walk goes on while the numbers do. -/
def syncNext (p : MultiShm) (i : Nat) (c : Cursor) : Option Cursor :=
  if (p.packets i).packetSize ≠ 0 ∧ (p.packets i).packetIdx = u32 (c.packetIndex + 1) then
    some ⟨u32 (c.readIndex + 1), u32 (c.packetIndex + 1)⟩
  else none

/-- The walk over `n` slots from slot `i` on. -/
def syncLoop (p : MultiShm) : Nat → Nat → Cursor → Cursor
  | 0, _, c => c
  | n + 1, i, c =>
      match syncNext p i c with
      | none => c
      | some c' => syncLoop p n (i + 1) c'

/-- `shm_multi_read_sync`, with no write in between: the value returned and the cursor. -/
def shmMultiReadSync (p : MultiShm) (c : Cursor) : Int × Cursor :=
  match syncFirst p with
  | none => (errorNoSync, c)
  | some c' => (0, syncLoop p (p.bufPacketNum - 1) 1 c')

/-- The cursor a call of `fifo_multi_recv` reads with: its static variables, synchronised while the
    expected number is `0`. -/
def recvCursor (p : MultiShm) (c : Cursor) : Cursor :=
  if c.packetIndex = 0 then (shmMultiReadSync p c).2 else c

/-- `fifo_multi_recv`, with no write in between. A failed read leaves the cursor where it is. -/
def fifoMultiRecv (p : MultiShm) (len : Nat) (c : Cursor) : Option MultiRead :=
  shmMutilReadOnePacket p len (recvCursor p c)

/-! ## One writer and one reader -/

/-- Where a reader is: outside `fifo_multi_recv`, about to visit slot `i` of the walk, or about to
    read. -/
inductive RecvStage where
  | idle
  | sync (len i : Nat) (found : Cursor)
  | read (len : Nat)
  deriving DecidableEq, Repr

/-- The ring, the static cursor of `fifo_multi_recv`, and the reader. -/
structure MultiSys where
  ring : MultiShm
  cursor : Cursor
  stage : RecvStage

/-- One step of the writer or of the reader. A read may find the slot's mutex taken. -/
inductive MultiAction where
  | write (packet : List UInt8)
  | recv (len : Nat)
  | visit
  | read (locked : Bool)
  deriving DecidableEq, Repr

/-- What a step makes visible. -/
inductive MultiEvent where
  | wrote (packet : List UInt8) (result : Int)
  | delivered (index : Nat) (bytes : List UInt8)
  | returned (result : Int)
  deriving DecidableEq, Repr

/-- The reader after a visit of the walk: it visits the next slot, or goes on to read. -/
def afterVisit (s : MultiSys) (len i : Nat) (found : Cursor) : Option Cursor → MultiSys
  | none =>
      -- a walk that ends at slot `0` leaves the cursor alone
      if i = 0 then { s with stage := .read len }
      else { s with cursor := found, stage := .read len }
  | some c =>
      if i + 1 < s.ring.bufPacketNum then { s with stage := .sync len (i + 1) c }
      else { s with cursor := c, stage := .read len }

/-- The reader after a read. -/
def afterRead (s : MultiSys) (r : MultiRead) : MultiSys × List MultiEvent :=
  ({ s with cursor := r.cursor, stage := .idle },
    match r.copied with
    | none => [.returned r.result]
    | some bytes => [.delivered s.cursor.packetIndex bytes])

/-- One step: a critical section of the writer or of the reader, or the start of a call. -/
def multiStep (s : MultiSys) : MultiAction → Option (MultiSys × List MultiEvent)
  | .write packet =>
      (shmMutilWriteOnePacket s.ring packet).map fun (ring, r) =>
        ({ s with ring := ring }, [.wrote packet r])
  | .recv len =>
      match s.stage with
      | .idle =>
          if s.cursor.packetIndex = 0 then some ({ s with stage := .sync len 0 ⟨0, 0⟩ }, [])
          else some ({ s with stage := .read len }, [])
      | _ => none
  | .visit =>
      match s.stage with
      | .sync len i found =>
          some (afterVisit s len i found
            (if i = 0 then syncFirst s.ring else syncNext s.ring i found), [])
      | _ => none
  | .read locked =>
      match s.stage with
      | .read len =>
          if locked ∧ len ≠ 0 then some ({ s with stage := .idle }, [.returned (-1)])
          else (shmMutilReadOnePacket s.ring len s.cursor).map (afterRead s)
      | _ => none

/-- A ring just initialised, and a reader that was never called. -/
def multiSysInit (packetNum totalSize : Nat) : MultiSys :=
  ⟨shmMutilInit packetNum totalSize, ⟨0, 0⟩, .idle⟩

/-- The packets written successfully: packet number `k` is the `k`-th one. -/
def writtenPackets (tr : List MultiEvent) : List (List UInt8) :=
  tr.filterMap fun
    | .wrote packet r => if r = 0 then some packet else none
    | _ => none

/-- The packets the reader got, with their numbers. -/
def deliveredPackets (tr : List MultiEvent) : List (Nat × List UInt8) :=
  tr.filterMap fun
    | .delivered index bytes => some (index, bytes)
    | _ => none

end XToolkits.Ipc
