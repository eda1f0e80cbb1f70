import XToolkits.Ipc.Shm
import XToolkits.Lib.SlotFate
import XToolkits.Lib.Transition

set_option autoImplicit false

/-! # The packet queue

`queue_creat`, `queue_push` and `queue_pop` of `xlib_queue`. The functions of `utils_mem.c` are those
of `utils_shm.c` with a header size of its own (`Ipc.Shm`), in memory that is not rounded up to a
page. A `queue_pop` that waits gives the mutex up, so it is two steps, and every other critical
section is one. The events carry the header of a push, which the ones of `Ipc.Shm` leave out. -/

namespace XToolkits.Queue

open XToolkits.Ipc

/-! ## The queue -/

/-- `queue_creat`. The size is computed in an `int`: a request that does not fit overflows it, and
    no queue is made. -/
def queueCreat (packetNum packetSize headerSize : Nat) : Option Shm :=
  if sizeofShm + headerSize * packetNum + sizeofPacketInfo * packetNum +
      packetSize * packetNum < 2 ^ 31 then
    some (tbsbInit headerSize packetNum (packetSize * packetNum))
  else none

/-- `queue_push`: `tbsb_write_one_packet`. -/
def queuePush (p : Shm) (header : Option (List UInt8)) (payload : List UInt8) : Shm × Int :=
  tbsbWriteOnePacket p header payload

/-- `queue_pop`, `tbsb_read_one_packet`, up to the test of the counter: it refuses a size of zero,
    and otherwise takes a packet or waits. -/
def queuePopStart (s : ShmSys) (len : Nat) : Option (ShmSys × List ShmEvent) :=
  shmStep s (.recvStart len)

/-- `queue_pop` from a wakeup on: the counter is tested again. -/
def queuePopWake (s : ShmSys) : Option (ShmSys × List ShmEvent) := shmStep s .recvWake

/-! ## Pushing threads and one popping thread -/

/-- One mutex-protected step of some thread. Every call passes a header. -/
inductive QueueAction where
  | push (header payload : List UInt8)
  | popStart (len : Nat)
  | popWake

/-- What a step makes visible. -/
inductive QueueEvent where
  | pushed (entry offset : Nat) (header payload : List UInt8)
  | popped (result : RecvResult)
  | refused
  | stuck
  deriving DecidableEq, Repr

/-- An event of the ring, with the header of the push. -/
def QueueEvent.ofShm (header : List UInt8) : ShmEvent → QueueEvent
  | .sent entry offset packet => .pushed entry offset header packet
  | .received r => .popped r
  | .refused => .refused
  | .stuck => .stuck

/-- One step. -/
def queueStep (s : ShmSys) : QueueAction → Option (ShmSys × List QueueEvent)
  | .push header payload =>
      if payload.length = 0 then some (s, [.refused])
      else some ({ s with ring := (queuePush s.ring (some header) payload).1 },
        [.pushed (curWriteIndex s.ring) (curPacketWriteOffset s.ring payload.length) header payload])
  | .popStart len =>
      (queuePopStart s len).map fun r => (r.1, r.2.map (QueueEvent.ofShm []))
  | .popWake => (queuePopWake s).map fun r => (r.1, r.2.map (QueueEvent.ofShm []))

/-- A header has the size of a header record, no payload has more than `size` bytes, and the buffer
    of a pop holds `size` bytes, unless it has none and the call is refused. -/
def QueueAction.Valid (headerSize size : Nat) : QueueAction → Prop
  | .push header payload => header.length = headerSize ∧ payload.length ≤ size
  | .popStart len => len = 0 ∨ size ≤ len
  | .popWake => True

/-! ## What a trace tells -/

/-- A push: the entry it went to, its header and its payload. -/
structure Push where
  entry : Nat
  header : List UInt8
  payload : List UInt8
  deriving DecidableEq, Repr

/-- The push of an event, if it is one. -/
def QueueEvent.push? : QueueEvent → Option Push
  | .pushed entry _ header payload => some ⟨entry, header, payload⟩
  | _ => none

/-- An event as a step of the entry table. -/
def QueueEvent.slotEvent? : QueueEvent → Option (SlotEvent Placed)
  | .pushed entry offset _ payload => some (.fill entry ⟨offset, payload⟩)
  | .popped r => some (.take r.entry ⟨r.offset, r.copied⟩)
  | _ => none

/-- The pushes of a trace, in order. The number of a push is its place in this list. -/
def pushes (tr : List QueueEvent) : List Push := tr.filterMap QueueEvent.push?

/-- The events of the entry table in a trace, and their log. -/
def tableTrace (tr : List QueueEvent) : List (SlotEvent Placed) :=
  tr.filterMap QueueEvent.slotEvent?

def queueLog (tr : List QueueEvent) : SlotLog Placed := SlotLog.ofTrace (tableTrace tr)

/-- The numbers of the pushes that were returned by a pop, in the order of the pops. -/
def returned (tr : List QueueEvent) : List Nat := (queueLog tr).taken.map Stored.seq

/-- The numbers of the pushes that wait in an entry. -/
def unread (tr : List QueueEvent) : List Nat := (queueLog tr).live.map Stored.seq

/-- The numbers of the pushes whose entry was reused before they were returned. -/
def lost (tr : List QueueEvent) : List Nat := (SlotLog.lostOf (tableTrace tr)).map Stored.seq

end XToolkits.Queue
