import XToolkits.Ipc.Order
import XToolkits.Queue.Queue

set_option autoImplicit false

/-! # Calls with any arguments

The calls of the packet ring as a program makes them: the size is an `int`, the packet may be `NULL`,
and the ring is one of `fifo_creat`, `fifo_creat_shm` or `queue_creat`. Nothing is asked of the
sizes, so a run may contain calls that are refused, sends of packets larger than the data area, and
reads whose buffer is too small. -/

namespace XToolkits.Ipc

/-! ## Rings -/

/-- `fifo_creat_shm`, for the size of the ring that `fifo_creat` makes: the segment is another one,
    and it is laid out and reset in the same way. -/
def fifoCreatShm (packetNum packetSize : Nat) : Option Shm :=
  if totalBufferSize sizeofHeaderInfo packetNum packetSize < 2 ^ 31 then
    some (tbsbInit sizeofHeaderInfo packetNum (packetSize * packetNum))
  else none

/-- The ring comes from one of the three functions that make one. -/
inductive Created (packetNum packetSize : Nat) (ring : Shm) : Prop
  | fifo (h : fifoCreat packetNum packetSize = some ring)
  | fifoShm (h : fifoCreatShm packetNum packetSize = some ring)
  | queue (headerSize : Nat) (h : Queue.queueCreat packetNum packetSize headerSize = some ring)

/-- The ring is reset, and its data area has the size asked for. -/
theorem Created.eq_init {packetNum packetSize : Nat} {ring : Shm}
    (h : Created packetNum packetSize ring) :
    ∃ headerSize, ring = tbsbInit headerSize packetNum (packetSize * packetNum) ∧
      packetSize * packetNum < 2 ^ 31 := by
  have hle := le_totalBufferSize sizeofHeaderInfo packetNum packetSize
  cases h with
  | fifo h =>
      simp only [fifoCreat] at h
      split at h
      · next hfits => exact ⟨_, (Option.some.inj h).symm, Nat.lt_of_le_of_lt hle hfits⟩
      · cases h
  | fifoShm h =>
      simp only [fifoCreatShm] at h
      split at h
      · next hfits => exact ⟨_, (Option.some.inj h).symm, Nat.lt_of_le_of_lt hle hfits⟩
      · cases h
  | queue headerSize h =>
      simp only [Queue.queueCreat] at h
      split at h
      · exact ⟨headerSize, (Option.some.inj h).symm, by omega⟩
      · cases h

/-! ## Calls -/

/-- `tbsb_write_one_packet` with its arguments: nothing is written when the packet is `NULL` or the
    size is not positive. -/
def tbsbWriteCall (p : Shm) (header : Option (List UInt8)) (packetAddr : Option (Mem UInt8))
    (packetSize : Int) : Shm × Int :=
  match packetAddr with
  | none => (p, -1)
  | some packet => tbsbWriteOnePacket p header (packet.read 0 packetSize.toNat)

/-- One mutex-protected step of some thread, with the arguments of the call. -/
inductive TbsbAction where
  | write (header : Option (List UInt8)) (packetAddr : Option (Mem UInt8)) (packetSize : Int)
  | readStart (packetSize : Int)
  | readWake

/-- The packet written: none without an address, and none when the size is not positive. -/
def TbsbAction.toShm : TbsbAction → ShmAction
  | .write header none _ => .send header []
  | .write header (some packet) packetSize => .send header (packet.read 0 packetSize.toNat)
  | .readStart packetSize => .recvStart packetSize.toNat
  | .readWake => .recvWake

def tbsbStep (s : ShmSys) (a : TbsbAction) : Option (ShmSys × List ShmEvent) := shmStep s a.toShm

variable {N : Nat} {s s' : ShmSys} {tr es : List ShmEvent}

/-- A write is the call of `tbsb_write_one_packet`. -/
theorem tbsbStep_write {header : Option (List UInt8)} {packetAddr : Option (Mem UInt8)}
    {packetSize : Int} (hstep : tbsbStep s (.write header packetAddr packetSize) = some (s', es)) :
    s' = { s with ring := (tbsbWriteCall s.ring header packetAddr packetSize).1 } := by
  cases packetAddr with
  | none =>
      obtain ⟨rfl, -⟩ := Prod.mk.inj (Option.some.inj hstep)
      rfl
  | some packet =>
      simp only [tbsbStep, TbsbAction.toShm, shmStep] at hstep
      split at hstep
      · next hzero =>
          obtain ⟨rfl, -⟩ := Prod.mk.inj (Option.some.inj hstep)
          simp only [tbsbWriteCall, tbsbWriteOnePacket, if_pos hzero]
      · obtain ⟨rfl, -⟩ := Prod.mk.inj (Option.some.inj hstep)
        rfl

/-- **Whole runs** of a ring of two entries or more, with any arguments. -/
theorem tableSys_run {packetSize : Nat} {ring : Shm} (hN : 2 ≤ N) (hring : Created N packetSize ring)
    {as : List TbsbAction} (hrun : run tbsbStep ⟨ring, none⟩ as = some (s, tr)) :
    TableSys N (SlotLog.ofTrace (slotTrace tr)) s ∧ ShmEvent.stuck ∉ tr := by
  refine run_induction (fun _ => True)
    (fun tr s => TableSys N (SlotLog.ofTrace (slotTrace tr)) s ∧ ShmEvent.stuck ∉ tr) ?_ ?_
    (fun _ _ => trivial) hrun
  · obtain ⟨headerSize, rfl, -⟩ := hring.eq_init
    exact ⟨⟨tbsbInv_init _ _ (by omega), fun _ => rfl⟩, List.not_mem_nil⟩
  · rintro tr s a s' es - ⟨h, hlive⟩ hstep
    obtain ⟨h', hstuck⟩ := h.step hN hstep
    exact ⟨h', by simp [hlive, hstuck]⟩

end XToolkits.Ipc
