import Mathlib.Order.CompletePartialOrder
import Mathlib.Order.Interval.Set.Disjoint
import XToolkits.Ipc.MultiShm
import XToolkits.Ipc.Shm

set_option autoImplicit false

/-! # The segment of the multi-reader ring

`fifo_creat_multi_shm` asks for a segment and `shm_mutil_init` lays the ring out in it: the handle,
the slots, the data area. The first one counts `sizeof(t_packet_info)` bytes for a slot, which is the
entry of the other ring, and the second one the size of the slot. What is missing may be made up for
by the rounding to a page. -/

namespace XToolkits.Ipc

/-- `sizeof(multi_shm_t)` and `sizeof(t_multi_packet_info)` of x86-64 glibc. -/
def sizeofMultiShm : Nat := 32
def sizeofMultiPacketInfo : Nat := 112

/-- The bytes that `fifo_creat_multi_shm` counts. -/
def countedSize (packetNum packetSize : Nat) : Nat :=
  sizeofMultiShm + sizeofPacketInfo * packetNum + packetSize * packetNum

/-- `total_buffer_size` of `fifo_creat_multi_shm`: they are counted and rounded in an `int`. -/
def multiTotalBufferSize (packetNum packetSize : Nat) : Int :=
  let total := wrapS32 (countedSize packetNum packetSize)
  if total.tmod pageSize = 0 then total
  else wrapS32 (pageSize - total.tmod pageSize + total)

/-- A segment: the size passed to `shmget`, the two offsets of `shm_mutil_init`, and the ring. -/
structure MultiSegment where
  size : Int
  bufPacketOffset : Nat
  bufStartOffset : Nat
  ring : MultiShm

/-- `fifo_creat_multi_shm`, with the segment it asks for. -/
def fifoCreatMultiShm (packetNum packetSize : Nat) : MultiSegment where
  size := multiTotalBufferSize packetNum packetSize
  bufPacketOffset := sizeofMultiShm
  bufStartOffset := u32 (sizeofMultiShm + sizeofMultiPacketInfo * packetNum)
  ring := shmMutilInit packetNum (packetSize * packetNum)

/-- The bytes of the slots and of the data area. -/
def MultiSegment.slotTable (g : MultiSegment) : Set Nat :=
  Set.Ico g.bufPacketOffset (g.bufPacketOffset + sizeofMultiPacketInfo * g.ring.bufPacketNum)

def MultiSegment.dataArea (g : MultiSegment) : Set Nat :=
  Set.Ico g.bufStartOffset (g.bufStartOffset + g.ring.bufTotalSize)

/-- The layout is one of the segment: it ends inside, and the slots and the data are apart. -/
structure MultiSegment.LaidOut (g : MultiSegment) : Prop where
  fits : (g.bufStartOffset + g.ring.bufTotalSize : Int) ≤ g.size
  apart : Disjoint g.slotTable g.dataArea

variable {packetNum packetSize : Nat}

/-! ## The size -/

/-- A size that fits an `int` is the one rounded to a page. -/
theorem multiTotalBufferSize_of_lt (h : roundToPage (countedSize packetNum packetSize) < 2 ^ 31) :
    multiTotalBufferSize packetNum packetSize = roundToPage (countedSize packetNum packetSize) := by
  unfold multiTotalBufferSize
  generalize countedSize packetNum packetSize = counted at h ⊢
  unfold roundToPage pageSize at *
  have hcounted : counted < 2 ^ 31 := by
    split at h <;> omega
  rw [wrapS32_of_mem (by omega) (by omega)]
  dsimp only
  rw [Int.tmod_eq_emod_of_nonneg (by omega)]
  by_cases hmod : counted % 4096 = 0
  · rw [if_pos (by omega), if_pos hmod]
  · rw [if_neg hmod] at h
    rw [if_neg (by omega), if_neg hmod, wrapS32_of_mem (by omega) (by omega)]
    omega

/-- A size that does not fit an `int` comes out negative. -/
theorem multiTotalBufferSize_neg (h : 2 ^ 31 ≤ roundToPage (countedSize packetNum packetSize))
    (hcounted : countedSize packetNum packetSize < 2 ^ 31 + 2 ^ 29) :
    multiTotalBufferSize packetNum packetSize < 0 := by
  unfold multiTotalBufferSize
  generalize countedSize packetNum packetSize = counted at h hcounted ⊢
  unfold roundToPage pageSize at *
  by_cases hlt : counted < 2 ^ 31
  · -- only the rounding overflows
    have hmod : counted % 4096 ≠ 0 := by
      intro hmod
      rw [if_pos hmod] at h
      omega
    rw [if_neg hmod] at h
    rw [wrapS32_of_mem (by omega) (by omega)]
    dsimp only
    rw [Int.tmod_eq_emod_of_nonneg (by omega), if_neg (by omega)]
    unfold wrapS32
    omega
  · have hwrap : wrapS32 counted = counted - 2 ^ 32 := by
      unfold wrapS32
      omega
    have hpage : (0 : Int) < (4096 : Nat) := by decide
    have hlow := Int.lt_tmod_of_pos (counted - 2 ^ 32 : Int) hpage
    have hhigh := Int.tmod_lt_of_pos (counted - 2 ^ 32 : Int) hpage
    rw [hwrap]
    dsimp only
    split
    · omega
    · rw [wrapS32_of_mem (by omega) (by omega)]
      omega

/-! ## The layout -/

theorem size_fifoCreatMultiShm :
    (fifoCreatMultiShm packetNum packetSize).size = multiTotalBufferSize packetNum packetSize := by
  rw [fifoCreatMultiShm]

/-- The slots of a segment made by `fifo_creat_multi_shm` end where its data area starts. -/
theorem bufStartOffset_fifoCreatMultiShm (h : sizeofMultiPacketInfo * packetNum < 2 ^ 31) :
    (fifoCreatMultiShm packetNum packetSize).bufStartOffset =
      sizeofMultiShm + sizeofMultiPacketInfo * packetNum := by
  refine u32_of_lt ?_
  unfold sizeofMultiShm
  omega

theorem apart_fifoCreatMultiShm (h : sizeofMultiPacketInfo * packetNum < 2 ^ 31) :
    Disjoint (fifoCreatMultiShm packetNum packetSize).slotTable
      (fifoCreatMultiShm packetNum packetSize).dataArea := by
  refine Set.disjoint_left.2 fun x htable hdata => ?_
  have hlt := htable.2
  have hle := hdata.1
  rw [bufStartOffset_fifoCreatMultiShm h] at hle
  exact absurd hlt (Nat.not_lt.2 hle)

/-- The layout takes more for each slot than was counted. -/
theorem end_fifoCreatMultiShm (packetSize : Nat) (h : sizeofMultiPacketInfo * packetNum < 2 ^ 31) :
    (fifoCreatMultiShm packetNum packetSize).bufStartOffset +
        (fifoCreatMultiShm packetNum packetSize).ring.bufTotalSize =
      countedSize packetNum packetSize +
        (sizeofMultiPacketInfo - sizeofPacketInfo) * packetNum := by
  rw [bufStartOffset_fifoCreatMultiShm h]
  show _ + packetSize * packetNum = _
  unfold countedSize sizeofMultiPacketInfo sizeofPacketInfo
  omega

/-- **When the layout fits.** For every number and size of packets whose products fit 31 bits, the
    ring that is laid out ends inside the segment asked for, with the slots and the data apart,
    exactly when the rounding to a page adds what was not counted for the slots, and the size
    fits an `int`. -/
theorem fifoCreatMultiShm_laidOut_iff (packetNum packetSize : Nat) (hnum : 1 ≤ packetNum)
    (hslots : sizeofMultiPacketInfo * packetNum < 2 ^ 31)
    (hdata : packetSize * packetNum < 2 ^ 31) :
    (fifoCreatMultiShm packetNum packetSize).LaidOut ↔
      countedSize packetNum packetSize % pageSize ≠ 0 ∧
      (sizeofMultiPacketInfo - sizeofPacketInfo) * packetNum +
          countedSize packetNum packetSize % pageSize ≤ pageSize ∧
      roundToPage (countedSize packetNum packetSize) < 2 ^ 31 := by
  have hend := end_fifoCreatMultiShm packetSize hslots
  have hmissing : 0 < (sizeofMultiPacketInfo - sizeofPacketInfo) * packetNum :=
    Nat.mul_pos (by decide) hnum
  have hcounted : countedSize packetNum packetSize < 2 ^ 31 + 2 ^ 29 := by
    unfold countedSize sizeofMultiShm sizeofPacketInfo
    unfold sizeofMultiPacketInfo at hslots
    omega
  have hlaid : (fifoCreatMultiShm packetNum packetSize).LaidOut ↔
      ((countedSize packetNum packetSize +
        (sizeofMultiPacketInfo - sizeofPacketInfo) * packetNum : Nat) : Int) ≤
      (fifoCreatMultiShm packetNum packetSize).size := by
    rw [← hend, Int.natCast_add]
    exact ⟨fun h => h.fits, fun h => ⟨h, apart_fifoCreatMultiShm hslots⟩⟩
  rw [hlaid, size_fifoCreatMultiShm]
  by_cases hround : roundToPage (countedSize packetNum packetSize) < 2 ^ 31
  · rw [multiTotalBufferSize_of_lt hround, Int.ofNat_le]
    generalize countedSize packetNum packetSize = counted at *
    generalize (sizeofMultiPacketInfo - sizeofPacketInfo) * packetNum = missing at *
    unfold roundToPage pageSize at *
    by_cases hmod : counted % 4096 = 0
    · rw [if_pos hmod]
      omega
    · rw [if_neg hmod] at hround ⊢
      omega
  · -- a negative size is less than every end
    have hneg := multiTotalBufferSize_neg (Nat.not_lt.1 hround) hcounted
    constructor
    · intro h
      omega
    · intro h
      exact absurd h.2.2 hround

/-- The ring of the demo: ten packets of `1024` bytes. -/
theorem fifoCreatMultiShm_laidOut_demo : (fifoCreatMultiShm 10 1024).LaidOut :=
  (fifoCreatMultiShm_laidOut_iff 10 1024 (by decide) (by decide) (by decide)).2 (by decide)

/-- Fifty packets of one byte: the layout ends at `5682` in a segment of `4096` bytes. -/
theorem fifoCreatMultiShm_not_laidOut : ¬ (fifoCreatMultiShm 50 1).LaidOut := by
  intro h
  have hfits := h.fits
  rw [← Int.natCast_add, end_fifoCreatMultiShm 1 (by decide), size_fifoCreatMultiShm,
    multiTotalBufferSize_of_lt (by decide), Int.ofNat_le] at hfits
  exact absurd hfits (by decide)

end XToolkits.Ipc
