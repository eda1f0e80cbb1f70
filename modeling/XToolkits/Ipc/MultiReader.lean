import XToolkits.Ipc.MultiRing

set_option autoImplicit false

/-! # A reader of the multi-reader ring

The cursor of `fifo_multi_recv` always points to the slot of the packet it expects (`ReaderInv`):
the walk of `shm_multi_read_sync` finds a slot together with the number in it, whatever the writer
does between two visits, and a read that delivers moves both on by one. After the first delivery the
expected number is not `0`, so no walk moves the cursor again. That gives delivery without gap or
repetition, and it is also why a reader that was overtaken never gets going again. -/

namespace XToolkits.Ipc

variable {N T k : Nat} {p : MultiShm} {written : List (List UInt8)}

/-! ## One read -/

/-- Slot `i` holds packet number `j`. -/
def MultiShm.Holds (p : MultiShm) (i j : Nat) : Prop :=
  (p.packets i).packetSize > 0 ∧ (p.packets i).packetIdx = j

instance (p : MultiShm) (i j : Nat) : Decidable (p.Holds i j) := inferInstanceAs (Decidable (_ ∧ _))

/-- The slot that holds packet `j` is the one its number tells. -/
theorem RingInv.of_holds (h : RingInv N T p written k) {i j : Nat} (hi : i < N) (hold : p.Holds i j) :
    j % N = i ∧ ∃ b, written.length ≤ j + k ∧ written[j]? = some b ∧
      (p.packets i).packetSize = b.length := by
  obtain ⟨hsize, hidx⟩ := hold
  obtain ⟨j', b, hj, hb, hslot, hinfo⟩ := h.exists_live hi (Nat.ne_of_gt hsize)
  rw [hinfo] at hidx
  subst hidx
  exact ⟨hslot, b, hj, hb, by rw [hinfo]⟩

/-- A read whose slot holds the packet expected, with a buffer that is large enough. -/
theorem shmMutilRead_of_holds {len : Nat} {c : Cursor}
    (hold : p.Holds (c.readIndex % p.bufPacketNum) c.packetIndex)
    (hle : (p.packets (c.readIndex % p.bufPacketNum)).packetSize ≤ len) :
    shmMutilReadOnePacket p len c =
      (readSlot p (c.readIndex % p.bufPacketNum)).map fun bytes =>
        ⟨⟨u32 (c.readIndex % p.bufPacketNum + 1), u32 (c.packetIndex + 1)⟩, 0, some bytes⟩ := by
  obtain ⟨hsize, hidx⟩ := hold
  unfold shmMutilReadOnePacket
  rw [if_neg (by omega)]
  dsimp only
  rw [if_pos hsize, if_pos hle, if_pos hidx.symm]

/-- Every other read copies nothing and leaves the cursor. It returns an error, unless the slot is
    empty. -/
theorem shmMutilRead_of_not {len : Nat} {c : Cursor}
    (hnot : ¬ (p.Holds (c.readIndex % p.bufPacketNum) c.packetIndex ∧
      (p.packets (c.readIndex % p.bufPacketNum)).packetSize ≤ len)) :
    ∃ result, shmMutilReadOnePacket p len c = some ⟨c, result, none⟩ ∧ result ≤ 0 ∧
      (result = 0 ↔ 0 < len ∧ (p.packets (c.readIndex % p.bufPacketNum)).packetSize = 0) := by
  unfold shmMutilReadOnePacket
  by_cases hlen : len = 0
  · exact ⟨errorNormal, by rw [if_pos hlen], by decide, iff_of_false (by decide) (by omega)⟩
  · rw [if_neg hlen]
    dsimp only
    by_cases hsize : (p.packets (c.readIndex % p.bufPacketNum)).packetSize > 0
    · rw [if_pos hsize]
      by_cases hle : (p.packets (c.readIndex % p.bufPacketNum)).packetSize ≤ len
      · have hidx : c.packetIndex ≠ (p.packets (c.readIndex % p.bufPacketNum)).packetIdx :=
          fun hidx => hnot ⟨⟨hsize, hidx.symm⟩, hle⟩
        refine ⟨errorNoFoundPacket, ?_, by decide, iff_of_false (by decide) (by omega)⟩
        rw [if_pos hle, if_neg hidx]
      · refine ⟨errorReadBufferNotEnough, ?_, by decide, iff_of_false (by decide) (by omega)⟩
        rw [if_neg hle]
    · exact ⟨0, by rw [if_neg hsize], by decide, iff_of_true rfl (by omega)⟩

/-- **What a read does.** It delivers the packet with the expected number when its slot holds that
    one and the buffer is large enough, and moves the cursor on by one; otherwise nothing is copied
    and the cursor stays. -/
theorem RingInv.read_cases (h : RingInv N T p written k) (hN : 1 ≤ N) (hT : T < 2 ^ 31)
    (hcount : written.length < 2 ^ 32) (len : Nat) (c : Cursor) :
    (p.Holds (c.readIndex % N) c.packetIndex ∧ (p.packets (c.readIndex % N)).packetSize ≤ len ∧
      ∃ b, written[c.packetIndex]? = some b ∧ shmMutilReadOnePacket p len c =
        some ⟨⟨c.readIndex % N + 1, c.packetIndex + 1⟩, 0, some b⟩) ∨
    (¬ (p.Holds (c.readIndex % N) c.packetIndex ∧
        (p.packets (c.readIndex % N)).packetSize ≤ len) ∧
      ∃ result, shmMutilReadOnePacket p len c = some ⟨c, result, none⟩) := by
  have hnum := h.num
  by_cases hread : p.Holds (c.readIndex % N) c.packetIndex ∧
      (p.packets (c.readIndex % N)).packetSize ≤ len
  · obtain ⟨hold, hle⟩ := hread
    obtain ⟨hslot, b, hj, hb, -⟩ := h.of_holds (Nat.mod_lt _ hN) hold
    have hlt := (List.getElem?_eq_some_iff.1 hb).1
    have hmod := Nat.mod_le c.packetIndex N
    have hbytes := h.readSlot_live hT hj hb
    rw [hslot] at hbytes hmod
    refine Or.inl ⟨hold, hle, b, hb, ?_⟩
    subst hnum
    rw [shmMutilRead_of_holds hold hle, hbytes, Option.map_some, u32_of_lt (by omega),
      u32_of_lt (by omega)]
  · refine Or.inr ⟨hread, ?_⟩
    subst hnum
    obtain ⟨result, hresult, -⟩ := shmMutilRead_of_not hread
    exact ⟨result, hresult⟩

/-! ## The walk over the slots -/

/-- What the walk has found before it visits slot `i`: the number in the slot before. -/
structure Found (N : Nat) (written : List (List UInt8)) (i : Nat) (found : Cursor) : Prop where
  readIndex : found.readIndex + 1 = i
  slot : found.readIndex % N = found.packetIndex % N
  bound : found.packetIndex < written.length

theorem RingInv.found_first (h : RingInv N T p written k) (hN : 1 ≤ N) {c : Cursor}
    (hc : syncFirst p = some c) : Found N written 1 c ∧ p.Holds 0 c.packetIndex := by
  simp only [syncFirst] at hc
  split at hc
  · next hsize =>
      cases hc
      have hold : p.Holds 0 (p.packets 0).packetIdx := ⟨Nat.pos_of_ne_zero hsize, rfl⟩
      obtain ⟨hslot, b, -, hb, -⟩ := h.of_holds hN hold
      exact ⟨⟨rfl, by rw [hslot, Nat.zero_mod], (List.getElem?_eq_some_iff.1 hb).1⟩, hold⟩
  · cases hc

theorem RingInv.found_next (h : RingInv N T p written k) (hcount : written.length < 2 ^ 32)
    {i : Nat} (hi : i < N) {c c' : Cursor} (hfound : Found N written i c)
    (hc : syncNext p i c = some c') :
    Found N written (i + 1) c' ∧ p.Holds i c'.packetIndex := by
  simp only [syncNext] at hc
  split at hc
  · next hcond =>
      obtain ⟨hsize, hidx⟩ := hcond
      cases hc
      have hold : p.Holds i (u32 (c.packetIndex + 1)) := ⟨Nat.pos_of_ne_zero hsize, hidx⟩
      obtain ⟨hslot, b, -, hb, -⟩ := h.of_holds hi hold
      have hlt := (List.getElem?_eq_some_iff.1 hb).1
      -- the slot number is at most the packet number, so it fits 32 bits
      have hmod := Nat.mod_le (u32 (c.packetIndex + 1)) N
      rw [hslot] at hmod
      have hread : u32 (c.readIndex + 1) = i := by
        rw [hfound.readIndex]
        exact u32_of_lt (by omega)
      exact ⟨⟨by rw [hread], by rw [hread, hslot, Nat.mod_eq_of_lt hi], hlt⟩, hold⟩
  · cases hc

/-! ## Runs -/

/-- The reader against the packets written and those it got. -/
structure ReaderInv (N : Nat) (written : List (List UInt8)) (delivered : List (Nat × List UInt8))
    (s : MultiSys) : Prop where
  slot : s.cursor.readIndex % N = s.cursor.packetIndex % N
  bound : s.cursor.packetIndex ≤ written.length
  fresh : s.cursor.packetIndex = 0 → delivered = []
  consecutive : ∀ (j index : Nat) (bytes : List UInt8), delivered[j]? = some (index, bytes) →
    index + delivered.length = s.cursor.packetIndex + j ∧ written[index]? = some bytes
  walk : ∀ len i found, s.stage = .sync len i found →
    i < N ∧ s.cursor.packetIndex = 0 ∧ (i ≠ 0 → Found N written i found)

variable {delivered : List (Nat × List UInt8)} {s : MultiSys}

theorem readerInv_init (N T : Nat) : ReaderInv N [] [] (multiSysInit N T) := by
  constructor <;> simp [multiSysInit]

/-- A step that leaves the cursor alone. -/
theorem ReaderInv.of_cursor (h : ReaderInv N written delivered s) {s' : MultiSys}
    (hcursor : s'.cursor = s.cursor)
    (hwalk : ∀ len i found, s'.stage = .sync len i found →
      i < N ∧ s.cursor.packetIndex = 0 ∧ (i ≠ 0 → Found N written i found)) :
    ReaderInv N written delivered s' :=
  ⟨hcursor ▸ h.slot, hcursor ▸ h.bound, hcursor ▸ h.fresh, hcursor ▸ h.consecutive,
    hcursor ▸ hwalk⟩

/-- A write adds a packet with a number of its own. -/
theorem ReaderInv.write (h : ReaderInv N written delivered s) (ring : MultiShm)
    (packet : List UInt8) : ReaderInv N (written ++ [packet]) delivered { s with ring := ring } where
  slot := h.slot
  bound := by
    have hbound := h.bound
    rw [List.length_append]
    exact Nat.le_add_right_of_le hbound
  fresh := h.fresh
  consecutive := by
    intro j index bytes hj
    obtain ⟨hindex, hbytes⟩ := h.consecutive j index bytes hj
    refine ⟨hindex, ?_⟩
    rw [List.getElem?_append_left (List.getElem?_eq_some_iff.1 hbytes).1]
    exact hbytes
  walk := by
    intro len i found hstage
    obtain ⟨hi, hzero, hfound⟩ := h.walk len i found hstage
    refine ⟨hi, hzero, fun hne => ⟨(hfound hne).readIndex, (hfound hne).slot, ?_⟩⟩
    have hbound := (hfound hne).bound
    rw [List.length_append]
    omega

/-- Before anything was delivered, the reader may be moved to any slot and the number in it. -/
theorem ReaderInv.moved (h : ReaderInv N written delivered s) (hzero : s.cursor.packetIndex = 0)
    {i : Nat} {found : Cursor} (hfound : Found N written i found) (len : Nat) :
    ReaderInv N written delivered { s with cursor := found, stage := .read len } where
  slot := hfound.slot
  bound := Nat.le_of_lt hfound.bound
  fresh := fun _ => h.fresh hzero
  consecutive := by
    intro j index bytes hj
    rw [h.fresh hzero] at hj
    simp at hj
  walk := by simp

@[simp] theorem afterVisit_ring (s : MultiSys) (len i : Nat) (found : Cursor) (c : Option Cursor) :
    (afterVisit s len i found c).ring = s.ring := by
  cases c <;> simp only [afterVisit] <;> split <;> rfl

/-- A visit of the walk keeps the cursor on the slot of the packet it expects. -/
theorem ReaderInv.visit (h : ReaderInv N written delivered s) (hN : 1 ≤ N)
    (hring : RingInv N T s.ring written k) (hcount : written.length < 2 ^ 32) {len i : Nat}
    {found : Cursor} (hstage : s.stage = .sync len i found) :
    ReaderInv N written delivered (afterVisit s len i found
      (if i = 0 then syncFirst s.ring else syncNext s.ring i found)) := by
  obtain ⟨hi, hzero, hfound⟩ := h.walk len i found hstage
  have hnext : ∀ c, (if i = 0 then syncFirst s.ring else syncNext s.ring i found) = some c →
      Found N written (i + 1) c := by
    intro c hc
    split at hc
    · next hi0 =>
        subst hi0
        exact (hring.found_first hN hc).1
    · next hne => exact (hring.found_next hcount hi (hfound hne) hc).1
  cases hc : (if i = 0 then syncFirst s.ring else syncNext s.ring i found) with
  | none =>
      simp only [afterVisit]
      split
      · exact ⟨h.slot, h.bound, h.fresh, h.consecutive, by simp⟩
      · next hne => exact h.moved hzero (hfound hne) len
  | some c =>
      simp only [afterVisit]
      split
      · next hlt =>
          refine ⟨h.slot, h.bound, h.fresh, h.consecutive, fun len' i' found' hstage' => ?_⟩
          cases hstage'
          rw [hring.num] at hlt
          exact ⟨hlt, hzero, fun _ => hnext c hc⟩
      · exact h.moved hzero (hnext c hc) len

/-- A delivery continues the sequence. -/
theorem ReaderInv.deliver (h : ReaderInv N written delivered s) {bytes : List UInt8}
    (hbytes : written[s.cursor.packetIndex]? = some bytes) :
    ReaderInv N written (delivered ++ [(s.cursor.packetIndex, bytes)])
      { s with
        cursor := ⟨s.cursor.readIndex % N + 1, s.cursor.packetIndex + 1⟩
        stage := .idle } where
  slot := by
    show (s.cursor.readIndex % N + 1) % N = (s.cursor.packetIndex + 1) % N
    rw [Nat.mod_add_mod, ← Nat.mod_add_mod, h.slot, Nat.mod_add_mod]
  bound := (List.getElem?_eq_some_iff.1 hbytes).1
  fresh := by simp
  consecutive := by
    intro j index bytes' hj
    rw [List.length_append, List.length_singleton]
    have hlt := (List.getElem?_eq_some_iff.1 hj).1
    rw [List.length_append, List.length_singleton] at hlt
    by_cases hold : j < delivered.length
    · rw [List.getElem?_append_left hold] at hj
      obtain ⟨hindex, hwritten⟩ := h.consecutive j index bytes' hj
      exact ⟨by simp only; omega, hwritten⟩
    · obtain rfl : j = delivered.length := by omega
      rw [List.getElem?_concat_length, Option.some.injEq, Prod.mk.injEq] at hj
      obtain ⟨rfl, rfl⟩ := hj
      exact ⟨by simp only; omega, hbytes⟩
  walk := by simp

/-- The ring and its reader against the trace so far. -/
structure MultiInv (N T : Nat) (tr : List MultiEvent) (s : MultiSys) : Prop where
  ring : ∃ k, RingInv N T s.ring (writtenPackets tr) k
  reader : ReaderInv N (writtenPackets tr) (deliveredPackets tr) s

/-- Is it a call of the writer? -/
def MultiAction.isWrite : MultiAction → Bool
  | .write _ => true
  | _ => false

/-- The size of a packet is an `s32`. -/
def MultiAction.Valid : MultiAction → Prop
  | .write packet => packet.length < 2 ^ 31
  | _ => True

@[simp] theorem deliveredPackets_wrote (tr : List MultiEvent) (packet : List UInt8) (r : Int) :
    deliveredPackets (tr ++ [.wrote packet r]) = deliveredPackets tr := by
  simp [deliveredPackets]

@[simp] theorem packets_returned (tr : List MultiEvent) (r : Int) :
    writtenPackets (tr ++ [.returned r]) = writtenPackets tr ∧
      deliveredPackets (tr ++ [.returned r]) = deliveredPackets tr := by
  simp [writtenPackets, deliveredPackets]

@[simp] theorem packets_delivered (tr : List MultiEvent) (index : Nat) (bytes : List UInt8) :
    writtenPackets (tr ++ [.delivered index bytes]) = writtenPackets tr ∧
      deliveredPackets (tr ++ [.delivered index bytes]) =
        deliveredPackets tr ++ [(index, bytes)] := by
  simp [writtenPackets, deliveredPackets]

/-- A step writes at most one packet, and only a write does. -/
theorem length_writtenPackets_step {s s' : MultiSys} {a : MultiAction} {es : List MultiEvent}
    (hstep : multiStep s a = some (s', es)) (tr : List MultiEvent) :
    (writtenPackets (tr ++ es)).length ≤
      (writtenPackets tr).length + (if a.isWrite then 1 else 0) := by
  cases a with
  | write packet =>
      simp only [multiStep, Option.map_eq_some_iff, Prod.mk.injEq] at hstep
      obtain ⟨⟨ring, r⟩, -, -, rfl⟩ := hstep
      exact length_writtenPackets_le tr packet r
  | recv len =>
      simp only [multiStep] at hstep
      split at hstep
      · split at hstep <;> cases hstep <;> simp
      · cases hstep
  | visit =>
      simp only [multiStep] at hstep
      split at hstep <;> cases hstep
      simp
  | read locked =>
      simp only [multiStep] at hstep
      split at hstep
      · split at hstep
        · cases hstep
          simp [(packets_returned tr _).1]
        · obtain ⟨r, -, hr⟩ := Option.map_eq_some_iff.1 hstep
          cases hr
          cases r.copied <;> simp [(packets_returned tr _).1, (packets_delivered tr _ _).1]
      · cases hstep

/-- Every step keeps the invariant. -/
theorem MultiInv.step (hN : 1 ≤ N) (hT : T < 2 ^ 31) {tr : List MultiEvent} {s s' : MultiSys}
    {a : MultiAction} {es : List MultiEvent} (ha : a.Valid) (h : MultiInv N T tr s)
    (hcount : (writtenPackets tr).length + (if a.isWrite then 1 else 0) < 2 ^ 32)
    (hstep : multiStep s a = some (s', es)) : MultiInv N T (tr ++ es) s' := by
  obtain ⟨k, hring⟩ := h.ring
  have hcount' : (writtenPackets tr).length < 2 ^ 32 := by omega
  cases a with
  | write packet =>
      obtain ⟨ring, r, k', hwrite, hring'⟩ := hring.write hN hT ha hcount
      simp only [multiStep, hwrite, Option.map_some, Option.some.injEq, Prod.mk.injEq] at hstep
      obtain ⟨rfl, rfl⟩ := hstep
      refine ⟨⟨k', by rwa [writtenPackets_wrote]⟩, ?_⟩
      rw [writtenPackets_wrote, deliveredPackets_wrote]
      split
      · exact h.reader.write ring packet
      · exact h.reader.of_cursor rfl h.reader.walk
  | recv len =>
      simp only [multiStep] at hstep
      split at hstep
      · split at hstep <;> simp only [Option.some.injEq, Prod.mk.injEq] at hstep <;>
          obtain ⟨rfl, rfl⟩ := hstep <;> rw [List.append_nil]
        · next hzero =>
            refine ⟨⟨k, hring⟩, h.reader.of_cursor rfl fun len' i found hstage => ?_⟩
            cases hstage
            exact ⟨hN, hzero, fun hne => absurd rfl hne⟩
        · exact ⟨⟨k, hring⟩, h.reader.of_cursor rfl (by simp)⟩
      · cases hstep
  | visit =>
      simp only [multiStep] at hstep
      split at hstep
      · next len i found hstage =>
          simp only [Option.some.injEq, Prod.mk.injEq] at hstep
          obtain ⟨rfl, rfl⟩ := hstep
          rw [List.append_nil]
          refine ⟨⟨k, ?_⟩, h.reader.visit hN hring hcount' hstage⟩
          rwa [afterVisit_ring]
      · cases hstep
  | read locked =>
      have hreturned : ∀ result, MultiInv N T (tr ++ [.returned result]) { s with stage := .idle } := by
        intro result
        obtain ⟨hw, hd⟩ := packets_returned tr result
        exact ⟨⟨k, hw ▸ hring⟩, by rw [hw, hd]; exact h.reader.of_cursor rfl (by simp)⟩
      simp only [multiStep] at hstep
      split at hstep
      · next len hstage =>
          split at hstep
          · simp only [Option.some.injEq, Prod.mk.injEq] at hstep
            obtain ⟨rfl, rfl⟩ := hstep
            exact hreturned _
          · rcases hring.read_cases hN hT hcount' len s.cursor with
                ⟨-, -, b, hb, hread⟩ | ⟨-, result, hread⟩ <;>
              simp only [hread, Option.map_some, afterRead, Option.some.injEq,
                Prod.mk.injEq] at hstep <;>
              obtain ⟨rfl, rfl⟩ := hstep
            · obtain ⟨hw, hd⟩ := packets_delivered tr s.cursor.packetIndex b
              exact ⟨⟨k, hw ▸ hring⟩, by rw [hw, hd]; exact h.reader.deliver hb⟩
            · exact hreturned _
      · cases hstep

/-- Every run with fewer than `2 ^ 32` writes keeps the invariant. -/
theorem MultiInv.run (hN : 1 ≤ N) (hT : T < 2 ^ 31) {as : List MultiAction} {s : MultiSys}
    {tr : List MultiEvent} (hvalid : ∀ a ∈ as, a.Valid)
    (hcount : as.countP MultiAction.isWrite < 2 ^ 32)
    (hrun : run multiStep (multiSysInit N T) as = some (s, tr)) :
    MultiInv N T tr s ∧ (writtenPackets tr).length ≤ as.countP MultiAction.isWrite := by
  induction as using List.reverseRecOn generalizing s tr with
  | nil =>
      simp only [run_nil, Option.some.injEq, Prod.mk.injEq] at hrun
      obtain ⟨rfl, rfl⟩ := hrun
      exact ⟨⟨⟨0, ringInv_init N T⟩, readerInv_init N T⟩, Nat.le_refl _⟩
  | append_singleton as a ih =>
      obtain ⟨s', tr', es, hpre, hstep, rfl⟩ := run_concat_eq_some.1 hrun
      rw [List.countP_append, List.countP_singleton] at hcount ⊢
      obtain ⟨hinv, hlen⟩ := ih (fun b hb => hvalid b (List.mem_append_left _ hb)) (by omega) hpre
      refine ⟨hinv.step hN hT (hvalid a (by simp)) (by omega) hstep, ?_⟩
      have hone := length_writtenPackets_step hstep tr'
      omega

/-- The steps that the reader can take where it is; the writer can always write. -/
def Enabled (s : MultiSys) : MultiAction → Prop
  | .write _ => True
  | .recv _ => s.stage = .idle
  | .visit => ∃ len i found, s.stage = .sync len i found
  | .read _ => ∃ len, s.stage = .read len

/-- An enabled step goes through: no copy leaves the data area. -/
theorem MultiInv.isSome_of_enabled (hN : 1 ≤ N) (hT : T < 2 ^ 31) {tr : List MultiEvent}
    (h : MultiInv N T tr s) (hcount : (writtenPackets tr).length + 1 < 2 ^ 32) {a : MultiAction}
    (ha : a.Valid) (henabled : Enabled s a) : (multiStep s a).isSome := by
  obtain ⟨k, hring⟩ := h.ring
  cases a with
  | write packet =>
      obtain ⟨ring, r, k', hwrite, -⟩ := hring.write hN hT ha hcount
      simp [multiStep, hwrite]
  | recv len =>
      have hstage : s.stage = .idle := henabled
      simp only [multiStep, hstage]
      split <;> rfl
  | visit =>
      obtain ⟨len, i, found, hstage⟩ := henabled
      simp [multiStep, hstage]
  | read locked =>
      obtain ⟨len, hstage⟩ := henabled
      simp only [multiStep, hstage]
      split
      · rfl
      · rcases hring.read_cases hN hT (by omega) len s.cursor with
            ⟨-, -, b, -, hread⟩ | ⟨-, result, hread⟩ <;> simp [hread]

/-- **Delivery exactly once and in order.** With one writer and one reader, whatever their steps
    interleave to, no step leaves the data area, and the packets that `fifo_multi_recv` copies out
    have consecutive numbers from some number on, each with exactly the bytes of the packet written
    with its number. -/
theorem fifoMultiRecv_consecutive (packetNum totalSize : Nat) (hnum : 1 ≤ packetNum)
    (htotal : totalSize < 2 ^ 31) (as : List MultiAction) (s : MultiSys) (tr : List MultiEvent)
    (hvalid : ∀ a ∈ as, a.Valid) (hcount : as.countP MultiAction.isWrite < 2 ^ 32)
    (hrun : run multiStep (multiSysInit packetNum totalSize) as = some (s, tr)) :
    (as.countP MultiAction.isWrite + 1 < 2 ^ 32 →
      ∀ a : MultiAction, a.Valid → Enabled s a → (multiStep s a).isSome) ∧
    ∃ k, ∀ (j index : Nat) (bytes : List UInt8),
      (deliveredPackets tr)[j]? = some (index, bytes) →
        index = k + j ∧ (writtenPackets tr)[index]? = some bytes := by
  obtain ⟨hinv, hlen⟩ := MultiInv.run hnum htotal hvalid hcount hrun
  refine ⟨fun hroom a ha henabled => hinv.isSome_of_enabled hnum htotal (by omega) ha henabled,
    s.cursor.packetIndex - (deliveredPackets tr).length, fun j index bytes hj => ?_⟩
  obtain ⟨hindex, hbytes⟩ := hinv.reader.consecutive j index bytes hj
  have hlt := (List.getElem?_eq_some_iff.1 hj).1
  -- the first packet tells that the expected number is no less than the count
  have hfirst := (hinv.reader.consecutive 0 _ _ (List.getElem?_eq_getElem (by omega))).1
  exact ⟨by omega, hbytes⟩

/-- Two packets are written, the reader synchronises on the second one and gets it. -/
theorem fifoMultiRecv_consecutive_sync : ∃ s tr,
    run multiStep (multiSysInit 2 4)
      [.write [1], .write [2, 3], .recv 4, .visit, .visit, .read false] = some (s, tr) ∧
    deliveredPackets tr = [(1, [2, 3])] ∧
    ∃ k, ∀ (j index : Nat) (bytes : List UInt8),
      (deliveredPackets tr)[j]? = some (index, bytes) →
        index = k + j ∧ (writtenPackets tr)[index]? = some bytes :=
  ⟨_, _, rfl, by decide, (fifoMultiRecv_consecutive 2 4 (by decide) (by decide)
    [.write [1], .write [2, 3], .recv 4, .visit, .visit, .read false] _ _
    (by simp [MultiAction.Valid]) (by decide) rfl).2⟩

/-! ## After being overtaken -/

/-- The walk ends at a slot together with the number in it. -/
theorem RingInv.syncLoop_holds (h : RingInv N T p written k) (hcount : written.length < 2 ^ 32)
    {n i : Nat} {c : Cursor} (hi : i + n ≤ N) (hfound : Found N written i c)
    (hold : p.Holds c.readIndex c.packetIndex) :
    p.Holds ((syncLoop p n i c).readIndex) ((syncLoop p n i c).packetIndex) ∧
      (syncLoop p n i c).readIndex < N := by
  induction n generalizing i c with
  | zero =>
      have hread := hfound.readIndex
      exact ⟨hold, by simp only [syncLoop]; omega⟩
  | succ n ih =>
      simp only [syncLoop]
      split
      · have hread := hfound.readIndex
        exact ⟨hold, by omega⟩
      · next c' hc =>
          obtain ⟨hfound', hold'⟩ := h.found_next hcount (by omega) hfound hc
          have hread : c'.readIndex = i := Nat.succ_injective hfound'.readIndex
          exact ih (by omega) hfound' (by rw [hread]; exact hold')

/-- A call that expects number `0` synchronises on a packet in the ring, unless slot `0` is empty. -/
theorem RingInv.recvCursor_holds (h : RingInv N T p written k) (hN : 1 ≤ N)
    (hcount : written.length < 2 ^ 32) (hslot0 : (p.packets 0).packetSize > 0) {c : Cursor}
    (hzero : c.packetIndex = 0) :
    p.Holds ((recvCursor p c).readIndex % N) (recvCursor p c).packetIndex := by
  have hfirst : syncFirst p = some ⟨0, (p.packets 0).packetIdx⟩ := by
    rw [syncFirst, if_pos (Nat.ne_of_gt hslot0)]
  obtain ⟨hfound, hold⟩ := h.found_first hN hfirst
  obtain ⟨hholds, hlt⟩ := h.syncLoop_holds hcount (n := N - 1) (by omega) hfound hold
  rw [recvCursor, if_pos hzero, shmMultiReadSync, hfirst, h.num]
  dsimp only
  rwa [Nat.mod_eq_of_lt hlt]

/-- `n` calls of `fifo_multi_recv` one after the other, with no write in between. -/
def recvCalls (p : MultiShm) (len : Nat) : Nat → Cursor → Option (List MultiRead)
  | 0, _ => some []
  | n + 1, c =>
      match fifoMultiRecv p len c with
      | none => none
      | some r => (recvCalls p len n r.cursor).map (r :: ·)

/-- A call that copies nothing and leaves the cursor alone is repeated by every later one. -/
theorem recvCalls_stuck {len : Nat} {c : Cursor} {result : Int}
    (h : fifoMultiRecv p len c = some ⟨c, result, none⟩) (n : Nat) :
    recvCalls p len n c = some (List.replicate n ⟨c, result, none⟩) := by
  induction n with
  | zero => rfl
  | succ n ih => simp [recvCalls, h, ih, List.replicate_succ]

/-- Every call returns. -/
theorem RingInv.recvCalls_isSome (h : RingInv N T p written k) (hN : 1 ≤ N) (hT : T < 2 ^ 31)
    (hcount : written.length < 2 ^ 32) (len n : Nat) (c : Cursor) :
    ∃ rs, recvCalls p len n c = some rs := by
  induction n generalizing c with
  | zero => exact ⟨[], rfl⟩
  | succ n ih =>
      rcases h.read_cases hN hT hcount len (recvCursor p c) with
          ⟨-, -, b, -, hread⟩ | ⟨-, result, hread⟩ <;>
        (obtain ⟨rs, hrs⟩ := ih _
         exact ⟨_, by simp only [recvCalls, fifoMultiRecv, hread]; rw [hrs]; rfl⟩)

/-- A call whose cursor points to the packet it expects copies it. -/
theorem RingInv.recvCalls_copies (h : RingInv N T p written k) (hN : 1 ≤ N) (hT : T < 2 ^ 31)
    (hcount : written.length < 2 ^ 32) {len : Nat} {c : Cursor}
    (hold : p.Holds ((recvCursor p c).readIndex % N) (recvCursor p c).packetIndex)
    (hlen : (p.packets ((recvCursor p c).readIndex % N)).packetSize ≤ len) (n : Nat) :
    ∃ rs, recvCalls p len (n + 1) c = some rs ∧ ∃ r ∈ rs, r.copied ≠ none := by
  rcases h.read_cases hN hT hcount len (recvCursor p c) with ⟨-, -, b, -, hread⟩ | ⟨hmiss, -⟩
  · obtain ⟨rs, hrs⟩ := h.recvCalls_isSome hN hT hcount len n
      ⟨(recvCursor p c).readIndex % N + 1, (recvCursor p c).packetIndex + 1⟩
    have hcalls : recvCalls p len (n + 1) c = some (⟨⟨(recvCursor p c).readIndex % N + 1,
        (recvCursor p c).packetIndex + 1⟩, 0, some b⟩ :: rs) := by
      simp only [recvCalls, fifoMultiRecv, hread, hrs, Option.map_some]
    exact ⟨_, hcalls, _, List.mem_cons_self, Option.some_ne_none b⟩
  · exact absurd ⟨hold, hlen⟩ hmiss

/-- A reader that expects a packet no longer in the ring fails for ever. -/
theorem RingInv.recvCalls_gone (h : RingInv N T p written k) (hN : 1 ≤ N) (hT : T < 2 ^ 31)
    (hcount : written.length < 2 ^ 32) {c : Cursor} (hzero : c.packetIndex ≠ 0)
    (hgone : ∀ i < N, ¬ p.Holds i c.packetIndex) (len : Nat) :
    ∃ result, ∀ n, recvCalls p len n c = some (List.replicate n ⟨c, result, none⟩) := by
  have hcursor : recvCursor p c = c := if_neg hzero
  rcases h.read_cases hN hT hcount len c with ⟨hold, -⟩ | ⟨-, result, hread⟩
  · exact absurd hold (hgone _ (Nat.mod_lt _ hN))
  · exact ⟨result, recvCalls_stuck (by rw [fifoMultiRecv, hcursor, hread])⟩

/-- **Overtaken readers do not recover.** In every state reached, between two calls of the reader,
    with slot `0` not empty and a buffer as large as every packet in the ring, `N + 1` calls with no
    write in between copy a packet exactly when the reader expects number `0` or the packet it
    expects is still in the ring. In every other state all calls fail for ever. -/
theorem fifoMultiRecv_recovers_iff (packetNum totalSize : Nat) (hnum : 1 ≤ packetNum)
    (htotal : totalSize < 2 ^ 31) (as : List MultiAction) (s : MultiSys) (tr : List MultiEvent)
    (hvalid : ∀ a ∈ as, a.Valid) (hcount : as.countP MultiAction.isWrite < 2 ^ 32)
    (hrun : run multiStep (multiSysInit packetNum totalSize) as = some (s, tr)) (len : Nat)
    (hlen : ∀ i < packetNum, (s.ring.packets i).packetSize ≤ len)
    (hslot0 : (s.ring.packets 0).packetSize > 0) :
    ((∃ rs, recvCalls s.ring len (packetNum + 1) s.cursor = some rs ∧ ∃ r ∈ rs, r.copied ≠ none) ↔
      s.cursor.packetIndex = 0 ∨ ∃ i < packetNum, s.ring.Holds i s.cursor.packetIndex) ∧
    (¬ (s.cursor.packetIndex = 0 ∨ ∃ i < packetNum, s.ring.Holds i s.cursor.packetIndex) →
      ∃ result, ∀ n, recvCalls s.ring len n s.cursor =
        some (List.replicate n ⟨s.cursor, result, none⟩)) := by
  obtain ⟨hinv, hwritten⟩ := MultiInv.run hnum htotal hvalid hcount hrun
  obtain ⟨k, hring⟩ := hinv.ring
  have hcount' : (writtenPackets tr).length < 2 ^ 32 := by omega
  have hstuck : ¬ (s.cursor.packetIndex = 0 ∨
      ∃ i < packetNum, s.ring.Holds i s.cursor.packetIndex) →
      ∃ result, ∀ n, recvCalls s.ring len n s.cursor =
        some (List.replicate n ⟨s.cursor, result, none⟩) := by
    intro hnot
    obtain ⟨hzero, hgone⟩ := not_or.1 hnot
    exact hring.recvCalls_gone hnum htotal hcount' hzero
      (fun i hi hold => hgone ⟨i, hi, hold⟩) len
  refine ⟨⟨?_, fun hcond => ?_⟩, hstuck⟩
  · rintro ⟨rs, hrs, r, hr, hcopied⟩
    by_contra hnot
    obtain ⟨result, hall⟩ := hstuck hnot
    rw [hall, Option.some.injEq] at hrs
    rw [← hrs] at hr
    exact hcopied (by rw [List.eq_of_mem_replicate hr])
  · have hold : s.ring.Holds ((recvCursor s.ring s.cursor).readIndex % packetNum)
        (recvCursor s.ring s.cursor).packetIndex := by
      by_cases hzero : s.cursor.packetIndex = 0
      · exact hring.recvCursor_holds hnum hcount' hslot0 hzero
      · -- the expected packet is in the slot that the cursor points to
        obtain ⟨i, hi, hold⟩ := hcond.resolve_left hzero
        have hcursor : recvCursor s.ring s.cursor = s.cursor := if_neg hzero
        rw [hcursor, hinv.reader.slot, (hring.of_holds hi hold).1]
        exact hold
    exact hring.recvCalls_copies hnum htotal hcount' hold (hlen _ (Nat.mod_lt _ hnum)) packetNum

/-- A reader that has fallen behind but still finds its packet in the ring gets it. -/
theorem fifoMultiRecv_recovers_behind : ∃ s tr,
    run multiStep (multiSysInit 2 4)
      [.write [1], .recv 4, .visit, .visit, .read false, .write [2], .write [3]] = some (s, tr) ∧
    ∃ rs, recvCalls s.ring 4 3 s.cursor = some rs ∧ ∃ r ∈ rs, r.copied ≠ none :=
  ⟨_, _, rfl, (fifoMultiRecv_recovers_iff 2 4 (by decide) (by decide)
    [.write [1], .recv 4, .visit, .visit, .read false, .write [2], .write [3]] _ _
    (by simp [MultiAction.Valid]) (by decide) rfl 4 (by decide) (by decide)).1.2
    (Or.inr ⟨1, by decide, by decide⟩)⟩

/-- A reader that got packet `0` and was then overtaken by two writes gets nothing from the packet
    in the ring, in however many calls. -/
theorem fifoMultiRecv_overtaken : ∃ s tr,
    (∀ a ∈ [MultiAction.write [1], .recv 4, .visit, .read false, .write [2], .write [3]], a.Valid) ∧
    run multiStep (multiSysInit 1 4)
      [.write [1], .recv 4, .visit, .read false, .write [2], .write [3]] = some (s, tr) ∧
    s.stage = .idle ∧ s.ring.Holds 0 2 ∧ s.cursor.packetIndex ≤ 2 ∧
    ∀ n, recvCalls s.ring 4 n s.cursor =
      some (List.replicate n ⟨⟨1, 1⟩, errorNoFoundPacket, none⟩) :=
  ⟨_, _, by simp [MultiAction.Valid], rfl, rfl, by decide, by decide, recvCalls_stuck rfl⟩

/-! ## One call as a run of its critical sections -/

/-- The walk from slot `i` on, as visits of one slot each. -/
theorem run_visits {m i len : Nat} {found : Cursor} (hi : i ≠ 0) (hm : m ≠ 0)
    (hnum : i + m = s.ring.bufPacketNum) (hstage : s.stage = .sync len i found) :
    ∃ n, run multiStep s (List.replicate n .visit) =
      some ({ s with cursor := syncLoop s.ring m i found, stage := .read len }, []) := by
  induction m generalizing s i found with
  | zero => exact absurd rfl hm
  | succ m ih =>
      have hvisit : multiStep s .visit =
          some (afterVisit s len i found (syncNext s.ring i found), []) := by
        simp [multiStep, hstage, hi]
      cases hc : syncNext s.ring i found with
      | none =>
          rw [hc] at hvisit
          refine ⟨1, run_cons_eq_some.2 ⟨_, [], [], hvisit, ?_, rfl⟩⟩
          simp [afterVisit, hi, syncLoop, hc]
      | some c =>
          rw [hc] at hvisit
          by_cases hlast : i + 1 < s.ring.bufPacketNum
          · obtain ⟨n, hrun⟩ := ih (s := { s with stage := .sync len (i + 1) c })
              (by omega) (by omega) (by simp only; omega) rfl
            refine ⟨n + 1, run_cons_eq_some.2 ⟨_, [], [], hvisit, ?_, rfl⟩⟩
            simpa [afterVisit, hlast, syncLoop, hc] using hrun
          · obtain rfl : m = 0 := by omega
            refine ⟨1, run_cons_eq_some.2 ⟨_, [], [], hvisit, ?_, rfl⟩⟩
            simp [afterVisit, hlast, syncLoop, hc]

/-- The start of a call and its walk, if there is one, leave the reader about to read with the
    cursor of the call. -/
theorem run_walk (len : Nat) (hnum : 1 ≤ s.ring.bufPacketNum) (hstage : s.stage = .idle) :
    ∃ n, run multiStep s (.recv len :: List.replicate n .visit) =
      some ({ s with cursor := recvCursor s.ring s.cursor, stage := .read len }, []) := by
  by_cases hzero : s.cursor.packetIndex = 0
  · have hstart : multiStep s (.recv len) = some ({ s with stage := .sync len 0 ⟨0, 0⟩ }, []) := by
      simp [multiStep, hstage, hzero]
    have hvisit : multiStep { s with stage := .sync len 0 ⟨0, 0⟩ } .visit =
        some (afterVisit { s with stage := .sync len 0 ⟨0, 0⟩ } len 0 ⟨0, 0⟩
          (syncFirst s.ring), []) := rfl
    rw [recvCursor, if_pos hzero, shmMultiReadSync]
    cases hc : syncFirst s.ring with
    | none =>
        rw [hc] at hvisit
        exact ⟨1, run_cons_eq_some.2 ⟨_, [], [], hstart,
          run_cons_eq_some.2 ⟨_, [], [], hvisit, rfl, rfl⟩, rfl⟩⟩
    | some c =>
        rw [hc] at hvisit
        by_cases hone : 0 + 1 < s.ring.bufPacketNum
        · obtain ⟨n, hrun⟩ := run_visits (s := { s with stage := .sync len (0 + 1) c })
            (m := s.ring.bufPacketNum - 1) (by omega) (by omega) (by simp only; omega) rfl
          refine ⟨n + 1, run_cons_eq_some.2 ⟨_, [], [], hstart,
            run_cons_eq_some.2 ⟨_, [], [], hvisit, ?_, rfl⟩, rfl⟩⟩
          simpa only [afterVisit, if_pos hone] using hrun
        · refine ⟨1, run_cons_eq_some.2 ⟨_, [], [], hstart,
            run_cons_eq_some.2 ⟨_, [], [], hvisit, ?_, rfl⟩, rfl⟩⟩
          rw [show s.ring.bufPacketNum - 1 = 0 by omega]
          simp only [afterVisit, if_neg hone]
          rfl
  · refine ⟨0, ?_⟩
    simp [run, multiStep, hstage, hzero, recvCursor]

/-- **A call with no write in between is a run of its critical sections**: the start, the visits of
    the walk if there is one, and the read. -/
theorem run_fifoMultiRecv {len : Nat} {r : MultiRead} (hnum : 1 ≤ s.ring.bufPacketNum)
    (hstage : s.stage = .idle) (h : fifoMultiRecv s.ring len s.cursor = some r) :
    ∃ n es, run multiStep s (.recv len :: (List.replicate n .visit ++ [.read false])) =
      some ({ s with cursor := r.cursor, stage := .idle }, es) ∧
      (deliveredPackets es).map Prod.snd = r.copied.toList := by
  obtain ⟨n, hrun⟩ := run_walk len hnum hstage
  generalize hs : { s with cursor := recvCursor s.ring s.cursor, stage := .read len } = s' at hrun
  have hread : multiStep s' (.read false) = some (afterRead s' r) := by
    rw [fifoMultiRecv] at h
    simp [multiStep, ← hs, h]
  refine ⟨n, (afterRead s' r).2, ?_, ?_⟩
  · rw [← List.cons_append]
    exact run_concat_eq_some.2 ⟨_, [], _, hrun, by rw [hread, afterRead, ← hs], rfl⟩
  · cases hr : r.copied <;> simp [afterRead, hr, deliveredPackets]

end XToolkits.Ipc
