import Mathlib.Data.Finset.Card
import Mathlib.Data.Finset.Range
import XToolkits.Ipc.Calls

set_option autoImplicit false

/-! # Reads whose buffer is too small

`tbsb_read_one_packet` does not copy a packet that is larger than the caller's buffer, and returns
-1. It has come to the entry by then, and goes on as if it had been read: the read index moves on, and
the entry is the one being used, which the next read gives up. -/

namespace XToolkits.Ipc

/-- The number of unread packets. -/
def unreadNum (p : Shm) : Nat :=
  ((Finset.range p.bufPacketNum).filter fun i =>
    (p.packets i).packetState = .valid ∧ p.shmIndexForBeingUsed ≠ some i).card

/-- A read that comes after the one with the result `r`, with a buffer that is large enough for the
    packet of the entry, returns that packet. -/
def ReturnedNext (s s' : ShmSys) (r : RecvResult) : Prop :=
  ∀ packetSize : Int, (s.ring.packets r.entry).packetSize ≤ packetSize →
    ∃ t r', tbsbStep s' (.readStart packetSize) = some (t, [.received r']) ∧ r'.entry = r.entry ∧
      r'.rev = (s.ring.packets r.entry).packetSize ∧
      r'.copied = s.ring.buf.read (s.ring.packets r.entry).packetOffset
        (s.ring.packets r.entry).packetSize

/-- The read from `s` to `s'` with the result `r` loses nothing. -/
def LosesNothing (s s' : ShmSys) (r : RecvResult) : Prop :=
  ReturnedNext s s' r ∧ unreadNum s'.ring = unreadNum s.ring

variable {N : Nat} {p : Shm} {l : SlotLog Placed} {s s' : ShmSys} {a : ShmAction}

/-- The unread packets are those that wait in the log. -/
theorem TbsbInv.unreadNum_eq (h : TbsbInv N p l) (hwf : l.WF) : unreadNum p = l.live.length := by
  have hunread : (Finset.range p.bufPacketNum).filter (fun i =>
      (p.packets i).packetState = .valid ∧ p.shmIndexForBeingUsed ≠ some i) =
      (l.live.map Stored.slot).toFinset := by
    ext i
    rw [Finset.mem_filter, Finset.mem_range, List.mem_toFinset, List.mem_map, h.num]
    constructor
    · rintro ⟨hi, hunread⟩
      exact (h.unread_iff hi).1 hunread
    · rintro ⟨e, he, rfl⟩
      exact ⟨h.slot_lt e he, (h.unread_iff (h.slot_lt e he)).2 ⟨e, he, rfl⟩⟩
  have hslots : (l.live.map Stored.slot).Nodup :=
    List.pairwise_map.2 (hwf.slots.imp fun hne => hne)
  rw [unreadNum, hunread, List.toFinset_card_of_nodup hslots, List.length_map]

/-- **A read that comes to a packet**, whether it copies it or not: the packet is no longer one of the
    unread ones, and the next read does not come to it. -/
theorem TableSys.received (hN : 2 ≤ N) {tr : List ShmEvent}
    (h : TableSys N (SlotLog.ofTrace (slotTrace tr)) s) {r : RecvResult}
    (hstep : shmStep s a = some (s', [.received r])) :
    unreadNum s'.ring + 1 = unreadNum s.ring ∧
      ∀ n t r', shmStep s' (.recvStart n) = some (t, [.received r']) → r'.entry ≠ r.entry := by
  have hwf := SlotLog.wf_ofTrace (slotTrace tr)
  obtain ⟨h', -⟩ := h.step hN hstep
  rcases h.step_cases hstep with ⟨-, -, hes⟩ | ⟨header, packet, -, -, -, hes⟩ | ⟨n, -, -, -, hes⟩ |
      ⟨n, -, e, he, -, -, hes⟩
  · cases hes
  · cases hes
  · cases hes
  · obtain rfl : r = recvResult (freeBeingUsed s.ring) e.slot n := by simpa using hes
    have hlive : (SlotLog.ofTrace (slotTrace (tr ++ [.received (recvResult
        (freeBeingUsed s.ring) e.slot n)]))).live = (SlotLog.ofTrace (slotTrace tr)).others e.slot := by
      simp only [slotTrace_concat, ShmEvent.slotEvents, SlotLog.ofTrace_concat]
      rfl
    refine ⟨?_, fun m t r' hnext => ?_⟩
    · rw [h'.table.unreadNum_eq (SlotLog.wf_ofTrace _), h.table.unreadNum_eq hwf, hlive]
      exact hwf.length_others he
    · rcases h'.step_cases hnext with ⟨-, -, hes⟩ | ⟨header, packet, -, -, -, hes⟩ |
          ⟨m, -, -, -, hes⟩ | ⟨m, -, e', he', -, -, hes⟩
      · cases hes
      · cases hes
      · cases hes
      · obtain rfl : r' = recvResult (freeBeingUsed s'.ring) e'.slot m := by simpa using hes
        rw [hlive] at he'
        exact (SlotLog.mem_others.1 he').2

/-- A read that fails copies nothing. -/
theorem copied_of_failed {n i : Nat} (hfailed : (recvResult p i n).rev = -1) :
    (recvResult p i n).copied = [] := by
  simp only [recvResult] at hfailed ⊢
  split at hfailed
  · omega
  · next hsmall => rw [if_neg hsmall]

theorem TableSys.copied_of_failed {tr : List ShmEvent}
    (h : TableSys N (SlotLog.ofTrace (slotTrace tr)) s) {r : RecvResult}
    (hstep : shmStep s a = some (s', [.received r])) (hfailed : r.rev = -1) : r.copied = [] := by
  rcases h.step_cases hstep with ⟨-, -, hes⟩ | ⟨header, packet, -, -, -, hes⟩ | ⟨n, -, -, -, hes⟩ |
      ⟨n, -, e, -, -, -, hes⟩
  · cases hes
  · cases hes
  · cases hes
  · obtain rfl : r = recvResult (freeBeingUsed s.ring) e.slot n := by simpa using hes
    exact Ipc.copied_of_failed hfailed

/-- **A read that fails for lack of buffer loses its packet**, from every reachable state of a ring
    of two entries or more: nothing is copied, the packet is not one of the unread ones any more,
    and the next read does not return it, however large its buffer. -/
theorem tbsbRead_short_loses (packetNum packetSize : Nat) (hnum : 2 ≤ packetNum) (ring : Shm)
    (hring : Created packetNum packetSize ring) (as : List TbsbAction) (s : ShmSys)
    (tr : List ShmEvent) (hrun : run tbsbStep ⟨ring, none⟩ as = some (s, tr)) (a : TbsbAction)
    (s' : ShmSys) (r : RecvResult) (hstep : tbsbStep s a = some (s', [.received r]))
    (hfailed : r.rev = -1) :
    ¬ LosesNothing s s' r ∧ r.copied = [] ∧ unreadNum s'.ring + 1 = unreadNum s.ring ∧
      ∀ n t r', tbsbStep s' (.readStart n) = some (t, [.received r']) → r'.entry ≠ r.entry := by
  obtain ⟨h, -⟩ := tableSys_run hnum hring hrun
  obtain ⟨hcount, hnext⟩ := h.received hnum hstep
  refine ⟨fun hnothing => ?_, h.copied_of_failed hstep hfailed, hcount,
    fun n t r' hread => hnext n.toNat t r' hread⟩
  have heq := hnothing.2
  omega

/-- Of two packets the larger one comes first, and is read with a buffer for the other one. -/
theorem tbsbRead_short_loses_first : ∃ ring s tr s' r, fifoCreat 2 4 = some ring ∧
    run tbsbStep ⟨ring, none⟩ [.write none (some fun _ => 7) 2, .write none (some fun _ => 8) 1] =
      some (s, tr) ∧
    tbsbStep s (.readStart 1) = some (s', [.received r]) ∧ r.rev = -1 ∧
    r.copied = [] ∧ unreadNum s'.ring + 1 = unreadNum s.ring :=
  have h := tbsbRead_short_loses 2 4 (by decide) _ (.fifo rfl)
    [.write none (some fun _ => 7) 2, .write none (some fun _ => 8) 1] _ _ rfl (.readStart 1) _ _ rfl rfl
  ⟨_, _, _, _, _, rfl, rfl, rfl, rfl, h.2.1, h.2.2.1⟩

/-- The only packet is read with a buffer that is too small: the next read waits. -/
theorem tbsbRead_short_waits : ∃ ring s tr s' r, fifoCreat 2 4 = some ring ∧
    run tbsbStep ⟨ring, none⟩ [.write none (some fun _ => 7) 2] = some (s, tr) ∧
    tbsbStep s (.readStart 1) = some (s', [.received r]) ∧ r.rev = -1 ∧
    (tbsbStep s' (.readStart 4)).map (fun t => (t.1.waiting, t.2)) = some (some 4, []) ∧
    ¬ LosesNothing s s' r := by
  refine ⟨_, _, _, _, _, rfl, rfl, rfl, rfl, rfl, fun hnothing => ?_⟩
  obtain ⟨t, r', hread, -⟩ := hnothing.1 4 (by decide)
  have hes : some [] = some [ShmEvent.received r'] := congrArg (Option.map Prod.snd) hread
  cases hes

end XToolkits.Ipc
