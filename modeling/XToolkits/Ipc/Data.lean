import XToolkits.Ipc.Order
import XToolkits.Lib.WrapLayout

set_option autoImplicit false

/-! # Packet data of the packet ring

Entries are recycled one for one, data bytes as they run out: the sizes of all packets sent so far,
laid out one after the other round the data area, decide where each packet lies (`DataInv`). A write
spares the unread packets exactly when it ends within one turn of the start of each of them
(`FitsTurn`). The code does not test this; while it holds, every unread packet still has the bytes
it was sent with (`Intact`). -/

namespace XToolkits.Ipc

variable {N size : Nat} {p : Shm} {l : SlotLog Placed}

/-- The sizes of the packets sent so far. -/
def sentSizes (l : SlotLog Placed) : List Nat := l.written.map fun b => b.bytes.length

/-- A write to an entry lands on no data of an unread packet in another entry. -/
def Clean (l : SlotLog Placed) : SlotEvent Placed → Prop
  | .fill i b => ∀ e ∈ l.others i,
      Mem.Disjoint b.offset b.bytes.length e.pkt.offset e.pkt.bytes.length
  | _ => True

/-- With all packets sent so far laid out round a data area of `T` bytes, the next one ends within
    one turn of the start of every unread packet in another entry. -/
def FitsTurn (T : Nat) (l : SlotLog Placed) : SlotEvent Placed → Prop
  | .fill i b => ∀ e ∈ l.others i,
      place T (layoutEnd T (sentSizes l)) b.bytes.length + b.bytes.length ≤
        layoutStart T (sentSizes l) e.seq + T
  | _ => True

instance (T : Nat) (l : SlotLog Placed) : (e : SlotEvent Placed) → Decidable (FitsTurn T l e)
  | .fill i b => inferInstanceAs (Decidable (∀ e ∈ l.others i,
      place T (layoutEnd T (sentSizes l)) b.bytes.length + b.bytes.length ≤
        layoutStart T (sentSizes l) e.seq + T))
  | .take _ _ => .isTrue trivial
  | .clear => .isTrue trivial

/-- The data area against the log of its events. -/
structure DataInv (N size : Nat) (p : Shm) (l : SlotLog Placed) : Prop where
  total : p.bufTotalSize = N * size
  sizes : ∀ b ∈ l.written, 1 ≤ b.bytes.length ∧ b.bytes.length ≤ size
  next : p.bufNextWriteOffset = layoutEnd (N * size) (sentSizes l) % (N * size)
  offset : ∀ (k : Nat) (b : Placed), l.written[k]? = some b →
    b.offset = layoutStart (N * size) (sentSizes l) k % (N * size)

/-- Every unread packet lies within the last turn and has the bytes it was sent with. -/
structure Intact (T : Nat) (p : Shm) (l : SlotLog Placed) : Prop where
  turn : ∀ e ∈ l.live, layoutEnd T (sentSizes l) ≤ layoutStart T (sentSizes l) e.seq + T
  bytes : ∀ e ∈ l.live, p.buf.read e.pkt.offset e.pkt.bytes.length = e.pkt.bytes

@[simp] theorem sentSizes_fill (l : SlotLog Placed) (i : Nat) (b : Placed) :
    sentSizes (l.apply (.fill i b)) = sentSizes l ++ [b.bytes.length] := by
  simp [sentSizes, SlotLog.apply]

@[simp] theorem length_sentSizes (l : SlotLog Placed) : (sentSizes l).length = l.written.length := by
  simp [sentSizes]

theorem getElem?_sentSizes {k : Nat} {b : Placed} (h : l.written[k]? = some b) :
    (sentSizes l)[k]? = some b.bytes.length := by
  simp [sentSizes, h]

/-! ## Where a write goes -/

/-- A write goes where the layout places it. -/
theorem DataInv.write_offset (h : DataInv N size p l) (hsmall : N * size < 2 ^ 31) (hpos : 0 < N * size)
    {n : Nat} (hn : n ≤ N * size) :
    curPacketWriteOffset p n =
      place (N * size) (layoutEnd (N * size) (sentSizes l)) n % (N * size) := by
  have hlt := Nat.mod_lt (layoutEnd (N * size) (sentSizes l)) hpos
  rw [place_mod, curPacketWriteOffset, h.total, h.next, u32_of_lt (by omega)]

theorem DataInv.write (h : DataInv N size p l) (hN : 1 ≤ N) (hsmall : N * size < 2 ^ 31) (i : Nat)
    (header : Option (List UInt8)) {packet : List UInt8} (hlen : 1 ≤ packet.length)
    (hle : packet.length ≤ size) :
    DataInv N size (tbsbWriteOnePacket p header packet).1
      (l.apply (.fill i ⟨curPacketWriteOffset p packet.length, packet⟩)) := by
  have hsize : size ≤ N * size := Nat.le_mul_of_pos_left size hN
  have hoffset := h.write_offset hsmall (by omega) (n := packet.length) (by omega)
  rw [tbsbWriteOnePacket, if_neg (by omega)]
  refine ⟨h.total, List.forall_mem_append.2 ⟨h.sizes, ?_⟩, ?_, fun k b hk => ?_⟩
  · exact List.forall_mem_singleton.2 ⟨hlen, hle⟩
  · have hend := place_mod_add_le (v := layoutEnd (N * size) (sentSizes l)) (n := packet.length)
      (T := N * size) (by omega)
    rw [sentSizes_fill, layoutEnd_concat, add_mod_of_le hend]
    simp only [hoffset, h.total, u32_of_lt (show _ < 2 ^ 32 from Nat.lt_of_le_of_lt hend (by omega))]
    split <;> split <;> omega
  · rw [sentSizes_fill]
    have hlt := (List.getElem?_eq_some_iff.1 hk).1
    simp only [SlotLog.apply] at hk hlt
    by_cases hlast : k < l.written.length
    · rw [List.getElem?_append_left hlast] at hk
      rw [layoutStart_concat (by simpa using hlast)]
      exact h.offset k b hk
    · rw [List.length_append, List.length_singleton] at hlt
      obtain rfl : k = l.written.length := by omega
      rw [List.getElem?_concat_length, Option.some.injEq] at hk
      rw [← hk, ← length_sentSizes, layoutStart_last]
      exact hoffset

/-! ## When a write spares the unread packets -/

/-- **A write spares the unread packets exactly when it fits the turn.** -/
theorem clean_iff_fitsTurn (hwf : l.WF) (table : TbsbInv N p l) (h : DataInv N size p l)
    (intact : Intact (N * size) p l) (hN : 1 ≤ N) (hsmall : N * size < 2 ^ 31)
    {packet : List UInt8} (hle : packet.length ≤ size) (i : Nat) :
    Clean l (.fill i ⟨curPacketWriteOffset p packet.length, packet⟩) ↔
      FitsTurn (N * size) l (.fill i ⟨curPacketWriteOffset p packet.length, packet⟩) := by
  have hsize : size ≤ N * size := Nat.le_mul_of_pos_left size hN
  have hsizes : ∀ n ∈ sentSizes l, n ≤ size := by
    intro n hn
    obtain ⟨b, hb, rfl⟩ := List.mem_map.1 hn
    exact (h.sizes b hb).2
  refine forall_congr' fun e => forall_congr' fun he => ?_
  have hlive := (SlotLog.mem_others.1 he).1
  have hpkt := hwf.pkts e hlive
  have hseq := hwf.seq_lt hlive
  obtain ⟨hlen₁, hle₁⟩ := h.sizes _ (List.mem_of_getElem? hpkt)
  have hfirst := layoutStart_add_le (T := N * size) (by omega) (getElem?_sentSizes hpkt)
  have hplace := le_place (T := N * size) (v := layoutEnd (N * size) (sentSizes l))
    (n := packet.length) (by omega)
  have hfit₁ : layoutStart (N * size) (sentSizes l) e.seq % (N * size) + e.pkt.bytes.length ≤
      N * size := by
    rw [layoutStart, getElem?_sentSizes hpkt, Option.getD_some]
    exact place_mod_add_le (by omega)
  have hfit : place (N * size) (layoutEnd (N * size) (sentSizes l)) packet.length % (N * size) +
      packet.length ≤ N * size := place_mod_add_le (by omega)
  rw [h.write_offset hsmall (by omega) (by omega), h.offset _ _ hpkt, Mem.Disjoint]
  dsimp only
  constructor
  · intro hdisj
    by_contra hfar
    -- the write starts within a turn of the packet, so it runs over its first byte
    have hage := table.age e hlive
    have hstart := place_le_turn hsizes (n := packet.length) (by simpa using hseq)
      (by simp; omega) hle (intact.turn e hlive)
    have hmeet := offset_mem_of_turn (by omega) hstart hfit
    omega
  · intro hturn
    have hdisj := offsets_disjoint (Nat.le_trans hfirst hplace) hturn hfit₁ hlen₁
    omega

/-- While writes fit the turn, the unread packets keep their bytes. -/
theorem Intact.write (h : Intact (N * size) p l) (hwf : l.WF)
    (hN : 1 ≤ N) (i : Nat) (header : Option (List UInt8)) {packet : List UInt8}
    (hlen : 1 ≤ packet.length) (hle : packet.length ≤ size)
    (hclean : Clean l (.fill i ⟨curPacketWriteOffset p packet.length, packet⟩))
    (hturn : FitsTurn (N * size) l (.fill i ⟨curPacketWriteOffset p packet.length, packet⟩)) :
    Intact (N * size) (tbsbWriteOnePacket p header packet).1
      (l.apply (.fill i ⟨curPacketWriteOffset p packet.length, packet⟩)) := by
  rw [tbsbWriteOnePacket, if_neg (by omega)]
  constructor
  · refine SlotLog.forall_live_fill (fun e he hne => ?_) ?_
    · rw [sentSizes_fill, layoutEnd_concat, layoutStart_concat (by simpa using hwf.seq_lt he)]
      exact hturn e (SlotLog.mem_others.2 ⟨he, hne⟩)
    · rw [sentSizes_fill, layoutEnd_concat, ← length_sentSizes, layoutStart_last]
      have hsize : size ≤ N * size := Nat.le_mul_of_pos_left size hN
      show _ + packet.length ≤ _
      omega
  · refine SlotLog.forall_live_fill (fun e he hne => ?_) (Mem.read_write_self _ _ _)
    have hdisjoint := hclean e (SlotLog.mem_others.2 ⟨he, hne⟩)
    exact (Mem.read_write_of_disjoint _ hdisjoint).trans (h.bytes e he)

/-! ## Reading -/

theorem freeBeingUsed_data (p : Shm) :
    (freeBeingUsed p).buf = p.buf ∧ (freeBeingUsed p).bufNextWriteOffset = p.bufNextWriteOffset ∧
      (freeBeingUsed p).bufTotalSize = p.bufTotalSize := by
  unfold freeBeingUsed
  split <;> exact ⟨rfl, rfl, rfl⟩

theorem DataInv.free (h : DataInv N size p l) : DataInv N size (freeBeingUsed p) l := by
  obtain ⟨-, hnext, htotal⟩ := freeBeingUsed_data p
  exact ⟨htotal.trans h.total, h.sizes, hnext.trans h.next, h.offset⟩

theorem DataInv.take (h : DataInv N size p l) (i : Nat) (b : Placed) :
    DataInv N size (markBeingUsed p i) (l.apply (.take i b)) :=
  ⟨h.total, h.sizes, h.next, h.offset⟩

theorem Intact.free {T : Nat} (h : Intact T p l) : Intact T (freeBeingUsed p) l :=
  ⟨h.turn, (freeBeingUsed_data p).1 ▸ h.bytes⟩

theorem Intact.take {T : Nat} (h : Intact T p l) (i : Nat) (b : Placed) :
    Intact T (markBeingUsed p i) (l.apply (.take i b)) :=
  ⟨fun e he => h.turn e (SlotLog.mem_others.1 he).1,
    fun e he => h.bytes e (SlotLog.mem_others.1 he).1⟩

/-- What a read gets with a buffer that is large enough. -/
theorem recvResult_of_le (table : TbsbInv N p l) {e : Stored Placed} (he : e ∈ l.live) {n : Nat}
    (hn : e.pkt.bytes.length ≤ n) :
    recvResult p e.slot n =
      { entry := e.slot
        offset := e.pkt.offset
        rev := e.pkt.bytes.length
        copied := p.buf.read e.pkt.offset e.pkt.bytes.length
        header := p.headers.read ↑(e.slot * p.headerSize) p.headerSize } := by
  simp [recvResult, table.entry e he, hn]

/-! ## Runs -/

/-- The ring and its data area against the trace so far. -/
structure DataSysInv (N size : Nat) (tr : List ShmEvent) (s : ShmSys) : Prop where
  sys : SysInv N size tr s
  data : DataInv N size s.ring (SlotLog.ofTrace (slotTrace tr))
  rev : ∀ r, ShmEvent.received r ∈ tr → r.rev = r.copied.length
  iff : Each Clean (slotTrace tr) ∧ Each AsStored (slotTrace tr) ↔
    Each (FitsTurn (N * size)) (slotTrace tr)
  intact : Each (FitsTurn (N * size)) (slotTrace tr) →
    Intact (N * size) s.ring (SlotLog.ofTrace (slotTrace tr))

/-- Every step keeps the invariant. -/
theorem DataSysInv.step (hN : 2 ≤ N) (hsize : 1 ≤ size) (hsmall : N * size < 2 ^ 31)
    {tr : List ShmEvent} {s s' : ShmSys} {a : ShmAction} {es : List ShmEvent} (ha : a.Valid size)
    (h : DataSysInv N size tr s) (hstep : shmStep s a = some (s', es)) :
    DataSysInv N size (tr ++ es) s' := by
  have hwf := SlotLog.wf_ofTrace (slotTrace tr)
  have table := h.sys.table
  have hsys := h.sys.step hN hsize ha hstep
  rcases h.sys.step_cases hsize ha hstep with ⟨header, packet, -, hlen, hle, rfl, rfl⟩ |
      ⟨-, n, hn, -, rfl, rfl⟩ | ⟨-, n, hn, e, he, -, rfl, rfl⟩
  · have hclean : Each (FitsTurn (N * size)) (slotTrace tr) → _ := fun hfits =>
      clean_iff_fitsTurn hwf table h.data (h.intact hfits) (by omega) hsmall hle
        (curWriteIndex s.ring)
    refine ⟨hsys, ?_, by simpa using h.rev, ?_, ?_⟩ <;>
      simp only [slotTrace_concat, ShmEvent.slotEvents, SlotLog.ofTrace_concat, each_concat]
    · exact h.data.write (by omega) hsmall _ header hlen hle
    · constructor
      · rintro ⟨⟨hpre, hlast⟩, hstored, -⟩
        have hfits := h.iff.1 ⟨hpre, hstored⟩
        exact ⟨hfits, (hclean hfits).1 hlast⟩
      · rintro ⟨hfits, hlast⟩
        have hpre := h.iff.2 hfits
        exact ⟨⟨hpre.1, (hclean hfits).2 hlast⟩, hpre.2, trivial⟩
    · rintro ⟨hfits, hlast⟩
      exact (h.intact hfits).write hwf (by omega) _ header hlen hle ((hclean hfits).2 hlast) hlast
  · simp only [List.append_nil] at hsys ⊢
    exact ⟨hsys, h.data.free, h.rev, h.iff, fun hfits => (h.intact hfits).free⟩
  · have hpkt := List.mem_of_getElem? (hwf.pkts e he)
    have hres := recvResult_of_le table.free he (n := n) (Nat.le_trans (h.data.sizes _ hpkt).2 hn)
    have hrev : ∀ r, ShmEvent.received r ∈
        tr ++ [.received (recvResult (freeBeingUsed s.ring) e.slot n)] → r.rev = r.copied.length := by
      intro r hr
      rcases List.mem_append.1 hr with hr | hr
      · exact h.rev r hr
      · cases List.mem_singleton.1 hr
        simp [hres]
    refine ⟨hsys, ?_, hrev, ?_, ?_⟩ <;>
      simp only [slotTrace_concat, ShmEvent.slotEvents, SlotLog.ofTrace_concat, each_concat]
    · exact h.data.free.take _ _
    · -- an intact packet is received as it was sent
      have hstored : Each (FitsTurn (N * size)) (slotTrace tr) →
          AsStored (SlotLog.ofTrace (slotTrace tr)) (.take
            (recvResult (freeBeingUsed s.ring) e.slot n).entry
            ⟨(recvResult (freeBeingUsed s.ring) e.slot n).offset,
              (recvResult (freeBeingUsed s.ring) e.slot n).copied⟩) := fun hfits => by
        rw [hres]
        exact ⟨e, he, rfl, by rw [(h.intact hfits).free.bytes e he]⟩
      constructor
      · rintro ⟨⟨hpre, -⟩, hold, -⟩
        exact ⟨h.iff.1 ⟨hpre, hold⟩, trivial⟩
      · rintro ⟨hfits, -⟩
        have hpre := h.iff.2 hfits
        exact ⟨⟨hpre.1, trivial⟩, hpre.2, hstored hfits⟩
    · rintro ⟨hfits, -⟩
      exact (h.intact hfits).free.take _ _

/-- Every run keeps the invariant. -/
theorem DataSysInv.run (hN : 2 ≤ N) (hsize : 1 ≤ size) {ring : Shm}
    (hring : fifoCreat N size = some ring) {as : List ShmAction} {s : ShmSys} {tr : List ShmEvent}
    (hvalid : ∀ a ∈ as, a.Valid size) (hrun : run shmStep ⟨ring, none⟩ as = some (s, tr)) :
    DataSysInv N size tr s := by
  have hsys := sysInv_creat (by omega) hring
  simp only [fifoCreat] at hring
  split at hring
  · next hfits =>
      cases hring
      have hsmall : N * size < 2 ^ 31 := by
        rw [Nat.mul_comm]
        exact Nat.lt_of_le_of_lt (le_totalBufferSize sizeofHeaderInfo N size) hfits
      refine run_induction (·.Valid size) (DataSysInv N size) ?_ ?_ hvalid hrun
      · refine ⟨hsys, ⟨?_, ?_, ?_, ?_⟩, by simp, ?_, fun _ => ⟨?_, ?_⟩⟩
        · exact Nat.mul_comm _ _
        · simp [SlotLog.empty]
        · simp [tbsbInit, SlotLog.empty, sentSizes]
        · simp [SlotLog.empty]
        · exact iff_of_true ⟨Each.nil _, Each.nil _⟩ (Each.nil _)
        · simp [SlotLog.empty]
        · simp [SlotLog.empty]
      · exact fun tr s a s' es ha h hstep => h.step hN hsize hsmall ha hstep
  · cases hring

/-- **The bytes received are the bytes sent, while writes fit the turn.** On a ring of two entries
    or more made by `fifo_creat`, with any number of senders and one receiver, every read returns
    the number of bytes it copied. No write lands on the data of another unread entry and every read
    copies what its entry was last filled with, exactly when every packet, laid out round the data
    area after all packets sent before it, ends within one turn of the start of every packet that
    is unread in another entry. -/
theorem fifoRecv_bytes_iff (packetNum packetSize : Nat) (hnum : 2 ≤ packetNum)
    (hsize : 1 ≤ packetSize) (ring : Shm) (hring : fifoCreat packetNum packetSize = some ring)
    (as : List ShmAction) (s : ShmSys) (tr : List ShmEvent)
    (hvalid : ∀ a ∈ as, a.Valid packetSize) (hrun : run shmStep ⟨ring, none⟩ as = some (s, tr)) :
    (∀ r, ShmEvent.received r ∈ tr → r.rev = r.copied.length) ∧
    (Each Clean (slotTrace tr) ∧ Each AsStored (slotTrace tr) ↔
      Each (FitsTurn (packetNum * packetSize)) (slotTrace tr)) := by
  have inv := DataSysInv.run hnum hsize hring hvalid hrun
  exact ⟨inv.rev, inv.iff⟩

/-- **A witness**: the last of four packets does not fit behind the third one and goes to the start of
    the area; each is received as it was sent. -/
theorem fifoRecv_bytes_lap : ∃ ring s tr, fifoCreat 3 2 = some ring ∧
    run shmStep ⟨ring, none⟩ [.send none [1, 2], .send none [3], .recvStart 2, .send none [4, 5],
      .recvStart 2, .send none [6, 7], .recvStart 2, .recvStart 2] = some (s, tr) ∧
    (∀ r, ShmEvent.received r ∈ tr → r.rev = r.copied.length) ∧
    Each Clean (slotTrace tr) ∧ Each AsStored (slotTrace tr) := by
  have hfits : Each (FitsTurn 6) [.fill 0 ⟨0, [1, 2]⟩, .fill 1 ⟨2, [3]⟩, .take 0 ⟨0, [1, 2]⟩,
      .fill 2 ⟨3, [4, 5]⟩, .take 1 ⟨2, [3]⟩, .fill 0 ⟨0, [6, 7]⟩, .take 2 ⟨3, [4, 5]⟩,
      .take 0 ⟨0, [6, 7]⟩] := by decide
  have h := fifoRecv_bytes_iff 3 2 (by decide) (by decide) _ rfl
    [.send none [1, 2], .send none [3], .recvStart 2, .send none [4, 5], .recvStart 2,
      .send none [6, 7], .recvStart 2, .recvStart 2] _ _ (by simp [ShmAction.Valid]) rfl
  exact ⟨_, _, _, rfl, rfl, h.1, h.2.2 hfits⟩

/-- The third packet goes to entry `0`, but at offset `0` its second byte lies on the packet that is
    unread in entry `1`, which is received altered. -/
theorem fifoRecv_bytes_altered : ∃ ring s tr, fifoCreat 2 2 = some ring ∧
    (∀ a ∈ [ShmAction.send none [1], .send none [3, 4], .send none [5, 6], .recvStart 2,
      .recvStart 2], a.Valid 2) ∧
    run shmStep ⟨ring, none⟩
      [.send none [1], .send none [3, 4], .send none [5, 6], .recvStart 2, .recvStart 2] =
        some (s, tr) ∧
    tr.getLast? = some (.received ⟨1, 1, 2, [6, 4], List.replicate 8 0⟩) ∧
    ¬ Each AsStored (slotTrace tr) := by
  refine ⟨_, _, _, rfl, by simp [ShmAction.Valid], rfl, rfl, fun h => ?_⟩
  have hstored := h [.fill 0 ⟨0, [1]⟩, .fill 1 ⟨1, [3, 4]⟩, .fill 0 ⟨0, [5, 6]⟩,
    .take 0 ⟨0, [5, 6]⟩] (.take 1 ⟨1, [6, 4]⟩) [] rfl
  exact absurd hstored (by decide)

end XToolkits.Ipc
