import XToolkits.Comm.Delivery
import XToolkits.Comm.Rounds

set_option autoImplicit false

/-! # Room in the receive buffer

`comm_tcp_recv` asks `recv` for as many bytes as are free in the buffer, and takes the result `0`
for the end of the connection. A full buffer asks for none. What `comm_raw_parse` leaves fills the
buffer when the message at its front does not fit in it (`FillsUp`), and in no other case
(`commTcpRecv_room`). A line of the client has up to 1023 bytes, and a message with more than 960
does not fit. -/

namespace XToolkits.Comm

/-! ## One `recv` -/

/-- The next `recv` is asked for at least one byte. -/
def ListTcpReq.HasRoom (req : ListTcpReq) : Prop := 0 < req.maxBufLen - req.curRecvOffset

/-- The loop of `comm_raw_parse` at its start, when `recv` has returned `received`. -/
def ListTcpReq.recvStart (req : ListTcpReq) (received : List UInt8) : ParseTop :=
  ⟨req.buffer.write req.curRecvOffset received, req.curRecvOffset + received.length, 0⟩

/-- What was received fills the buffer, and the message at its front does not fit in it. -/
structure FillsUp (req : ListTcpReq) (received : List UInt8) : Prop where
  full : req.curRecvOffset + received.length = req.maxBufLen
  sync : (req.recvStart received).buffer.read 0 4 = syncFlag
  long : req.maxBufLen <
    wrapS32 (headerLen + loadInt (req.recvStart received).buffer headerMsgLenOffset)

/-- `recv` returns no more than it was asked for, and every message that the loop meets takes at
    least one byte. -/
structure Advancing (cb : Option MsgCallback) (req : ListTcpReq) (received : List UInt8) :
    Prop where
  fits : received.length ≤ req.maxBufLen - req.curRecvOffset
  advances : 0 < received.length →
    ∀ s calls, TopOfLoop cb (req.recvStart received) s calls → s.Advances

/-- A connection whose buffer of `maxBufLen` bytes has room. -/
structure ListTcpReq.Ready (maxBufLen : Nat) (req : ListTcpReq) : Prop where
  size : req.maxBufLen = maxBufLen
  offset : 0 ≤ req.curRecvOffset
  room : req.HasRoom

variable {maxBufLen fuel : Nat} {cb : Option MsgCallback} {req req' : ListTcpReq} {c : List UInt8}
  {cs : List (List UInt8)}

/-- The scan of a full buffer stays at its front exactly when the sync code is there. -/
theorem scan_front_iff (h4 : 4 ≤ maxBufLen) (m : Mem UInt8) :
    commFindMagicNum syncFlag m 0 maxBufLen = 0 ↔ m.read 0 4 = syncFlag := by
  have htake : (m.read 0 maxBufLen).take 4 = m.read 0 4 := Mem.take_read m 0 maxBufLen 4 h4
  constructor
  · intro hzero
    obtain ⟨-, -, hstop⟩ := commFindMagicNum_spec m 0 maxBufLen
    rw [hzero, Int.natCast_zero, Int.zero_add, Nat.sub_zero] at hstop
    rw [← htake]
    exact take_of_mismatch (hstop.resolve_left (by omega))
  · intro hsync
    refine commFindMagicNum_stay fun _ => ?_
    rw [← List.take_append_drop 4 (m.read 0 maxBufLen), htake, hsync]
    exact mismatch_self_append syncFlag _ 0

/-- What was received fills up a full buffer exactly when the loop breaks in its first round with
    everything left. -/
theorem fillsUp_iff (cb : Option MsgCallback) (h40 : 40 ≤ maxBufLen)
    (hsize : req.maxBufLen = maxBufLen) (hfull : req.curRecvOffset + c.length = maxBufLen) :
    FillsUp req c ↔ rawParseRound cb (req.recvStart c) = none ∧
      (req.recvStart c).scan.leftLen = maxBufLen := by
  have hleft : (req.recvStart c).leftLen = maxBufLen := hfull
  have hscan : (req.recvStart c).scan.leftLen = maxBufLen ↔
      commFindMagicNum syncFlag (req.recvStart c).buffer 0 maxBufLen = 0 := by
    show (req.recvStart c).leftLen -
      (commFindMagicNum syncFlag (req.recvStart c).buffer 0 (req.recvStart c).leftLen : Int) = _ ↔ _
    rw [hleft]
    omega
  have hself (hzero : commFindMagicNum syncFlag (req.recvStart c).buffer 0 maxBufLen = 0) :
      (req.recvStart c).scan = req.recvStart c :=
    ParseTop.scan_eq_self (by rw [hleft]; exact hzero)
  have hmsg (hzero : commFindMagicNum syncFlag (req.recvStart c).buffer 0 maxBufLen = 0) :
      (req.recvStart c).msgLen =
        wrapS32 (headerLen + loadInt (req.recvStart c).buffer headerMsgLenOffset) := by
    rw [ParseTop.msgLen, ParseTop.msgDataLen, hself hzero]
    exact congrArg (fun a => wrapS32 (headerLen + loadInt _ a)) (Int.zero_add _)
  constructor
  · rintro ⟨-, hsync, hlong⟩
    have hzero := (scan_front_iff (Nat.le_trans (by decide) h40) _).2 hsync
    refine ⟨?_, hscan.2 hzero⟩
    rw [rawParseRound, hself hzero, hmsg hzero, hleft, if_neg]
    rw [hsize] at hlong
    omega
  · rintro ⟨hround, hall⟩
    have hzero := hscan.1 hall
    refine ⟨by rw [hfull, hsize], (scan_front_iff (Nat.le_trans (by decide) h40) _).1 hzero, ?_⟩
    rw [rawParseRound, hmsg hzero, hall] at hround
    split at hround
    · cases hround
    · case isFalse hshort =>
        have h0 : headerLen = 40 := rfl
        rw [hsize]
        omega

theorem ListTcpReq.recvStart_inRange {off : Nat} (hoff : req.curRecvOffset = off)
    (c : List UInt8) : (req.recvStart c).InRange ↑(off + c.length) where
  left := by
    simp only [ListTcpReq.recvStart, hoff]
    omega
  drop := Int.le_refl 0
  sum := by
    simp only [ListTcpReq.recvStart, hoff]
    omega

/-- A `recv` whose messages take at least one byte each ends: the loop does, and what it leaves goes
    to the front of the buffer. -/
theorem commTcpRecv_ends {off : Nat} (hoff : req.curRecvOffset = off) (hc : 0 < c.length)
    (hmax : off + c.length < 2 ^ 31) (hfuel : off + c.length < fuel)
    (hadv : ∀ s calls, TopOfLoop cb (req.recvStart c) s calls → s.Advances) :
    ∃ t m, ∃ left : Nat, rawParseLoop cb syncFlag headerLen headerMsgLenOffset fuel
        (req.recvStart c).buffer (req.recvStart c).leftLen (req.recvStart c).dropLen = some t ∧
      t.leftLen = left ∧ 0 ≤ t.dropLen ∧ t.dropLen + left = ↑(off + c.length) ∧
      commTcpRecv fuel cb req c = some (⟨m, left, req.maxBufLen⟩, t.calls) ∧
      m.read 0 left = t.buffer.read t.dropLen left ∧
      (rawParseRound cb (req.recvStart c) = none ∧ t.leftLen = (req.recvStart c).scan.leftLen ∨
        (rawParseRound cb (req.recvStart c)).isSome ∧ t.leftLen < ↑(off + c.length)) := by
  have hleft : (req.recvStart c).leftLen = ↑(off + c.length) := by
    simp only [ListTcpReq.recvStart, hoff, Int.natCast_add]
  obtain ⟨t, hloop, hdrop, hnonneg, hsum, hcases⟩ := rawParseLoop_ends (by omega)
    (show (req.recvStart c).leftLen < fuel by omega) (ListTcpReq.recvStart_inRange hoff c) hadv
  obtain ⟨left, htleft⟩ := Int.eq_ofNat_of_zero_le hnonneg
  have hloop' := hloop
  rw [hleft] at hloop' hcases
  simp only [ListTcpReq.recvStart, hoff] at hloop'
  obtain ⟨m, hrecv, hmoved⟩ := commTcpRecv_of_loop hoff hc hloop' htleft
  exact ⟨t, m, left, hloop, htleft, hdrop, htleft ▸ hsum, hrecv, hmoved, hcases⟩

/-- **One `recv`** leaves room exactly when it does not fill the buffer up. -/
theorem commTcpRecv_room (h40 : 40 ≤ maxBufLen) (hmax : maxBufLen < 2 ^ 31)
    (hfuel : maxBufLen < fuel) (hreq : req.Ready maxBufLen) (hadv : Advancing cb req c) :
    ∃ req' calls, commTcpRecv fuel cb req c = some (req', calls) ∧ req'.maxBufLen = maxBufLen ∧
      0 ≤ req'.curRecvOffset ∧ (req'.HasRoom ↔ ¬ FillsUp req c) := by
  obtain ⟨off, hoff⟩ := Int.eq_ofNat_of_zero_le hreq.offset
  have hsize := hreq.size
  have hroom := hreq.room
  have hfits := hadv.fits
  rw [ListTcpReq.HasRoom, hoff, hsize] at hroom
  rw [hoff, hsize] at hfits
  by_cases hc : 0 < c.length
  · obtain ⟨t, m, left, -, htleft, -, -, hrecv, -, hcases⟩ :=
      commTcpRecv_ends hoff hc (by omega) (show off + c.length < fuel by omega) (hadv.advances hc)
    refine ⟨_, _, hrecv, hsize, Int.natCast_nonneg left, ?_⟩
    show 0 < req.maxBufLen - (left : Int) ↔ _
    rw [hsize]
    have hle : (req.recvStart c).scan.leftLen ≤ (req.recvStart c).leftLen :=
      Int.sub_le_self _ (Int.natCast_nonneg _)
    have hleft : (req.recvStart c).leftLen = ↑(off + c.length) := by
      simp only [ListTcpReq.recvStart, hoff, Int.natCast_add]
    by_cases hfull : req.curRecvOffset + c.length = maxBufLen
    · rw [fillsUp_iff cb h40 hsize hfull]
      rcases hcases with ⟨hnone, heq⟩ | ⟨hsome, hlt⟩
      · rw [and_iff_right hnone]
        omega
      · refine iff_of_true (by omega) fun h => ?_
        rw [h.1] at hsome
        cases hsome
    · refine iff_of_true ?_ fun hfill => hfull (hfill.full.trans hsize)
      rcases hcases with ⟨-, heq⟩ | ⟨-, hlt⟩ <;> omega
  · have hnil : commTcpRecv fuel cb req c = some (req, []) := if_neg hc
    refine ⟨req, [], hnil, hsize, hreq.offset, iff_of_true hreq.room fun hfill => ?_⟩
    have hfull := hfill.full
    rw [hoff, hsize] at hfull
    omega

/-! ## Runs -/

/-- **A run has room** in every state exactly when no `recv` of it fills the buffer up. -/
theorem run_room_iff (h40 : 40 ≤ maxBufLen) (hmax : maxBufLen < 2 ^ 31) (hfuel : maxBufLen < fuel)
    (hreq : req.Ready maxBufLen) (hcs : EachStep (commTcpRecv fuel cb) (Advancing cb) req cs) :
    EachState (commTcpRecv fuel cb) ListTcpReq.HasRoom req cs ↔
      EachStep (commTcpRecv fuel cb) (fun req c => ¬ FillsUp req c) req cs := by
  induction cs generalizing req with
  | nil => exact iff_of_true (eachState_nil.2 hreq.room) (EachStep.nil _ req)
  | cons c cs ih =>
      have hadv := (eachStep_cons.1 hcs).1
      obtain ⟨req', calls, hrecv, hsize, hoff, hroom⟩ := commTcpRecv_room h40 hmax hfuel hreq hadv
      rw [eachStep_cons_of_step hrecv] at hcs ⊢
      rw [eachState_cons_of_step hrecv, and_iff_right hreq.room]
      by_cases hfill : FillsUp req c
      · refine iff_of_false (fun h => ?_) fun h => h.1 hfill
        exact hroom.1 (h [] cs req' [] rfl rfl) hfill
      · rw [and_iff_right hfill]
        exact ih ⟨hsize, hoff, hroom.2 hfill⟩ hcs.2

/-! ## The messages of the client -/

/-- Chunks that `recv` returns of the messages with the payloads given, when none goes past the end
    of a message. Of the first message, `left` has come before. -/
inductive Within : List UInt8 → List (List UInt8) → List (List UInt8) → Prop
  | nil (left ps) : Within left [] ps
  | inside {left c cs p ps} : left ++ c <+: frame p → left.length + c.length < 40 + p.length →
      Within (left ++ c) cs (p :: ps) → Within left (c :: cs) (p :: ps)
  | whole {left c cs p ps} : left ++ c = frame p → Within [] cs ps →
      Within left (c :: cs) (p :: ps)

variable {left : List UInt8} {ps : List (List UInt8)}

/-- A message that fits the buffer leaves room as long as it is not whole. -/
theorem ListTcpReq.Holds.hasRoom (hreq : req.Holds left) (hsize : req.maxBufLen = maxBufLen)
    (hlt : left.length < maxBufLen) : req.HasRoom := by
  rw [ListTcpReq.HasRoom, hreq.offset, hsize]
  omega

/-- While every message fits the buffer, one chunk fits the room there is, and what is left of the
    messages is of the same kind. -/
theorem within_step (hmax : maxBufLen < 2 ^ 31) (hwithin : Within left (c :: cs) ps)
    (hps : ∀ p ∈ ps, 40 + p.length ≤ maxBufLen) (hc : 0 < c.length) (hreq : req.Holds left)
    (hsize : req.maxBufLen = maxBufLen) (hleft : left.length < maxBufLen) :
    left.length + c.length ≤ maxBufLen ∧ ∃ req' calls left' ps',
      commTcpRecv (fuel + 2) (some commMsgParse) req c = some (req', calls) ∧
      Within left' cs ps' ∧ (∀ p ∈ ps', 40 + p.length ≤ maxBufLen) ∧ req'.Holds left' ∧
      req'.maxBufLen = maxBufLen ∧ left'.length < maxBufLen := by
  cases hwithin with
  | @inside _ _ _ p ps hfront hlt hrest =>
      have hp := hps p (List.mem_cons_self ..)
      obtain ⟨ys, hys⟩ := hfront
      obtain ⟨req', hrecv, hsize', hreq'⟩ := commTcpRecv_wait hreq hc ⟨ys, [], by simpa using hys⟩
        hlt (by omega) (some commMsgParse)
      exact ⟨by omega, req', _, _, _, hrecv, hrest, hps, hreq', hsize'.trans hsize,
        by rw [List.length_append]; omega⟩
  | @whole _ _ _ p ps hwhole hrest =>
      have hp := hps p (List.mem_cons_self ..)
      have hlen := congrArg List.length hwhole
      rw [List.length_append, length_frame] at hlen
      obtain ⟨req', hrecv, hsize', hreq'⟩ := commTcpRecv_whole hreq hc hwhole (by omega)
      exact ⟨by omega, req', _, _, _, hrecv, hrest, fun q hq => hps q (List.mem_cons_of_mem p hq),
        hreq', hsize'.trans hsize, by rw [List.length_nil]; omega⟩

/-- While every message fits the buffer, there is room for more of the first one. -/
theorem within_room (hmax : maxBufLen < 2 ^ 31) (hwithin : Within left cs ps)
    (hps : ∀ p ∈ ps, 40 + p.length ≤ maxBufLen) (hreq : req.Holds left)
    (hsize : req.maxBufLen = maxBufLen) (hleft : left.length < maxBufLen)
    (hcs : Receivable (fuel + 2) (some commMsgParse) req cs) :
    EachState (commTcpRecv (fuel + 2) (some commMsgParse)) ListTcpReq.HasRoom req cs := by
  induction cs generalizing req left ps with
  | nil => exact eachState_nil.2 (hreq.hasRoom hsize hleft)
  | cons c cs ih =>
      obtain ⟨hc, -, hnext⟩ := hcs
      obtain ⟨-, req', calls, left', ps', hrecv, hrest, hps', hreq', hsize', hleft'⟩ :=
        within_step hmax hwithin hps hc hreq hsize hleft
      refine (eachState_cons_of_step hrecv).2 ⟨hreq.hasRoom hsize hleft, ?_⟩
      exact ih hrest hps' hreq' hsize' hleft' (hnext _ _ hrecv)

/-- Chunks that are not empty can be received while every message fits the buffer. -/
theorem within_receivable (hmax : maxBufLen < 2 ^ 31) (hwithin : Within left cs ps)
    (hps : ∀ p ∈ ps, 40 + p.length ≤ maxBufLen) (hcs : ∀ c ∈ cs, 0 < c.length)
    (hreq : req.Holds left) (hsize : req.maxBufLen = maxBufLen) (hleft : left.length < maxBufLen) :
    Receivable (fuel + 2) (some commMsgParse) req cs := by
  induction cs generalizing req left ps with
  | nil => trivial
  | cons c cs ih =>
      have hc := hcs c (List.mem_cons_self ..)
      have hoff : req.curRecvOffset = left.length := hreq.offset
      obtain ⟨hfits, req', calls, left', ps', hrecv, hrest, hps', hreq', hsize', hleft'⟩ :=
        within_step hmax hwithin hps hc hreq hsize hleft
      refine ⟨hc, by omega, fun req'' calls' heq => ?_⟩
      obtain ⟨rfl, -⟩ := Prod.mk.inj (Option.some.inj (hrecv.symm.trans heq))
      exact ih hrest hps' (fun d hd => hcs d (List.mem_cons_of_mem c hd)) hreq' hsize' hleft'

/-- The first `maxBufLen` bytes of a message that does not fit the buffer leave no room. -/
theorem commTcpRecv_full (fuel : Nat) {p : List UInt8} (hlong : maxBufLen < 40 + p.length)
    (hp : 40 + p.length < 2 ^ 31) (hpos : 0 < maxBufLen) (hreq : req.Holds [])
    (hsize : req.maxBufLen = maxBufLen) :
    ∃ req', commTcpRecv (fuel + 1) (some commMsgParse) req ((frame p).take maxBufLen) =
        some (req', []) ∧ ¬ req'.HasRoom := by
  have hlen : ((frame p).take maxBufLen).length = maxBufLen := by
    rw [List.length_take, length_frame]
    omega
  obtain ⟨req', hrecv, hsize', hreq'⟩ := commTcpRecv_wait (p := p) hreq
    (c := (frame p).take maxBufLen) (by omega)
    ⟨(frame p).drop maxBufLen, [], by simp⟩ (by rw [hlen, List.length_nil]; omega) hp
    (some commMsgParse)
  refine ⟨req', hrecv, fun hroom => ?_⟩
  rw [ListTcpReq.HasRoom, hreq'.offset, hsize', hsize, List.nil_append, hlen] at hroom
  omega

/-- With a message that does not fit the buffer there is a run that comes to no room, after the
    messages before it have come one by one. -/
theorem exists_within_full (fuel : Nat) (hpos : 0 < maxBufLen)
    (hps : ∀ p ∈ ps, 40 + p.length < 2 ^ 31) (hlong : ∃ p ∈ ps, maxBufLen < 40 + p.length)
    (hreq : req.Holds []) (hsize : req.maxBufLen = maxBufLen) :
    ∃ cs, Within [] cs ps ∧ Receivable (fuel + 2) (some commMsgParse) req cs ∧
      ¬ EachState (commTcpRecv (fuel + 2) (some commMsgParse)) ListTcpReq.HasRoom req cs := by
  have hoff : req.curRecvOffset = 0 := hreq.offset
  induction ps generalizing req with
  | nil =>
      obtain ⟨p, hp, -⟩ := hlong
      cases hp
  | cons p ps ih =>
      have hp := hps p (List.mem_cons_self ..)
      have hframe := length_frame p
      by_cases hfits : 40 + p.length ≤ maxBufLen
      · obtain ⟨q, hq, hqlong⟩ := hlong
        have hq' : q ∈ ps := (List.mem_cons.1 hq).resolve_left fun heq => by
          rw [heq] at hqlong
          omega
        obtain ⟨req', hrecv, hsize', hreq'⟩ := commTcpRecv_whole hreq
          (by omega) (List.nil_append (frame p)) hp
        obtain ⟨cs, hwithin, hcs, hnot⟩ := ih (fun q hq => hps q (List.mem_cons_of_mem p hq))
          ⟨q, hq', hqlong⟩ hreq' (hsize'.trans hsize) hreq'.offset
        refine ⟨frame p :: cs, .whole (List.nil_append _) hwithin,
          ⟨by omega, by omega, fun req'' calls heq => ?_⟩,
          fun hstates => hnot ((eachState_cons_of_step hrecv).1 hstates).2⟩
        obtain ⟨rfl, -⟩ := Prod.mk.inj (Option.some.inj (hrecv.symm.trans heq))
        exact hcs
      · have hlen : ((frame p).take maxBufLen).length = maxBufLen := by
          rw [List.length_take]
          omega
        obtain ⟨req', hrecv, hfull⟩ :=
          commTcpRecv_full (fuel + 1) (Nat.lt_of_not_le hfits) hp hpos hreq hsize
        have hfront : [] ++ (frame p).take maxBufLen <+: frame p :=
          List.take_prefix maxBufLen (frame p)
        refine ⟨[(frame p).take maxBufLen],
          .inside hfront (by rw [hlen, List.length_nil]; omega) (.nil _ _),
          ⟨by omega, by omega, fun _ _ _ => trivial⟩, fun hstates => hfull ?_⟩
        exact eachState_nil.1 ((eachState_cons_of_step hrecv).1 hstates).2

/-- The size of `cmd`, the line that the client reads with `fgets`. -/
def cmdSize : Nat := 1024

/-- **When there is room.** Whatever is received of a connection, when the messages that the loops
    meet take at least one byte each: there is room in every state exactly when no `recv` fills the
    buffer up with the front of a message that does not fit in it. And for the lines of a client:
    there is room in every state of every run in which no `recv` goes past the end of a message,
    exactly when every line leaves room for the header, which is less than `cmd` can hold. -/
theorem commTcpRecv_room_iff (fuel : Nat) (hfuel : recvBufferMax < fuel) (m : Mem UInt8)
    (payloads : List (List UInt8)) (hlines : ∀ p ∈ payloads, p.length < cmdSize) :
    (∀ cs, EachStep (commTcpRecv fuel (some commMsgParse)) (Advancing (some commMsgParse))
        (newReq m recvBufferMax) cs →
      (EachState (commTcpRecv fuel (some commMsgParse)) ListTcpReq.HasRoom
          (newReq m recvBufferMax) cs ↔
        EachStep (commTcpRecv fuel (some commMsgParse)) (fun req c => ¬ FillsUp req c)
          (newReq m recvBufferMax) cs)) ∧
    ((∀ cs, Within [] cs payloads →
        Receivable fuel (some commMsgParse) (newReq m recvBufferMax) cs →
        EachState (commTcpRecv fuel (some commMsgParse)) ListTcpReq.HasRoom
          (newReq m recvBufferMax) cs) ↔
      ∀ p ∈ payloads, p.length ≤ 960) := by
  have hempty : (newReq m recvBufferMax).Holds [] := ⟨rfl, rfl⟩
  have hmax : recvBufferMax < 2 ^ 31 := by decide
  have hlines' : ∀ p ∈ payloads, 40 + p.length < 2 ^ 31 := fun p hp => by
    have := hlines p hp
    simp only [cmdSize] at this
    omega
  constructor
  · intro cs hcs
    have hroom : (newReq m recvBufferMax).HasRoom := show (0 : Int) < 1000 - 0 by decide
    exact run_room_iff (by decide) hmax hfuel ⟨rfl, Int.le_refl 0, hroom⟩ hcs
  · obtain ⟨fuel, rfl⟩ := Nat.exists_eq_add_of_le' (Nat.le_trans (by decide : 2 ≤ recvBufferMax)
      (Nat.le_of_lt hfuel))
    constructor
    · intro h p hp
      by_contra hlong
      obtain ⟨cs, hwithin, hcs, hnot⟩ := exists_within_full fuel (by decide) hlines'
        ⟨p, hp, by simp only [recvBufferMax]; omega⟩ hempty rfl
      exact hnot (h cs hwithin hcs)
    · intro hps cs hwithin hcs
      refine within_room hmax hwithin (fun p hp => ?_) hempty rfl (by decide) hcs
      have := hps p hp
      simp only [recvBufferMax]
      omega

/-- Two messages, the first cut in its header and the second before its payload. -/
def cutChunks : List (List UInt8) :=
  [(frame [7, 8, 9]).take 25, (frame [7, 8, 9]).drop 25, (frame [10]).take 40, (frame [10]).drop 40]

/-- **A witness**: there is room before and after each of the four `recv`s. -/
theorem commTcpRecv_room_cut :
    EachState (commTcpRecv 1001 (some commMsgParse)) ListTcpReq.HasRoom
      (newReq (fun _ => 0) recvBufferMax) cutChunks := by
  have hwithin : Within [] cutChunks [[7, 8, 9], [10]] :=
    .inside (by decide) (by decide) (.whole (by decide)
      (.inside (by decide) (by decide) (.whole (by decide) (.nil _ _))))
  have hempty : (newReq (fun _ => 0) recvBufferMax).Holds [] := ⟨rfl, rfl⟩
  exact (commTcpRecv_room_iff 1001 (by decide) (fun _ => 0) [[7, 8, 9], [10]] (by decide)).2.2
    (by decide) _ hwithin
    (within_receivable (by decide) hwithin (by decide) (by decide) hempty rfl (by decide))

/-- A line of 1023 bytes: the first thousand bytes of its message fill the buffer, and the next
    `recv` is asked for none. -/
theorem commTcpRecv_no_room :
    ∃ req, [(frame (List.replicate 1023 0x61)).take 1000].flatten <+:
        frame (List.replicate 1023 0x61) ∧
      Receivable 1001 (some commMsgParse) (newReq (fun _ => 0) recvBufferMax)
        [(frame (List.replicate 1023 0x61)).take 1000] ∧
      run (commTcpRecv 1001 (some commMsgParse)) (newReq (fun _ => 0) recvBufferMax)
        [(frame (List.replicate 1023 0x61)).take 1000] = some (req, []) ∧ ¬ req.HasRoom := by
  have hframe : ((frame (List.replicate 1023 0x61)).take 1000).length = 1000 := by
    rw [List.length_take, length_frame, List.length_replicate]
    omega
  have hempty : (newReq (fun _ => 0) recvBufferMax).Holds [] := ⟨rfl, rfl⟩
  obtain ⟨req, hrecv, hfull⟩ := commTcpRecv_full 1000 (p := List.replicate 1023 0x61)
    (show recvBufferMax < _ by rw [List.length_replicate]; decide)
    (by rw [List.length_replicate]; decide) (by decide) hempty rfl
  refine ⟨req, ?_, ⟨by omega, ?_, fun _ _ _ => trivial⟩, run_singleton hrecv, hfull⟩
  · rw [List.flatten_singleton]
    exact List.take_prefix 1000 _
  · rw [hframe]
    decide

end XToolkits.Comm
