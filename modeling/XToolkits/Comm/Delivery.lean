import Mathlib.Algebra.Ring.Int.Defs
import XToolkits.Comm.Deframe
import XToolkits.Comm.Msg

set_option autoImplicit false

/-! # Delivery of messages

The stream of a client that sends one message after the other, received with the callback of the
server. `commMsgParse` writes a NUL right behind the payload (behind the buffer, for a message that
fills it: the memory of the model goes on there). Nothing is lost by it while every
`recv` ends at most where the current message ends. A `recv` that goes past the end of a message
gets the first byte of the next one overwritten, and then some bytes are never handed to the
callback: `rawParseLoop_conserve` counts them. -/

namespace XToolkits.Comm

/-! ## The front of a frame -/

theorem mismatch_self_append (flag xs : List UInt8) (i : Nat) :
    mismatch flag (flag ++ xs) i = none := by
  induction flag generalizing i with
  | nil => rfl
  | cons b flag ih =>
      simp only [List.cons_append, mismatch]
      rw [if_neg (not_not.2 rfl), ih]

/-- A header in front of other bytes: the sync code and the two lengths. -/
theorem mismatch_header {h : CommMsgHeader} (hsync : h.syncCode = 0xAA55AA55) (zs : List UInt8) :
    mismatch syncFlag (h.bytes ++ zs) 0 = none := by
  rw [CommMsgHeader.bytes, hsync, List.append_assoc]
  exact mismatch_self_append syncFlag _ 0

theorem msgLen_header (h : CommMsgHeader) (hlen : h.msgLen < 2 ^ 32) (zs : List UInt8) :
    wordAt (h.bytes ++ zs) 16 = h.msgLen :=
  wordOfBytes_bytesOfWord h.msgLen hlen

theorem relayLen_header (h : CommMsgHeader) (hlen : h.relayLen < 2 ^ 32) (zs : List UInt8) :
    wordAt (h.bytes ++ zs) 20 = h.relayLen :=
  wordOfBytes_bytesOfWord h.relayLen hlen

theorem mismatch_frame (p zs : List UInt8) : mismatch syncFlag (frame p ++ zs) 0 = none := by
  rw [frame_eq, List.append_assoc]
  exact mismatch_header rfl _

theorem msgLen_frame (p zs : List UInt8) (h : p.length < 2 ^ 32) :
    wordAt (frame p ++ zs) 16 = p.length := by
  rw [frame_eq, List.append_assoc]
  exact msgLen_header (packHeader p.length) h _

theorem relayLen_frame (p zs : List UInt8) : wordAt (frame p ++ zs) 20 = 0 := by
  rw [frame_eq, List.append_assoc]
  exact relayLen_header (packHeader p.length) (by decide : 0 < 2 ^ 32) _

/-- The bytes `xs` are the beginning of a stream that begins with the frame of `p`. -/
def FrontOf (p xs : List UInt8) : Prop := ∃ ys zs, xs ++ ys = frame p ++ zs

variable {p xs : List UInt8}

theorem FrontOf.mismatch (h : FrontOf p xs) (h4 : 4 ≤ xs.length) :
    Comm.mismatch syncFlag xs 0 = none := by
  obtain ⟨ys, zs, heq⟩ := h
  rw [← mismatch_append (show syncFlag.length ≤ xs.length from h4) ys, heq, mismatch_frame]

theorem FrontOf.msgLen (h : FrontOf p xs) (h20 : 20 ≤ xs.length) (hp : p.length < 2 ^ 32) :
    wordAt xs 16 = p.length := by
  obtain ⟨ys, zs, heq⟩ := h
  rw [← wordAt_append h20 ys, heq, msgLen_frame p zs hp]

theorem FrontOf.relayLen (h : FrontOf p xs) (h24 : 24 ≤ xs.length) : wordAt xs 20 = 0 := by
  obtain ⟨ys, zs, heq⟩ := h
  rw [← wordAt_append h24 ys, heq, relayLen_frame]

theorem FrontOf.intAt (h : FrontOf p xs) (h20 : 20 ≤ xs.length) (hp : p.length < 2 ^ 31) :
    Comm.intAt xs 16 = p.length := by
  rw [Comm.intAt, h.msgLen h20 (by omega), wrapS32_of_mem (by omega) (by omega)]

/-- A whole frame in front of the bytes. -/
theorem FrontOf.take (h : FrontOf p xs) (hlen : 40 + p.length ≤ xs.length) :
    xs.take (40 + p.length) = frame p := by
  obtain ⟨ys, zs, heq⟩ := h
  have htake : (xs ++ ys).take (40 + p.length) = xs.take (40 + p.length) :=
    List.take_append_of_le_length hlen
  rw [← htake, heq, ← length_frame, List.take_left]

/-! ## The scan -/

/-- The scan stays where it is when the sync code is there or cannot be there yet. -/
theorem commFindMagicNum_stay {m : Mem UInt8} {a : Int} {n : Nat}
    (h : 4 ≤ n → mismatch syncFlag (m.read a n) 0 = none) : commFindMagicNum syncFlag m a n = 0 := by
  show findLoop syncFlag m a (n - 4) (n + 1) 0 = 0
  by_cases h4 : 4 ≤ n
  · rw [findLoop_succ syncFlag_ne_nil m a (n - 4) n 0 n (by omega) h4, Int.natCast_zero, Int.add_zero,
      h h4]
  · simp only [findLoop]
    rw [if_neg (by omega)]

/-- The scan moves on where the first byte is not that of the sync code. -/
theorem commFindMagicNum_pos {m : Mem UInt8} {a : Int} {n : Nat} (h4 : 4 ≤ n) (h : m a ≠ 0x55) :
    0 < commFindMagicNum syncFlag m a n := by
  show 0 < findLoop syncFlag m a (n - 4) (n + 1) 0
  obtain ⟨k, rfl⟩ := Nat.exists_eq_succ_of_ne_zero (show n ≠ 0 by omega)
  have hmis : mismatch syncFlag (m.read a (k + 1)) 0 = some 0 := by
    have hflag : syncFlag = 0x55 :: [0xAA, 0x55, 0xAA] := by decide
    simp only [hflag, Mem.read, mismatch]
    rw [if_pos h.symm]
  rw [findLoop_succ syncFlag_ne_nil m a _ _ 0 (k + 1) (by omega) h4, Int.natCast_zero, Int.add_zero,
    hmis]
  exact (findLoop_spec (m := m) (n := k + 1) (show 1 ≤ k + 1 by omega) (by omega)).1

/-! ## Counting the bytes handed over -/

/-- How many bytes the callback was handed. -/
def handedLen (calls : List ParsedMsg) : Int := (calls.map ParsedMsg.len).sum

@[simp] theorem handedLen_nil : handedLen [] = 0 := rfl

@[simp] theorem handedLen_append (cs ds : List ParsedMsg) :
    handedLen (cs ++ ds) = handedLen cs + handedLen ds := by
  simp [handedLen]

/-- The calls of a callback are no shorter than nothing. -/
def NoneNegative (calls : List ParsedMsg) : Prop := ∀ c ∈ calls, 0 ≤ c.len

variable {f : MsgCallback} {fuel n a : Nat} {m : Mem UInt8} {s : ParseState}

/-- **Counting.** What is left, what the callback gets and what the first scan skips are no more
    than there was. -/
theorem rawParseLoop_conserve (hn : a + n < 2 ^ 31)
    (hs : rawParseLoop (some f) syncFlag headerLen headerMsgLenOffset fuel m n a = some s)
    (hlens : NoneNegative s.calls) :
    ∃ left drop : Nat, s.leftLen = left ∧ s.dropLen = drop ∧ drop + left = a + n ∧
      left + handedLen s.calls + commFindMagicNum syncFlag m a n ≤ n := by
  induction fuel generalizing n a m s with
  | zero => cases hs
  | succ fuel ih =>
      obtain ⟨hr, -, -⟩ := commFindMagicNum_spec m a n
      generalize hscan : commFindMagicNum syncFlag m a n = r at hr
      obtain ⟨hshort, hround⟩ := rawParseLoop_round (some f) fuel hr hscan
      by_cases h40 : n - r < 40
      · rw [hshort h40] at hs
        cases hs
        exact ⟨n - r, a + r, rfl, rfl, by omega, by rw [handedLen_nil]; omega⟩
      · rw [hround _ (by omega) rfl] at hs
        generalize wrapS32 (40 + intAt (m.read ↑(a + r) (n - r)) 16) = len at hs
        split at hs
        · cases hs
          exact ⟨n - r, a + r, rfl, rfl, by omega, by rw [handedLen_nil]; omega⟩
        · obtain ⟨s', hloop, rfl⟩ := Option.map_eq_some_iff.1 hs
          -- the message of this round is one of the calls
          have h0 : 0 ≤ len := hlens ⟨↑(a + r), len, m.read ↑(a + r) len.toNat⟩ (by simp [callLog])
          obtain ⟨k, rfl⟩ := Int.eq_ofNat_of_zero_le h0
          rw [wrapS32_of_mem (by omega) (by omega), wrapS32_of_mem (by omega) (by omega),
            show ((n - r : Nat) : Int) - k = ((n - r - k : Nat) : Int) by omega,
            ← Int.natCast_add] at hloop
          obtain ⟨left, drop, hleft, hdrop, hsum, hle⟩ := ih (by omega) hloop
            (fun c hc => hlens c (List.mem_append_right _ hc))
          have hcall : handedLen (callLog (some f) m ↑(a + r) k) = k := by simp [callLog, handedLen]
          refine ⟨left, drop, hleft, hdrop, by omega, ?_⟩
          rw [handedLen_append, hcall]
          omega

/-- Where the first byte is not that of the sync code, the loop waits for more, or skips bytes. -/
theorem rawParseLoop_lossy (hn : a + n < 2 ^ 31)
    (hs : rawParseLoop (some f) syncFlag headerLen headerMsgLenOffset fuel m n a = some s)
    (hlens : NoneNegative s.calls) (hfront : m a ≠ 0x55) :
    s = ⟨m, n, a, []⟩ ∨ s.leftLen + handedLen s.calls < n := by
  by_cases h4 : 4 ≤ n
  · have hpos := commFindMagicNum_pos h4 hfront
    obtain ⟨left, drop, hleft, -, -, hle⟩ := rawParseLoop_conserve hn hs hlens
    exact Or.inr (by omega)
  · have hstay : commFindMagicNum syncFlag m a n = 0 := commFindMagicNum_stay (by omega)
    cases fuel with
    | zero => cases hs
    | succ fuel =>
        rw [(rawParseLoop_round (some f) fuel (Nat.zero_le n) hstay).1 (by omega)] at hs
        exact Or.inl (Option.some.inj hs).symm

/-! ## Bytes lost on a connection -/

variable {req req' : ListTcpReq} {off : Nat} {c : List UInt8} {calls : List ParsedMsg}

/-- A `recv` that ends: what the loop did, and what is left of it. -/
theorem commTcpRecv_inv (hoff : req.curRecvOffset = off) (hc : 0 < c.length)
    (hfit : off + c.length < 2 ^ 31) (h : commTcpRecv fuel (some f) req c = some (req', calls))
    (hlens : NoneNegative calls) :
    ∃ s : ParseState, ∃ left : Nat, s.calls = calls ∧ s.leftLen = left ∧
      rawParseLoop (some f) syncFlag headerLen headerMsgLenOffset fuel (req.buffer.write off c)
        ↑(off + c.length) 0 = some s ∧
      req'.curRecvOffset = left ∧ req'.maxBufLen = req.maxBufLen ∧
      req'.buffer.read 0 left = s.buffer.read s.dropLen left := by
  have hparse := h
  rw [commTcpRecv, if_pos hc, commRawParse, hoff, ← Int.natCast_add] at hparse
  cases hloop : rawParseLoop (some f) syncFlag headerLen headerMsgLenOffset fuel
      (req.buffer.write off c) ↑(off + c.length) 0 with
  | none =>
      rw [hloop] at hparse
      cases hparse
  | some s =>
      have hcalls : s.calls = calls := by
        rw [hloop] at hparse
        dsimp only at hparse
        split at hparse
        · cases hparse
        · split at hparse <;> cases hparse <;> rfl
      obtain ⟨left, drop, hleft, -, -, -⟩ :=
        rawParseLoop_conserve (a := 0) (by omega) hloop (hcalls ▸ hlens)
      obtain ⟨m, hrecv, hmoved⟩ := commTcpRecv_of_loop hoff hc hloop hleft
      rw [h, Option.some.injEq, Prod.mk.injEq] at hrecv
      obtain ⟨rfl, -⟩ := hrecv
      exact ⟨s, left, hcalls, hleft, rfl, rfl, rfl, hmoved⟩

/-- A `recv` after which fewer than `total` bytes are left or handed over, or all of them are left
    and the first one is not that of the sync code. -/
def Loses (total : Nat) (req : ListTcpReq) (calls : List ParsedMsg) : Prop :=
  ∃ off : Nat, req.curRecvOffset = off ∧ (off + handedLen calls < total ∨
    (off + handedLen calls = total ∧ 0 < off ∧ req.buffer 0 ≠ 0x55))

theorem front_of_moved {m m' : Mem UInt8} {a : Int} {k : Nat} (h : m'.read 0 k = m.read a k)
    (hk : 0 < k) : m' 0 = m a := by
  simpa using Mem.apply_eq_of_read_eq h 0 hk

/-- No `recv` leaves and hands over more than there was. -/
theorem commTcpRecv_conserve (hoff : req.curRecvOffset = off) (hc : 0 < c.length)
    (hfit : off + c.length < 2 ^ 31) (h : commTcpRecv fuel (some f) req c = some (req', calls))
    (hlens : NoneNegative calls) :
    ∃ off' : Nat, req'.curRecvOffset = off' ∧ req'.maxBufLen = req.maxBufLen ∧
      off' + handedLen calls ≤ ↑(off + c.length) := by
  obtain ⟨s, left, rfl, hleft, hloop, hoff', hbuf, -⟩ := commTcpRecv_inv hoff hc hfit h hlens
  obtain ⟨left', -, hleft', -, -, hle⟩ :=
    rawParseLoop_conserve (a := 0) (by omega) hloop hlens
  exact ⟨left, hoff', hbuf, by omega⟩

/-- A buffer that does not begin with the sync code loses bytes. -/
theorem commTcpRecv_loses (hoff : req.curRecvOffset = off) (h0 : 0 < off)
    (hfront : req.buffer 0 ≠ 0x55) (hc : 0 < c.length) (hfit : off + c.length < 2 ^ 31)
    (h : commTcpRecv fuel (some f) req c = some (req', calls)) (hlens : NoneNegative calls) :
    Loses (off + c.length) req' calls := by
  obtain ⟨s, left, rfl, hleft, hloop, hoff', -, hmoved⟩ := commTcpRecv_inv hoff hc hfit h hlens
  have hfront' : req.buffer.write off c 0 ≠ 0x55 := by
    rwa [Mem.write_apply_outside _ _ _ _ (Or.inl (by omega))]
  rcases rawParseLoop_lossy (a := 0) (by omega) hloop hlens hfront' with rfl | hlt
  · obtain rfl : left = off + c.length := by
      dsimp only at hleft
      omega
    refine ⟨off + c.length, hoff', Or.inr ⟨by rw [handedLen_nil, Int.add_zero], by omega, ?_⟩⟩
    rwa [front_of_moved hmoved (by omega)]
  · exact ⟨left, hoff', Or.inl (by omega)⟩

theorem NoneNegative.left {cs ds : List ParsedMsg} (h : NoneNegative (cs ++ ds)) :
    NoneNegative cs := fun c hc => h c (List.mem_append_left _ hc)

theorem NoneNegative.right {cs ds : List ParsedMsg} (h : NoneNegative (cs ++ ds)) :
    NoneNegative ds := fun c hc => h c (List.mem_append_right _ hc)

variable {cs : List (List UInt8)}

/-- No run hands over more than there was and came. -/
theorem run_conserve (hoff : req.curRecvOffset = off) (hbuf : req.maxBufLen < 2 ^ 31)
    (hcs : Receivable fuel (some f) req cs)
    (h : run (commTcpRecv fuel (some f)) req cs = some (req', calls))
    (hlens : NoneNegative calls) : handedLen calls ≤ off + cs.flatten.length := by
  induction cs generalizing req off calls with
  | nil =>
      cases h
      rw [handedLen_nil]
      omega
  | cons c cs ih =>
      obtain ⟨hc, hfree, hnext⟩ := hcs
      obtain ⟨req₁, calls₁, calls₂, hrecv, hrun, rfl⟩ := run_cons_eq_some.1 h
      obtain ⟨off', hoff', hbuf', hle⟩ :=
        commTcpRecv_conserve hoff hc (by omega) hrecv hlens.left
      have hrest := ih hoff' (hbuf' ▸ hbuf) (hnext _ _ hrecv) hrun hlens.right
      rw [handedLen_append, List.flatten_cons, List.length_append]
      omega

/-- **Lost bytes stay lost**, whatever comes after them. -/
theorem run_of_loses {total : Nat} {calls₁ calls₂ : List ParsedMsg} (hlose : Loses total req calls₁)
    (hbuf : req.maxBufLen < 2 ^ 31) (hcs : Receivable fuel (some f) req cs)
    (h : run (commTcpRecv fuel (some f)) req cs = some (req', calls₂))
    (hlens : NoneNegative calls₂) :
    handedLen calls₁ + handedLen calls₂ < total + cs.flatten.length := by
  obtain ⟨off, hoff, hcases⟩ := hlose
  induction cs generalizing req off total calls₁ calls₂ with
  | nil =>
      cases h
      rw [handedLen_nil]
      omega
  | cons c cs ih =>
      rcases hcases with hlt | ⟨heq, hpos, hfront⟩
      · have hrest := run_conserve hoff hbuf hcs h hlens
        omega
      · obtain ⟨hc, hfree, hnext⟩ := hcs
        obtain ⟨req₁, calls, calls', hrecv, hrun, rfl⟩ := run_cons_eq_some.1 h
        obtain ⟨-, -, hbuf', -⟩ := commTcpRecv_conserve hoff hc (by omega) hrecv hlens.left
        obtain ⟨off', hoff', hcases'⟩ :=
          commTcpRecv_loses hoff hpos hfront hc (by omega) hrecv hlens.left
        have hrest := ih (hbuf' ▸ hbuf) (hnext _ _ hrecv) hrun hlens.right off' hoff' hcases'
        rw [handedLen_append, List.flatten_cons, List.length_append]
        omega

/-! ## One `recv` at the front of a stream of frames -/

variable {left : List UInt8}

/-- While the frame is not whole, the loop leaves everything as it is. -/
theorem rawParseLoop_wait (fuel : Nat) (hfront : FrontOf p (m.read 0 n)) (hn : n < 40 + p.length)
    (hp : 40 + p.length < 2 ^ 31) (cb : Option MsgCallback) :
    rawParseLoop cb syncFlag headerLen headerMsgLenOffset (fuel + 1) m n 0 = some ⟨m, n, 0, []⟩ := by
  have hstay : commFindMagicNum syncFlag m (0 : Nat) n = 0 :=
    commFindMagicNum_stay fun h4 => hfront.mismatch (by rwa [Mem.length_read])
  by_cases h40 : n < 40
  · exact (rawParseLoop_round cb fuel (Nat.zero_le n) hstay).1 h40
  · have htake := rawParseLoop_take cb fuel (by omega) (Nat.zero_le n) hstay (by omega)
      (hfront.intAt (by rw [Mem.length_read]; omega) (by omega)) hp
    exact htake.trans (if_pos hn)

/-- A whole frame goes to the server's callback, which writes a NUL behind it. -/
theorem rawParseLoop_frame (fuel : Nat) (hfront : FrontOf p (m.read 0 n)) (hn : 40 + p.length ≤ n)
    (hmax : n < 2 ^ 31) :
    rawParseLoop (some commMsgParse) syncFlag headerLen headerMsgLenOffset (fuel + 1) m n 0 =
      (rawParseLoop (some commMsgParse) syncFlag headerLen headerMsgLenOffset fuel
        (m.write ↑(40 + p.length) [0]) ↑(n - (40 + p.length)) ↑(40 + p.length)).map
      fun s => { s with calls := ⟨0, ↑(40 + p.length), frame p⟩ :: s.calls } := by
  have hlen : (m.read 0 n).length = n := Mem.length_read _ _ _
  have hstay : commFindMagicNum syncFlag m (0 : Nat) n = 0 :=
    commFindMagicNum_stay fun h4 => hfront.mismatch (by rwa [hlen])
  have htake := rawParseLoop_take (some commMsgParse) fuel (by omega) (Nat.zero_le n) hstay
    (by omega) (hfront.intAt (by omega) (by omega)) (by omega)
  rw [if_neg (by omega)] at htake
  have hmsg : loadWord m 16 = p.length :=
    (loadWord_eq m 0 (show 16 + 4 ≤ n by omega)).trans (hfront.msgLen (by omega) (by omega))
  have hrelay : loadWord m 20 = 0 :=
    (loadWord_eq m 0 (show 20 + 4 ≤ n by omega)).trans (hfront.relayLen (by omega))
  have hnul : afterCallback (some commMsgParse) m ((0 + 0 : Nat) : Int) ↑(40 + p.length) =
      m.write ↑(40 + p.length) [0] := by
    show m.write (0 + 40 + loadWord m 20 + loadWord m 16) [0] = _
    rw [hmsg, hrelay, Int.natCast_zero, Int.zero_add, Int.add_zero, Int.natCast_add]
    rfl
  have hbytes : m.read 0 (40 + p.length) = frame p := by
    rw [← Mem.take_read m 0 n _ hn, hfront.take (by omega)]
  have hcall : callLog (some commMsgParse) m ((0 + 0 : Nat) : Int) ↑(40 + p.length) =
      [⟨0, ↑(40 + p.length), frame p⟩] := by
    show [(⟨0, _, m.read 0 _⟩ : ParsedMsg)] = _
    rw [Int.toNat_natCast, hbytes]
  rw [hnul, hcall, Nat.sub_zero, Nat.zero_add] at htake
  exact htake

/-- A `recv` that does not complete the message hands over nothing. -/
theorem commTcpRecv_wait (h : req.Holds left) (hc : 0 < c.length) (hfront : FrontOf p (left ++ c))
    (hn : left.length + c.length < 40 + p.length) (hp : 40 + p.length < 2 ^ 31)
    (cb : Option MsgCallback) :
    ∃ req', commTcpRecv (fuel + 1) cb req c = some (req', []) ∧ req'.maxBufLen = req.maxBufLen ∧
      req'.Holds (left ++ c) := by
  have hbytes := h.append c
  obtain ⟨m, hrecv, hmoved⟩ := commTcpRecv_of_loop h.offset hc
    (rawParseLoop_wait fuel (by rwa [hbytes]) hn hp cb) rfl
  refine ⟨_, hrecv, rfl, by rw [List.length_append], ?_⟩
  rw [List.length_append]
  exact hmoved.trans hbytes

/-- A `recv` that ends where the message ends hands it over and leaves nothing. -/
theorem commTcpRecv_whole (h : req.Holds left) (hc : 0 < c.length) (heq : left ++ c = frame p)
    (hp : 40 + p.length < 2 ^ 31) :
    ∃ req', commTcpRecv (fuel + 2) (some commMsgParse) req c =
        some (req', [⟨0, ↑(40 + p.length), frame p⟩]) ∧
      req'.maxBufLen = req.maxBufLen ∧ req'.Holds [] := by
  have hbytes := h.append c
  have hlen : left.length + c.length = 40 + p.length := by
    rw [← List.length_append, heq, length_frame]
  have hloop := rawParseLoop_frame (fuel + 1) (m := req.buffer.write left.length c)
    (n := left.length + c.length) (p := p) ⟨[], [], by rw [hbytes, heq]⟩ (by omega) (by omega)
  -- nothing is left for the next round
  have hend := (rawParseLoop_round (some commMsgParse) fuel (Nat.zero_le 0)
    (m := (req.buffer.write left.length c).write ↑(40 + p.length) [0]) (a := 40 + p.length)
    (commFindMagicNum_stay (fun h4 => absurd h4 (by decide)))).1 (by omega)
  rw [show left.length + c.length - (40 + p.length) = 0 by omega, hend, Option.map_some] at hloop
  obtain ⟨m, hrecv, -⟩ := commTcpRecv_of_loop h.offset hc hloop
    (show _ = ((0 : Nat) : Int) from rfl)
  exact ⟨⟨m, 0, req.maxBufLen⟩, hrecv, rfl, ⟨rfl, rfl⟩⟩

/-- **A `recv` that goes past the end of the message loses bytes.** -/
theorem commTcpRecv_past (h : req.Holds left) (hc : 0 < c.length) (hfront : FrontOf p (left ++ c))
    (hn : 40 + p.length < left.length + c.length) (hmax : left.length + c.length < 2 ^ 31)
    (hrecv : commTcpRecv (fuel + 1) (some commMsgParse) req c = some (req', calls))
    (hlens : NoneNegative calls) :
    Loses (left.length + c.length) req' calls := by
  have hbytes := h.append c
  obtain ⟨s, off, rfl, hleft, hloop, hoff, -, hmoved⟩ := commTcpRecv_inv h.offset hc hmax hrecv hlens
  rw [rawParseLoop_frame fuel (by rwa [hbytes]) (by omega) hmax] at hloop
  obtain ⟨s', hloop', rfl⟩ := Option.map_eq_some_iff.1 hloop
  dsimp only at hleft hmoved hlens ⊢
  -- the NUL is where the rest begins
  have hnul : (req.buffer.write left.length c).write ↑(40 + p.length) [0] ↑(40 + p.length) ≠ 0x55 := by
    have hcell := Mem.write_apply_inside (req.buffer.write left.length c) ↑(40 + p.length) [0] 0
      (by decide)
    rw [Int.natCast_zero, Int.add_zero] at hcell
    rw [hcell]
    decide
  have hsum : handedLen (⟨0, ↑(40 + p.length), frame p⟩ :: s'.calls) =
      ↑(40 + p.length) + handedLen s'.calls := by simp [handedLen]
  rcases rawParseLoop_lossy (by omega) hloop'
    (fun c hc => hlens c (List.mem_cons_of_mem _ hc)) hnul with rfl | hlt
  · dsimp only at hleft hmoved
    refine ⟨off, hoff, Or.inr ⟨by rw [hsum, handedLen_nil]; omega, by omega, ?_⟩⟩
    rwa [front_of_moved hmoved (by omega)]
  · exact ⟨off, hoff, Or.inl (by rw [hsum]; omega)⟩

/-! ## Chunks that end where the frames end -/

/-- The chunks fall into groups, one for each frame; the first group goes on after `left`. -/
def Grouped (left : List UInt8) (cs : List (List UInt8)) : List (List UInt8) → Prop
  | [] => left = [] ∧ cs = []
  | F :: Fs => ∃ (g : List (List UInt8)) (gs : List (List (List UInt8))),
      left ++ g.flatten = F ∧ gs.map List.flatten = Fs ∧ g ++ gs.flatten = cs

variable {F : List UInt8} {Fs : List (List UInt8)}

theorem grouped_nil_iff : Grouped [] cs Fs ↔
    ∃ groups : List (List (List UInt8)), groups.flatten = cs ∧ groups.map List.flatten = Fs := by
  cases Fs with
  | nil =>
      constructor
      · rintro ⟨-, rfl⟩
        exact ⟨[], rfl, rfl⟩
      · rintro ⟨groups, rfl, hmap⟩
        rw [List.map_eq_nil_iff.1 hmap]
        exact ⟨rfl, rfl⟩
  | cons F Fs =>
      constructor
      · rintro ⟨g, gs, hg, hgs, rfl⟩
        exact ⟨g :: gs, rfl, congrArg₂ List.cons hg hgs⟩
      · rintro ⟨groups, rfl, hmap⟩
        obtain ⟨g, gs, rfl, hg, hgs⟩ := List.map_eq_cons_iff.1 hmap
        exact ⟨g, gs, hg, hgs, rfl⟩

/-- The first group is not empty while the frame is not whole. -/
theorem Grouped.exists_cons (hleft : left.length < F.length) (h : Grouped left (c :: cs) (F :: Fs)) :
    ∃ (g : List (List UInt8)) (gs : List (List (List UInt8))),
      left ++ (c ++ g.flatten) = F ∧ gs.map List.flatten = Fs ∧ g ++ gs.flatten = cs := by
  obtain ⟨g, gs, hg, hgs, hcs⟩ := h
  cases g with
  | nil =>
      rw [List.flatten_nil, List.append_nil] at hg
      rw [hg] at hleft
      omega
  | cons d g =>
      obtain ⟨rfl, hrest⟩ := List.cons_eq_cons.1 hcs
      exact ⟨g, gs, hg, hgs, hrest⟩

/-- A chunk inside a frame. -/
theorem grouped_inside (hleft : left.length < F.length) :
    Grouped left (c :: cs) (F :: Fs) ↔ Grouped (left ++ c) cs (F :: Fs) := by
  constructor
  · intro h
    obtain ⟨g, gs, hg, hgs, hcs⟩ := h.exists_cons hleft
    exact ⟨g, gs, by rwa [List.append_assoc], hgs, hcs⟩
  · rintro ⟨g, gs, hg, hgs, rfl⟩
    exact ⟨c :: g, gs, by rwa [List.append_assoc] at hg, hgs, rfl⟩

/-- A chunk that ends where the frame ends. -/
theorem grouped_whole (hleft : left.length < F.length) (heq : left ++ c = F)
    (hpos : ∀ d ds, cs = d :: ds → 0 < d.length) :
    Grouped left (c :: cs) (F :: Fs) ↔ Grouped [] cs Fs := by
  rw [grouped_nil_iff]
  constructor
  · intro h
    obtain ⟨g, gs, hg, hgs, rfl⟩ := h.exists_cons hleft
    -- no chunk is left for the group of this frame
    have hnil : g.flatten = [] := by
      rw [← heq, ← List.append_assoc] at hg
      exact List.append_right_eq_self.1 hg
    cases g with
    | nil => exact ⟨gs, rfl, hgs⟩
    | cons d g =>
        have hd := hpos d (g ++ gs.flatten) rfl
        rw [List.flatten_cons, List.append_eq_nil_iff] at hnil
        rw [hnil.1] at hd
        exact absurd hd (Nat.lt_irrefl 0)
  · rintro ⟨groups, rfl, hgs⟩
    exact ⟨[c], groups, by simpa using heq, hgs, rfl⟩

/-- No chunk goes past the end of a frame. -/
theorem not_grouped_past (hleft : left.length < F.length) (hpast : F.length < left.length + c.length) :
    ¬ Grouped left (c :: cs) (F :: Fs) := by
  intro h
  obtain ⟨g, gs, hg, -, -⟩ := h.exists_cons hleft
  have hlen := congrArg List.length hg
  simp only [List.length_append] at hlen
  omega

/-! ## All messages of a connection -/

/-- What the callback has to see of a list of payloads sent. -/
def asSent (payloads : List (List UInt8)) : List (Int × List UInt8) :=
  payloads.map fun p => (((40 + p.length : Nat) : Int), frame p)

variable {ps : List (List UInt8)}

/-- Calls that hand over every message hand over every byte. -/
theorem handedLen_asSent (h : calls.map ParsedMsg.frame = asSent ps) :
    handedLen calls = (ps.map frame).flatten.length ∧ NoneNegative calls := by
  induction ps generalizing calls with
  | nil =>
      rw [List.map_eq_nil_iff.1 h]
      exact ⟨rfl, fun c hc => by cases hc⟩
  | cons p ps ih =>
      obtain ⟨c, calls, rfl, hc, hcalls⟩ := List.map_eq_cons_iff.1 h
      obtain ⟨hsum, hlens⟩ := ih hcalls
      have hlen : c.len = ((40 + p.length : Nat) : Int) := congrArg Prod.fst hc
      constructor
      · rw [List.map_cons, List.flatten_cons, List.length_append, length_frame, Int.natCast_add,
          ← hsum, ← hlen]
        exact List.sum_cons
      · intro d hd
        rcases List.mem_cons.1 hd with rfl | hd
        · omega
        · exact hlens d hd

/-- The server calls its callback once for each message, with the message as it was sent. -/
def Delivers (fuel : Nat) (req : ListTcpReq) (cs ps : List (List UInt8)) : Prop :=
  ∃ req' calls, run (commTcpRecv fuel (some commMsgParse)) req cs = some (req', calls) ∧
    calls.map ParsedMsg.frame = asSent ps

theorem Receivable.head_pos {cb : Option MsgCallback} (hcs : Receivable fuel cb req cs) :
    ∀ d ds, cs = d :: ds → 0 < d.length := by
  rintro d ds rfl
  exact hcs.1

/-- A `recv` without a call, and one with a call for the first message. -/
theorem delivers_cons_nil (h : commTcpRecv fuel (some commMsgParse) req c = some (req', [])) :
    Delivers fuel req (c :: cs) ps ↔ Delivers fuel req' cs ps := by
  constructor
  · rintro ⟨req'', calls, hrun, hcalls⟩
    obtain ⟨req₁, calls₁, calls₂, hrecv, hrest, rfl⟩ := run_cons_eq_some.1 hrun
    rw [h] at hrecv
    cases hrecv
    exact ⟨req'', calls₂, hrest, hcalls⟩
  · rintro ⟨req'', calls, hrun, hcalls⟩
    exact ⟨req'', calls, run_cons_eq_some.2 ⟨req', [], calls, h, hrun, rfl⟩, hcalls⟩

theorem delivers_cons_call {call : ParsedMsg}
    (h : commTcpRecv fuel (some commMsgParse) req c = some (req', [call]))
    (hcall : call.frame = (((40 + p.length : Nat) : Int), frame p)) :
    Delivers fuel req (c :: cs) (p :: ps) ↔ Delivers fuel req' cs ps := by
  constructor
  · rintro ⟨req'', calls, hrun, hcalls⟩
    obtain ⟨req₁, calls₁, calls₂, hrecv, hrest, rfl⟩ := run_cons_eq_some.1 hrun
    rw [h] at hrecv
    cases hrecv
    exact ⟨req'', calls₂, hrest, (List.cons_eq_cons.1 hcalls).2⟩
  · rintro ⟨req'', calls, hrun, hcalls⟩
    exact ⟨req'', call :: calls, run_cons_eq_some.2 ⟨req', [call], calls, h, hrun, rfl⟩,
      congrArg₂ List.cons hcall hcalls⟩

/-- A `recv` past the end of a message: some message is not delivered. -/
theorem not_delivers_past (h : req.Holds left) (hbuf : req.maxBufLen < 2 ^ 31)
    (hcs : Receivable (fuel + 1) (some commMsgParse) req (c :: cs))
    (hstream : left ++ (c :: cs).flatten = ((p :: ps).map frame).flatten)
    (hpast : 40 + p.length < left.length + c.length) :
    ¬ Delivers (fuel + 1) req (c :: cs) (p :: ps) := by
  rintro ⟨req'', calls, hrun, hcalls⟩
  obtain ⟨hc, hfree, hnext⟩ := hcs
  obtain ⟨req₁, calls₁, calls₂, hrecv, hrest, rfl⟩ := run_cons_eq_some.1 hrun
  obtain ⟨hsum, hlens⟩ := handedLen_asSent hcalls
  have hoff := h.offset
  have hfront : FrontOf p (left ++ c) :=
    ⟨cs.flatten, (ps.map frame).flatten, by simpa using hstream⟩
  have hlose := commTcpRecv_past h hc hfront hpast (by omega) hrecv hlens.left
  obtain ⟨-, -, hbuf', -⟩ := commTcpRecv_conserve hoff hc (by omega) hrecv hlens.left
  have hlt := run_of_loses hlose (hbuf' ▸ hbuf) (hnext _ _ hrecv) hrest hlens.right
  rw [handedLen_append, ← hstream, List.length_append, List.flatten_cons, List.length_append] at hsum
  omega

/-- **A whole connection.** From a buffer that holds the beginning of the first message. -/
theorem delivers_iff_grouped (h : req.Holds left) (hbuf : req.maxBufLen < 2 ^ 31)
    (hcs : Receivable (fuel + 2) (some commMsgParse) req cs)
    (hps : ∀ p ∈ ps, 40 + p.length < 2 ^ 31)
    (hstream : left ++ cs.flatten = (ps.map frame).flatten)
    (hleft : ∀ p ps', ps = p :: ps' → left.length < (frame p).length) :
    Delivers (fuel + 2) req cs ps ↔ Grouped left cs (ps.map frame) := by
  induction cs generalizing req left ps with
  | nil =>
      cases ps with
      | nil =>
          rw [List.flatten_nil, List.append_nil] at hstream
          exact ⟨fun _ => ⟨hstream, rfl⟩, fun _ => ⟨req, [], rfl, rfl⟩⟩
      | cons p ps =>
          have hlen := congrArg List.length hstream
          have hlt := hleft p ps rfl
          rw [List.flatten_nil, List.append_nil, List.map_cons, List.flatten_cons,
            List.length_append] at hlen
          omega
  | cons c cs ih =>
      obtain ⟨hc, hfree, hnext⟩ := id hcs
      cases ps with
      | nil =>
          have hlen := congrArg List.length hstream
          rw [List.flatten_cons, List.length_append, List.length_append, List.map_nil,
            List.flatten_nil, List.length_nil] at hlen
          omega
      | cons p ps =>
          have hp := hps p (List.mem_cons_self ..)
          have hlt := hleft p ps rfl
          have hfront : FrontOf p (left ++ c) :=
            ⟨cs.flatten, (ps.map frame).flatten, by simpa using hstream⟩
          have hframe := length_frame p
          rcases Nat.lt_trichotomy (left.length + c.length) (40 + p.length) with hin | heq | hpast
          · obtain ⟨req', hrecv, hbuf', h'⟩ :=
              commTcpRecv_wait h hc hfront hin hp (some commMsgParse)
            rw [delivers_cons_nil hrecv, List.map_cons, grouped_inside hlt, ← List.map_cons]
            refine ih h' (hbuf' ▸ hbuf) (hnext _ _ hrecv) hps (by simpa using hstream) ?_
            rintro q qs hq
            obtain ⟨rfl, rfl⟩ := List.cons_eq_cons.1 hq
            rw [List.length_append]
            omega
          · have hwhole : left ++ c = frame p := by
              have htake := hfront.take (by rw [List.length_append]; omega)
              rwa [List.take_of_length_le (by rw [List.length_append]; omega)] at htake
            obtain ⟨req', hrecv, hbuf', h'⟩ := commTcpRecv_whole h hc hwhole hp
            rw [delivers_cons_call hrecv rfl, List.map_cons,
              grouped_whole hlt hwhole (hnext _ _ hrecv).head_pos]
            refine ih h' (hbuf' ▸ hbuf) (hnext _ _ hrecv)
              (fun q hq => hps q (List.mem_cons_of_mem _ hq)) ?_ ?_
            · rw [List.flatten_cons, ← List.append_assoc, hwhole, List.map_cons, List.flatten_cons]
                at hstream
              exact List.append_cancel_left hstream
            · rintro q qs -
              rw [length_frame, List.length_nil]
              omega
          · exact iff_of_false (not_delivers_past h hbuf hcs hstream hpast)
              (not_grouped_past hlt (by omega))

/-- **Delivery.** The messages of a client reach the callback of the server, each once, in order and
    as they were sent, exactly when every message ends where a chunk ends. -/
theorem commMsgParse_delivers_iff (fuel : Nat) (hfuel : 1 < fuel) (m : Mem UInt8)
    (payloads : List (List UInt8)) (hpayloads : ∀ p ∈ payloads, 40 + p.length ≤ recvBufferMax)
    (cs : List (List UInt8)) (hcs : cs.flatten = (payloads.map frame).flatten)
    (hrecv : Receivable fuel (some commMsgParse) (newReq m recvBufferMax) cs) :
    (∃ req calls, run (commTcpRecv fuel (some commMsgParse)) (newReq m recvBufferMax) cs =
        some (req, calls) ∧
      calls.map ParsedMsg.frame = payloads.map fun p => (((40 + p.length : Nat) : Int), frame p)) ↔
    ∃ groups : List (List (List UInt8)),
      groups.flatten = cs ∧ groups.map List.flatten = payloads.map frame := by
  obtain ⟨fuel, rfl⟩ := Nat.exists_eq_add_of_le hfuel
  rw [← grouped_nil_iff]
  rw [Nat.add_comm] at hrecv ⊢
  have hempty : (newReq m recvBufferMax).Holds [] := ⟨rfl, rfl⟩
  refine delivers_iff_grouped hempty (show (1000 : Int) < 2 ^ 31 by decide) hrecv
    (fun p hp => Nat.lt_of_le_of_lt (hpayloads p hp) (by decide)) hcs ?_
  rintro q qs -
  rw [length_frame, List.length_nil]
  omega

/-- Two messages, each received on its own. -/
theorem commMsgParse_delivers_two :
    ∃ req calls, run (commTcpRecv 2 (some commMsgParse)) (newReq (fun _ => 0) recvBufferMax)
        [frame [7], frame []] = some (req, calls) ∧
      calls.map ParsedMsg.frame =
        [[7], []].map fun p => (((40 + p.length : Nat) : Int), frame p) := by
  refine (commMsgParse_delivers_iff 2 (by decide) (fun _ => 0) [[7], []] (by decide)
    [frame [7], frame []] (by decide)
    ⟨by decide, by decide, fun req calls h => ?_⟩).2 ⟨[[frame [7]], [frame []]], by decide, by decide⟩
  have hfree : (commTcpRecv 2 (some commMsgParse) (newReq (fun _ => 0) recvBufferMax)
      (frame [7])).map (fun r => r.1.maxBufLen - r.1.curRecvOffset) = some 1000 := by decide
  rw [h, Option.map_some, Option.some.injEq] at hfree
  exact ⟨by decide, by rw [hfree]; decide, fun _ _ _ => trivial⟩

/-- Two messages without payload, received at once: the NUL behind the first one goes over the sync
    code of the second one, which is never handed over. -/
theorem commMsgParse_loses_second :
    [frame [] ++ frame []].flatten = ([[], []].map frame).flatten ∧
    Receivable 1001 (some commMsgParse) (newReq (fun _ => 0) recvBufferMax)
      [frame [] ++ frame []] ∧
    ¬ ∃ req calls, run (commTcpRecv 1001 (some commMsgParse)) (newReq (fun _ => 0) recvBufferMax)
        [frame [] ++ frame []] = some (req, calls) ∧
      calls.map ParsedMsg.frame =
        [[], []].map fun p => (((40 + p.length : Nat) : Int), frame p) := by
  refine ⟨by decide, ⟨by decide, by decide, fun _ _ _ => trivial⟩, ?_⟩
  rintro ⟨req, calls, hrun, hcalls⟩
  have hone : (run (commTcpRecv 1001 (some commMsgParse)) (newReq (fun _ => 0) recvBufferMax)
      [frame [] ++ frame []]).map (fun r => r.2.length) = some 1 := by decide
  rw [hrun, Option.map_some, Option.some.injEq] at hone
  have hlen := congrArg List.length hcalls
  rw [List.length_map, hone] at hlen
  exact absurd hlen (by decide)

end XToolkits.Comm
