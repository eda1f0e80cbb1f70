import XToolkits.Comm.Parse
import XToolkits.Lib.Incremental
import XToolkits.Lib.Transition

set_option autoImplicit false

/-! # The frames of a byte stream

What `comm_tcp_recv` does to a stream, without buffer and offsets: `deframer` looks at the first
bytes of what it has and skips up to the first mismatch with the sync code, takes a frame, or waits
for more. On streams whose headers carry lengths that fit the buffer, the loop of `comm_raw_parse`
does what `deframer` does (`rawParseLoop_eq`), so how the stream was cut makes no difference. -/

namespace XToolkits.Comm

/-! ## The deframer -/

/-- The first `j` at which the bytes `xs` differ from the flag. -/
def mismatch : List UInt8 → List UInt8 → Nat → Option Nat
  | [], _, _ => none
  | _ :: _, [], j => some j
  | b :: flag, x :: xs, j => if b ≠ x then some j else mismatch flag xs (j + 1)

/-- The word at offset `k`, and the `int` there. -/
def wordAt (xs : List UInt8) (k : Nat) : Nat :=
  wordOfBytes (xs.getD k 0) (xs.getD (k + 1) 0) (xs.getD (k + 2) 0) (xs.getD (k + 3) 0)

def intAt (xs : List UInt8) (k : Nat) : Int := wrapS32 (wordAt xs k)

/-- One step of the deframer. -/
def deframe (xs : List UInt8) : Option (Option (List UInt8) × Nat) :=
  if xs.length < 4 then none
  else match mismatch syncFlag xs 0 with
    | some j => some (none, j + 1)
    | none =>
        if xs.length < 40 ∨ intAt xs 16 < 0 ∨ xs.length < 40 + intAt xs 16 then none
        else some (some (xs.take (40 + (intAt xs 16).toNat)), 40 + (intAt xs 16).toNat)

theorem mismatch_lt {flag xs : List UInt8} {i j : Nat} (h : mismatch flag xs i = some j) :
    j < i + flag.length := by
  induction flag generalizing xs i with
  | nil => simp [mismatch] at h
  | cons b flag ih =>
      rw [List.length_cons]
      cases xs with
      | nil =>
          cases h
          omega
      | cons x xs =>
          simp only [mismatch] at h
          split at h
          · cases h
            omega
          · have := ih h
            omega

theorem mismatch_append {flag xs : List UInt8} (h : flag.length ≤ xs.length) (ys : List UInt8)
    (i : Nat) : mismatch flag (xs ++ ys) i = mismatch flag xs i := by
  induction flag generalizing xs i with
  | nil => rfl
  | cons b flag ih =>
      cases xs with
      | nil => simp at h
      | cons x xs =>
          simp only [List.cons_append, mismatch]
          rw [ih (by simpa using h)]

/-- Bytes without a mismatch begin with the flag. -/
theorem take_of_mismatch {flag xs : List UInt8} {i : Nat} (h : mismatch flag xs i = none) :
    xs.take flag.length = flag := by
  induction flag generalizing xs i with
  | nil => rfl
  | cons b flag ih =>
      cases xs with
      | nil => cases h
      | cons x xs =>
          simp only [mismatch] at h
          split at h
          · cases h
          · next hb => rw [List.length_cons, List.take_succ_cons, ih h, not_not.1 hb]

theorem wordAt_append {xs : List UInt8} {k : Nat} (h : k + 4 ≤ xs.length) (ys : List UInt8) :
    wordAt (xs ++ ys) k = wordAt xs k := by
  have hget : ∀ i, i < xs.length → (xs ++ ys).getD i 0 = xs.getD i 0 := fun i hi => by
    rw [List.getD_eq_getElem?_getD, List.getElem?_append_left hi, List.getD_eq_getElem?_getD]
  rw [wordAt, wordAt, hget _ (by omega), hget _ (by omega), hget _ (by omega), hget _ (by omega)]

theorem intAt_append {xs : List UInt8} {k : Nat} (h : k + 4 ≤ xs.length) (ys : List UInt8) :
    intAt (xs ++ ys) k = intAt xs k := by
  rw [intAt, intAt, wordAt_append h]

/-- The deframer decides for good: what it does on some bytes it does whatever comes after them. -/
def deframer : Incremental UInt8 (List UInt8) where
  step := deframe
  pos := by
    intro xs out n h
    simp only [deframe] at h
    split at h
    · cases h
    · split at h
      · cases h
        omega
      · split at h
        · cases h
        · cases h
          omega
  le_length := by
    intro xs out n h
    simp only [deframe] at h
    split at h
    · cases h
    · split at h
      · next j hj =>
          cases h
          have hlt : j < 0 + 4 := mismatch_lt hj
          omega
      · split at h
        · cases h
        · cases h
          omega
  stable := by
    intro xs out n ys h
    simp only [deframe] at h ⊢
    split at h
    · cases h
    · next hlen =>
        have hmis : mismatch syncFlag (xs ++ ys) 0 = mismatch syncFlag xs 0 :=
          mismatch_append (show syncFlag.length ≤ xs.length from Nat.le_of_not_lt hlen) ys 0
        rw [List.length_append, if_neg (by omega), hmis]
        split at h
        · exact h
        · split at h
          · cases h
          · next hfull =>
              obtain ⟨h40, h0, hn⟩ := by simpa only [not_or] using hfull
              cases h
              rw [intAt_append (by omega), if_neg (by omega),
                List.take_append_of_le_length (by omega)]

/-! ## Streams with good lengths -/

/-- Wherever the sync code is followed by a whole header, the length in it fits a buffer of
    `maxBufLen` bytes. -/
def GoodLengths (maxBufLen : Nat) (xs : List UInt8) : Prop :=
  ∀ i, i + 40 ≤ xs.length → (xs.drop i).take 4 = syncFlag →
    0 ≤ intAt (xs.drop i) 16 ∧ intAt (xs.drop i) 16 + 40 ≤ maxBufLen

variable {maxBufLen : Nat} {xs ys : List UInt8}

theorem GoodLengths.drop (h : GoodLengths maxBufLen xs) (k : Nat) :
    GoodLengths maxBufLen (xs.drop k) := by
  intro i hi hsync
  rw [List.length_drop] at hi
  rw [List.drop_drop] at hsync ⊢
  by_cases hk : k ≤ xs.length
  · exact h (k + i) (by omega) hsync
  · omega

theorem GoodLengths.left (h : GoodLengths maxBufLen (xs ++ ys)) : GoodLengths maxBufLen xs := by
  intro i hi hsync
  have hdrop : (xs ++ ys).drop i = xs.drop i ++ ys := List.drop_append_of_le_length (by omega)
  have hlen : (xs.drop i).length = xs.length - i := List.length_drop
  have hgood := h i (by rw [List.length_append]; omega)
  rw [hdrop, List.take_append_of_le_length (by omega), intAt_append (by omega)] at hgood
  exact hgood hsync

/-! ## The scan for the sync code -/

theorem firstMismatch_eq (m : Mem UInt8) (a : Int) (flag : List UInt8) (n j : Nat)
    (h : flag.length ≤ n) : firstMismatch m a flag j = mismatch flag (m.read (a + j) n) j := by
  induction flag generalizing n j with
  | nil => rfl
  | cons b flag ih =>
      cases n with
      | zero => simp at h
      | succ n =>
          simp only [firstMismatch, mismatch, Mem.read]
          rw [ih n (j + 1) (by simpa using h)]
          congr 3
          omega

theorem syncFlag_ne_nil : syncFlag ≠ [] := List.cons_ne_nil _ _

/-- One round of the scan, where the whole flag fits. -/
theorem findLoop_succ {flag : List UInt8} (hflag : flag ≠ []) (m : Mem UInt8) (src searchLen : Int)
    (fuel i n : Nat) (hi : i ≤ searchLen) (hn : flag.length ≤ n) :
    findLoop flag m src searchLen (fuel + 1) i =
      match mismatch flag (m.read (src + i) n) 0 with
      | none => i
      | some j => findLoop flag m src searchLen fuel (i + j + 1) := by
  obtain ⟨b, flag, rfl⟩ := List.exists_cons_of_ne_nil hflag
  rw [List.length_cons] at hn
  obtain ⟨n, rfl⟩ := Nat.exists_eq_succ_of_ne_zero (show n ≠ 0 by omega)
  have hrest := firstMismatch_eq m (src + i) flag n 1 (by omega)
  simp only [findLoop, if_pos hi, List.head?_cons, List.tail_cons, Mem.read, mismatch,
    Option.some.injEq]
  by_cases hb : b = m (src + i)
  · rw [if_pos hb, hrest, if_neg (not_not.2 hb)]
    rfl
  · rw [if_neg hb, if_pos hb]

/-- **The scan goes where the deframer goes**: it stays in range, and stops at a sync code or where
    less than four bytes are left. -/
theorem findLoop_spec {m : Mem UInt8} {src : Int} {n : Nat} {fuel i : Nat} (hi : i ≤ n)
    (hfuel : n < fuel + i) :
    i ≤ findLoop syncFlag m src (n - 4) fuel i ∧ findLoop syncFlag m src (n - 4) fuel i ≤ n ∧
    deframer.drain ((m.read src n).drop i) =
      deframer.drain ((m.read src n).drop (findLoop syncFlag m src (n - 4) fuel i)) ∧
    (n < findLoop syncFlag m src (n - 4) fuel i + 4 ∨
      mismatch syncFlag ((m.read src n).drop (findLoop syncFlag m src (n - 4) fuel i)) 0 = none) := by
  induction fuel generalizing i with
  | zero => omega
  | succ fuel ih =>
      by_cases hroom : (i : Int) ≤ n - 4
      · have hread : (m.read src n).drop i = m.read (src + i) (n - i) := Mem.drop_read m src n i hi
        rw [findLoop_succ syncFlag_ne_nil m src (n - 4) fuel i (n - i) hroom
          (show 4 ≤ n - i by omega), ← hread]
        cases hmis : mismatch syncFlag ((m.read src n).drop i) 0 with
        | none => exact ⟨Nat.le_refl i, hi, rfl, Or.inr hmis⟩
        | some j =>
            have hj : j < 0 + 4 := mismatch_lt hmis
            have hstep : deframer.step ((m.read src n).drop i) = some (none, j + 1) := by
              show deframe _ = _
              rw [deframe, hmis, if_neg (by rw [hread, Mem.length_read]; omega)]
            obtain ⟨hge, hle, hdrain, hstop⟩ := ih (i := i + j + 1) (by omega) (by omega)
            refine ⟨Nat.le_trans (by omega) hge, hle, ?_, hstop⟩
            rw [Incremental.drain_of_some hstep, List.drop_drop, ← Nat.add_assoc]
            simpa using hdrain
      · have hstay : findLoop syncFlag m src (n - 4) (fuel + 1) i = i := by
          simp only [findLoop, if_neg hroom]
        rw [hstay]
        exact ⟨Nat.le_refl i, hi, rfl, Or.inl (by omega)⟩

/-- What `comm_find_magic_num` finds. -/
theorem commFindMagicNum_spec (m : Mem UInt8) (a : Int) (n : Nat) :
    commFindMagicNum syncFlag m a n ≤ n ∧
    deframer.drain (m.read a n) = deframer.drain (m.read (a + commFindMagicNum syncFlag m a n)
      (n - commFindMagicNum syncFlag m a n)) ∧
    (n < commFindMagicNum syncFlag m a n + 4 ∨
      mismatch syncFlag (m.read (a + commFindMagicNum syncFlag m a n)
        (n - commFindMagicNum syncFlag m a n)) 0 = none) := by
  obtain ⟨-, hr, hdrain, hstop⟩ := findLoop_spec (m := m) (n := n) (show 0 ≤ n by omega)
    (show n < n + 1 + 0 by omega)
  rw [Mem.drop_read _ _ _ _ hr] at hdrain hstop
  exact ⟨hr, hdrain, hstop⟩

/-! ## The loop of `comm_raw_parse` -/

/-- A callback that leaves the buffer alone. -/
def NonWriting (cb : Option MsgCallback) : Prop := ∀ m a len, afterCallback cb m a len = m

/-- What the callback was handed: length and bytes. -/
def ParsedMsg.frame (c : ParsedMsg) : Int × List UInt8 := (c.len, c.bytes)

/-- The frames as the callback gets them, if there is one. -/
def handed (cb : Option MsgCallback) (frames : List (List UInt8)) : List (Int × List UInt8) :=
  if cb.isSome then frames.map fun f => ((f.length : Int), f) else []

@[simp] theorem handed_append (cb : Option MsgCallback) (fs gs : List (List UInt8)) :
    handed cb (fs ++ gs) = handed cb fs ++ handed cb gs := by
  unfold handed
  split <;> simp

theorem callLog_frame (cb : Option MsgCallback) (m : Mem UInt8) (a : Int) (n : Nat) :
    (callLog cb m a n).map ParsedMsg.frame = handed cb [m.read a n] := by
  unfold callLog handed
  split <;> simp [ParsedMsg.frame]

theorem loadWord_eq (m : Mem UInt8) (a : Int) {n k : Nat} (h : k + 4 ≤ n) :
    loadWord m (a + k) = wordAt (m.read a n) k := by
  have hget : ∀ i, i < n → (m.read a n).getD i 0 = m (a + i) := fun i hi => by
    rw [List.getD_eq_getElem?_getD, Mem.getElem?_read _ _ _ _ hi, Option.getD_some]
  rw [loadWord, wordAt, hget _ (by omega), hget _ (by omega), hget _ (by omega), hget _ (by omega)]
  simp only [Int.natCast_add, ← Int.add_assoc]
  rfl

theorem loadInt_eq (m : Mem UInt8) (a : Int) {n k : Nat} (h : k + 4 ≤ n) :
    loadInt m (a + k) = intAt (m.read a n) k := by
  rw [loadInt, intAt, loadWord_eq m a h]

/-- Where the scan stops, the deframer waits for a whole header or sees a sync code. -/
theorem deframe_of_stop (hstop : ys.length < 4 ∨ mismatch syncFlag ys 0 = none) :
    (ys.length < 40 ∧ deframe ys = none) ∨ (40 ≤ ys.length ∧ mismatch syncFlag ys 0 = none) := by
  by_cases h40 : ys.length < 40
  · refine Or.inl ⟨h40, ?_⟩
    rw [deframe]
    split
    · rfl
    · next h4 =>
        rw [hstop.resolve_left h4]
        exact if_pos (Or.inl h40)
  · exact Or.inr ⟨by omega, hstop.resolve_left (by omega)⟩

/-- What the deframer does at a sync code with a whole header after it. -/
theorem deframe_header (h40 : 40 ≤ ys.length) (hmis : mismatch syncFlag ys 0 = none) {k : Nat}
    (hk : intAt ys 16 = k) :
    deframe ys = if ys.length < 40 + k then none else some (some (ys.take (40 + k)), 40 + k) := by
  rw [deframe, if_neg (by omega), hmis]
  dsimp only
  rw [hk, Int.toNat_natCast]
  split <;> split <;> first | rfl | omega

/-- One round of the loop: it ends when no whole header is left after the scan, and else takes the
    message of the length that the header gives, if it is there. -/
theorem rawParseLoop_round (cb : Option MsgCallback) {m : Mem UInt8} {n a r : Nat} (fuel : Nat)
    (hr : r ≤ n) (hscan : commFindMagicNum syncFlag m a n = r) :
    (n - r < 40 → rawParseLoop cb syncFlag headerLen headerMsgLenOffset (fuel + 1) m n a =
      some ⟨m, ↑(n - r), ↑(a + r), []⟩) ∧
    ∀ len : Int, 40 ≤ n - r → wrapS32 (40 + intAt (m.read ↑(a + r) (n - r)) 16) = len →
      rawParseLoop cb syncFlag headerLen headerMsgLenOffset (fuel + 1) m n a =
        if (n - r : Nat) < len then some ⟨m, ↑(n - r), ↑(a + r), []⟩
        else (rawParseLoop cb syncFlag headerLen headerMsgLenOffset fuel
          (afterCallback cb m ↑(a + r) len) (wrapS32 ((n - r : Nat) - len))
          (wrapS32 (↑(a + r) + len))).map
          fun s => { s with calls := callLog cb m ↑(a + r) len ++ s.calls } := by
  simp only [rawParseLoop, hscan]
  rw [← Int.natCast_add, show (n : Int) - r = ((n - r : Nat) : Int) by omega]
  refine ⟨fun h40 => if_neg ?_, fun len h40 hlen => ?_⟩
  · simp only [headerLen]
    omega
  · have hmsg : wrapS32 (headerLen + loadInt m (↑(a + r) + headerMsgLenOffset)) = len :=
      (congrArg (fun x => wrapS32 (headerLen + x))
        (loadInt_eq m ↑(a + r) (show 16 + 4 ≤ n - r by omega))).trans hlen
    rw [if_pos (show ((n - r : Nat) : Int) ≥ headerLen by simp only [headerLen]; omega), hmsg]
    by_cases hwhole : ((n - r : Nat) : Int) < len
    · rw [if_neg (by omega), if_pos hwhole]
    · rw [if_pos (by omega), if_neg hwhole]

/-- A round over a header with the length `k`. -/
theorem rawParseLoop_take (cb : Option MsgCallback) {m : Mem UInt8} {n a r k : Nat} (fuel : Nat)
    (hn : a + n < 2 ^ 31) (hr : r ≤ n) (hscan : commFindMagicNum syncFlag m a n = r)
    (h40 : 40 ≤ n - r) (hk : intAt (m.read ↑(a + r) (n - r)) 16 = k) (hmax : 40 + k < 2 ^ 31) :
    rawParseLoop cb syncFlag headerLen headerMsgLenOffset (fuel + 1) m n a =
      if n - r < 40 + k then some ⟨m, ↑(n - r), ↑(a + r), []⟩
      else (rawParseLoop cb syncFlag headerLen headerMsgLenOffset fuel
        (afterCallback cb m ↑(a + r) ↑(40 + k)) ↑(n - r - (40 + k)) ↑(a + r + (40 + k))).map
        fun s => { s with calls := callLog cb m ↑(a + r) ↑(40 + k) ++ s.calls } := by
  have hlen : wrapS32 (40 + intAt (m.read ↑(a + r) (n - r)) 16) = ((40 + k : Nat) : Int) := by
    rw [hk, wrapS32_of_mem (by omega) (by omega)]
    omega
  rw [(rawParseLoop_round cb fuel hr hscan).2 _ h40 hlen]
  by_cases hwhole : n - r < 40 + k
  · rw [if_pos (by omega), if_pos hwhole]
  · rw [if_neg (by omega), if_neg hwhole, wrapS32_of_mem (by omega) (by omega),
      wrapS32_of_mem (by omega) (by omega),
      show ((n - r : Nat) : Int) - ((40 + k : Nat) : Int) = ((n - r - (40 + k) : Nat) : Int)
        by omega, ← Int.natCast_add]

/-- With a callback that does not write, the loop ends where the deframer waits and takes the
    message that the deframer takes. -/
theorem rawParseLoop_step {cb : Option MsgCallback} (hcb : NonWriting cb)
    (hmax : maxBufLen < 2 ^ 31) {m : Mem UInt8} {n a : Nat} (fuel : Nat) (hn : a + n ≤ maxBufLen)
    (hgood : GoodLengths maxBufLen (m.read a n)) :
    ∃ r ≤ n, deframer.drain (m.read a n) = deframer.drain (m.read ↑(a + r) (n - r)) ∧
      GoodLengths maxBufLen (m.read ↑(a + r) (n - r)) ∧
      ((deframe (m.read ↑(a + r) (n - r)) = none ∧
        rawParseLoop cb syncFlag headerLen headerMsgLenOffset (fuel + 1) m n a =
          some ⟨m, ↑(n - r), ↑(a + r), []⟩) ∨
      (∃ k, 40 + k ≤ n - r ∧
        deframe (m.read ↑(a + r) (n - r)) = some (some (m.read ↑(a + r) (40 + k)), 40 + k) ∧
        rawParseLoop cb syncFlag headerLen headerMsgLenOffset (fuel + 1) m n a =
          (rawParseLoop cb syncFlag headerLen headerMsgLenOffset fuel m ↑(n - r - (40 + k))
            ↑(a + r + (40 + k))).map
          fun s => { s with calls := callLog cb m ↑(a + r) ↑(40 + k) ++ s.calls })) := by
  obtain ⟨hr, hdrain, hstop⟩ := commFindMagicNum_spec m a n
  have hys := hgood.drop (commFindMagicNum syncFlag m a n)
  rw [Mem.drop_read _ _ _ _ hr] at hys
  generalize hscan : commFindMagicNum syncFlag m a n = r at hr hdrain hstop hys
  rw [← Int.natCast_add] at hdrain hstop hys
  have hlen : (m.read ↑(a + r) (n - r)).length = n - r := Mem.length_read _ _ _
  refine ⟨r, hr, hdrain, hys, ?_⟩
  rcases deframe_of_stop (hstop.imp_left (by omega)) with ⟨h40, hwait⟩ | ⟨h40, hmis⟩
  · exact Or.inl ⟨hwait, (rawParseLoop_round cb fuel hr hscan).1 (by omega)⟩
  · obtain ⟨h0, hfit⟩ := hys 0 (by omega) (take_of_mismatch hmis)
    rw [List.drop_zero] at h0 hfit
    obtain ⟨k, hk⟩ := Int.eq_ofNat_of_zero_le h0
    rw [rawParseLoop_take cb fuel (by omega) hr hscan (by omega) hk (by omega),
      deframe_header h40 hmis hk, hlen, hcb]
    by_cases hwhole : n - r < 40 + k
    · exact Or.inl ⟨if_pos hwhole, if_pos hwhole⟩
    · refine Or.inr ⟨k, by omega, ?_, if_neg hwhole⟩
      rw [if_neg hwhole, Mem.take_read _ _ _ _ (by omega)]

/-- **The loop of `comm_raw_parse` is the deframer.** -/
theorem rawParseLoop_eq {cb : Option MsgCallback} (hcb : NonWriting cb) (hmax : maxBufLen < 2 ^ 31)
    {m : Mem UInt8} {fuel n a : Nat} (hfuel : n < fuel) (hn : a + n ≤ maxBufLen)
    (hgood : GoodLengths maxBufLen (m.read a n)) :
    ∃ calls d, rawParseLoop cb syncFlag headerLen headerMsgLenOffset fuel m n a =
        some ⟨m, (deframer.drain (m.read a n)).2.length, d, calls⟩ ∧
      m.read d (deframer.drain (m.read a n)).2.length = (deframer.drain (m.read a n)).2 ∧
      calls.map ParsedMsg.frame = handed cb (deframer.drain (m.read a n)).1 := by
  induction fuel generalizing n a with
  | zero => omega
  | succ fuel ih =>
      obtain ⟨r, hr, hdrain, hys, hcases⟩ := rawParseLoop_step hcb hmax fuel hn hgood
      rw [hdrain]
      rcases hcases with ⟨hwait, hloop⟩ | ⟨k, hk, hstep, hloop⟩
      · rw [hloop, Incremental.drain_of_none (d := deframer) hwait]
        exact ⟨[], ↑(a + r), by rw [Mem.length_read], by rw [Mem.length_read], by simp [handed]⟩
      · have hrest := hys.drop (40 + k)
        rw [Mem.drop_read _ _ _ _ hk, ← Int.natCast_add] at hrest
        obtain ⟨calls, d, hloop', hread, hcalls⟩ := ih (n := n - r - (40 + k))
          (a := a + r + (40 + k)) (by omega) (by omega) hrest
        rw [hloop, hloop', Option.map_some, Incremental.drain_of_some (d := deframer) hstep,
          Mem.drop_read _ _ _ _ hk, ← Int.natCast_add]
        refine ⟨_, d, rfl, hread, ?_⟩
        rw [List.map_append, hcalls, callLog_frame, ← handed_append]
        rfl

/-! ## Connections -/

/-- The buffer of the connection begins with the bytes `left`, which wait for more. -/
structure ListTcpReq.Holds (req : ListTcpReq) (left : List UInt8) : Prop where
  offset : req.curRecvOffset = left.length
  bytes : req.buffer.read 0 left.length = left

theorem ListTcpReq.Holds.leftover_eq {req : ListTcpReq} {left : List UInt8} (h : req.Holds left) :
    req.leftover = left := by
  rw [ListTcpReq.leftover, h.offset, Int.toNat_natCast, h.bytes]

/-- A `recv` runs the loop over what was left and what was received, and moves what the loop leaves
    to the front of the buffer. -/
theorem commTcpRecv_of_loop {cb : Option MsgCallback} {fuel off left : Nat} {req : ListTcpReq}
    {c : List UInt8} {s : ParseState} (hoff : req.curRecvOffset = off) (hc : 0 < c.length)
    (hloop : rawParseLoop cb syncFlag headerLen headerMsgLenOffset fuel (req.buffer.write off c)
      ↑(off + c.length) 0 = some s)
    (hleft : s.leftLen = left) :
    ∃ m, commTcpRecv fuel cb req c = some (⟨m, left, req.maxBufLen⟩, s.calls) ∧
      m.read 0 left = s.buffer.read s.dropLen left := by
  rw [commTcpRecv, if_pos hc, commRawParse, hoff, ← Int.natCast_add, hloop]
  dsimp only
  rw [hleft, if_neg (by omega)]
  by_cases hzero : left = 0
  · rw [if_neg (by omega), hzero]
    exact ⟨_, rfl, rfl⟩
  · rw [if_pos (by omega), Int.toNat_natCast]
    refine ⟨_, rfl, ?_⟩
    have hself := Mem.read_write_self s.buffer 0 (s.buffer.read s.dropLen left)
    rwa [Mem.length_read] at hself

/-- The buffer of a `recv`: what was left, and what was received after it. -/
theorem ListTcpReq.Holds.append {req : ListTcpReq} {left : List UInt8} (h : req.Holds left)
    (c : List UInt8) :
    (req.buffer.write left.length c).read 0 (left.length + c.length) = left ++ c := by
  have happend := Mem.read_write_append req.buffer 0 left.length c
  rwa [Int.zero_add, h.bytes] at happend

/-- **One `recv`.** The deframer works on what was left and what was received. -/
theorem commTcpRecv_spec {cb : Option MsgCallback} (hcb : NonWriting cb)
    (hmax : maxBufLen < 2 ^ 31) {fuel : Nat} (hfuel : maxBufLen < fuel) {req : ListTcpReq}
    {left c : List UInt8} (h : req.Holds left) (hc : 0 < c.length)
    (hfit : left.length + c.length ≤ maxBufLen) (hgood : GoodLengths maxBufLen (left ++ c)) :
    ∃ req' calls, commTcpRecv fuel cb req c = some (req', calls) ∧
      req'.maxBufLen = req.maxBufLen ∧ req'.Holds (deframer.drain (left ++ c)).2 ∧
      calls.map ParsedMsg.frame = handed cb (deframer.drain (left ++ c)).1 := by
  have hbytes := h.append c
  obtain ⟨calls, d, hloop, hread, hcalls⟩ := rawParseLoop_eq hcb hmax (a := 0)
    (m := req.buffer.write left.length c) (n := left.length + c.length)
    (show _ < fuel by omega) (by omega) (by rwa [Int.natCast_zero, hbytes])
  rw [Int.natCast_zero, hbytes] at hloop hread hcalls
  obtain ⟨m, hrecv, hmoved⟩ := commTcpRecv_of_loop h.offset hc hloop rfl
  exact ⟨_, calls, hrecv, rfl, ⟨rfl, hmoved.trans hread⟩, hcalls⟩

/-- **A whole connection.** However the chunks cut it, the stream goes through the deframer. -/
theorem run_commTcpRecv {cb : Option MsgCallback} (hcb : NonWriting cb) (hmax : maxBufLen < 2 ^ 31)
    {fuel : Nat} (hfuel : maxBufLen < fuel) {cs : List (List UInt8)} {req : ListTcpReq}
    {left : List UInt8} (h : req.Holds left) (hwait : deframe left = none)
    (hbuf : req.maxBufLen = maxBufLen) (hgood : GoodLengths maxBufLen (left ++ cs.flatten))
    (hcs : Receivable fuel cb req cs) :
    ∃ req' calls, run (commTcpRecv fuel cb) req cs = some (req', calls) ∧
      req'.Holds (deframer.drain (left ++ cs.flatten)).2 ∧
      calls.map ParsedMsg.frame = handed cb (deframer.drain (left ++ cs.flatten)).1 := by
  induction cs generalizing req left with
  | nil =>
      rw [List.flatten_nil, List.append_nil, Incremental.drain_of_none (d := deframer) hwait]
      exact ⟨req, [], rfl, h, by simp [handed]⟩
  | cons c cs ih =>
      obtain ⟨hc, hfree, hnext⟩ := hcs
      rw [List.flatten_cons, ← List.append_assoc] at hgood ⊢
      have hoffset := h.offset
      obtain ⟨req', calls, hrecv, hbuf', h', hcalls⟩ :=
        commTcpRecv_spec hcb hmax hfuel h hc (by omega) hgood.left
      -- what is left is the end of what the stream had up to here
      obtain ⟨k, hk, hrest⟩ := Incremental.exists_drop_drain (d := deframer) (left ++ c)
      have hgood' : GoodLengths maxBufLen ((deframer.drain (left ++ c)).2 ++ cs.flatten) := by
        rw [hrest, ← List.drop_append_of_le_length hk]
        exact hgood.drop k
      obtain ⟨req'', calls', hrun, h'', hcalls'⟩ := ih h'
        (Incremental.step_drain (d := deframer) (left ++ c)) (hbuf'.trans hbuf) hgood'
        (hnext req' calls hrecv)
      refine ⟨req'', calls ++ calls', ?_, ?_, ?_⟩
      · exact run_cons_eq_some.2 ⟨req', calls, calls', hrecv, hrun, rfl⟩
      · rw [Incremental.drain_append]
        exact h''
      · rw [Incremental.drain_append, List.map_append, hcalls, hcalls', handed_append]

/-- **Segmentation independence.** A stream whose headers carry lengths that fit the buffer, cut in
    two ways into chunks that `recv` can return, gives the same calls of a callback that does not
    write to the buffer, and leaves the same bytes in the buffer. -/
theorem commTcpRecv_segmentation (maxBufLen : Nat) (hmax : maxBufLen < 2 ^ 31)
    (cb : Option MsgCallback) (hcb : NonWriting cb) (stream : List UInt8)
    (hgood : GoodLengths maxBufLen stream) (fuel : Nat) (hfuel : maxBufLen < fuel)
    (m m' : Mem UInt8) (cs cs' : List (List UInt8)) (hcs : cs.flatten = stream)
    (hcs' : cs'.flatten = stream) (hrecv : Receivable fuel cb (newReq m maxBufLen) cs)
    (hrecv' : Receivable fuel cb (newReq m' maxBufLen) cs') :
    ∃ req calls req' calls',
      run (commTcpRecv fuel cb) (newReq m maxBufLen) cs = some (req, calls) ∧
      run (commTcpRecv fuel cb) (newReq m' maxBufLen) cs' = some (req', calls') ∧
      calls.map ParsedMsg.frame = calls'.map ParsedMsg.frame ∧
      req.curRecvOffset = req'.curRecvOffset ∧ req.leftover = req'.leftover := by
  have hempty : ∀ m, (newReq m maxBufLen).Holds [] := fun m => ⟨rfl, rfl⟩
  obtain ⟨req, calls, hrun, h, hcalls⟩ := run_commTcpRecv hcb hmax hfuel (hempty m) rfl rfl
    (by rwa [hcs]) hrecv
  obtain ⟨req', calls', hrun', h', hcalls'⟩ := run_commTcpRecv hcb hmax hfuel (hempty m') rfl rfl
    (by rwa [hcs']) hrecv'
  rw [hcs] at h hcalls
  rw [hcs'] at h' hcalls'
  exact ⟨req, calls, req', calls', hrun, hrun', hcalls.trans hcalls'.symm,
    h.offset.trans h'.offset.symm, h.leftover_eq.trans h'.leftover_eq.symm⟩

/-- One message after a byte of garbage, in one piece and cut inside the sync code. -/
theorem commTcpRecv_segmentation_cut :
    ∃ req calls req' calls',
      run (commTcpRecv 49 (some fun m _ _ => m)) (newReq (fun _ => 0) (48 : Nat))
        [0x55 :: (syncFlag ++ List.replicate 36 0)] = some (req, calls) ∧
      run (commTcpRecv 49 (some fun m _ _ => m)) (newReq (fun _ => 0) (48 : Nat))
        [[0x55, 0x55], [0xAA, 0x55, 0xAA] ++ List.replicate 36 0] = some (req', calls') ∧
      calls.map ParsedMsg.frame = calls'.map ParsedMsg.frame ∧
      req.curRecvOffset = req'.curRecvOffset ∧ req.leftover = req'.leftover := by
  have hgood : ∀ i < 2, 0 ≤ intAt ((0x55 :: (syncFlag ++ List.replicate 36 0)).drop i) 16 ∧
      intAt ((0x55 :: (syncFlag ++ List.replicate 36 0)).drop i) 16 + 40 ≤ (48 : Nat) := by decide
  refine commTcpRecv_segmentation 48 (by decide) _ (fun _ _ _ => rfl) _
    (fun i hi _ => hgood i (by simp [syncFlag] at hi; omega)) 49 (by decide) _ _ _ _ rfl rfl
    ⟨by decide, by decide, fun _ _ _ => trivial⟩ ⟨by decide, by decide, fun req calls h => ?_⟩
  have hfree : (commTcpRecv 49 (some fun m _ _ => m) (newReq (fun _ => 0) (48 : Nat))
      [0x55, 0x55]).map (fun r => r.1.maxBufLen - r.1.curRecvOffset) = some 46 := by decide
  rw [h, Option.map_some, Option.some.injEq] at hfree
  exact ⟨by decide, by rw [hfree]; decide, fun _ _ _ => trivial⟩

end XToolkits.Comm
