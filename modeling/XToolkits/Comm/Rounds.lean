import XToolkits.Comm.Deframe

set_option autoImplicit false

/-! # The loop of `comm_raw_parse`, round by round

`rawParseRound` is one iteration of the loop, and `TopOfLoop` says which states the loop is in at
the top of an iteration, with the calls of the callback before it. No assumption is made on what was
received: the length in a header is any of the `2 ^ 32` values. The loop stays in range and ends as
long as the lengths it meets do not make `MsgHeadLen + msg_data_len` less than a header
(`HeaderFits`), and hands over a frame shorter than a header when one does. -/

namespace XToolkits.Comm

/-! ## Rounds -/

/-- The variables of the loop at the top of an iteration. -/
structure ParseTop where
  buffer : Mem UInt8
  leftLen : Int
  dropLen : Int

/-- After the scan for the sync code. -/
def ParseTop.scan (s : ParseTop) : ParseTop :=
  { s with
    leftLen := s.leftLen - commFindMagicNum syncFlag s.buffer s.dropLen s.leftLen
    dropLen := s.dropLen + commFindMagicNum syncFlag s.buffer s.dropLen s.leftLen }

/-- The scan stays where a sync code is. -/
theorem ParseTop.scan_eq_self {s : ParseTop}
    (h : commFindMagicNum syncFlag s.buffer s.dropLen s.leftLen = 0) : s.scan = s := by
  simp only [ParseTop.scan, h, Int.natCast_zero, Int.sub_zero, Int.add_zero]

/-- The length field of the header that the scan stopped at. -/
def ParseTop.msgDataLen (s : ParseTop) : Int :=
  loadInt s.scan.buffer (s.scan.dropLen + headerMsgLenOffset)

/-- `MsgHeadLen + msg_data_len`. -/
def ParseTop.msgLen (s : ParseTop) : Int := wrapS32 (headerLen + s.msgDataLen)

/-- One iteration of the loop, or `none` when it breaks. -/
def rawParseRound (cb : Option MsgCallback) (s : ParseTop) : Option (ParseTop × List ParsedMsg) :=
  if s.scan.leftLen ≥ headerLen ∧ s.scan.leftLen ≥ s.msgLen then
    some (⟨afterCallback cb s.buffer s.scan.dropLen s.msgLen,
        wrapS32 (s.scan.leftLen - s.msgLen), wrapS32 (s.scan.dropLen + s.msgLen)⟩,
      callLog cb s.buffer s.scan.dropLen s.msgLen)
  else none

/-- A round that takes a message of `len` bytes. -/
theorem rawParseRound_eq {cb : Option MsgCallback} {s t : ParseTop} {len : Int} (hscan : s.scan = t)
    (hmsg : s.msgLen = len) (h40 : headerLen ≤ t.leftLen) (hlen : len ≤ t.leftLen) :
    rawParseRound cb s = some (⟨afterCallback cb s.buffer t.dropLen len,
      wrapS32 (t.leftLen - len), wrapS32 (t.dropLen + len)⟩,
      callLog cb s.buffer t.dropLen len) := by
  rw [rawParseRound, hscan, hmsg, if_pos ⟨h40, hlen⟩]

/-- What a round has done. -/
theorem rawParseRound_cases {cb : Option MsgCallback} {s s' : ParseTop} {calls : List ParsedMsg}
    (hround : rawParseRound cb s = some (s', calls)) :
    headerLen ≤ s.scan.leftLen ∧ s.msgLen ≤ s.scan.leftLen ∧
      s' = ⟨afterCallback cb s.buffer s.scan.dropLen s.msgLen,
        wrapS32 (s.scan.leftLen - s.msgLen), wrapS32 (s.scan.dropLen + s.msgLen)⟩ ∧
      calls = callLog cb s.buffer s.scan.dropLen s.msgLen := by
  simp only [rawParseRound] at hround
  split at hround
  · next hcond =>
      simp only [Option.some.injEq, Prod.mk.injEq] at hround
      exact ⟨hcond.1, hcond.2, hround.1.symm, hround.2.symm⟩
  · cases hround

/-- **The loop is its rounds.** -/
theorem rawParseLoop_succ (cb : Option MsgCallback) (fuel : Nat) (s : ParseTop) :
    rawParseLoop cb syncFlag headerLen headerMsgLenOffset (fuel + 1) s.buffer s.leftLen s.dropLen =
      match rawParseRound cb s with
      | none => some ⟨s.buffer, s.scan.leftLen, s.scan.dropLen, []⟩
      | some (s', calls) =>
          (rawParseLoop cb syncFlag headerLen headerMsgLenOffset fuel s'.buffer s'.leftLen
            s'.dropLen).map fun t => { t with calls := calls ++ t.calls } := by
  have hloop : rawParseLoop cb syncFlag headerLen headerMsgLenOffset (fuel + 1) s.buffer s.leftLen
      s.dropLen = if s.scan.leftLen ≥ headerLen then
        if s.scan.leftLen ≥ s.msgLen then
          (rawParseLoop cb syncFlag headerLen headerMsgLenOffset fuel
            (afterCallback cb s.buffer s.scan.dropLen s.msgLen)
            (wrapS32 (s.scan.leftLen - s.msgLen)) (wrapS32 (s.scan.dropLen + s.msgLen))).map
          fun t => { t with calls := callLog cb s.buffer s.scan.dropLen s.msgLen ++ t.calls }
        else some ⟨s.buffer, s.scan.leftLen, s.scan.dropLen, []⟩
      else some ⟨s.buffer, s.scan.leftLen, s.scan.dropLen, []⟩ := rfl
  rw [hloop, rawParseRound]
  by_cases h40 : s.scan.leftLen ≥ headerLen
  · by_cases hmsg : s.scan.leftLen ≥ s.msgLen
    · rw [if_pos h40, if_pos hmsg, if_pos ⟨h40, hmsg⟩]
    · rw [if_pos h40, if_neg hmsg, if_neg fun h => hmsg h.2]
  · rw [if_neg h40, if_neg fun h => h40 h.1]

/-- The loop that starts in `s₀` is at the top of an iteration in `s`, after the calls `calls`. -/
def TopOfLoop (cb : Option MsgCallback) (s₀ s : ParseTop) (calls : List ParsedMsg) : Prop :=
  ∃ k, run (fun s (_ : Unit) => rawParseRound cb s) s₀ (List.replicate k ()) = some (s, calls)

variable {cb : Option MsgCallback} {s₀ s s' : ParseTop} {calls calls' : List ParsedMsg}

theorem TopOfLoop.refl (cb : Option MsgCallback) (s : ParseTop) : TopOfLoop cb s s [] := ⟨0, rfl⟩

theorem TopOfLoop.concat (h : TopOfLoop cb s₀ s calls)
    (hround : rawParseRound cb s = some (s', calls')) : TopOfLoop cb s₀ s' (calls ++ calls') := by
  obtain ⟨k, hrun⟩ := h
  refine ⟨k + 1, ?_⟩
  rw [List.replicate_succ']
  exact run_concat_eq_some.2 ⟨s, calls, calls', hrun, hround, rfl⟩

theorem TopOfLoop.cons (hround : rawParseRound cb s₀ = some (s, calls))
    (h : TopOfLoop cb s s' calls') : TopOfLoop cb s₀ s' (calls ++ calls') := by
  obtain ⟨k, hrun⟩ := h
  refine ⟨k + 1, ?_⟩
  rw [List.replicate_succ]
  exact run_cons_eq_some.2 ⟨s, calls, calls', hround, hrun, rfl⟩

/-- The loop is in its first state, or has made a round. -/
theorem TopOfLoop.cases (h : TopOfLoop cb s₀ s calls) :
    s = s₀ ∨ ∃ s₁ calls₁ calls₂, rawParseRound cb s₀ = some (s₁, calls₁) ∧
      TopOfLoop cb s₁ s calls₂ := by
  obtain ⟨k, hrun⟩ := h
  cases k with
  | zero =>
      cases hrun
      exact Or.inl rfl
  | succ k =>
      obtain ⟨s₁, calls₁, calls₂, hround, hrest, -⟩ := run_cons_eq_some.1 hrun
      exact Or.inr ⟨s₁, calls₁, calls₂, hround, k, hrest⟩

/-! ## In range -/

/-- The variables are in range: `total` bytes were received. -/
structure ParseTop.InRange (total : Int) (s : ParseTop) : Prop where
  left : 0 ≤ s.leftLen
  drop : 0 ≤ s.dropLen
  sum : s.dropLen + s.leftLen = total

/-- A message of at least a header lies in the `total` bytes received. -/
structure ParsedMsg.InRange (total : Int) (c : ParsedMsg) : Prop where
  header : headerLen ≤ c.len
  start : 0 ≤ c.addr
  stop : c.addr + c.len ≤ total

/-- Where the scan stops at a whole header, the length field of it is not negative, and stays an
    `int` when the length of the header is added to it. -/
def ParseTop.HeaderFits (s : ParseTop) : Prop :=
  headerLen ≤ s.scan.leftLen → 0 ≤ s.msgDataLen ∧ s.msgDataLen < 2 ^ 31 - headerLen

variable {total : Int}

theorem ParseTop.InRange.scan (h : s.InRange total) : s.scan.InRange total := by
  obtain ⟨n, hn⟩ := Int.eq_ofNat_of_zero_le h.left
  obtain ⟨hle, -, -⟩ := commFindMagicNum_spec s.buffer s.dropLen n
  have hdrop := h.drop
  have hsum := h.sum
  constructor <;> simp only [ParseTop.scan, hn] at * <;> omega

theorem wrapS32_range (x : Int) : -2 ^ 31 ≤ wrapS32 x ∧ wrapS32 x < 2 ^ 31 := by
  unfold wrapS32
  omega

/-- The message is at least a header long exactly when the length in the header fits. -/
theorem ParseTop.headerLen_le_msgLen (s : ParseTop) :
    headerLen ≤ s.msgLen ↔ 0 ≤ s.msgDataLen ∧ s.msgDataLen < 2 ^ 31 - headerLen := by
  have hrange : -2 ^ 31 ≤ s.msgDataLen ∧ s.msgDataLen < 2 ^ 31 := wrapS32_range _
  simp only [ParseTop.msgLen, wrapS32, headerLen]
  omega

/-- A message with a whole header takes at least one byte. -/
def ParseTop.Advances (s : ParseTop) : Prop := headerLen ≤ s.scan.leftLen → 0 < s.msgLen

theorem ParseTop.HeaderFits.headerLen_le (hfits : s.HeaderFits) (h40 : headerLen ≤ s.scan.leftLen) :
    headerLen ≤ s.msgLen := s.headerLen_le_msgLen.2 (hfits h40)

theorem ParseTop.HeaderFits.advances (hfits : s.HeaderFits) : s.Advances :=
  fun h40 => Int.lt_of_lt_of_le (by decide) (hfits.headerLen_le h40)

/-- A round that takes at least one byte stays in range. -/
theorem ParseTop.InRange.advance (htotal : total < 2 ^ 31) (h : s.InRange total) (hadv : s.Advances)
    (hround : rawParseRound cb s = some (s', calls)) :
    s'.InRange total ∧ s'.leftLen + s.msgLen ≤ s.leftLen := by
  obtain ⟨h40, hmsg, rfl, -⟩ := rawParseRound_cases hround
  have hscan := h.scan
  have hle : s.scan.leftLen ≤ s.leftLen := Int.sub_le_self _ (Int.natCast_nonneg _)
  have hpos := hadv h40
  have hleft := hscan.left
  have hdrop := hscan.drop
  have hsum := hscan.sum
  rw [wrapS32_of_mem (by omega) (by omega), wrapS32_of_mem (by omega) (by omega)]
  exact ⟨⟨by simp only; omega, by simp only; omega, by simp only; omega⟩, by simp only; omega⟩

/-- **One round** with a length that fits stays in range, and hands over a frame in range. -/
theorem ParseTop.InRange.round (htotal : total < 2 ^ 31) (h : s.InRange total) (hfits : s.HeaderFits)
    (hround : rawParseRound cb s = some (s', calls)) :
    s'.InRange total ∧ ∀ c ∈ calls, c.InRange total := by
  refine ⟨(h.advance htotal hfits.advances hround).1, ?_⟩
  obtain ⟨h40, hmsg, -, rfl⟩ := rawParseRound_cases hround
  have hdrop := h.scan.drop
  have hsum := h.scan.sum
  intro c hc
  unfold callLog at hc
  split at hc
  · rw [List.mem_singleton.1 hc]
    exact ⟨hfits.headerLen_le h40, hdrop, by simp only; omega⟩
  · cases hc

/-- The loop stays in range while the lengths that it meets fit. -/
theorem TopOfLoop.inRange (htotal : total < 2 ^ 31) (h₀ : s₀.InRange total)
    (hfits : ∀ s calls, TopOfLoop cb s₀ s calls → s.HeaderFits) (h : TopOfLoop cb s₀ s calls) :
    s.InRange total ∧ ∀ c ∈ calls, c.InRange total := by
  obtain ⟨k, hrun⟩ := h
  have hinv := run_induction (fun _ : Unit => True)
    (fun calls s => TopOfLoop cb s₀ s calls ∧ s.InRange total ∧ ∀ c ∈ calls, c.InRange total)
    ⟨TopOfLoop.refl cb s₀, h₀, by simp⟩
    (fun calls s _ s' calls' _ ⟨htop, hs, hcalls⟩ hround => by
      obtain ⟨hs', hcalls'⟩ := hs.round htotal (hfits s calls htop) hround
      exact ⟨htop.concat hround, hs', List.forall_mem_append.2 ⟨hcalls, hcalls'⟩⟩)
    (fun _ _ => trivial) hrun
  exact hinv.2

/-- **The loop ends** in range while the messages that it meets take at least one byte. It leaves
    less than there was, or breaks in the first round. -/
theorem rawParseLoop_ends (htotal : total < 2 ^ 31) {fuel : Nat} (hfuel : s₀.leftLen < fuel)
    (h₀ : s₀.InRange total) (hadv : ∀ s calls, TopOfLoop cb s₀ s calls → s.Advances) :
    ∃ t, rawParseLoop cb syncFlag headerLen headerMsgLenOffset fuel s₀.buffer s₀.leftLen s₀.dropLen =
        some t ∧ 0 ≤ t.dropLen ∧ 0 ≤ t.leftLen ∧ t.dropLen + t.leftLen = total ∧
      (rawParseRound cb s₀ = none ∧ t.leftLen = s₀.scan.leftLen ∨
        (rawParseRound cb s₀).isSome ∧ t.leftLen < s₀.leftLen) := by
  induction fuel generalizing s₀ with
  | zero =>
      have := h₀.left
      omega
  | succ fuel ih =>
      rw [rawParseLoop_succ]
      cases hround : rawParseRound cb s₀ with
      | none =>
          have hscan := h₀.scan
          exact ⟨_, rfl, hscan.drop, hscan.left, hscan.sum, Or.inl ⟨rfl, rfl⟩⟩
      | some r =>
          obtain ⟨s', calls⟩ := r
          have hadv₀ := hadv s₀ [] (TopOfLoop.refl cb s₀)
          obtain ⟨h', hless⟩ := h₀.advance htotal hadv₀ hround
          have hpos := hadv₀ (rawParseRound_cases hround).1
          obtain ⟨t, hloop, hdrop, hleft, hsum, hcases⟩ := ih (show s'.leftLen < fuel by omega) h'
            fun s calls' htop => hadv s _ (TopOfLoop.cons hround htop)
          have hle : s'.scan.leftLen ≤ s'.leftLen := Int.sub_le_self _ (Int.natCast_nonneg _)
          refine ⟨{ t with calls := calls ++ t.calls }, ?_, hdrop, hleft, hsum,
            Or.inr ⟨rfl, ?_⟩⟩
          · simp only [hloop, Option.map_some]
          · show t.leftLen < s₀.leftLen
            rcases hcases with ⟨-, heq⟩ | ⟨-, hlt⟩ <;> omega

/-- What the loop leaves behind is where its last round broke. -/
theorem rawParseLoop_last {fuel : Nat} {t : ParseState}
    (hloop : rawParseLoop cb syncFlag headerLen headerMsgLenOffset fuel s₀.buffer s₀.leftLen
      s₀.dropLen = some t) :
    ∃ s, TopOfLoop cb s₀ s t.calls ∧ rawParseRound cb s = none ∧ t.buffer = s.buffer ∧
      t.leftLen = s.scan.leftLen ∧ t.dropLen = s.scan.dropLen := by
  induction fuel generalizing s₀ t with
  | zero => cases hloop
  | succ fuel ih =>
      rw [rawParseLoop_succ] at hloop
      cases hround : rawParseRound cb s₀ with
      | none =>
          rw [hround] at hloop
          cases hloop
          exact ⟨s₀, TopOfLoop.refl cb s₀, hround, rfl, rfl, rfl⟩
      | some r =>
          rw [hround] at hloop
          obtain ⟨t', hrest, rfl⟩ := Option.map_eq_some_iff.1 hloop
          obtain ⟨s, htop, hnone, hbuffer, hleft, hdrop⟩ := ih hrest
          exact ⟨s, TopOfLoop.cons hround htop, hnone, hbuffer, hleft, hdrop⟩

/-! ## Any lengths -/

/-- The state of the loop at its start: `curRecvOffset + curRecvLen` bytes are in the buffer. -/
def parseStart (m : Mem UInt8) (curRecvOffset curRecvLen : Nat) : ParseTop :=
  ⟨m, curRecvOffset + curRecvLen, 0⟩

/-- `comm_raw_parse` ends and stays in range: the next offset is not past the bytes received, at the
    top of every iteration the variables are in range, and so is every message handed over. -/
structure ParsesInRange (cb : Option MsgCallback) (m : Mem UInt8) (maxBufLen : Int)
    (curRecvOffset curRecvLen : Nat) : Prop where
  ends : ∃ fuel req calls,
    commRawParse fuel cb ⟨m, curRecvOffset, maxBufLen⟩ curRecvLen = some (req, calls) ∧
      req.curRecvOffset ≤ curRecvOffset + curRecvLen
  top : ∀ s calls, TopOfLoop cb (parseStart m curRecvOffset curRecvLen) s calls →
    s.InRange (curRecvOffset + curRecvLen)
  frames : ∀ s calls, TopOfLoop cb (parseStart m curRecvOffset curRecvLen) s calls →
    ∀ c ∈ calls, c.InRange (curRecvOffset + curRecvLen)

/-- The length field of every header that the loop meets fits. -/
def LengthsFit (cb : Option MsgCallback) (m : Mem UInt8) (curRecvOffset curRecvLen : Nat) : Prop :=
  ∀ s calls, TopOfLoop cb (parseStart m curRecvOffset curRecvLen) s calls → s.HeaderFits

variable {m : Mem UInt8} {maxBufLen curRecvOffset curRecvLen : Nat}

theorem LengthsFit.parsesInRange (hmax : maxBufLen < 2 ^ 31)
    (hroom : curRecvOffset + curRecvLen ≤ maxBufLen)
    (hfits : LengthsFit cb m curRecvOffset curRecvLen) :
    ParsesInRange cb m maxBufLen curRecvOffset curRecvLen := by
  have h₀ : (parseStart m curRecvOffset curRecvLen).InRange (curRecvOffset + curRecvLen) :=
    ⟨Int.natCast_nonneg _, Int.le_refl 0, Int.zero_add _⟩
  have htotal : (curRecvOffset + curRecvLen : Int) < 2 ^ 31 := by omega
  refine ⟨?_, fun s calls htop => (htop.inRange htotal h₀ hfits).1,
    fun s calls htop => (htop.inRange htotal h₀ hfits).2⟩
  obtain ⟨t, hloop, hdrop, hleft, hsum, -⟩ := rawParseLoop_ends htotal
    (show (parseStart m curRecvOffset curRecvLen).leftLen < ↑(curRecvOffset + curRecvLen + 1) by
      simp only [parseStart]
      omega) h₀ fun s calls htop => (hfits s calls htop).advances
  have hle : t.leftLen ≤ curRecvOffset + curRecvLen := by omega
  refine ⟨curRecvOffset + curRecvLen + 1, ?_⟩
  simp only [parseStart] at hloop
  simp only [commRawParse, hloop, if_neg (show ¬ t.leftLen < 0 by omega)]
  by_cases hzero : t.leftLen = 0
  · rw [if_neg (not_not.2 hzero)]
    exact ⟨_, _, rfl, by simp only; omega⟩
  · rw [if_pos hzero]
    exact ⟨_, _, rfl, hle⟩

/-- A header with a length that does not fit is handed over as a message shorter than a header. -/
theorem TopOfLoop.short (f : MsgCallback) (htop : TopOfLoop (some f) s₀ s calls)
    (hfits : ¬ s.HeaderFits) :
    ∃ s' c, TopOfLoop (some f) s₀ s' (calls ++ [c]) ∧ c.len < headerLen := by
  simp only [ParseTop.HeaderFits, not_forall] at hfits
  obtain ⟨h40, hnot⟩ := hfits
  have hshort : s.msgLen < headerLen := Int.not_le.1 fun hle => hnot (s.headerLen_le_msgLen.1 hle)
  have hround : rawParseRound (some f) s = some (⟨f s.buffer s.scan.dropLen s.msgLen,
      wrapS32 (s.scan.leftLen - s.msgLen), wrapS32 (s.scan.dropLen + s.msgLen)⟩,
      [⟨s.scan.dropLen, s.msgLen, s.buffer.read s.scan.dropLen s.msgLen.toNat⟩]) := by
    rw [rawParseRound, if_pos ⟨h40, by omega⟩]
    rfl
  exact ⟨_, _, htop.concat hround, hshort⟩

/-- **When `comm_raw_parse` stays in range.** Whatever was received and whatever the callback does to
    the buffer: when the length field of every header that the loop meets is at least `0` and leaves
    room for the length of the header in an `int`, the loop ends and stays in range; and when the
    messages go to a callback, then only in that case. -/
theorem commRawParse_inRange_iff (cb : Option MsgCallback) (m : Mem UInt8) (maxBufLen : Nat)
    (hmax : maxBufLen < 2 ^ 31) (curRecvOffset curRecvLen : Nat)
    (hroom : curRecvOffset + curRecvLen ≤ maxBufLen) :
    (LengthsFit cb m curRecvOffset curRecvLen →
      ParsesInRange cb m maxBufLen curRecvOffset curRecvLen) ∧
    (cb.isSome → (ParsesInRange cb m maxBufLen curRecvOffset curRecvLen ↔
      LengthsFit cb m curRecvOffset curRecvLen)) := by
  refine ⟨fun h => h.parsesInRange hmax hroom, fun hsome => ⟨fun h => ?_, fun h =>
    h.parsesInRange hmax hroom⟩⟩
  obtain ⟨f, rfl⟩ := Option.isSome_iff_exists.1 hsome
  intro s calls htop
  by_contra hfits
  obtain ⟨s', c, htop', hshort⟩ := htop.short f hfits
  exact absurd (h.frames s' _ htop' c (by simp)).header (Int.not_le.2 hshort)

/-- A buffer with a message without payload. -/
def emptyMsgBuffer : Mem UInt8 := Mem.write (fun _ => 0) 0 syncFlag

/-- A message without payload, and nothing behind it. -/
theorem commRawParse_inRange_empty :
    ParsesInRange (some fun m _ _ => m) emptyMsgBuffer 1000 0 40 := by
  refine (commRawParse_inRange_iff _ _ 1000 (by decide) 0 40 (by decide)).1 fun s calls htop => ?_
  have hround : rawParseRound (some fun m _ _ => m) ⟨emptyMsgBuffer, 40, 0⟩ =
      some (⟨emptyMsgBuffer, 0, 40⟩, [⟨0, 40, syncFlag ++ List.replicate 36 0⟩]) := by
    have hscan : (⟨emptyMsgBuffer, 40, 0⟩ : ParseTop).scan = ⟨emptyMsgBuffer, 40, 0⟩ :=
      ParseTop.scan_eq_self (by decide)
    exact rawParseRound_eq hscan (show _ = 40 by decide) (by decide) (by decide)
  rcases htop.cases with rfl | ⟨s₁, calls₁, calls₂, hround₁, hrest⟩
  · intro _
    have hlen : (parseStart emptyMsgBuffer 0 40).msgDataLen = 0 := by decide
    rw [hlen]
    decide
  · obtain ⟨rfl, rfl⟩ := Prod.mk.inj (Option.some.inj (hround.symm.trans hround₁))
    rcases hrest.cases with rfl | ⟨s₂, calls₃, calls₄, hround₂, -⟩
    · intro h40
      exact absurd h40 (by decide)
    · rw [rawParseRound, if_neg (by decide)] at hround₂
      cases hround₂

/-- A buffer with a header of the length `-40`. -/
def stuckBuffer : Mem UInt8 := Mem.write (fun _ => 0) 0
  (syncFlag ++ List.replicate 12 0 ++ [0xD8, 0xFF, 0xFF, 0xFF] ++ List.replicate 20 0)

/-- The message of no bytes is handed over again and again: the loop does not end. -/
theorem commRawParse_stuck :
    (∀ fuel, commRawParse fuel (some fun m _ _ => m) ⟨stuckBuffer, 0, 1000⟩ 40 = none) ∧
    ¬ ParsesInRange (some fun m _ _ => m) stuckBuffer 1000 0 40 := by
  have hround : rawParseRound (some fun m _ _ => m) ⟨stuckBuffer, 40, 0⟩ =
      some (⟨stuckBuffer, 40, 0⟩, [⟨0, 0, []⟩]) := by
    have hscan : (⟨stuckBuffer, 40, 0⟩ : ParseTop).scan = ⟨stuckBuffer, 40, 0⟩ :=
      ParseTop.scan_eq_self (by decide)
    exact rawParseRound_eq hscan (show _ = 0 by decide) (by decide) (by decide)
  have hloop : ∀ fuel, rawParseLoop (some fun m _ _ => m) syncFlag headerLen headerMsgLenOffset fuel
      stuckBuffer 40 0 = none := by
    intro fuel
    induction fuel with
    | zero => rfl
    | succ fuel ih =>
        rw [rawParseLoop_succ _ fuel ⟨stuckBuffer, 40, 0⟩, hround]
        simp only [ih, Option.map_none]
  refine ⟨fun fuel => ?_, fun h => ?_⟩
  · rw [commRawParse]
    simp only [Int.zero_add, hloop]
  · have htop := (TopOfLoop.refl _ (parseStart stuckBuffer 0 40)).concat hround
    exact absurd (h.frames _ _ htop ⟨0, 0, []⟩ (by simp)).header (by decide)

end XToolkits.Comm
