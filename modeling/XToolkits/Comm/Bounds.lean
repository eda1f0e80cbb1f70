import Mathlib.Data.List.Forall2
import XToolkits.Comm.ClientMgr
import XToolkits.Comm.Room

set_option autoImplicit false

/-! # Where a connection touches memory

The addresses that `comm_tcp_recv` writes, scans, loads a length from and moves, counted from
`BufferAddr`. On a stream with good lengths, received with a callback that stores nothing but zeros,
they are the addresses of the buffer. But `comm_linklist_insert` puts `BufferAddr` at
`pConnectNew + sizeof(struct LIST_TCP_REQ)`, which is that many records behind the beginning of the
allocation and past its end: every access is outside. -/

namespace XToolkits.Comm

/-! ## Bytes set to zero -/

/-- The bytes `ys` are the bytes `xs`, some of them set to zero. -/
def Zeroed (xs ys : List UInt8) : Prop := List.Forall₂ (fun x y => y = x ∨ y = 0) xs ys

variable {xs ys : List UInt8} {maxBufLen : Nat}

theorem Zeroed.length_eq (h : Zeroed xs ys) : xs.length = ys.length := List.Forall₂.length_eq h

theorem Zeroed.append (h : Zeroed xs ys) (zs : List UInt8) : Zeroed (xs ++ zs) (ys ++ zs) :=
  List.rel_append h (List.forall₂_same.2 fun _ _ => Or.inl rfl)

/-- Where no zero is, nothing was changed. -/
theorem Zeroed.eq_of_notMem (h : Zeroed xs ys) (h0 : 0 ∉ ys) : xs = ys := by
  induction h with
  | nil => rfl
  | cons hxy _ ih =>
      rw [List.mem_cons, not_or] at h0
      rw [hxy.resolve_right (Ne.symm h0.1), ih h0.2]

theorem Zeroed.getD (h : Zeroed xs ys) (k : Nat) :
    ys.getD k 0 = xs.getD k 0 ∨ ys.getD k 0 = 0 := by
  induction h generalizing k with
  | nil => exact Or.inl rfl
  | cons hxy _ ih =>
      cases k with
      | zero => exact hxy
      | succ k => exact ih k

/-- A word does not grow when bytes of it are set to zero. -/
theorem Zeroed.wordAt_le (h : Zeroed xs ys) (k : Nat) : wordAt ys k ≤ wordAt xs k := by
  have hle (i : Nat) : (ys.getD i 0).toNat ≤ (xs.getD i 0).toNat := by
    rcases h.getD i with heq | heq
    · exact Nat.le_of_eq (congrArg UInt8.toNat heq)
    · rw [heq]
      exact Nat.zero_le _
  have h0 := hle k
  have h1 := hle (k + 1)
  have h2 := hle (k + 2)
  have h3 := hle (k + 3)
  unfold wordAt wordOfBytes
  omega

theorem wordAt_lt (xs : List UInt8) (k : Nat) : wordAt xs k < 2 ^ 32 := by
  have h0 := (xs.getD k 0).toNat_lt
  have h1 := (xs.getD (k + 1) 0).toNat_lt
  have h2 := (xs.getD (k + 2) 0).toNat_lt
  have h3 := (xs.getD (k + 3) 0).toNat_lt
  unfold wordAt wordOfBytes
  omega

theorem Zeroed.intAt_le (h : Zeroed xs ys) {k : Nat} (hk : 0 ≤ intAt xs k) :
    0 ≤ intAt ys k ∧ intAt ys k ≤ intAt xs k := by
  have hle := h.wordAt_le k
  have hlt := wordAt_lt xs k
  unfold intAt wrapS32 at hk ⊢
  omega

/-- **Good lengths stay good**: a sync code has no zero in it, and a length does not grow. -/
theorem GoodLengths.zeroed (h : GoodLengths maxBufLen xs) (hz : Zeroed xs ys) :
    GoodLengths maxBufLen ys := by
  intro i hi hsync
  have hdrop : Zeroed (xs.drop i) (ys.drop i) := List.forall₂_drop i hz
  have htake : Zeroed ((xs.drop i).take 4) ((ys.drop i).take 4) := List.forall₂_take 4 hdrop
  rw [hsync] at htake
  obtain ⟨h0, hfit⟩ := h i (by rw [hz.length_eq]; exact hi) (htake.eq_of_notMem (by decide))
  obtain ⟨h0', hle⟩ := hdrop.intAt_le h0
  exact ⟨h0', by omega⟩

/-! ## Callbacks that store zeros -/

/-- The callback changes no byte of the buffer but to zero. -/
def StoresZeros (cb : Option MsgCallback) : Prop :=
  ∀ m a len x, afterCallback cb m a len x = m x ∨ afterCallback cb m a len x = 0

/-- The NUL behind a payload. -/
theorem storesZeros_commMsgParse : StoresZeros (some commMsgParse) := by
  intro m a len x
  simp only [afterCallback, commMsgParse, Mem.write]
  split
  · cases h : (x - (a + 40 + loadWord m (a + 20) + loadWord m (a + 16))).toNat with
    | zero => exact Or.inr rfl
    | succ k => exact Or.inl rfl
  · exact Or.inl rfl

theorem zeroed_read {m m' : Mem UInt8} (h : ∀ x, m' x = m x ∨ m' x = 0) (a : Int) (n : Nat) :
    Zeroed (m.read a n) (m'.read a n) := by
  induction n generalizing a with
  | zero => exact List.Forall₂.nil
  | succ n ih => exact List.Forall₂.cons (h a) (ih (a + 1))

/-! ## The loop on good lengths -/

variable {cb : Option MsgCallback} {s₀ s : ParseTop} {calls : List ParsedMsg} {total : Nat}
  {m : Mem UInt8}

/-- The loop is in range, and has changed no byte of the buffer `m` but to zero. -/
structure ParseTop.Tidy (total : Nat) (m : Mem UInt8) (s : ParseTop) : Prop where
  inRange : s.InRange total
  cells : ∀ x, s.buffer x = m x ∨ s.buffer x = 0

/-- The length in a header that the scan stops at is good. -/
theorem ParseTop.Tidy.msgDataLen (h : s.Tidy total m)
    (hgood : GoodLengths maxBufLen (m.read 0 total)) (h40 : headerLen ≤ s.scan.leftLen) :
    0 ≤ s.msgDataLen ∧ s.msgDataLen + 40 ≤ maxBufLen := by
  obtain ⟨n, hn⟩ := Int.eq_ofNat_of_zero_le h.inRange.left
  obtain ⟨a, ha⟩ := Int.eq_ofNat_of_zero_le h.inRange.drop
  have hsum := h.inRange.sum
  obtain ⟨hr, -, hstop⟩ := commFindMagicNum_spec s.buffer a n
  have hscanLeft : s.scan.leftLen = n - commFindMagicNum syncFlag s.buffer a n := by
    rw [ParseTop.scan, hn, ha]
  have hscanDrop : s.scan.dropLen = ↑(a + commFindMagicNum syncFlag s.buffer a n) := by
    rw [ParseTop.scan, hn, ha, Int.natCast_add]
  generalize commFindMagicNum syncFlag s.buffer a n = r at hr hstop hscanLeft hscanDrop
  rw [← Int.natCast_add] at hstop
  have h0 : headerLen = 40 := rfl
  -- the bytes from there on, before any was set to zero
  have hrest : GoodLengths maxBufLen (m.read ↑(a + r) (n - r)) := by
    have hdrop := hgood.drop (a + r)
    rwa [Mem.drop_read _ _ _ _ (by omega), Int.zero_add,
      show total - (a + r) = n - r by omega] at hdrop
  have hbytes := hrest.zeroed (zeroed_read h.cells ↑(a + r) (n - r))
  obtain ⟨hnonneg, hfit⟩ := hbytes 0 (by rw [Mem.length_read]; omega)
    (take_of_mismatch (hstop.resolve_left (by omega)))
  rw [List.drop_zero, ← loadInt_eq s.buffer ↑(a + r) (show 16 + 4 ≤ n - r by omega)]
    at hnonneg hfit
  rw [ParseTop.msgDataLen, hscanDrop]
  exact ⟨hnonneg, hfit⟩

theorem ParseTop.Tidy.headerFits (h : s.Tidy total m) (hmax : maxBufLen < 2 ^ 31)
    (hgood : GoodLengths maxBufLen (m.read 0 total)) : s.HeaderFits := fun h40 => by
  obtain ⟨hnonneg, hfit⟩ := h.msgDataLen hgood h40
  have h0 : headerLen = 40 := rfl
  exact ⟨hnonneg, by omega⟩

/-- One round. -/
theorem ParseTop.Tidy.round (hcb : StoresZeros cb) (hmax : maxBufLen < 2 ^ 31)
    (htotal : total < 2 ^ 31) (hgood : GoodLengths maxBufLen (m.read 0 total)) (h : s.Tidy total m)
    {s' : ParseTop} (hround : rawParseRound cb s = some (s', calls)) : s'.Tidy total m := by
  have hadv := (h.headerFits hmax hgood).advances
  refine ⟨(h.inRange.advance (by omega) hadv hround).1, fun x => ?_⟩
  obtain ⟨-, -, rfl, -⟩ := rawParseRound_cases hround
  rcases hcb s.buffer s.scan.dropLen s.msgLen x with hkept | hzero
  · exact (h.cells x).imp hkept.trans hkept.trans
  · exact Or.inr hzero

/-- **The loop stays tidy.** -/
theorem TopOfLoop.tidy (hcb : StoresZeros cb) (hmax : maxBufLen < 2 ^ 31) (htotal : total < 2 ^ 31)
    (hgood : GoodLengths maxBufLen (s₀.buffer.read 0 total)) (h₀ : s₀.InRange total)
    (h : TopOfLoop cb s₀ s calls) : s.Tidy total s₀.buffer := by
  obtain ⟨k, hrun⟩ := h
  exact run_induction (fun _ : Unit => True) (fun _ s => s.Tidy total s₀.buffer)
    ⟨h₀, fun _ => Or.inl rfl⟩ (fun _ _ _ _ _ _ hs hround => hs.round hcb hmax htotal hgood hround)
    (fun _ _ => trivial) hrun

/-! ## Accesses -/

/-- The addresses of `n` bytes from `a` on. -/
def block (a : Int) (n : Nat) : List Int := (List.range n).map fun i : Nat => a + (i : Int)

/-- What the inner loop of `comm_find_magic_num` reads. -/
def matchReads (m : Mem UInt8) (a : Int) : List UInt8 → Nat → List Int
  | [], _ => []
  | b :: flag, j => (a + j) :: if b ≠ m (a + j) then [] else matchReads m a flag (j + 1)

/-- What the outer loop reads, from index `i` on. -/
def findReads (flag : List UInt8) (m : Mem UInt8) (src searchLen : Int) : Nat → Nat → List Int
  | 0, _ => []
  | fuel + 1, i =>
      if i ≤ searchLen then
        (src + i) ::
          if flag.head? = some (m (src + i)) then
            matchReads m (src + i) flag.tail 1 ++
              match firstMismatch m (src + i) flag.tail 1 with
              | none => []
              | some j => findReads flag m src searchLen fuel (i + j + 1)
          else findReads flag m src searchLen fuel (i + 1)
      else []

/-- What `comm_find_magic_num` reads. -/
def commFindMagicNumReads (flag : List UInt8) (m : Mem UInt8) (src len : Int) : List Int :=
  findReads flag m src (len - flag.length) (len.toNat + 1) 0

/-- What one iteration of the loop of `comm_raw_parse` reads: the scan, and the length in the
    header. -/
def roundReads (s : ParseTop) : List Int :=
  commFindMagicNumReads syncFlag s.buffer s.dropLen s.leftLen ++
    if s.scan.leftLen ≥ headerLen then block (s.scan.dropLen + headerMsgLenOffset) 4 else []

/-- What the loop reads. -/
def loopReads (cb : Option MsgCallback) : Nat → ParseTop → List Int
  | 0, _ => []
  | fuel + 1, s =>
      roundReads s ++
        match rawParseRound cb s with
        | none => []
        | some (s', _) => loopReads cb fuel s'

/-- What the `memmove` of `comm_raw_parse` reads and writes. -/
def moveAccesses (t : ParseState) : List Int :=
  if t.leftLen ≠ 0 then block t.dropLen t.leftLen.toNat ++ block 0 t.leftLen.toNat else []

/-- What `comm_tcp_recv` accesses when `recv` returns `received`. -/
def commTcpRecvAccesses (fuel : Nat) (cb : Option MsgCallback) (req : ListTcpReq)
    (received : List UInt8) : List Int :=
  if received.length > 0 then
    block req.curRecvOffset received.length ++ (loopReads cb fuel (req.recvStart received) ++
      match rawParseLoop cb syncFlag headerLen headerMsgLenOffset fuel
        (req.recvStart received).buffer (req.recvStart received).leftLen
        (req.recvStart received).dropLen with
      | none => []
      | some t => moveAccesses t)
  else []

theorem mem_block {x a : Int} {n : Nat} : x ∈ block a n ↔ a ≤ x ∧ x < a + n := by
  simp only [block, List.mem_map, List.mem_range]
  constructor
  · rintro ⟨i, hi, rfl⟩
    omega
  · rintro ⟨h0, h1⟩
    exact ⟨(x - a).toNat, by omega, by omega⟩

theorem mem_matchReads {x a : Int} {flag : List UInt8} {j : Nat} (h : x ∈ matchReads m a flag j) :
    a + j ≤ x ∧ x < a + j + flag.length := by
  induction flag generalizing j with
  | nil => cases h
  | cons b flag ih =>
      rw [matchReads, List.mem_cons] at h
      rw [List.length_cons]
      rcases h with rfl | h
      · omega
      · split at h
        · cases h
        · have := ih h
          omega

/-- The scan reads between its index and the end of what it searches. -/
theorem mem_findReads {x src searchLen : Int} {flag : List UInt8} (hflag : flag ≠ []) {fuel i : Nat}
    (h : x ∈ findReads flag m src searchLen fuel i) :
    src + i ≤ x ∧ x < src + searchLen + flag.length := by
  have hlen : flag.tail.length + 1 = flag.length := by
    have hpos := List.length_pos_iff.2 hflag
    rw [List.length_tail]
    omega
  induction fuel generalizing i with
  | zero => cases h
  | succ fuel ih =>
      rw [findReads] at h
      split at h
      · next hroom =>
          rcases List.mem_cons.1 h with rfl | h
          · omega
          · split at h
            · rcases List.mem_append.1 h with h | h
              · have := mem_matchReads h
                omega
              · split at h
                · cases h
                · have := ih h
                  omega
            · have := ih h
              omega
      · cases h

/-- A round in range reads in range. -/
theorem ParseTop.InRange.reads (h : s.InRange total) {x : Int} (hx : x ∈ roundReads s) :
    0 ≤ x ∧ x < total := by
  have hdrop := h.drop
  have hsum := h.sum
  rcases List.mem_append.1 hx with hx | hx
  · have := mem_findReads syncFlag_ne_nil hx
    omega
  · split at hx
    · have hread := mem_block.1 hx
      have hscan := h.scan
      have hscanDrop := hscan.drop
      have hscanSum := hscan.sum
      simp only [headerMsgLenOffset, headerLen] at *
      omega
    · cases hx

theorem mem_loopReads {fuel : Nat} {x : Int} (h : x ∈ loopReads cb fuel s₀) :
    ∃ s calls, TopOfLoop cb s₀ s calls ∧ x ∈ roundReads s := by
  induction fuel generalizing s₀ with
  | zero => cases h
  | succ fuel ih =>
      rcases List.mem_append.1 h with hround | hrest
      · exact ⟨s₀, [], TopOfLoop.refl cb s₀, hround⟩
      · split at hrest
        · cases hrest
        · next s' calls' hround =>
            obtain ⟨s, calls, htop, hx⟩ := ih hrest
            exact ⟨s, calls' ++ calls, TopOfLoop.cons hround htop, hx⟩

variable {req : ListTcpReq} {left c rest : List UInt8} {cs : List (List UInt8)} {fuel : Nat}

/-- **While the loop is in range**, a `recv` accesses what was left and what was received. -/
theorem mem_accesses {off : Nat} (hoff : req.curRecvOffset = off)
    (htop : ∀ s calls, TopOfLoop cb (req.recvStart c) s calls → s.InRange ↑(off + c.length))
    {x : Int} (hx : x ∈ commTcpRecvAccesses fuel cb req c) : 0 ≤ x ∧ x < ↑(off + c.length) := by
  rw [commTcpRecvAccesses] at hx
  split at hx
  · rcases List.mem_append.1 hx with hrecv | hparse
    · rw [hoff] at hrecv
      have := mem_block.1 hrecv
      omega
    · rcases List.mem_append.1 hparse with hread | hmove
      · obtain ⟨s, calls, hs, hread⟩ := mem_loopReads hread
        exact (htop s calls hs).reads hread
      · split at hmove
        · cases hmove
        · next t hloop =>
            obtain ⟨s, hs, -, -, hleft, hdrop⟩ := rawParseLoop_last hloop
            have hscan := (htop s _ hs).scan
            rw [moveAccesses, hleft, hdrop] at hmove
            have hnonneg := hscan.left
            have hstart := hscan.drop
            have hsum := hscan.sum
            split at hmove
            · rcases List.mem_append.1 hmove with hsource | hfront
              · have := mem_block.1 hsource
                omega
              · have := mem_block.1 hfront
                omega
            · cases hmove
  · cases hx

/-! ## Streams with good lengths -/

/-- A `recv` that accesses nothing outside the buffer, and leaves room in it. -/
structure StaysInside (maxBufLen fuel : Nat) (cb : Option MsgCallback) (req : ListTcpReq)
    (received : List UInt8) : Prop where
  inside : ∀ x ∈ commTcpRecvAccesses fuel cb req received, 0 ≤ x ∧ x < maxBufLen
  advancing : Advancing cb req received
  notFull : ¬ FillsUp req received

theorem ListTcpReq.Holds.recvStart (h : req.Holds left) (c : List UInt8) :
    (req.recvStart c).buffer.read 0 (left.length + c.length) = left ++ c := by
  simp only [ListTcpReq.recvStart, h.offset]
  exact h.append c

/-- No good length fills the buffer up. -/
theorem not_fillsUp_of_good (h40 : 40 ≤ maxBufLen) (hmax : maxBufLen < 2 ^ 31)
    (hsize : req.maxBufLen = maxBufLen) (h : req.Holds left)
    (hgood : GoodLengths maxBufLen (left ++ c)) : ¬ FillsUp req c := by
  rintro ⟨hfull, hsync, hlong⟩
  rw [h.offset, hsize] at hfull
  rw [← h.recvStart c, show left.length + c.length = maxBufLen by omega] at hgood
  obtain ⟨hnonneg, hfit⟩ := hgood 0 (by rw [Mem.length_read]; omega)
    (by rw [List.drop_zero, Mem.take_read _ _ _ _ (by omega), hsync])
  rw [List.drop_zero, ← loadInt_eq _ 0 (show 16 + 4 ≤ maxBufLen by omega), Int.zero_add]
    at hnonneg hfit
  have h0 : headerLen = 40 := rfl
  have hoffset : headerMsgLenOffset = ((16 : Nat) : Int) := rfl
  rw [hsize, hoffset, wrapS32_of_mem (by omega) (by omega)] at hlong
  omega

/-- **One `recv`** stays inside, and what it leaves goes on with good lengths. -/
theorem commTcpRecv_staysInside (hcb : StoresZeros cb) (h40 : 40 ≤ maxBufLen)
    (hmax : maxBufLen < 2 ^ 31) (hfuel : maxBufLen < fuel) (h : req.Holds left)
    (hsize : req.maxBufLen = maxBufLen) (hfits : left.length + c.length ≤ maxBufLen)
    (hgood : GoodLengths maxBufLen (left ++ c ++ rest)) :
    StaysInside maxBufLen fuel cb req c ∧
    ∃ req' calls left', commTcpRecv fuel cb req c = some (req', calls) ∧
      req'.maxBufLen = maxBufLen ∧ req'.Holds left' ∧ GoodLengths maxBufLen (left' ++ rest) := by
  have hbytes := h.recvStart c
  have hstart : GoodLengths maxBufLen
      ((req.recvStart c).buffer.read 0 (left.length + c.length)) := hbytes ▸ hgood.left
  have htidy (s : ParseTop) (calls : List ParsedMsg)
      (htop : TopOfLoop cb (req.recvStart c) s calls) :
      s.Tidy (left.length + c.length) (req.recvStart c).buffer :=
    htop.tidy hcb hmax (by omega) hstart (ListTcpReq.recvStart_inRange h.offset c)
  have hadv : ∀ s calls, TopOfLoop cb (req.recvStart c) s calls → s.Advances :=
    fun s calls htop => ((htidy s calls htop).headerFits hmax hstart).advances
  have hadvancing : Advancing cb req c := ⟨by rw [h.offset, hsize]; omega, fun _ => hadv⟩
  have hinside : StaysInside maxBufLen fuel cb req c := by
    refine ⟨fun x hx => ?_, hadvancing, not_fillsUp_of_good h40 hmax hsize h hgood.left⟩
    have := mem_accesses h.offset (fun s calls htop => (htidy s calls htop).inRange) hx
    omega
  by_cases hc : 0 < c.length
  · obtain ⟨t, m, k, hloop, htleft, htdrop, hsum, hrecv, hmoved, -⟩ :=
      commTcpRecv_ends h.offset hc (by omega) (show left.length + c.length < fuel by omega) hadv
    refine ⟨hinside, _, _, m.read 0 k, hrecv, hsize, ⟨?_, ?_⟩, ?_⟩
    · rw [Mem.length_read]
    · rw [Mem.length_read]
    · obtain ⟨d, hd⟩ := Int.eq_ofNat_of_zero_le htdrop
      obtain ⟨s, htop, -, hbuffer, -, -⟩ := rawParseLoop_last hloop
      have hread : (left ++ c).drop d = (req.recvStart c).buffer.read d k := by
        rw [← hbytes, Mem.drop_read _ _ _ _ (by omega), Int.zero_add,
          show left.length + c.length - d = k by omega]
      have hdrop := hgood.drop d
      rw [List.drop_append_of_le_length (by rw [List.length_append]; omega), hread] at hdrop
      rw [hmoved, hd, hbuffer]
      exact hdrop.zeroed ((zeroed_read (htidy s _ htop).cells d k).append rest)
  · obtain rfl : c = [] := List.eq_nil_of_length_eq_zero (by omega)
    have hnil : commTcpRecv fuel cb req [] = some (req, []) := if_neg hc
    rw [List.append_nil] at hgood
    exact ⟨hinside, req, [], left, hnil, hsize, h, hgood⟩

/-- `recv` returns no more than it was asked for. -/
def RecvFits (req : ListTcpReq) (received : List UInt8) : Prop :=
  received.length ≤ req.maxBufLen - req.curRecvOffset

/-- **Every `recv` of a stream with good lengths** stays inside the buffer. -/
theorem run_staysInside (hcb : StoresZeros cb) (h40 : 40 ≤ maxBufLen) (hmax : maxBufLen < 2 ^ 31)
    (hfuel : maxBufLen < fuel) (h : req.Holds left) (hsize : req.maxBufLen = maxBufLen)
    (hgood : GoodLengths maxBufLen (left ++ cs.flatten))
    (hcs : EachStep (commTcpRecv fuel cb) RecvFits req cs) :
    EachStep (commTcpRecv fuel cb) (StaysInside maxBufLen fuel cb) req cs := by
  induction cs generalizing req left with
  | nil => exact EachStep.nil _ req
  | cons c cs ih =>
      have hfits := (eachStep_cons.1 hcs).1
      rw [RecvFits, h.offset, hsize] at hfits
      rw [List.flatten_cons, ← List.append_assoc] at hgood
      obtain ⟨hinside, req', calls, left', hrecv, hsize', h', hgood'⟩ :=
        commTcpRecv_staysInside hcb h40 hmax hfuel h hsize (by omega) hgood
      rw [eachStep_cons_of_step hrecv] at hcs ⊢
      exact ⟨hinside, ih h' hsize' hgood' hcs.2⟩

/-- **Good lengths leave room**, however the stream is cut. -/
theorem run_room_of_good (hcb : StoresZeros cb) (h40 : 40 ≤ maxBufLen) (hmax : maxBufLen < 2 ^ 31)
    (hfuel : maxBufLen < fuel) (m : Mem UInt8) (hgood : GoodLengths maxBufLen cs.flatten)
    (hcs : EachStep (commTcpRecv fuel cb) RecvFits (newReq m maxBufLen) cs) :
    EachState (commTcpRecv fuel cb) ListTcpReq.HasRoom (newReq m maxBufLen) cs := by
  have hempty : (newReq m maxBufLen).Holds [] := ⟨rfl, rfl⟩
  have hinside := run_staysInside hcb h40 hmax hfuel hempty rfl hgood hcs
  have hroom : (newReq m maxBufLen).HasRoom := by
    show (0 : Int) < maxBufLen - 0
    omega
  exact (run_room_iff h40 hmax hfuel ⟨rfl, Int.le_refl 0, hroom⟩
    (hinside.imp fun _ _ h => h.advancing)).2 (hinside.imp fun _ _ h => h.notFull)

/-! ## The allocation -/

/-- The receiving side of a record, whose buffer holds `m`. -/
def TcpConnect.listTcpReq (connect : TcpConnect) (m : Mem UInt8) : ListTcpReq :=
  ⟨m, connect.curRecvOffset, connect.maxBufLen⟩

/-- The byte at `x` from `BufferAddr` is behind the record, in the block of
    `sizeof(struct LIST_TCP_REQ) + DEF_RECV_BUFFER_MAX` bytes at `pConnectNew`. -/
def InAllocation (pConnectNew : Addr) (connect : TcpConnect) (x : Int) : Prop :=
  sizeofTcpReq ≤ connect.bufferAddr + x - pConnectNew ∧
    connect.bufferAddr + x - pConnectNew < sizeofTcpReq + recvBufferMax

/-- The record that an insertion has filled in. -/
theorem commLinklistInsert_datas {s s' : ClientMgr} {p : Addr} {pnode : Option Addr}
    {socketFd : Int} {addr : SockaddrIn} {ret : Int}
    (hinsert : commLinklistInsert (some p) pnode socketFd addr s = some (s', ret)) :
    ∃ idx, s'.heap.datas p = some (connectNew p idx socketFd addr) := by
  simp only [commLinklistInsert] at hinsert
  split at hinsert
  · cases hinsert
  · split at hinsert
    · cases hinsert
    · obtain ⟨r, -, heq⟩ := Option.map_eq_some_iff.1 hinsert
      obtain ⟨rfl, -⟩ := Prod.mk.inj heq
      exact ⟨_, Heap.set_self ..⟩

/-- No byte of the buffer is in the allocation. -/
theorem not_inAllocation (p : Addr) (idx socketFd : Int) (addr : SockaddrIn) {x : Int}
    (hx : 0 ≤ x) : ¬ InAllocation p (connectNew p idx socketFd addr) x := by
  rintro ⟨-, hlt⟩
  simp only [connectNew, sizeofTcpReq, recvBufferMax] at hlt
  omega

/-- A `recv` that returns bytes accesses the front of the buffer when nothing is left there. -/
theorem zero_mem_accesses (hoff : req.curRecvOffset = 0) (hc : 0 < c.length) :
    0 ∈ commTcpRecvAccesses fuel cb req c := by
  rw [commTcpRecvAccesses, if_pos hc]
  refine List.mem_append_left _ (mem_block.2 ?_)
  omega

/-- **When a connection stays in its allocation.** On a record that `comm_linklist_insert` has filled
    in, with a callback that stores nothing but zeros, and on every stream with good lengths, however
    `recv` cuts it: the accesses are at offsets of the buffer from `BufferAddr`, and they are in the
    allocation exactly when `recv` never returns a byte. -/
theorem commTcpRecv_inAllocation_iff (fuel : Nat) (hfuel : recvBufferMax < fuel) (s s' : ClientMgr)
    (pConnectNew : Addr) (pnode : Option Addr) (socketFd : Int) (addr : SockaddrIn) (ret : Int)
    (hinsert : commLinklistInsert (some pConnectNew) pnode socketFd addr s = some (s', ret))
    (connect : TcpConnect) (hconnect : s'.heap.datas pConnectNew = some connect)
    (cb : Option MsgCallback) (hcb : StoresZeros cb) (m : Mem UInt8) (cs : List (List UInt8))
    (hcs : EachStep (commTcpRecv fuel cb) RecvFits (connect.listTcpReq m) cs)
    (hgood : GoodLengths recvBufferMax cs.flatten) :
    EachStep (commTcpRecv fuel cb) (fun req c => ∀ x ∈ commTcpRecvAccesses fuel cb req c,
        0 ≤ x ∧ x < recvBufferMax) (connect.listTcpReq m) cs ∧
    (EachStep (commTcpRecv fuel cb) (fun req c => ∀ x ∈ commTcpRecvAccesses fuel cb req c,
        InAllocation pConnectNew connect x) (connect.listTcpReq m) cs ↔ ∀ c ∈ cs, c = []) := by
  obtain ⟨idx, hdatas⟩ := commLinklistInsert_datas hinsert
  rw [hconnect, Option.some.injEq] at hdatas
  subst hdatas
  constructor
  · have hempty : ((connectNew pConnectNew idx socketFd addr).listTcpReq m).Holds [] := ⟨rfl, rfl⟩
    exact (run_staysInside hcb (by decide) (by decide) hfuel hempty rfl hgood hcs).imp
      fun _ _ h => h.inside
  · have hoff : ((connectNew pConnectNew idx socketFd addr).listTcpReq m).curRecvOffset = 0 := rfl
    generalize (connectNew pConnectNew idx socketFd addr).listTcpReq m = req at hoff
    clear hcs hgood
    induction cs with
    | nil => exact iff_of_true (EachStep.nil _ req) (by simp)
    | cons c cs ih =>
        rw [List.forall_mem_cons]
        by_cases hc : 0 < c.length
        · refine iff_of_false (fun h => ?_) fun h => ?_
          · exact not_inAllocation pConnectNew idx socketFd addr (Int.le_refl 0)
              ((eachStep_cons.1 h).1 0 (zero_mem_accesses hoff hc))
          · rw [h.1] at hc
            exact absurd hc (Nat.lt_irrefl 0)
        · obtain rfl : c = [] := List.eq_nil_of_length_eq_zero (by omega)
          have hnil : commTcpRecv fuel cb req [] = some (req, []) := if_neg hc
          have hnone : commTcpRecvAccesses fuel cb req [] = [] := if_neg hc
          rw [eachStep_cons_of_step hnil, hnone, and_iff_right rfl]
          exact (and_iff_right fun x hx => absurd hx List.not_mem_nil).trans ih

/-- A manager with one client. -/
theorem exists_inserted : ∃ s s' connect,
    commLinklistInsert (some 100) (some 200) 5 [] s = some (s', 0) ∧
      s'.heap.datas 100 = some connect ∧ ∃ idx, connect = connectNew 100 idx 5 [] := by
  have hinit := clientInv_init ⟨⟨fun _ => ⟨0, 0⟩, 0⟩, ⟨fun _ => none, fun _ => none⟩, none⟩
  obtain ⟨s', c, hinsert, -⟩ :=
    hinit.insert (p := 100) (show _ = none from rfl) (show _ = none from rfl) (by decide) 5 []
  obtain ⟨idx, hdatas⟩ := commLinklistInsert_datas hinsert
  exact ⟨_, s', _, hinsert, hdatas, idx, rfl⟩

/-- A connection that is closed before a byte comes. -/
theorem commTcpRecv_inAllocation_closed : ∃ s s' connect,
    commLinklistInsert (some 100) (some 200) 5 [] s = some (s', 0) ∧
      s'.heap.datas 100 = some connect ∧
      EachStep (commTcpRecv 1001 (some commMsgParse))
        (fun req c => ∀ x ∈ commTcpRecvAccesses 1001 (some commMsgParse) req c,
          InAllocation 100 connect x) (connect.listTcpReq fun _ => 0) [[]] := by
  obtain ⟨s, s', connect, hinsert, hconnect, idx, rfl⟩ := exists_inserted
  refine ⟨s, s', _, hinsert, hconnect, ?_⟩
  refine (commTcpRecv_inAllocation_iff 1001 (by decide) s s' 100 (some 200) 5 [] 0 hinsert _ hconnect
    (some commMsgParse) storesZeros_commMsgParse (fun _ => 0) [[]] ?_ ?_).2.2 (by simp)
  · exact eachStep_cons.2 ⟨show (0 : Int) ≤ 1000 - 0 by decide, fun _ _ _ => EachStep.nil _ _⟩
  · intro i hi
    simp at hi

/-- One byte received is outside. -/
theorem commTcpRecv_outside : ∃ s s' connect,
    commLinklistInsert (some 100) (some 200) 5 [] s = some (s', 0) ∧
      s'.heap.datas 100 = some connect ∧ GoodLengths recvBufferMax [[0x55]].flatten ∧
      EachStep (commTcpRecv 1001 (some commMsgParse)) RecvFits (connect.listTcpReq fun _ => 0)
        [[0x55]] ∧
      ¬ EachStep (commTcpRecv 1001 (some commMsgParse))
        (fun req c => ∀ x ∈ commTcpRecvAccesses 1001 (some commMsgParse) req c,
          InAllocation 100 connect x) (connect.listTcpReq fun _ => 0) [[0x55]] := by
  obtain ⟨s, s', connect, hinsert, hconnect, idx, rfl⟩ := exists_inserted
  refine ⟨s, s', _, hinsert, hconnect, fun i hi => ?_, ?_, fun h => ?_⟩
  · simp at hi
  · exact eachStep_cons.2 ⟨show (1 : Int) ≤ 1000 - 0 by decide, fun _ _ _ => EachStep.nil _ _⟩
  · exact not_inAllocation 100 idx 5 [] (Int.le_refl 0)
      ((eachStep_cons.1 h).1 0 (zero_mem_accesses rfl Nat.one_pos))

end XToolkits.Comm
