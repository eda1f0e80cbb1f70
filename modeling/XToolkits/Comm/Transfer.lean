import Mathlib.Algebra.Ring.Nat
import XToolkits.Lib.Memory

set_option autoImplicit false

/-! # Sending and receiving a whole packet

`send_packet` and `receive_packet`, which `utils_net.c` and `ipc_net.c` share word for word. Both
repeat one call until `size` bytes are through, and the helper under them repeats a call that would
block. The two are one loop, `transferPacket`, over what a call does with the bytes it moves
(`Mover`). What the kernel answers is a finite script; a run for which the script is too short, or
has a count that was not asked for, has no result. Sizes fit in an `int`. -/

namespace XToolkits.Comm

/-! ## The calls -/

/-- The result of one `send` or `recv`: bytes were moved, `0`, `EAGAIN` or `EWOULDBLOCK`, or another
    error. -/
inductive KernelResult (α : Type) where
  | moved (x : α)
  | closed
  | again
  | failed
  deriving DecidableEq, Repr

/-- What a call moves: its number of bytes, and what the call does behind `done` bytes. -/
structure Mover (α σ : Type) where
  count : α → Nat
  move : (done : Nat) → α → σ → σ

variable {α σ : Type}

/-- `__send` and `__recv`, of `asked` bytes behind `done`: the value returned, the rest of the script
    and the state. -/
def transferOnce (mv : Mover α σ) (done asked : Nat) :
    List (KernelResult α) → σ → Option (Int × List (KernelResult α) × σ)
  | [], _ => none
  | .moved x :: script, s =>
      if 1 ≤ mv.count x ∧ mv.count x ≤ asked then some (mv.count x, script, mv.move done x s)
      else none
  | .closed :: script, s => some (-2, script, s)
  | .again :: script, s => transferOnce mv done asked script s
  | .failed :: script, s => some (-1, script, s)

/-- What a call that returns has done: it moved some of the bytes, or returned a negative value. -/
theorem transferOnce_cases {mv : Mover α σ} {done asked : Nat} {script script' : List (KernelResult α)}
    {s s' : σ} {retv : Int} (h : transferOnce mv done asked script s = some (retv, script', s')) :
    script'.length < script.length ∧
      ((∃ x, 1 ≤ mv.count x ∧ mv.count x ≤ asked ∧ retv = mv.count x ∧ s' = mv.move done x s) ∨
        (retv < 0 ∧ s' = s)) := by
  fun_induction transferOnce mv done asked script s with
  | case1 s => cases h
  | case2 x script s hx =>
      cases h
      exact ⟨Nat.lt_succ_self _, Or.inl ⟨x, hx.1, hx.2, rfl, rfl⟩⟩
  | case3 x script s hx => cases h
  | case4 script s =>
      cases h
      exact ⟨Nat.lt_succ_self _, Or.inr ⟨by decide, rfl⟩⟩
  | case5 script s ih =>
      obtain ⟨hlen, hcases⟩ := ih h
      exact ⟨Nat.lt_succ_of_lt hlen, hcases⟩
  | case6 script s =>
      cases h
      exact ⟨Nat.lt_succ_self _, Or.inr ⟨by decide, rfl⟩⟩

/-- The loop of `send_packet` and `receive_packet`: the number of bytes and the state. -/
def transferLoop (mv : Mover α σ) (size done : Nat) (script : List (KernelResult α)) (s : σ) :
    Option (Nat × σ) :=
  if done < size then
    match _h : transferOnce mv done (size - done) script s with
    | none => none
    | some (nTmp, script', s') =>
        if nTmp < 0 then some (done, s') else transferLoop mv size (done + nTmp.toNat) script' s'
  else some (done, s)
termination_by script.length
decreasing_by exact (transferOnce_cases _h).1

/-- `send_packet` and `receive_packet`: the value returned and the state. -/
def transferPacket (mv : Mover α σ) (size : Nat) (script : List (KernelResult α)) (s : σ) :
    Option (Int × σ) :=
  match transferOnce mv 0 size script s with
  | none => none
  | some (nTmp, script, s) =>
      if nTmp < 0 then some (nTmp, s)
      else match transferLoop mv size nTmp.toNat script s with
        | none => none
        | some (n, s) => some (n, s)

/-! ## Any packet -/

/-- The moves `xs`, one behind the other, the first one behind `done` bytes. -/
def moveAll (mv : Mover α σ) : (done : Nat) → List α → σ → σ
  | _, [], s => s
  | done, x :: xs, s => moveAll mv (done + mv.count x) xs (mv.move done x s)

/-- The number of bytes of some moves. -/
def totalCount (mv : Mover α σ) (xs : List α) : Nat := (xs.map mv.count).sum

theorem totalCount_cons (mv : Mover α σ) (x : α) (xs : List α) :
    totalCount mv (x :: xs) = mv.count x + totalCount mv xs := List.sum_cons

variable {mv : Mover α σ} {size done : Nat} {script : List (KernelResult α)} {s s' : σ}

/-- One round of the loop. -/
theorem transferLoop_eq {nTmp : Int} {script' : List (KernelResult α)} (hmore : done < size)
    (hcall : transferOnce mv done (size - done) script s = some (nTmp, script', s')) :
    transferLoop mv size done script s =
      if nTmp < 0 then some (done, s') else transferLoop mv size (done + nTmp.toNat) script' s' := by
  rw [transferLoop, if_pos hmore]
  split
  · case h_1 hnone =>
      rw [hcall] at hnone
      cases hnone
  · case h_2 hsome =>
      rw [hcall] at hsome
      cases hsome
      rfl

/-- The loop makes moves one behind the other, up to `size` bytes. -/
theorem transferLoop_spec {n : Nat} (hdone : done ≤ size)
    (h : transferLoop mv size done script s = some (n, s')) :
    ∃ xs, s' = moveAll mv done xs s ∧ n = done + totalCount mv xs ∧ n ≤ size := by
  fun_induction transferLoop mv size done script s with
  | case1 done script s hmore hcall => cases h
  | case2 done script s hmore nTmp script' s'' hcall hneg =>
      cases h
      obtain ⟨-, ⟨x, -, -, hret, -⟩ | ⟨-, rfl⟩⟩ := transferOnce_cases hcall
      · omega
      · exact ⟨[], rfl, rfl, hdone⟩
  | case3 done script s hmore nTmp script' s'' hcall hpos ih =>
      obtain ⟨-, ⟨x, -, hle, rfl, rfl⟩ | ⟨hneg, -⟩⟩ := transferOnce_cases hcall
      · rw [Int.toNat_natCast] at ih h
        obtain ⟨xs, hs, hn, hsize⟩ := ih (by omega) h
        exact ⟨x :: xs, hs, by rw [hn, totalCount_cons, Nat.add_assoc], hsize⟩
      · exact absurd hneg hpos
  | case4 done script s hend =>
      cases h
      exact ⟨[], rfl, rfl, hdone⟩

/-- **What a call has done**: the moves one behind the other from the beginning, up to `size` bytes;
    it returns their number of bytes when there is any. -/
theorem transferPacket_spec {ret : Int} (h : transferPacket mv size script s = some (ret, s')) :
    ∃ xs, s' = moveAll mv 0 xs s ∧ totalCount mv xs ≤ size ∧
      if totalCount mv xs = 0 then ret < 0 else ret = totalCount mv xs := by
  rw [transferPacket] at h
  split at h
  · cases h
  · case h_2 nTmp script' s'' hcall =>
      obtain ⟨-, ⟨x, hpos, hle, rfl, rfl⟩ | ⟨hneg, rfl⟩⟩ := transferOnce_cases hcall
      · rw [if_neg (by omega), Int.toNat_natCast] at h
        split at h
        · cases h
        · case h_2 n s'' hloop =>
            cases h
            obtain ⟨xs, hs, hn, hsize⟩ := transferLoop_spec hle hloop
            have htotal : totalCount mv (x :: xs) = n := by
              rw [hn, totalCount_cons]
            refine ⟨x :: xs, ?_, by omega, ?_⟩
            · rw [hs, moveAll, Nat.zero_add]
            · rw [htotal, if_neg (by omega)]
      · rw [if_pos hneg] at h
        cases h
        exact ⟨[], rfl, Nat.zero_le _, hneg⟩

/-- A call whose first round moves something returns what the loop has. -/
theorem transferPacket_eq {nTmp : Int} {n : Nat} {script' : List (KernelResult α)} {s'' : σ}
    (hcall : transferOnce mv 0 size script s = some (nTmp, script', s')) (hpos : 0 ≤ nTmp)
    (hloop : transferLoop mv size nTmp.toNat script' s' = some (n, s'')) :
    transferPacket mv size script s = some ((n : Int), s'') := by
  rw [transferPacket, hcall]
  simp only [if_neg (Int.not_lt.2 hpos), hloop]

/-! ## Sending and receiving -/

/-- `send` from `pBuffer` on: the socket takes the bytes behind those that are done. -/
def sender (m : Mem UInt8) (pBuffer : Int) : Mover Nat (List UInt8) where
  count n := n
  move done n taken := taken ++ m.read (pBuffer + done) n

/-- `recv` to `pBuffer`: the socket gives bytes, and they are stored behind those that are done. -/
def receiver (pBuffer : Int) : Mover (List UInt8) (Mem UInt8 × List UInt8) where
  count bs := bs.length
  move done bs s := (s.1.write (pBuffer + done) bs, s.2 ++ bs)

/-- `send_packet`: the value returned and the bytes that the socket took. -/
def sendPacket (m : Mem UInt8) (pBuffer : Int) (size : Nat) (script : List (KernelResult Nat)) :
    Option (Int × List UInt8) :=
  transferPacket (sender m pBuffer) size script []

/-- `receive_packet`: the value returned, the memory and the bytes that the socket gave. -/
def receivePacket (m : Mem UInt8) (pBuffer : Int) (size : Nat)
    (script : List (KernelResult (List UInt8))) : Option (Int × Mem UInt8 × List UInt8) :=
  transferPacket (receiver pBuffer) size script (m, [])

theorem moveAll_sender (m : Mem UInt8) (pBuffer : Int) (done : Nat) (ns : List Nat)
    (taken : List UInt8) : moveAll (sender m pBuffer) done ns taken =
      taken ++ m.read (pBuffer + done) (totalCount (sender m pBuffer) ns) := by
  induction ns generalizing done taken with
  | nil => exact (List.append_nil taken).symm
  | cons n ns ih =>
      rw [moveAll, ih, totalCount_cons, Mem.read_add, ← List.append_assoc, Int.add_assoc]
      rfl

theorem totalCount_receiver (pBuffer : Int) (xs : List (List UInt8)) :
    totalCount (receiver pBuffer) xs = xs.flatten.length := List.length_flatten.symm

theorem moveAll_receiver (pBuffer : Int) (done : Nat) (xs : List (List UInt8)) (m : Mem UInt8)
    (given : List UInt8) : moveAll (receiver pBuffer) done xs (m, given) =
      (m.write (pBuffer + done) xs.flatten, given ++ xs.flatten) := by
  induction xs generalizing done m given with
  | nil =>
      have hnone : m.write (pBuffer + done) [] = m := by
        funext x
        exact Mem.write_apply_outside m _ [] x (by simp; omega)
      rw [moveAll, List.flatten_nil, List.append_nil, hnone]
  | cons bs xs ih =>
      have hnext : pBuffer + (done + bs.length : Nat) = pBuffer + done + bs.length := by omega
      show moveAll (receiver pBuffer) (done + bs.length) xs
        (m.write (pBuffer + done) bs, given ++ bs) = _
      rw [ih, hnext, Mem.write_write_append, List.flatten_cons, List.append_assoc]

/-- The value returned tells whether everything was moved. -/
theorem ret_eq_size_iff {ret : Int} {t : Nat} (hsize : 0 < size)
    (h : if t = 0 then ret < 0 else ret = t) : ret = size ↔ t = size := by
  split at h
  · omega
  · rw [h, Int.natCast_inj]

/-- **No byte is lost or repeated.** For every size, every buffer and every script with which the
    call returns: `send_packet` has sent exactly the first `t` bytes of the buffer, once and in order,
    `receive_packet` has stored exactly the `t` bytes that the socket gave at the beginning of the
    buffer and nothing else; they return `t`, or a negative value when it is `0`, and `size` exactly
    when all bytes went through. -/
theorem transferPacket_exact (size : Nat) (hsize : 0 < size) :
    (∀ m pBuffer script ret taken, sendPacket m pBuffer size script = some (ret, taken) →
      ∃ t ≤ size, taken = m.read pBuffer t ∧ (if t = 0 then ret < 0 else ret = t) ∧
        (ret = size ↔ t = size)) ∧
    (∀ m pBuffer script ret m' given,
      receivePacket m pBuffer size script = some (ret, m', given) →
      ∃ t ≤ size, given.length = t ∧ m' = m.write pBuffer given ∧
        (if t = 0 then ret < 0 else ret = t) ∧ (ret = size ↔ t = size)) := by
  constructor
  · intro m pBuffer script ret taken h
    obtain ⟨ns, hs, hle, hret⟩ := transferPacket_spec h
    refine ⟨_, hle, ?_, hret, ret_eq_size_iff hsize hret⟩
    rw [hs, moveAll_sender, List.nil_append, Int.natCast_zero, Int.add_zero]
  · intro m pBuffer script ret m' given h
    obtain ⟨xs, hs, hle, hret⟩ := transferPacket_spec h
    rw [moveAll_receiver, List.nil_append, Int.natCast_zero, Int.add_zero] at hs
    obtain ⟨rfl, rfl⟩ := Prod.mk.inj hs
    exact ⟨_, hle, (totalCount_receiver pBuffer xs).symm, rfl, hret, ret_eq_size_iff hsize hret⟩

/-- Three bytes, two of which go through before the socket is closed. -/
theorem transferPacket_exact_three :
    ∃ t ≤ 3, ([0x2a, 0x2b] : List UInt8) = (Mem.write (fun _ => 0) 0 [0x2a, 0x2b, 0x2c]).read 0 t ∧
      (if t = 0 then (2 : Int) < 0 else (2 : Int) = t) ∧ ((2 : Int) = (3 : Nat) ↔ t = 3) := by
  refine (transferPacket_exact 3 (by decide)).1 _ 0 [.again, .moved 2, .again, .closed] 2 _ ?_
  let mv := sender (Mem.write (fun _ => 0) 0 [0x2a, 0x2b, 0x2c]) 0
  have hfirst : transferOnce mv 0 3 [.again, .moved 2, .again, .closed] [] =
      some (2, [.again, .closed], [0x2a, 0x2b]) := rfl
  have hsecond : transferOnce mv 2 1 [.again, .closed] [0x2a, 0x2b] =
      some (-2, [], [0x2a, 0x2b]) := rfl
  have hloop : transferLoop mv 3 2 [.again, .closed] [0x2a, 0x2b] = some (2, [0x2a, 0x2b]) :=
    (transferLoop_eq (show 2 < 3 by decide) hsecond).trans rfl
  exact transferPacket_eq hfirst (by decide) hloop

end XToolkits.Comm
