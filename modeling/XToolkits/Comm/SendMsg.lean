import Mathlib.Data.List.TakeDrop
import XToolkits.Comm.Msg

set_option autoImplicit false

/-! # What the two sends of a message return

`__comm_send_msg` sends the header with its relay part and then the payload, and keeps the results of
both `send`s in one variable: what the first one returned is printed and not looked at again.
`commSendMsgOf` is the function with everything that a `send` can do, `commSendMsg` of the case where
the counts are `int`s. `sentWhole_iff` says for which outcomes a message is sent whole or reported as
failed. -/

namespace XToolkits.Comm

/-- What a `send` of `asked` bytes does: an error, or some of the bytes are accepted. -/
inductive SendResult (asked : Nat) where
  | error
  | accepted (n : Nat) (h : n ≤ asked)
  deriving DecidableEq, Repr

variable {asked : Nat}

/-- The result, in an `int`. -/
def SendResult.ret : SendResult asked → Int
  | .error => -1
  | .accepted n _ => wrapS32 n

/-- The number of bytes that the kernel has. -/
def SendResult.count : SendResult asked → Nat
  | .error => 0
  | .accepted n _ => n

/-- A message: the header, the bytes behind it in memory and the payload. -/
structure OutMsg where
  header : CommMsgHeader
  relay : Mem UInt8
  payload : List UInt8

/-- `sizeof(COMM_MSG_HEADER_S) + pHeader->relay_len`. -/
def OutMsg.headerLen (msg : OutMsg) : Nat := 40 + msg.header.relayLen

/-- The bytes from `pHeader` on that are sent. -/
def OutMsg.front (msg : OutMsg) : List UInt8 :=
  msg.header.bytes ++ msg.relay.read 0 msg.header.relayLen

/-- `__comm_send_msg`: the value returned, and the bytes of the header with its relay part and of the
    payload that are accepted. A payload that is `NULL` is an empty one. -/
def commSendMsgOf (msg : OutMsg) (send₁ : SendResult msg.headerLen)
    (send₂ : SendResult msg.payload.length) : Int × List UInt8 × List UInt8 :=
  let ret := send₁.ret
  if msg.payload.length > 0 then
    let ret := send₂.ret
    (ret, msg.front.take send₁.count, msg.payload.take send₂.count)
  else (ret, msg.front.take send₁.count, [])

/-- A value that is not negative is returned only for a whole message, and behind a header that is
    not accepted completely no byte of the payload is sent. -/
structure SentWhole (msg : OutMsg) (send₁ : SendResult msg.headerLen)
    (send₂ : SendResult msg.payload.length) : Prop where
  whole : 0 ≤ (commSendMsgOf msg send₁ send₂).1 →
    (commSendMsgOf msg send₁ send₂).2.1 ++ (commSendMsgOf msg send₁ send₂).2.2 =
      msg.front ++ msg.payload
  framed : (commSendMsgOf msg send₁ send₂).2.1 ≠ msg.front → (commSendMsgOf msg send₁ send₂).2.2 = []

/-- Everything is accepted, or the count looks like an error in an `int`. -/
def SendResult.Reported (r : SendResult asked) : Prop := r.count = asked ∨ r.ret < 0

variable {msg : OutMsg} {send₁ : SendResult msg.headerLen} {send₂ : SendResult msg.payload.length}

/-- The two functions are one, when the counts are `int`s. -/
theorem commSendMsgOf_eq (h₁ : send₁.count < 2 ^ 31) (h₂ : send₂.count < 2 ^ 31) :
    ((commSendMsgOf msg send₁ send₂).1,
      (commSendMsgOf msg send₁ send₂).2.1 ++ (commSendMsgOf msg send₁ send₂).2.2) =
      commSendMsg send₁.ret send₂.ret msg.header.bytes (msg.relay.read 0 msg.header.relayLen)
        msg.payload := by
  have hret : ∀ {asked : Nat} (r : SendResult asked), r.count < 2 ^ 31 → r.ret.toNat = r.count := by
    intro asked r hr
    cases r with
    | error => rfl
    | accepted n hn =>
        have hlt : n < 2 ^ 31 := hr
        show (wrapS32 n).toNat = n
        rw [wrapS32_of_mem (by omega) (by omega), Int.toNat_natCast]
  rw [commSendMsgOf, commSendMsg, hret send₁ h₁, hret send₂ h₂]
  split
  · rfl
  · exact congrArg _ (List.append_nil _)

theorem OutMsg.length_front (msg : OutMsg) : msg.front.length = msg.headerLen := by
  rw [front, List.length_append, CommMsgHeader.length_bytes, Mem.length_read, headerLen]

theorem take_eq_iff_of_le {α : Type} {l : List α} {n : Nat} (h : n ≤ l.length) :
    l.take n = l ↔ n = l.length := by
  rw [List.take_eq_self_iff]
  exact ⟨fun hge => Nat.le_antisymm h hge, fun heq => Nat.le_of_eq heq.symm⟩

theorem SendResult.count_le (r : SendResult asked) : r.count ≤ asked := by
  cases r with
  | error => exact Nat.zero_le _
  | accepted n h => exact h

/-- Parts of two lists make up the lists. -/
theorem take_append_take_iff {α : Type} {l l' : List α} {n n' : Nat} (h : n ≤ l.length)
    (h' : n' ≤ l'.length) : l.take n ++ l'.take n' = l ++ l' ↔ n = l.length ∧ n' = l'.length := by
  constructor
  · intro heq
    have hlen := congrArg List.length heq
    rw [List.length_append, List.length_append, List.length_take, List.length_take] at hlen
    omega
  · rintro ⟨rfl, rfl⟩
    rw [List.take_length, List.take_length]

/-- Without a payload the result of the only `send` is returned. -/
theorem sentWhole_iff_of_empty (hempty : msg.payload.length = 0) :
    SentWhole msg send₁ send₂ ↔ send₁.Reported := by
  have hnil : msg.payload = [] := List.eq_nil_of_length_eq_zero hempty
  have hrun : commSendMsgOf msg send₁ send₂ = (send₁.ret, msg.front.take send₁.count, []) :=
    if_neg (by omega)
  have htake : msg.front.take send₁.count = msg.front ↔ send₁.count = msg.headerLen := by
    rw [take_eq_iff_of_le (by rw [msg.length_front]; exact send₁.count_le), msg.length_front]
  constructor
  · intro h
    have hwhole := h.whole
    rw [hrun, hnil, List.append_nil, List.append_nil, htake] at hwhole
    by_cases hneg : send₁.ret < 0
    · exact Or.inr hneg
    · exact Or.inl (hwhole (Int.not_lt.1 hneg))
  · intro h
    refine ⟨fun hpos => ?_, fun _ => by rw [hrun]⟩
    rw [hrun] at hpos ⊢
    rw [hnil, List.append_nil, List.append_nil, htake]
    exact h.resolve_right (Int.not_lt.2 hpos)

/-- With a payload the result of the second `send` is returned. -/
theorem sentWhole_iff_of_payload (hpayload : 0 < msg.payload.length) :
    SentWhole msg send₁ send₂ ↔
      (0 ≤ send₂.ret → send₁.count = msg.headerLen ∧ send₂.count = msg.payload.length) ∧
        (send₁.count ≠ msg.headerLen → send₂.count = 0) := by
  have hrun : commSendMsgOf msg send₁ send₂ =
      (send₂.ret, msg.front.take send₁.count, msg.payload.take send₂.count) := if_pos hpayload
  have hle₁ : send₁.count ≤ msg.front.length := by
    rw [msg.length_front]
    exact send₁.count_le
  have hwhole := take_append_take_iff hle₁ send₂.count_le
  have hfront := take_eq_iff_of_le hle₁
  have hnone : msg.payload.take send₂.count = [] ↔ send₂.count = 0 := by
    rw [List.take_eq_nil_iff, or_iff_left (List.ne_nil_of_length_pos hpayload)]
  rw [msg.length_front] at hwhole hfront
  constructor
  · rintro ⟨h, h'⟩
    rw [hrun] at h h'
    rw [hwhole] at h
    rw [hnone, Ne, hfront] at h'
    exact ⟨h, h'⟩
  · rintro ⟨h, h'⟩
    constructor
    · rw [hrun]
      exact fun hpos => hwhole.2 (h hpos)
    · rw [hrun]
      exact fun hshort => hnone.2 (h' fun heq => hshort (hfront.2 heq))

/-- **When a message is sent whole or reported.** For every header with every relay part, every
    payload and everything that the two `send`s can do: without a payload exactly when the first
    `send` fails or accepts everything, and with one exactly when the second fails or both accept
    everything. (A count from `2 ^ 31` on is negative in an `int`, and so reported as well.) -/
theorem sentWhole_iff (msg : OutMsg) (send₁ : SendResult msg.headerLen)
    (send₂ : SendResult msg.payload.length) :
    SentWhole msg send₁ send₂ ↔
      if msg.payload.length = 0 then send₁.Reported
      else send₂ = .error ∨ send₁.count = msg.headerLen ∧ send₂.Reported := by
  split
  · case isTrue hempty => exact sentWhole_iff_of_empty hempty
  · case isFalse hpayload =>
      rw [sentWhole_iff_of_payload (Nat.pos_of_ne_zero hpayload)]
      constructor
      · rintro ⟨hwhole, hframed⟩
        cases send₂ with
        | error => exact Or.inl rfl
        | accepted n hn =>
            by_cases hneg : (SendResult.accepted n hn).ret < 0
            · by_cases hfull : send₁.count = msg.headerLen
              · exact Or.inr ⟨hfull, Or.inr hneg⟩
              · -- a count of `0` is not negative
                obtain rfl : n = 0 := hframed hfull
                exact absurd hneg (show ¬ wrapS32 0 < 0 by decide)
            · obtain ⟨hfull, hfull'⟩ := hwhole (Int.not_lt.1 hneg)
              exact Or.inr ⟨hfull, Or.inl hfull'⟩
      · rintro (rfl | ⟨hfull, hreported⟩)
        · exact ⟨fun hpos => absurd hpos (show ¬ (0 : Int) ≤ -1 by decide), fun _ => rfl⟩
        · exact ⟨fun hpos => ⟨hfull, hreported.resolve_right (Int.not_lt.2 hpos)⟩,
            fun hshort => absurd hfull hshort⟩

/-- A message with one byte of payload. -/
def oneByteMsg : OutMsg := ⟨packHeader 1, fun _ => 0, [0x2a]⟩

/-- The first `send` accepts 10 of the 40 bytes of the header, the second one the payload, and `1` is
    returned. -/
theorem sentWhole_short :
    ¬ SentWhole oneByteMsg (.accepted 10 (by decide)) (.accepted 1 (by decide)) := fun h =>
  absurd (h.framed (by decide)) (by decide)

end XToolkits.Comm
