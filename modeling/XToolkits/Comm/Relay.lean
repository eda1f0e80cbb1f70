import XToolkits.Comm.Delivery
import XToolkits.Comm.Rounds

set_option autoImplicit false

/-! # Messages with a relay part

`__comm_send_msg` sends the header, `relay_len` bytes of relay part and then the payload, and
`__comm_msg_parse` looks for the payload behind the relay part. `comm_raw_parse` takes only the
header and `msg_len` bytes for the message. -/

namespace XToolkits.Comm

/-- Where `__comm_msg_parse` finds the payload of the message at address `a`, and its length. -/
def msgPayload (m : Mem UInt8) (a : Int) : Int × Int :=
  (a + 40 + loadWord m (a + 20), loadWord m (a + 16))

/-- The bytes on the connection when both `send`s accept everything. -/
def relayFrame (h : CommMsgHeader) (relay payload : List UInt8) : List UInt8 :=
  (commSendMsg (40 + relay.length) payload.length h.bytes relay payload).2

theorem relayFrame_eq (h : CommMsgHeader) (relay payload : List UInt8) :
    relayFrame h relay payload = h.bytes ++ (relay ++ payload) := by
  have hfirst : (h.bytes ++ relay).take (40 + relay.length : Int).toNat = h.bytes ++ relay :=
    List.take_of_length_le (by rw [List.length_append, CommMsgHeader.length_bytes]; omega)
  unfold relayFrame commSendMsg
  rw [hfirst]
  split
  · simp
  · next hempty =>
      obtain rfl : payload = [] := List.eq_nil_of_length_eq_zero (by omega)
      simp

variable {f : MsgCallback} {m : Mem UInt8} {a n : Nat} {h : CommMsgHeader}
  {relay payload rest : List UInt8}

/-- **One round over a message with a relay part**: the header and `msg_len` bytes are taken. -/
theorem rawParseRound_relay (hn : a + n < 2 ^ 31) (hsync : h.syncCode = 0xAA55AA55)
    (hmsg : h.msgLen = payload.length)
    (hbytes : m.read a n = relayFrame h relay payload ++ rest) :
    rawParseRound (some f) ⟨m, n, a⟩ =
      some (⟨f m a (40 + payload.length), n - (40 + payload.length), a + (40 + payload.length)⟩,
        [⟨a, 40 + payload.length, m.read a (40 + payload.length)⟩]) := by
  have hlen := congrArg List.length hbytes
  rw [relayFrame_eq, List.append_assoc] at hbytes
  rw [relayFrame_eq, Mem.length_read] at hlen
  simp only [List.length_append, CommMsgHeader.length_bytes] at hlen
  have hscan : (⟨m, n, a⟩ : ParseTop).scan = ⟨m, n, a⟩ := by
    refine ParseTop.scan_eq_self (commFindMagicNum_stay fun _ => ?_)
    rw [hbytes]
    exact mismatch_header hsync _
  have hdata : (⟨m, n, a⟩ : ParseTop).msgDataLen = payload.length := by
    rw [ParseTop.msgDataLen, hscan]
    refine (loadInt_eq m a (show 16 + 4 ≤ n by omega)).trans ?_
    rw [intAt, hbytes, msgLen_header h (by omega), hmsg, wrapS32_of_mem (by omega) (by omega)]
  have hlen' : (⟨m, n, a⟩ : ParseTop).msgLen = 40 + payload.length := by
    rw [ParseTop.msgLen, hdata]
    exact wrapS32_of_mem (by simp only [headerLen]; omega) (by simp only [headerLen]; omega)
  rw [rawParseRound_eq hscan hlen' (by simp only [headerLen]; omega) (by simp only; omega),
    wrapS32_of_mem (by simp only; omega) (by simp only; omega),
    wrapS32_of_mem (by simp only; omega) (by simp only; omega)]
  rfl

/-- Where the callback finds the payload of a message with a relay part. -/
theorem msgPayload_relay (hrelay : h.relayLen = relay.length) (hmsg : h.msgLen = payload.length)
    (hfit : 40 + relay.length + payload.length < 2 ^ 31)
    (hbytes : m.read a n = relayFrame h relay payload ++ rest) :
    msgPayload m a = ((a : Int) + 40 + relay.length, (payload.length : Int)) := by
  have hlen := congrArg List.length hbytes
  rw [relayFrame_eq, List.append_assoc] at hbytes
  rw [relayFrame_eq, Mem.length_read] at hlen
  simp only [List.length_append, CommMsgHeader.length_bytes] at hlen
  have hmsgLen : loadWord m (a + 16) = payload.length := by
    refine (loadWord_eq m a (show 16 + 4 ≤ n by omega)).trans ?_
    rw [hbytes, msgLen_header h (by omega), hmsg]
  have hrelayLen : loadWord m (a + 20) = relay.length := by
    refine (loadWord_eq m a (show 20 + 4 ≤ n by omega)).trans ?_
    rw [hbytes, relayLen_header h (by omega), hrelay]
  rw [msgPayload, hmsgLen, hrelayLen]

/-- What sender, parser and callback agree on: the iteration of the loop at address `a` takes the
    whole message, and the payload that the callback derives lies in the message handed to it. -/
structure AgreeOnFrame (f : MsgCallback) (m : Mem UInt8) (a n : Nat) (frameLen : Int) : Prop where
  consumed : ∃ s' calls, rawParseRound (some f) ⟨m, n, a⟩ = some (s', calls) ∧
    s'.dropLen = a + frameLen ∧ s'.leftLen = n - frameLen
  payload : ∃ s' c, rawParseRound (some f) ⟨m, n, a⟩ = some (s', [c]) ∧ c.addr = a ∧
    a ≤ (msgPayload m a).1 ∧ (msgPayload m a).1 + (msgPayload m a).2 ≤ c.addr + c.len

/-- **When sender and receiver agree on the length of a frame.** A message sent whole that lies in
    the receive buffer, at whatever place the loop of `comm_raw_parse` comes to it and whatever is
    behind it, is taken as it was sent exactly when it has no relay part. -/
theorem relayFrame_agree_iff (maxBufLen : Nat) (hmax : maxBufLen < 2 ^ 31) (f : MsgCallback)
    (h : CommMsgHeader) (hsync : h.syncCode = 0xAA55AA55) (relay payload : List UInt8)
    (hrelay : h.relayLen = relay.length) (hmsg : h.msgLen = payload.length)
    (hfit : 40 + relay.length + payload.length ≤ maxBufLen) (m : Mem UInt8) (a n : Nat)
    (hroom : a + n ≤ maxBufLen) (rest : List UInt8)
    (hbytes : m.read a n = relayFrame h relay payload ++ rest) :
    AgreeOnFrame f m a n (40 + relay.length + payload.length) ↔ h.relayLen = 0 := by
  have hround := rawParseRound_relay (f := f) (by omega) hsync hmsg hbytes
  have hpayload := msgPayload_relay hrelay hmsg (by omega) hbytes
  constructor
  · rintro ⟨⟨s', calls, hround', hdrop, -⟩, -⟩
    obtain ⟨rfl, -⟩ := Prod.mk.inj (Option.some.inj (hround.symm.trans hround'))
    simp only at hdrop
    omega
  · intro h0
    refine ⟨⟨_, _, hround, by simp only; omega, by simp only; omega⟩, _, _, hround, rfl, ?_, ?_⟩ <;>
      rw [hpayload] <;> simp only <;> omega

/-- A message without relay part, as `comm_pack_msg` makes it, with bytes of the next one behind. -/
theorem relayFrame_agree_none :
    AgreeOnFrame commMsgParse (Mem.write (fun _ => 0) 0 (relayFrame (packHeader 1) [] [7] ++ [0x55])) 0 42
      (40 + 0 + 1) :=
  (relayFrame_agree_iff 1000 (by decide) commMsgParse (packHeader 1) rfl [] [7] rfl rfl (by decide) _ 0 42
    (by decide) [0x55] (by decide)).2 rfl

/-- A header that announces a relay part of four bytes and a payload of one, and such a message. -/
def relayHeader : CommMsgHeader := { packHeader 1 with relayLen := 4 }

def relayBuffer : Mem UInt8 := Mem.write (fun _ => 0) 0 (relayFrame relayHeader [1, 2, 3, 4] [7])

/-- `41` bytes are taken for the message of `45`. -/
theorem relayFrame_disagree :
    relayBuffer.read 0 45 = relayFrame relayHeader [1, 2, 3, 4] [7] ∧
    ¬ AgreeOnFrame commMsgParse relayBuffer 0 45 (40 + 4 + 1) := by
  have hbytes : relayBuffer.read ↑(0 : Nat) 45 = relayFrame relayHeader [1, 2, 3, 4] [7] ++ [] := by
    decide
  refine ⟨by decide, ?_⟩
  rintro ⟨⟨s', calls, hround', hdrop, -⟩, -⟩
  have hround := rawParseRound_relay (f := commMsgParse) (by decide) rfl rfl hbytes
  obtain ⟨rfl, -⟩ := Prod.mk.inj (Option.some.inj (hround.symm.trans hround'))
  exact absurd hdrop (by decide)

end XToolkits.Comm
