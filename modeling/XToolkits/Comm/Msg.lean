import XToolkits.Comm.Parse

set_option autoImplicit false

/-! # Messages of the comm protocol

The header of `comm_header.h`, how `comm_client.c` builds and sends a message, and the callback of
`comm_server.c`. A `send` may accept any part of its buffer; its results are parameters. -/

namespace XToolkits.Comm

/-- `COMM_MSG_HEADER_S`. -/
structure CommMsgHeader where
  syncCode : Nat
  msgType : Nat
  msgFrom : Nat
  msgTo : Nat
  msgLen : Nat
  relayLen : Nat
  result : Nat
  ver : Nat
  seq : Nat
  enc : Nat
  rsv : Nat × Nat × Nat
  deriving DecidableEq, Repr

/-- The 40 bytes of a header in memory. -/
def CommMsgHeader.bytes (h : CommMsgHeader) : List UInt8 :=
  bytesOfWord h.syncCode ++ (bytesOfWord h.msgType ++ (bytesOfWord h.msgFrom ++
    (bytesOfWord h.msgTo ++ (bytesOfWord h.msgLen ++ (bytesOfWord h.relayLen ++
      (bytesOfWord h.result ++ (bytesOfHalf h.ver ++ (bytesOfHalf h.seq ++ (bytesOfHalf h.enc ++
        (bytesOfHalf h.rsv.1 ++ (bytesOfHalf h.rsv.2.1 ++ bytesOfHalf h.rsv.2.2)))))))))))

@[simp] theorem CommMsgHeader.length_bytes (h : CommMsgHeader) : h.bytes.length = 40 := rfl

/-! ## The client -/

/-- `__comm_send_msg` of a header with its relay part, and a payload: the value returned and the
    bytes accepted, when the two `send`s return `ret₁` and `ret₂`. The second one is only made for a
    payload that is not empty. -/
def commSendMsg (ret₁ ret₂ : Int) (header relay payload : List UInt8) : Int × List UInt8 :=
  if payload.length > 0 then
    (ret₂, (header ++ relay).take ret₁.toNat ++ payload.take ret₂.toNat)
  else (ret₁, (header ++ relay).take ret₁.toNat)

/-- The header that `comm_pack_msg` fills in. -/
def packHeader (len : Nat) : CommMsgHeader where
  syncCode := 0xAA55AA55
  msgType := 1234
  msgFrom := 1
  msgTo := 2
  msgLen := len
  relayLen := 0
  result := 0
  ver := 0
  seq := 0
  enc := 0
  rsv := (0, 0, 0)

/-- `comm_pack_msg`. -/
def commPackMsg (ret₁ ret₂ : Int) (payload : List UInt8) : Int × List UInt8 :=
  commSendMsg ret₁ ret₂ (packHeader payload.length).bytes [] payload

/-- The bytes on the connection when both `send`s accept everything. -/
def frame (payload : List UInt8) : List UInt8 := (commPackMsg 40 payload.length payload).2

theorem frame_eq (payload : List UInt8) :
    frame payload = (packHeader payload.length).bytes ++ payload := by
  have hheader : (packHeader payload.length).bytes.take 40 = (packHeader payload.length).bytes :=
    List.take_of_length_le (Nat.le_refl 40)
  unfold frame commPackMsg commSendMsg
  rw [List.append_nil]
  split
  · simp only [Int.toNat_natCast, List.take_length]
    exact congrArg (· ++ payload) hheader
  · next hempty =>
      obtain rfl : payload = [] := List.eq_nil_of_length_eq_zero (by omega)
      rw [List.append_nil]
      exact hheader

@[simp] theorem length_frame (payload : List UInt8) : (frame payload).length = 40 + payload.length := by
  rw [frame_eq, List.length_append, CommMsgHeader.length_bytes]

/-! ## The server -/

/-- `__comm_msg_parse`: it ends the payload with a NUL, in the buffer, and prints it. -/
def commMsgParse : MsgCallback := fun m a _ =>
  m.write (a + 40 + loadWord m (a + 20) + loadWord m (a + 16)) [0]

end XToolkits.Comm
