import XToolkits.Lib.CInt
import XToolkits.Lib.Memory

set_option autoImplicit false

/-! # Framing a byte stream: `comm_parse.c`

`comm_tcp_recv` appends what a `recv` returns to the receive buffer of a connection, and
`comm_raw_parse` looks for sync codes in it, hands whole messages to a callback and moves what is
left to the front of the buffer.

The buffer is a memory of its own, in which `BufferAddr` is address `0`. The callback gets the
buffer, the address of the message and its length, and returns the buffer as it leaves it. Lengths
are `int`s. The two loops run on fuel: the scan for the sync code has enough of it for every buffer;
the loop of `comm_raw_parse` takes it as a parameter, since it need not end when a header carries a
negative length, and gives `none` when the fuel runs out. -/

namespace XToolkits.Comm

/-- `DEF_COMM_SYNC_CODE`, as it lies in memory, and the other constants of `comm_header.h`. -/
def syncFlag : List UInt8 := bytesOfWord 0xAA55AA55
def headerLen : Int := 40
def headerMsgLenOffset : Int := 16
def recvBufferMax : Nat := 1000

/-! ## Finding the sync code -/

/-- The inner loop of `comm_find_magic_num`: the first `j` at which the rest `flag` of the sync code
    differs from the buffer. -/
def firstMismatch (m : Mem UInt8) (a : Int) : List UInt8 → Nat → Option Nat
  | [], _ => none
  | b :: flag, j => if b ≠ m (a + j) then some j else firstMismatch m a flag (j + 1)

/-- The outer loop, from index `i` on. -/
def findLoop (flag : List UInt8) (m : Mem UInt8) (src searchLen : Int) : Nat → Nat → Nat
  | 0, i => i
  | fuel + 1, i =>
      if i ≤ searchLen then
        if flag.head? = some (m (src + i)) then
          match firstMismatch m (src + i) flag.tail 1 with
          | none => i
          -- `i += j` in the inner loop, and then the `i++` of the outer one
          | some j => findLoop flag m src searchLen fuel (i + j + 1)
        else findLoop flag m src searchLen fuel (i + 1)
      else i

/-- `comm_find_magic_num` over the `len` bytes from `src` on. -/
def commFindMagicNum (flag : List UInt8) (m : Mem UInt8) (src len : Int) : Nat :=
  findLoop flag m src (len - flag.length) (len.toNat + 1) 0

/-! ## Parsing the buffer -/

/-- An `unsigned int` and an `int` loaded from memory. -/
def loadWord (m : Mem UInt8) (a : Int) : Nat :=
  wordOfBytes (m a) (m (a + 1)) (m (a + 2)) (m (a + 3))

def loadInt (m : Mem UInt8) (a : Int) : Int := wrapS32 (loadWord m a)

/-- `fCB_msg_parse`: the buffer after a call on the message of `len` bytes at address `a`. -/
abbrev MsgCallback := Mem UInt8 → Int → Int → Mem UInt8

/-- A call of the callback: its arguments, and the bytes of the message at that moment. -/
structure ParsedMsg where
  addr : Int
  len : Int
  bytes : List UInt8
  deriving DecidableEq, Repr

/-- The message handed to the callback, if there is one. -/
def callLog (cb : Option MsgCallback) (m : Mem UInt8) (a len : Int) : List ParsedMsg :=
  if cb.isSome then [⟨a, len, m.read a len.toNat⟩] else []

/-- The buffer after the callback, if there is one. -/
def afterCallback (cb : Option MsgCallback) (m : Mem UInt8) (a len : Int) : Mem UInt8 :=
  match cb with
  | none => m
  | some f => f m a len

/-- What the loop of `comm_raw_parse` leaves behind. -/
structure ParseState where
  buffer : Mem UInt8
  leftLen : Int
  dropLen : Int
  calls : List ParsedMsg

/-- The loop of `comm_raw_parse`. -/
def rawParseLoop (cb : Option MsgCallback) (flag : List UInt8) (msgHeadLen msgDataLenOffset : Int) :
    Nat → Mem UInt8 → Int → Int → Option ParseState
  | 0, _, _, _ => none
  | fuel + 1, m, leftLen, dropLen =>
      let drop := commFindMagicNum flag m dropLen leftLen
      let leftLen := leftLen - drop
      let dropLen := dropLen + drop
      if leftLen ≥ msgHeadLen then
        let msgLen := wrapS32 (msgHeadLen + loadInt m (dropLen + msgDataLenOffset))
        if leftLen ≥ msgLen then
          (rawParseLoop cb flag msgHeadLen msgDataLenOffset fuel (afterCallback cb m dropLen msgLen)
            (wrapS32 (leftLen - msgLen)) (wrapS32 (dropLen + msgLen))).map
          fun s => { s with calls := callLog cb m dropLen msgLen ++ s.calls }
        else some ⟨m, leftLen, dropLen, []⟩
      else some ⟨m, leftLen, dropLen, []⟩

/-- `struct LIST_TCP_REQ`, as far as receiving goes. -/
structure ListTcpReq where
  buffer : Mem UInt8
  curRecvOffset : Int
  maxBufLen : Int

/-- `comm_raw_parse`, with the next receive offset it sets. A negative length given to `memmove` is
    an error. -/
def commRawParse (fuel : Nat) (cb : Option MsgCallback) (req : ListTcpReq) (curRecvLen : Int) :
    Option (ListTcpReq × List ParsedMsg) :=
  match rawParseLoop cb syncFlag headerLen headerMsgLenOffset fuel req.buffer
      (req.curRecvOffset + curRecvLen) 0 with
  | none => none
  | some s =>
      if s.leftLen < 0 then none
      else if s.leftLen ≠ 0 then
        some ({ req with
            buffer := s.buffer.write 0 (s.buffer.read s.dropLen s.leftLen.toNat)
            curRecvOffset := s.leftLen },
          s.calls)
      else some ({ req with buffer := s.buffer, curRecvOffset := 0 }, s.calls)

/-! ## Receiving -/

/-- `comm_tcp_recv`, when `recv` returns `received`. -/
def commTcpRecv (fuel : Nat) (cb : Option MsgCallback) (req : ListTcpReq) (received : List UInt8) :
    Option (ListTcpReq × List ParsedMsg) :=
  if received.length > 0 then
    commRawParse fuel cb { req with buffer := req.buffer.write req.curRecvOffset received }
      received.length
  else some (req, [])

/-- A connection just set up, whose buffer holds `m`. -/
def newReq (m : Mem UInt8) (maxBufLen : Int) : ListTcpReq := ⟨m, 0, maxBufLen⟩

/-- Chunks that `recv` can return one after the other: none is empty, and each fits the free space
    of the buffer at that moment. -/
def Receivable (fuel : Nat) (cb : Option MsgCallback) : ListTcpReq → List (List UInt8) → Prop
  | _, [] => True
  | req, c :: cs => 0 < c.length ∧ c.length ≤ req.maxBufLen - req.curRecvOffset ∧
      ∀ req' calls, commTcpRecv fuel cb req c = some (req', calls) → Receivable fuel cb req' cs

/-- The leftover bytes in the buffer. -/
def ListTcpReq.leftover (req : ListTcpReq) : List UInt8 := req.buffer.read 0 req.curRecvOffset.toNat

end XToolkits.Comm
