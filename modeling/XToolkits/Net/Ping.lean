import XToolkits.Lib.Memory
import XToolkits.Net.Checksum

set_option autoImplicit false

/-! # Echo requests and replies

`pack` builds an ICMP echo request and `unpack` decides whether a datagram is the reply to it. The
identifier of the request is the process id, stored in 16 bits; `unpack` compares the identifier of
the reply with the whole process id. `recognisesOwn_iff` says for which process ids a process
recognises the replies to its own requests. -/

namespace XToolkits.Net

/-! ## The state -/

/-- `struct timeval`. -/
structure TimeVal where
  sec : Int
  usec : Int
  deriving DecidableEq, Repr

/-- The bytes of a `struct timeval`. -/
def TimeVal.bytes (t : TimeVal) : List UInt8 := bytesOfLong t.sec ++ bytesOfLong t.usec

/-- `tv_sec * 1000 + tv_usec / 1000`. -/
def TimeVal.millis (t : TimeVal) : Int := t.sec * 1000 + t.usec.tdiv 1000

/-- The global variables: `pid`, `tvrecv`, `g_spend_ms` and `g_ip_ttl`. -/
structure Globals where
  pid : Nat
  tvrecv : TimeVal
  spendMs : Int
  ipTtl : Nat
  deriving DecidableEq, Repr

/-- `ICMP_HEADSIZE`. -/
def icmpHeadsize : Nat := 8

/-- `datalen`. -/
def datalen : Nat := 56

/-- `ICMP_ECHO`. -/
def icmpEcho : UInt8 := 8

/-- `ICMP_ECHOREPLY`. -/
def icmpEchoReply : UInt8 := 0

/-! ## Fields in memory -/

/-- The half word at an address. -/
def halfAt (m : Mem UInt8) (a : Int) : Nat := halfOfBytes (m a) (m (a + 1))

/-- The `long` at an address. -/
def longAt (m : Mem UInt8) (a : Int) : Int :=
  wrapS64 (wordOfBytes (m a) (m (a + 1)) (m (a + 2)) (m (a + 3)) +
    2 ^ 32 * wordOfBytes (m (a + 4)) (m (a + 5)) (m (a + 6)) (m (a + 7)))

/-- The `struct timeval` at an address. -/
def timeValAt (m : Mem UInt8) (a : Int) : TimeVal := ⟨longAt m a, longAt m (a + 8)⟩

/-- `ip_hl`: the low four bits of the first byte of the datagram, a number of words. -/
def ipHl (buf : Mem UInt8) : Nat := (buf 0).toNat % 16

/-! ## The functions -/

/-- The fields that `pack` stores before the checksum: type, code, a checksum `0`, sequence number,
    identifier and the time. A number that is stored in a half word is cut to 16 bits. -/
def packFields (g : Globals) (now : TimeVal) (pktNo : Nat) (sendpacket : Mem UInt8) : Mem UInt8 :=
  let icmp := sendpacket.write 0 [icmpEcho]
  let icmp := icmp.write 1 [0]
  let icmp := icmp.write 2 (bytesOfHalf 0)
  let icmp := icmp.write 6 (bytesOfHalf pktNo)
  let icmp := icmp.write 4 (bytesOfHalf g.pid)
  icmp.write 8 now.bytes

/-- `pack`: the packet in `sendpacket` and its size. `none`: the sum for the checksum overflows. -/
def pack (g : Globals) (now : TimeVal) (pktNo : Nat) (sendpacket : Mem UInt8) :
    Option (Mem UInt8 × Nat) := do
  let packsize := icmpHeadsize + datalen
  let icmp := packFields g now pktNo sendpacket
  let cksum ← calChksum (icmp.read 0 packsize)
  some (icmp.write 2 (bytesOfHalf cksum), packsize)

/-- `unpack`: the result, and `g_spend_ms` and `g_ip_ttl` for a reply that is taken. -/
def unpack (g : Globals) (curSeq : Int) (buf : Mem UInt8) (len : Int) : Int × Globals :=
  let iphdrlen : Int := (ipHl buf <<< 2 : Nat)
  let len := len - iphdrlen
  if len < 8 then (-1, g)
  else if buf iphdrlen = icmpEchoReply ∧ (halfAt buf (iphdrlen + 4) : Int) = g.pid ∧
      (halfAt buf (iphdrlen + 6) : Int) = curSeq then
    let tvsend := timeValAt buf (iphdrlen + 8)
    (0, { g with
      spendMs := wrapS64 (g.tvrecv.millis - tvsend.millis)
      ipTtl := (buf 8).toNat })
  else (-1, g)

/-! ## What is recognised -/

/-- The fields of an echo reply that is waited for. -/
def WaitedFor (g : Globals) (curSeq : Int) (buf : Mem UInt8) : Prop :=
  buf (4 * ipHl buf) = icmpEchoReply ∧ (halfAt buf (4 * ipHl buf + 4) : Int) = g.pid ∧
    (halfAt buf (4 * ipHl buf + 6) : Int) = curSeq

instance (g : Globals) (curSeq : Int) (buf : Mem UInt8) : Decidable (WaitedFor g curSeq buf) :=
  inferInstanceAs (Decidable (_ ∧ _ ∧ _))

/-- A datagram with an IP header of `hl` words and an echo reply with the identifier, the sequence
    number and the data of the packet. Its code and its checksum are not looked at. -/
structure EchoReply (packet : Mem UInt8) (packsize hl : Nat) (buf : Mem UInt8) (len : Int) : Prop where
  ipHl : ipHl buf = hl
  type : buf (4 * hl) = icmpEchoReply
  same : buf.read (4 * hl + 4) (packsize - 4) = packet.read 4 (packsize - 4)
  len : len = 4 * hl + packsize

/-- The ICMP message of a datagram is an echo reply with the identifier and the sequence number of
    the packet. -/
structure Answers (packet buf : Mem UInt8) : Prop where
  type : buf (4 * ipHl buf) = icmpEchoReply
  id : halfAt buf (4 * ipHl buf + 4) = halfAt packet 4
  seq : halfAt buf (4 * ipHl buf + 6) = halfAt packet 6

/-- Of the packet that `pack` builds, `unpack` takes every echo reply, behind an IP header of every
    length, and of the ICMP messages of at least 8 bytes it takes only echo replies with its
    identifier and sequence number. -/
def RecognisesOwn (g : Globals) : Prop :=
  ∀ (now : TimeVal) (sendpacket : Mem UInt8) (curSeq : Nat), curSeq < 2 ^ 16 →
    ∃ packet packsize, pack g now curSeq sendpacket = some (packet, packsize) ∧
      ∀ (buf : Mem UInt8) (len : Int),
        (∀ hl, 5 ≤ hl → hl ≤ 15 → EchoReply packet packsize hl buf len →
          (unpack g curSeq buf len).1 = 0) ∧
        (8 ≤ len - 4 * ipHl buf → (unpack g curSeq buf len).1 = 0 → Answers packet buf)

/-! ## The packet -/

variable {g : Globals} {now : TimeVal} {curSeq : Nat} {sendpacket buf packet : Mem UInt8} {len : Int}

theorem halfAt_of_read {m : Mem UInt8} {a : Int} {w : Nat} (h : m.read a 2 = bytesOfHalf w) :
    halfAt m a = w % 2 ^ 16 := by
  have h0 : m a = UInt8.ofNat w := List.head_eq_of_cons_eq h
  have h1 : m (a + 1) = UInt8.ofNat (w / 2 ^ 8) := List.head_eq_of_cons_eq (List.tail_eq_of_cons_eq h)
  rw [halfAt, h0, h1, halfOfBytes, UInt8.toNat_ofNat', UInt8.toNat_ofNat']
  omega

/-- A packet is built, with the identifier and the sequence number in 16 bits. -/
theorem pack_eq (g : Globals) (now : TimeVal) (pktNo : Nat) (sendpacket : Mem UInt8) :
    ∃ packet, pack g now pktNo sendpacket = some (packet, 64) ∧
      halfAt packet 4 = g.pid % 2 ^ 16 ∧ halfAt packet 6 = pktNo % 2 ^ 16 := by
  have hid : (packFields g now pktNo sendpacket).read 4 2 = bytesOfHalf g.pid := by
    rw [packFields, Mem.read_write_disjoint _ _ _ _ _ (Or.inl (by decide))]
    exact Mem.read_write_self _ 4 (bytesOfHalf g.pid)
  have hseq : (packFields g now pktNo sendpacket).read 6 2 = bytesOfHalf pktNo := by
    rw [packFields, Mem.read_write_disjoint _ _ _ _ _ (Or.inl (by decide)),
      Mem.read_write_disjoint _ _ _ _ _ (Or.inr (by simp [bytesOfHalf]))]
    exact Mem.read_write_self _ 6 (bytesOfHalf pktNo)
  have hsum : calChksum ((packFields g now pktNo sendpacket).read 0 64) = _ :=
    calChksum_eq (by simp)
  refine ⟨_, by rw [pack, icmpHeadsize, datalen, hsum]; rfl, ?_, ?_⟩
  · refine halfAt_of_read ?_
    rw [Mem.read_write_disjoint _ _ _ _ _ (Or.inr (by simp [bytesOfHalf])), hid]
  · refine halfAt_of_read ?_
    rw [Mem.read_write_disjoint _ _ _ _ _ (Or.inr (by simp [bytesOfHalf])), hseq]

/-! ## The reply -/

/-- **What `unpack` does.** A reply that is waited for is taken, with the time behind its header. -/
theorem unpack_eq (g : Globals) (curSeq : Int) (buf : Mem UInt8) (len : Int) :
    unpack g curSeq buf len =
      if 8 ≤ len - 4 * ipHl buf ∧ WaitedFor g curSeq buf then
        (0, { g with
          spendMs := wrapS64 (g.tvrecv.millis - (timeValAt buf (4 * ipHl buf + 8)).millis)
          ipTtl := (buf 8).toNat })
      else (-1, g) := by
  have hhdr : ((ipHl buf <<< 2 : Nat) : Int) = 4 * ipHl buf := by
    rw [Nat.shiftLeft_eq]
    omega
  simp only [unpack, hhdr]
  by_cases hshort : len - 4 * ipHl buf < 8
  · rw [if_pos hshort, if_neg fun h => Int.not_le.2 hshort h.1]
  · rw [if_neg hshort]
    exact if_congr (and_iff_right (Int.not_lt.1 hshort)).symm rfl rfl

/-- What `unpack` takes. -/
theorem unpack_eq_zero (g : Globals) (curSeq : Int) (buf : Mem UInt8) (len : Int) :
    (unpack g curSeq buf len).1 = 0 ↔ 8 ≤ len - 4 * ipHl buf ∧ WaitedFor g curSeq buf := by
  rw [unpack_eq]
  split
  · case isTrue htaken => exact iff_of_true rfl htaken
  · case isFalse hother => exact iff_of_false (fun h => by cases h) hother

/-- The half words of the reply are those of the packet. -/
theorem EchoReply.halves {hl : Nat} (h : EchoReply packet 64 hl buf len) :
    halfAt buf (4 * hl + 4) = halfAt packet 4 ∧ halfAt buf (4 * hl + 6) = halfAt packet 6 := by
  have hbyte : ∀ i : Nat, i < 60 → buf (4 * hl + 4 + i) = packet (4 + i) := fun i hi =>
    Mem.apply_eq_of_read_eq h.same i hi
  have h0 : buf (4 * hl + 4) = packet 4 := by simpa using hbyte 0 (by decide)
  have h1 : buf (4 * hl + 4 + 1) = packet 5 := hbyte 1 (by decide)
  have h2 : buf (4 * hl + 4 + 2) = packet 6 := hbyte 2 (by decide)
  have h3 : buf (4 * hl + 4 + 3) = packet 7 := hbyte 3 (by decide)
  rw [Int.add_assoc] at h2 h3
  constructor
  · rw [halfAt, h0, h1]
    rfl
  · rw [halfAt, Int.add_assoc]
    exact congrArg₂ halfOfBytes h2 h3

/-- An echo reply to a packet, behind an IP header of five words. -/
theorem exists_echoReply (packet : Mem UInt8) : ∃ buf, EchoReply packet 64 5 buf 84 := by
  let front : Mem UInt8 := Mem.write (fun _ => 0) 0 [0x45]
  have hlen : (packet.read 4 60).length = 60 := Mem.length_read ..
  refine ⟨front.write 24 (packet.read 4 60), ?_, ?_, ?_, rfl⟩
  · have hfirst : front 0 = 0x45 := by decide
    rw [ipHl, Mem.write_apply_outside _ _ _ _ (Or.inl (by decide)), hfirst]
    rfl
  · exact (Mem.write_apply_outside _ _ _ _ (Or.inl (by decide))).trans rfl
  · have hself := Mem.read_write_self front 24 (packet.read 4 60)
    rwa [hlen] at hself

/-- A process id of more than 16 bits is no identifier. -/
theorem pid_lt_of_recognisesOwn (h : RecognisesOwn g) : g.pid < 2 ^ 16 := by
  obtain ⟨packet, packsize, hpack, htakes⟩ := h ⟨0, 0⟩ (fun _ => 0) 0 (by decide)
  obtain ⟨packet', hpack', -⟩ := pack_eq g ⟨0, 0⟩ 0 (fun _ => 0)
  obtain ⟨rfl, rfl⟩ := Prod.mk.inj (Option.some.inj (hpack'.symm.trans hpack))
  obtain ⟨buf, hreply⟩ := exists_echoReply packet'
  have htaken := (htakes buf 84).1 5 (by decide) (by decide) hreply
  obtain ⟨-, -, hid, -⟩ := (unpack_eq_zero g _ buf 84).1 htaken
  have hlt := halfOfBytes_lt (buf (4 * ipHl buf + 4)) (buf (4 * ipHl buf + 4 + 1))
  rw [halfAt] at hid
  omega

/-- **Whose replies are recognised.** A process recognises the replies to its own requests, behind
    IP headers of every length and with every sequence number, and takes no other message, exactly
    when its process id fits in the identifier. -/
theorem recognisesOwn_iff (g : Globals) : RecognisesOwn g ↔ g.pid < 2 ^ 16 := by
  refine ⟨pid_lt_of_recognisesOwn, fun hpid now sendpacket curSeq hseq => ?_⟩
  obtain ⟨packet, hpack, hid, hno⟩ := pack_eq g now curSeq sendpacket
  rw [Nat.mod_eq_of_lt hpid] at hid
  rw [Nat.mod_eq_of_lt hseq] at hno
  refine ⟨packet, 64, hpack, fun buf len => ⟨fun hl _ _ hreply => ?_, fun hlong htaken => ?_⟩⟩
  · obtain ⟨hid', hno'⟩ := hreply.halves
    rw [unpack_eq_zero, WaitedFor, hreply.ipHl]
    refine ⟨?_, hreply.type, ?_, ?_⟩
    · have := hreply.len
      omega
    · rw [hid', hid]
    · rw [hno', hno]
  · obtain ⟨-, htype, hid', hno'⟩ := (unpack_eq_zero g curSeq buf len).1 htaken
    exact ⟨htype, by rw [hid]; exact Int.ofNat.inj hid', by rw [hno]; exact Int.ofNat.inj hno'⟩

/-- The process `65536` does not recognise the replies to its requests. -/
theorem recognisesOwn_65536 : ¬ RecognisesOwn ⟨65536, ⟨0, 0⟩, 0, 0⟩ := fun h =>
  absurd (pid_lt_of_recognisesOwn h) (by decide)

end XToolkits.Net
