import XToolkits.Net.Ping

set_option autoImplicit false

/-! # What `unpack` looks at

The buffer for a datagram keeps bytes of earlier ones behind the `len` bytes received. `unpack` asks
for the 8 bytes of an ICMP header and then also reads the time behind it, 16 bytes more. A reply
without all of them gets its round trip from bytes that were never received.
`looksOnlyAtReceived_iff` says for which datagrams this happens. -/

namespace XToolkits.Net

variable {g : Globals} {curSeq : Int} {m m' buf buf' : Mem UInt8} {a : Int} {len : Nat}

/-- What `unpack` returns, and what it leaves in the globals, is the same for every buffer with the
    same first `len` bytes. -/
def LooksOnlyAtReceived (g : Globals) (curSeq : Int) (buf : Mem UInt8) (len : Nat) : Prop :=
  ∀ buf' : Mem UInt8, (∀ x : Int, 0 ≤ x → x < len → buf' x = buf x) →
    unpack g curSeq buf' len = unpack g curSeq buf len

/-! ## Fields -/

theorem halfAt_congr (h : ∀ x, a ≤ x → x < a + 2 → m' x = m x) : halfAt m' a = halfAt m a := by
  rw [halfAt, h a (by omega) (by omega), h (a + 1) (by omega) (by omega)]
  rfl

/-- The last byte of a `long` is its high one. -/
theorem longAt_eq_highByte (h : ∀ x, a ≤ x → x < a + 7 → m' x = m x) :
    ∃ n : Nat, n < 2 ^ 56 ∧ longAt m a = wrapS64 (n + 2 ^ 56 * (m (a + 7)).toNat) ∧
      longAt m' a = wrapS64 (n + 2 ^ 56 * (m' (a + 7)).toNat) := by
  have hcell : ∀ k : Int, 0 ≤ k → k < 7 → m' (a + k) = m (a + k) := fun k h0 h7 =>
    h (a + k) (by omega) (by omega)
  have hlt : ∀ x, (m x).toNat < 256 := fun x => UInt8.toNat_lt (m x)
  have h0 := hlt a
  have h1 := hlt (a + 1)
  have h2 := hlt (a + 2)
  have h3 := hlt (a + 3)
  have h4 := hlt (a + 4)
  have h5 := hlt (a + 5)
  have h6 := hlt (a + 6)
  refine ⟨wordOfBytes (m a) (m (a + 1)) (m (a + 2)) (m (a + 3)) +
    2 ^ 32 * wordOfBytes (m (a + 4)) (m (a + 5)) (m (a + 6)) 0, ?_, ?_, ?_⟩
  · simp only [wordOfBytes, UInt8.toNat_zero]
    omega
  · rw [longAt]
    simp only [wordOfBytes, UInt8.toNat_zero]
    congr 1
    omega
  · rw [longAt, h a (by omega) (by omega), hcell 1 (by decide) (by decide),
      hcell 2 (by decide) (by decide), hcell 3 (by decide) (by decide),
      hcell 4 (by decide) (by decide), hcell 5 (by decide) (by decide),
      hcell 6 (by decide) (by decide)]
    simp only [wordOfBytes, UInt8.toNat_zero]
    congr 1
    omega

theorem longAt_congr (h : ∀ x, a ≤ x → x < a + 8 → m' x = m x) : longAt m' a = longAt m a := by
  obtain ⟨n, -, hm, hm'⟩ := longAt_eq_highByte fun x h0 h7 => h x h0 (by omega)
  rw [hm', hm, h (a + 7) (by omega) (by omega)]

theorem timeValAt_congr (h : ∀ x, a ≤ x → x < a + 16 → m' x = m x) :
    timeValAt m' a = timeValAt m a := by
  rw [timeValAt, longAt_congr fun x h0 h1 => h x h0 (by omega),
    longAt_congr fun x h0 h1 => h x (by omega) (by omega)]
  rfl

theorem waitedFor_congr (hhl : ipHl buf' = ipHl buf)
    (h : ∀ x : Int, 4 * ipHl buf ≤ x → x < 4 * ipHl buf + 8 → buf' x = buf x) :
    WaitedFor g curSeq buf' ↔ WaitedFor g curSeq buf := by
  rw [WaitedFor, WaitedFor, hhl, h _ (by omega) (by omega),
    halfAt_congr fun x h0 h1 => h x (by omega) (by omega),
    halfAt_congr fun x h0 h1 => h x (by omega) (by omega)]

/-! ## A byte that was not received -/

/-- With 128 added to its high byte, a `long` is `2 ^ 63` away, on the other side of zero. -/
theorem longAt_add_highByte (h : ∀ x, a ≤ x → x < a + 7 → m' x = m x)
    (hhigh : m' (a + 7) = m (a + 7) + 128) :
    (0 ≤ longAt m a ∧ longAt m a < 2 ^ 63 ∧ longAt m' a = longAt m a - 2 ^ 63) ∨
      (0 ≤ longAt m' a ∧ longAt m' a < 2 ^ 63 ∧ longAt m a = longAt m' a - 2 ^ 63) := by
  obtain ⟨n, hn, hm, hm'⟩ := longAt_eq_highByte h
  have hbyte : (m (a + 7) + 128).toNat = ((m (a + 7)).toNat + 128) % 2 ^ 8 := UInt8.toNat_add _ _
  have hlt := UInt8.toNat_lt (m (a + 7))
  rw [hhigh, hbyte] at hm'
  rw [hm, hm', wrapS64, wrapS64]
  omega

/-- Its thousandth is another number, less than `2 ^ 63` away. -/
theorem tdiv_sub_two_pow {u : Int} (h0 : 0 ≤ u) (h1 : u < 2 ^ 63) :
    (u - 2 ^ 63).tdiv 1000 < u.tdiv 1000 ∧ u.tdiv 1000 < (u - 2 ^ 63).tdiv 1000 + 2 ^ 63 := by
  have hneg : u - 2 ^ 63 = -(2 ^ 63 - u) := by omega
  rw [hneg, Int.neg_tdiv, Int.tdiv_eq_ediv_of_nonneg h0, Int.tdiv_eq_ediv_of_nonneg (by omega)]
  omega

theorem wrapS64_ne {x y : Int} (h : x < y) (hy : y < x + 2 ^ 63) : wrapS64 x ≠ wrapS64 y := by
  rw [wrapS64, wrapS64]
  omega

/-- With another last byte of the time a reply gives another round trip. -/
theorem spendMs_ne (t : TimeVal) (h : ∀ x, a ≤ x → x < a + 15 → m' x = m x)
    (hhigh : m' (a + 15) = m (a + 15) + 128) :
    wrapS64 (t.millis - (timeValAt m' a).millis) ≠ wrapS64 (t.millis - (timeValAt m a).millis) := by
  have hsec : longAt m' a = longAt m a := longAt_congr fun x h0 h1 => h x h0 (by omega)
  have hmillis : ∀ m : Mem UInt8, (timeValAt m a).millis =
      longAt m a * 1000 + (longAt m (a + 8)).tdiv 1000 := fun _ => rfl
  have hend : a + 8 + 7 = a + 15 := by omega
  have hlow : ∀ x, a + 8 ≤ x → x < a + 8 + 7 → m' x = m x := fun x h0 h1 =>
    h x (by omega) (by omega)
  have husec := longAt_add_highByte hlow (by rw [hend, hhigh])
  rw [hmillis, hmillis, hsec]
  rcases husec with ⟨h0, h1, heq⟩ | ⟨h0, h1, heq⟩
  · obtain ⟨hlt, hfar⟩ := tdiv_sub_two_pow h0 h1
    rw [heq]
    exact (wrapS64_ne (by omega) (by omega)).symm
  · obtain ⟨hlt, hfar⟩ := tdiv_sub_two_pow h0 h1
    rw [heq]
    exact wrapS64_ne (by omega) (by omega)

/-! ## Which datagrams -/

/-- A reply that is taken without all of the bytes of its time. -/
theorem not_looksOnlyAtReceived (hheader : 4 * ipHl buf + 8 ≤ len) (hshort : len < 4 * ipHl buf + 24)
    (hwaited : WaitedFor g curSeq buf) : ¬ LooksOnlyAtReceived g curSeq buf len := by
  intro h
  let last : Int := 4 * ipHl buf + 8 + 15
  let buf' : Mem UInt8 := buf.write last [buf last + 128]
  have hother : ∀ x, x < last → buf' x = buf x := fun x hx =>
    Mem.write_apply_outside _ _ _ _ (Or.inl hx)
  have hhigh : buf' last = buf last + 128 := by
    have hinside := Mem.write_apply_inside buf last [buf last + 128] 0 Nat.one_pos
    rwa [Int.natCast_zero, Int.add_zero] at hinside
  have hhl : ipHl buf' = ipHl buf := by
    rw [ipHl, ipHl, hother 0 (by omega)]
  have hwaited' : WaitedFor g curSeq buf' :=
    (waitedFor_congr hhl fun x _ hx => hother x (by omega)).2 hwaited
  have heq := h buf' fun x _ hx => hother x (by omega)
  rw [unpack_eq, unpack_eq, hhl, if_pos ⟨by omega, hwaited'⟩, if_pos ⟨by omega, hwaited⟩] at heq
  exact spendMs_ne g.tvrecv (fun x _ hx => hother x hx) hhigh
    (congrArg (fun r : Int × Globals => r.2.spendMs) heq)

/-- **When `unpack` looks only at what was received.** For all globals, sequence numbers, buffers and
    lengths: the value returned and the globals left are those of every buffer that has the same
    first `len` bytes exactly when the datagram is not a reply that is waited for with an ICMP header
    and fewer than 16 bytes behind it. -/
theorem looksOnlyAtReceived_iff (g : Globals) (curSeq : Int) (buf : Mem UInt8) (len : Nat) :
    LooksOnlyAtReceived g curSeq buf len ↔
      ¬ (4 * ipHl buf + 8 ≤ len ∧ len < 4 * ipHl buf + 24 ∧ WaitedFor g curSeq buf) := by
  constructor
  · rintro h ⟨hheader, hshort, hwaited⟩
    exact not_looksOnlyAtReceived hheader hshort hwaited h
  · intro h buf' hsame
    rw [unpack_eq, unpack_eq]
    by_cases hlen : len < 8
    · -- whatever the length of the IP header, there is no ICMP header
      rw [if_neg fun htaken => by omega, if_neg fun htaken => by omega]
    · have hhl : ipHl buf' = ipHl buf := by
        rw [ipHl, ipHl, hsame 0 (by omega) (by omega)]
      rw [hhl]
      by_cases hheader : 4 * ipHl buf + 8 ≤ len
      · have hiff : WaitedFor g curSeq buf' ↔ WaitedFor g curSeq buf :=
          waitedFor_congr hhl fun x h0 h1 => hsame x (by omega) (by omega)
        by_cases hwaited : WaitedFor g curSeq buf
        · have htime : ¬ len < 4 * ipHl buf + 24 := fun hshort => h ⟨hheader, hshort, hwaited⟩
          rw [if_pos ⟨by omega, hiff.2 hwaited⟩, if_pos ⟨by omega, hwaited⟩,
            timeValAt_congr fun x h0 h1 => hsame x (by omega) (by omega),
            hsame 8 (by omega) (by omega)]
        · rw [if_neg fun htaken => hwaited (hiff.1 htaken.2), if_neg fun htaken => hwaited htaken.2]
      · rw [if_neg fun htaken => by omega, if_neg fun htaken => by omega]

/-- An IP header of five words and the ICMP header of the reply to the first packet of the process
    `7`, and nothing behind it. -/
theorem looksOnlyAtReceived_noTime :
    ¬ LooksOnlyAtReceived ⟨7, ⟨0, 0⟩, 0, 0⟩ 0
      (Mem.write (Mem.write (fun _ => 0) 0 [0x45]) 24 (bytesOfHalf 7)) 28 :=
  not_looksOnlyAtReceived (by decide) (by decide) (by decide)

end XToolkits.Net
