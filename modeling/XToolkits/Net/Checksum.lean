import XToolkits.Lib.CInt
import XToolkits.Lib.OnesComplement

set_option autoImplicit false

/-! # The Internet checksum

`cal_chksum` of `xlib_net`: the 16-bit words of a packet are summed up in an `int`, the carries are
folded back and the complement is returned. `calChksum_eq` says that this is the complement of the
ones' complement sum of the words (`onesSum`), and `calChksum_verifies` that a packet with the
result in its checksum field has the checksum `0`. Words are little-endian. -/

namespace XToolkits.Net

/-- `sum += w`. `none`: the `int` overflows. -/
def addInt (sum w : Nat) : Option Nat := if sum + w < 2 ^ 31 then some (sum + w) else none

/-- The loop, and the byte that is left behind it: the first one of a word that is `0`. -/
def chksumLoop : List UInt8 → Nat → Option Nat
  | a :: b :: bs, sum => addInt sum (halfOfBytes a b) >>= chksumLoop bs
  | [a], sum => addInt sum (halfOfBytes a 0)
  | [], sum => some sum

/-- `cal_chksum`, on the `len` bytes from `addr` on. `answer` has the low 16 bits of `~sum`. -/
def calChksum (bs : List UInt8) : Option Nat := do
  let sum ← chksumLoop bs 0
  let sum := (sum >>> 16) + (sum &&& 0xffff)
  let sum := sum + (sum >>> 16)
  some (~~~BitVec.ofNat 16 sum).toNat

/-! ## The words of a packet -/

/-- The words of a packet, a byte that is left filled up with `0`. -/
def halves : List UInt8 → List Nat
  | a :: b :: bs => halfOfBytes a b :: halves bs
  | [a] => [halfOfBytes a 0]
  | [] => []

variable {n : Nat} {bs : List UInt8}

theorem halves_lt (bs : List UInt8) : ∀ w ∈ halves bs, w < 2 ^ 16 := by
  fun_induction halves bs with
  | case1 a b bs ih => exact List.forall_mem_cons.2 ⟨halfOfBytes_lt a b, ih⟩
  | case2 a => exact List.forall_mem_cons.2 ⟨halfOfBytes_lt a 0, by simp⟩
  | case3 => simp

theorem halves_append {xs : List UInt8} (hxs : xs.length % 2 = 0) (ys : List UInt8) :
    halves (xs ++ ys) = halves xs ++ halves ys := by
  fun_induction halves xs with
  | case1 a b xs ih =>
      rw [List.cons_append, List.cons_append, halves, List.cons_append,
        ih (by simp only [List.length_cons] at hxs; omega)]
  | case2 a => cases hxs
  | case3 => rfl

/-- Fewer words than bytes, each below `2 ^ 16`. -/
theorem sum_halves_le (bs : List UInt8) : (halves bs).sum ≤ (2 ^ 16 - 1) * ((bs.length + 1) / 2) := by
  fun_induction halves bs with
  | case1 a b bs ih =>
      have := halfOfBytes_lt a b
      rw [List.sum_cons, List.length_cons, List.length_cons]
      omega
  | case2 a =>
      have := halfOfBytes_lt a 0
      rw [List.sum_singleton, List.length_singleton]
      omega
  | case3 => exact Nat.zero_le _

/-- A half word stored in the packet is a word of it. -/
theorem halves_field {pre : List UInt8} (hpre : pre.length % 2 = 0) (post : List UInt8) {c : Nat}
    (hc : c < 2 ^ 16) :
    halves (pre ++ bytesOfHalf c ++ post) = halves pre ++ c :: halves post := by
  rw [List.append_assoc, halves_append hpre]
  show halves pre ++ halfOfBytes (UInt8.ofNat c) (UInt8.ofNat (c / 2 ^ 8)) :: halves post = _
  rw [halfOfBytes_bytesOfHalf c hc]

/-! ## The checksum -/

/-- The loop sums up the words. -/
theorem chksumLoop_eq (hsum : n + (halves bs).sum < 2 ^ 31) :
    chksumLoop bs n = some (n + (halves bs).sum) := by
  fun_induction halves bs generalizing n with
  | case1 a b bs ih =>
      rw [List.sum_cons, ← Nat.add_assoc] at hsum ⊢
      have hword : n + halfOfBytes a b < 2 ^ 31 := by omega
      rw [chksumLoop, addInt, if_pos hword, Option.bind_eq_bind, Option.bind_some, ih hsum]
  | case2 a =>
      rw [List.sum_singleton] at hsum ⊢
      rw [chksumLoop, addInt, if_pos hsum]
  | case3 => rfl

/-- **The checksum is the complement of the ones' complement sum**, and nothing overflows. -/
theorem calChksum_eq (hlen : bs.length ≤ 65536) :
    calChksum bs = some (2 ^ 16 - 1 - onesSum (2 ^ 16) (halves bs)) := by
  have hsum : (halves bs).sum < 2 ^ 31 := by
    have := sum_halves_le bs
    omega
  have hwords := isOnes_onesSum (b := 2 ^ 16) (by decide) (halves_lt bs)
  have hfold := isOnes_fold (b := 2 ^ 16) (n := (halves bs).sum) (by decide) (by omega)
  have hloop : chksumLoop bs 0 = some (0 + (halves bs).sum) := chksumLoop_eq (by omega)
  rw [Nat.zero_add] at hloop
  have hfirst : ((halves bs).sum >>> 16) + ((halves bs).sum &&& 0xffff) =
      foldWord (2 ^ 16) (halves bs).sum := by
    rw [Nat.shiftRight_eq_div_pow, show 0xffff = 2 ^ 16 - 1 from rfl, Nat.and_two_pow_sub_one_eq_mod]
    rfl
  rw [calChksum, hloop, hwords.unique hfold, ← hfirst]
  simp only [Option.bind_eq_bind, Option.bind_some, BitVec.toNat_not, BitVec.toNat_ofNat,
    Nat.shiftRight_eq_div_pow]

/-- **A packet with its checksum verifies.** For every packet of at most 65536 bytes, even or odd,
    with a checksum field that is `0` at an even offset: `cal_chksum` returns the complement of the
    ones' complement sum of its words, without an overflow, and `0` when this is in the field. -/
theorem calChksum_verifies (pre post : List UInt8) (hpre : pre.length % 2 = 0)
    (hlen : (pre ++ bytesOfHalf 0 ++ post).length ≤ 65536) :
    ∃ c, calChksum (pre ++ bytesOfHalf 0 ++ post) = some c ∧ c < 2 ^ 16 ∧
      c = 2 ^ 16 - 1 - onesSum (2 ^ 16) (halves (pre ++ bytesOfHalf 0 ++ post)) ∧
      calChksum (pre ++ bytesOfHalf c ++ post) = some 0 := by
  let x := onesSum (2 ^ 16) (halves (pre ++ bytesOfHalf 0 ++ post))
  have hx : IsOnes (2 ^ 16) (halves (pre ++ bytesOfHalf 0 ++ post)).sum x :=
    isOnes_onesSum (by decide) (halves_lt _)
  have hc : 2 ^ 16 - 1 - x < 2 ^ 16 := by omega
  refine ⟨2 ^ 16 - 1 - x, calChksum_eq hlen, hc, rfl, ?_⟩
  have hlen' : (pre ++ bytesOfHalf (2 ^ 16 - 1 - x) ++ post).length ≤ 65536 := by
    simpa [bytesOfHalf] using hlen
  -- the field adds the complement of the word of the rest
  have hsum : (halves (pre ++ bytesOfHalf (2 ^ 16 - 1 - x) ++ post)).sum =
      (halves (pre ++ bytesOfHalf 0 ++ post)).sum + (2 ^ 16 - 1 - x) := by
    rw [halves_field hpre post hc, halves_field hpre post (by decide)]
    simp only [List.sum_append, List.sum_cons]
    omega
  have hwords := isOnes_onesSum (b := 2 ^ 16) (by decide)
    (halves_lt (pre ++ bytesOfHalf (2 ^ 16 - 1 - x) ++ post))
  rw [hsum] at hwords
  rw [calChksum_eq hlen', hwords.unique hx.complement, Nat.sub_self]

/-- A packet of five bytes. -/
theorem calChksum_verifies_five :
    ∃ c, calChksum ([0x08, 0x00] ++ bytesOfHalf 0 ++ [0xff]) = some c ∧ c < 2 ^ 16 ∧
      c = 2 ^ 16 - 1 - onesSum (2 ^ 16) (halves ([0x08, 0x00] ++ bytesOfHalf 0 ++ [0xff])) ∧
      calChksum ([0x08, 0x00] ++ bytesOfHalf c ++ [0xff]) = some 0 :=
  calChksum_verifies [0x08, 0x00] [0xff] rfl (by decide)

end XToolkits.Net
