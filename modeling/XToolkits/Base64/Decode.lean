import XToolkits.Base64.Codec
import XToolkits.Lib.BitString

set_option autoImplicit false

/-! # What the decoder writes

The bits of the bytes that were made, followed by the bits waiting, are the bits of the values of
the characters read so far (`DecodeState.Holds`). Of these bytes the decoder has written the first
`maxlen`. At the end fewer than eight bits wait (`base64Decode_eq`). -/

namespace XToolkits.Base64

variable {maxlen fuel : Nat} {vs : List Nat} {s : DecodeState}

/-! ## The inner loop -/

/-- The values read are in the bytes made, `full`, and in the bits waiting; the bytes written are
    those for which there is room. -/
structure DecodeState.Holds (maxlen : Nat) (vs : List Nat) (full : List UInt8) (s : DecodeState) :
    Prop where
  out : s.out = full.take maxlen
  bitval : s.bitval < 2 ^ s.bits
  values : bitString 6 vs = bitString 8 (full.map UInt8.toNat) ++ bitsOf s.bits s.bitval

variable {full : List UInt8}

theorem take_concat (full : List UInt8) (x : UInt8) (n : Nat) :
    (full ++ [x]).take n =
      if (full.take n).length < n then full.take n ++ [x] else full.take n := by
  rw [List.take_append]
  rcases Nat.lt_or_ge full.length n with h | h
  · rw [if_pos (by rw [List.length_take]; omega),
      List.take_of_length_le (l := [x]) (by rw [List.length_singleton]; omega)]
  · rw [if_neg (by rw [List.length_take]; omega), Nat.sub_eq_zero_of_le h, List.take_zero,
      List.append_nil]

/-- One round: the first eight bits waiting are a byte. -/
theorem DecodeState.Holds.writeByte (h : s.Holds maxlen vs full) (h8 : 8 ≤ s.bits) :
    DecodeState.Holds maxlen vs
      (full ++ [((s.bitval >>> (s.bits - 8)) &&& 0xFF).toUInt8])
      ⟨if s.out.length < maxlen then
          s.out ++ [((s.bitval >>> (s.bits - 8)) &&& 0xFF).toUInt8] else s.out,
        s.bitval &&& (1 <<< (s.bits - 8) - 1), s.bits - 8⟩ := by
  obtain ⟨r, hr⟩ := Nat.exists_eq_add_of_le h8
  have hbyte : (((s.bitval >>> (s.bits - 8)) &&& 0xFF).toUInt8).toNat = s.bitval / 2 ^ r := by
    have hlt : s.bitval / 2 ^ r < 2 ^ 8 := by
      rw [Nat.div_lt_iff_lt_mul (Nat.two_pow_pos r), ← Nat.pow_add, ← hr]
      exact h.bitval
    rw [hr, Nat.add_sub_cancel_left, Nat.shiftRight_eq_div_pow,
      show 0xFF = 2 ^ 8 - 1 from rfl, Nat.and_two_pow_sub_one_eq_mod, Nat.mod_eq_of_lt hlt]
    exact Nat.mod_eq_of_lt hlt
  have hrest : s.bitval &&& (1 <<< (s.bits - 8) - 1) = s.bitval % 2 ^ r := by
    rw [hr, Nat.add_sub_cancel_left, Nat.one_shiftLeft, Nat.and_two_pow_sub_one_eq_mod]
  constructor
  · rw [take_concat, ← h.out]
  · rw [hrest]
    show s.bitval % 2 ^ r < 2 ^ (s.bits - 8)
    rw [hr, Nat.add_sub_cancel_left]
    exact Nat.mod_lt _ (Nat.two_pow_pos r)
  · show bitString 6 vs = bitString 8 _ ++ bitsOf (s.bits - 8) _
    rw [h.values, hrest, List.map_append, List.map_singleton, hbyte, bitString_append,
      List.append_assoc, hr, bitsOf_split 8 r s.bitval, Nat.add_sub_cancel_left]
    simp

/-- The inner loop ends with fewer than eight bits waiting. -/
theorem DecodeState.Holds.writeBytes (h : s.Holds maxlen vs full) (hfuel : s.bits ≤ fuel) :
    ∃ full', (writeBytes maxlen fuel s).Holds maxlen vs full' ∧
      (writeBytes maxlen fuel s).bits < 8 := by
  induction fuel generalizing s full with
  | zero => exact ⟨full, h, by rw [Base64.writeBytes]; omega⟩
  | succ fuel ih =>
      rw [Base64.writeBytes]
      split
      · case isTrue h8 => exact ih (h.writeByte h8) (by show s.bits - 8 ≤ fuel; omega)
      · case isFalse h8 => exact ⟨full, h, Nat.lt_of_not_le h8⟩

/-! ## The loop over the characters -/

/-- One character. -/
theorem DecodeState.Holds.decodeChar (h : s.Holds maxlen vs full) (hbits : s.bits < 8) (c : UInt8) :
    ∃ full', (decodeChar maxlen s c).Holds maxlen (vs ++ (charVal c).toList) full' ∧
      (decodeChar maxlen s c).bits < 8 := by
  rw [Base64.decodeChar]
  split
  · case h_1 val hval =>
      have hlt : val < 2 ^ 6 := charVal_lt c val hval
      have hmore : DecodeState.Holds maxlen (vs ++ [val]) full
          ⟨s.out, (s.bitval <<< 6) + val, s.bits + 6⟩ := by
        refine ⟨h.out, ?_, ?_⟩
        · show s.bitval <<< 6 + val < 2 ^ (s.bits + 6)
          have := h.bitval
          rw [Nat.shiftLeft_eq, Nat.pow_add]
          omega
        · show bitString 6 (vs ++ [val]) = _ ++ bitsOf (s.bits + 6) (s.bitval <<< 6 + val)
          rw [bitString_append, h.values, Nat.shiftLeft_eq, bitsOf_add _ _ hlt, List.append_assoc]
          simp
      rw [hval, Option.toList_some]
      exact hmore.writeBytes (Nat.le_refl _)
  · case h_2 hval =>
      rw [hval, Option.toList_none, List.append_nil]
      exact ⟨full, h, hbits⟩

theorem DecodeState.Holds.foldl (h : s.Holds maxlen vs full) (hbits : s.bits < 8)
    (cs : List UInt8) :
    ∃ full', (cs.foldl (Base64.decodeChar maxlen) s).Holds maxlen (vs ++ cs.filterMap charVal)
        full' ∧
      (cs.foldl (Base64.decodeChar maxlen) s).bits < 8 := by
  induction cs generalizing s vs full with
  | nil => exact ⟨full, by simpa using h, hbits⟩
  | cons c cs ih =>
      obtain ⟨full', h', hbits'⟩ := h.decodeChar hbits c
      have hcons : vs ++ (c :: cs).filterMap charVal =
          vs ++ (charVal c).toList ++ cs.filterMap charVal := by
        rw [List.append_assoc]
        cases hc : charVal c <;> simp [hc]
      rw [List.foldl_cons, hcons]
      exact ih h' hbits'

/-- Between the characters fewer than eight bits wait, and `bitval` has no more. -/
theorem decodeChars_bits (maxlen : Nat) (cs : List UInt8) :
    (cs.foldl (decodeChar maxlen) ⟨[], 0, 0⟩).bits < 8 ∧
      (cs.foldl (decodeChar maxlen) ⟨[], 0, 0⟩).bitval <
        2 ^ (cs.foldl (decodeChar maxlen) ⟨[], 0, 0⟩).bits := by
  have hinit : DecodeState.Holds maxlen [] [] ⟨[], 0, 0⟩ :=
    ⟨List.take_nil.symm, Nat.one_pos, rfl⟩
  obtain ⟨full, h, hbits⟩ := hinit.foldl (by decide) cs
  exact ⟨hbits, h.bitval⟩

/-- What `base64Decode` writes: the bits of the values of the characters, cut into bytes, as far
    as there is room, and `0` when there is room for one more. -/
theorem base64Decode_eq (src : List UInt8) (maxlen : Nat) :
    ∃ (full : List UInt8) (rest : List Bool), bitString 6 ((charsRead src).filterMap charVal) =
          bitString 8 (full.map UInt8.toNat) ++ rest ∧ rest.length < 8 ∧
      base64Decode src maxlen = full.take maxlen ++ if full.length < maxlen then [0] else [] := by
  have hinit : DecodeState.Holds maxlen [] [] ⟨[], 0, 0⟩ :=
    ⟨List.take_nil.symm, Nat.one_pos, rfl⟩
  obtain ⟨full, h, hbits⟩ := hinit.foldl (by decide) (charsRead src)
  have hvalues := h.values
  rw [List.nil_append] at hvalues
  refine ⟨full, _, hvalues, by rwa [length_bitsOf], ?_⟩
  simp only [base64Decode, h.out, List.length_take]
  rcases Nat.lt_or_ge full.length maxlen with hlen | hlen
  · rw [if_pos hlen, if_pos (by omega)]
  · rw [if_neg (by omega), if_neg (by omega), List.append_nil]

/-! ## The bytes of the values -/

/-- The bits of the values one behind the other, cut into as many bytes as they fill. -/
def bigEndian (vs : List Nat) : List UInt8 :=
  (digitsOf 8 ((bitString 6 vs).take (8 * (6 * vs.length / 8)))).map UInt8.ofNat

/-- What a decoder with room for `maxlen` bytes makes of the values. -/
def decodedBytes (vs : List Nat) (maxlen : Nat) : List UInt8 :=
  (bigEndian vs).take maxlen ++ if 6 * vs.length / 8 < maxlen then [0] else []

theorem length_bigEndian (vs : List Nat) : (bigEndian vs).length = 6 * vs.length / 8 := by
  rw [bigEndian, List.length_map, digitsOf, List.length_map, List.length_range, List.length_take,
    length_bitString]
  omega

/-- The bytes are given by their bits. -/
theorem bigEndian_eq {full : List UInt8} {rest : List Bool} (hrest : rest.length < 8)
    (h : bitString 6 vs = bitString 8 (full.map UInt8.toNat) ++ rest) : bigEndian vs = full := by
  have hlen := congrArg List.length h
  rw [List.length_append, length_bitString, length_bitString, List.length_map] at hlen
  have htake : (bitString 6 vs).take (8 * (6 * vs.length / 8)) =
      bitString 8 (full.map UInt8.toNat) := by
    rw [h, List.take_left' (by rw [length_bitString, List.length_map]; omega)]
  have hlt : ∀ n ∈ full.map UInt8.toNat, n < 2 ^ 8 := fun n hn => by
    obtain ⟨c, -, rfl⟩ := List.mem_map.1 hn
    exact UInt8.toNat_lt c
  rw [bigEndian, htake, digitsOf_eq (k := 0) hlt (by decide) (List.append_nil _).symm, List.map_map]
  exact (List.map_congr_left fun c _ => UInt8.ofNat_toNat).trans (List.map_id' full)

/-- **The decoder is the big-endian concatenation of the sextets.** For every string and every
    `maxlen`: the bytes of the values of the characters read are written as far as there is room,
    and `0` when they do not fill it; between two characters fewer than eight bits wait, so nothing
    overflows; and the characters read are the string, when its length fits in an `int`. -/
theorem base64Decode_bigEndian (src : List UInt8) (maxlen : Nat) :
    base64Decode src maxlen = decodedBytes ((charsRead src).filterMap charVal) maxlen ∧
      (∀ cs, cs <+: charsRead src →
        let s := cs.foldl (decodeChar maxlen) ⟨[], 0, 0⟩
        s.bits < 8 ∧ s.bitval < 2 ^ s.bits ∧ ∀ val < 64, (s.bitval <<< 6) + val < 2 ^ 31) ∧
      ((src.takeWhile (· != 0)).length < 2 ^ 31 → charsRead src = src.takeWhile (· != 0)) := by
  refine ⟨?_, fun cs _ => ?_, charsRead_eq⟩
  · obtain ⟨full, rest, hbits, hrest, hout⟩ := base64Decode_eq src maxlen
    have hfull := bigEndian_eq hrest hbits
    rw [hout, decodedBytes, ← length_bigEndian, hfull]
  · obtain ⟨hbits, hbitval⟩ := decodeChars_bits maxlen cs
    refine ⟨hbits, hbitval, fun val hval => ?_⟩
    have hpow := Nat.pow_le_pow_right (n := 2) (by decide) (Nat.le_of_lt hbits)
    rw [Nat.shiftLeft_eq]
    omega

/-- A string of `2 ^ 31` characters has a negative length for the decoder, which writes only the
    `0` at the end. -/
theorem base64Decode_long :
    base64Decode (List.replicate (2 ^ 31) 0x41 ++ [0]) 2 ≠
      decodedBytes (((List.replicate (2 ^ 31) (0x41 : UInt8) ++ [0]).takeWhile (· != 0)).filterMap
        charVal) 2 := by
  have hstr : ∀ n : Nat, (List.replicate n (0x41 : UInt8) ++ [0]).takeWhile (· != 0) =
      List.replicate n 0x41 := fun n => by
    rw [List.takeWhile_append_of_pos fun c hc => by rw [List.eq_of_mem_replicate hc]; rfl]
    simp
  have hread : ∀ n : Nat, wrapS32 n < 0 →
      base64Decode (List.replicate n 0x41 ++ [0]) 2 = [0] := fun n hn => by
    rw [base64Decode, charsRead, hstr, List.length_replicate, Int.toNat_of_nonpos (by omega)]
    rfl
  have hneg : wrapS32 (2 ^ 31 : Nat) < 0 := by
    rw [wrapS32]
    omega
  have hvals : ∀ n : Nat, ((List.replicate n (0x41 : UInt8)).filterMap charVal).length = n := by
    intro n
    have hval : charVal 0x41 = some 0 := rfl
    rw [List.filterMap_replicate_of_some hval, List.length_replicate]
  intro h
  have hlen := congrArg List.length h
  rw [hread _ hneg, hstr, decodedBytes, List.length_append, List.length_take, length_bigEndian,
    hvals] at hlen
  simp at hlen

end XToolkits.Base64
