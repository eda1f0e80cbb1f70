import XToolkits.Base64.Encode

set_option autoImplicit false

/-! # The encoder and base64

`standardText` is the base64 text of a list of bytes, from the bits of the bytes alone. The encoder
writes the text of its own `sextets`, and two slips make these differ: a signed `char` is shifted
with its sign, which sets all the bits that the byte before gives to the sextet, and with one byte
left the byte behind the input is read. `base64Encode_standard_iff` says for which inputs neither
shows. -/

namespace XToolkits.Base64

variable {signed : Bool} {z : UInt8} {xs : List UInt8}

/-- The base64 text of a list of bytes: a character for every six of their bits, the last ones
    filled up with bits that are not set, and `=` up to the end of a group of four. -/
def standardText (xs : List UInt8) : List UInt8 :=
  (digitsOf 6 (bitString 8 (xs.map UInt8.toNat))).map sextetChar ++
    List.replicate ((3 - xs.length % 3) % 3) 0x3d

/-- `base64Encode` writes the base64 text in lines of 18 complete groups, and `*dlen` is its
    length. -/
def EncodesStandard (signed : Bool) (m : Mem UInt8) (inp : Int) (len : Nat) : Prop :=
  ∃ out, base64Encode signed m inp len = some out ∧
    out = inLines (len / 3) (standardText (m.read inp len)) ∧
    out.length = 4 * ((len + 2) / 3) + len / 3 / 18

/-! ## The bytes that are encoded well -/

/-- The bits of `a` in the second sextet are all set when `b` is negative. -/
def SecondStandard (signed : Bool) (a b : UInt8) : Prop :=
  signed ∧ 128 ≤ b.toNat → a.toNat % 4 = 3

/-- The bits of `b` in the third sextet are all set when `c` is negative. -/
def ThirdStandard (signed : Bool) (b c : UInt8) : Prop :=
  signed ∧ 128 ≤ c.toNat → b.toNat % 16 = 15

/-- All sextets are those of base64; `z` is the byte behind the input. -/
def BytesStandard (signed : Bool) (z : UInt8) : List UInt8 → Prop
  | [] => True
  | [_] => z.toNat < 16
  | [a, b] => SecondStandard signed a b
  | a :: b :: c :: xs =>
      (SecondStandard signed a b ∧ ThirdStandard signed b c) ∧ BytesStandard signed z xs

theorem secondStandard_iff (signed : Bool) (a b : UInt8) :
    SecondStandard signed a b ↔ secondSextet signed a b = secondSextet false a b := by
  simp only [SecondStandard, secondSextet, Bool.false_eq_true, false_and, if_false]
  split
  · case isTrue hneg => simp only [hneg, and_self, true_implies]; omega
  · case isFalse hpos => simp only [hpos, false_implies]

theorem thirdStandard_iff (signed : Bool) (b c : UInt8) :
    ThirdStandard signed b c ↔ thirdSextet signed b c = thirdSextet false b c := by
  simp only [ThirdStandard, thirdSextet, Bool.false_eq_true, false_and, if_false]
  split
  · case isTrue hneg => simp only [hneg, and_self, true_implies]; omega
  · case isFalse hpos => simp only [hpos, false_implies]

/-- The second sextet of a byte that is left alone. -/
theorem secondSextet_alone_iff (signed : Bool) (a z : UInt8) :
    z.toNat < 16 ↔ secondSextet signed a z = secondSextet false a 0 := by
  have hzero : (0 : UInt8).toNat = 0 := rfl
  simp only [secondSextet, Bool.false_eq_true, false_and, if_false, hzero]
  split <;> omega

theorem bytesStandard_iff (signed : Bool) (z : UInt8) (xs : List UInt8) :
    BytesStandard signed z xs ↔ sextets signed z xs = sextets false 0 xs := by
  fun_induction BytesStandard signed z xs with
  | case1 => simp [sextets]
  | case2 a => simp [sextets, ← secondSextet_alone_iff]
  | case3 a b => simp [sextets, ← secondStandard_iff]
  | case4 a b c xs ih =>
      simp [sextets, ← secondStandard_iff, ← thirdStandard_iff, ih, and_assoc]

/-! ## The text -/

/-- **The sextets with unsigned chars and a byte `0` behind the input are those of base64.** -/
theorem encodeText_standard (xs : List UInt8) : encodeText false 0 xs = standardText xs := by
  have hpad : ∃ k < 6, tailBits 0 (xs.length % 3) = List.replicate k false := by
    rcases show xs.length % 3 = 0 ∨ xs.length % 3 = 1 ∨ xs.length % 3 = 2 by omega with h | h | h
    · exact ⟨0, by decide, by rw [h]; rfl⟩
    · exact ⟨4, by decide, by rw [h]; decide⟩
    · exact ⟨2, by decide, by rw [h]; decide⟩
  obtain ⟨k, hk, htail⟩ := hpad
  have hbits := bitString_sextets 0 xs
  rw [htail] at hbits
  rw [encodeText, standardText, digitsOf_eq (sextets_lt false 0 xs) hk hbits]

/-- The characters of the table are different from each other and from a line end. -/
theorem idxOf_sextetChar : ∀ v < 64,
    base64Table.idxOf (sextetChar v) = v ∧ sextetChar v ≠ 0x0a := by
  decide +kernel

theorem map_sextetChar_inj {us vs : List Nat} (hus : ∀ v ∈ us, v < 64) (hvs : ∀ v ∈ vs, v < 64)
    (h : us.map sextetChar = vs.map sextetChar) : us = vs := by
  have hback : ∀ l : List Nat, (∀ v ∈ l, v < 64) →
      (l.map sextetChar).map (base64Table.idxOf ·) = l := fun l hl => by
    rw [List.map_map]
    exact (List.map_congr_left fun v hv => (idxOf_sextetChar v (hl v hv)).1).trans (List.map_id' l)
  rw [← hback us hus, h, hback vs hvs]

theorem lineEnd_not_mem_encodeText (signed : Bool) (z : UInt8) (xs : List UInt8) :
    0x0a ∉ encodeText signed z xs := by
  rw [encodeText, List.mem_append, List.mem_map]
  rintro (⟨v, hv, hend⟩ | hpad)
  · exact (idxOf_sextetChar v (sextets_lt signed z xs v hv)).2 hend
  · exact absurd (List.eq_of_mem_replicate hpad) (by decide)

/-- The text in lines tells the sextets. -/
theorem inLines_encodeText_iff (signed : Bool) (z : UInt8) (groups : Nat) (xs : List UInt8) :
    inLines groups (encodeText signed z xs) = inLines groups (standardText xs) ↔
      BytesStandard signed z xs := by
  rw [bytesStandard_iff, ← encodeText_standard]
  constructor
  · intro h
    have htext : encodeText signed z xs = encodeText false 0 xs := by
      rw [← filter_inLines groups (lineEnd_not_mem_encodeText signed z xs), h,
        filter_inLines groups (lineEnd_not_mem_encodeText false 0 xs)]
    exact map_sextetChar_inj (sextets_lt signed z xs) (sextets_lt false 0 xs)
      (List.append_cancel_right htext)
  · intro h
    rw [encodeText, encodeText, h]

/-! ## The encoder -/

/-- **When the encoder is base64.** For every input, every byte behind it, signed or unsigned
    chars: the output is the base64 text in lines exactly when its length fits in an `int` and the
    bytes are such that the slips do not show. -/
theorem base64Encode_standard_iff (signed : Bool) (m : Mem UInt8) (inp : Int) (len : Nat) :
    EncodesStandard signed m inp len ↔ 4 * ((len + 2) / 3) + len / 3 / 18 < 2 ^ 31 ∧
      BytesStandard signed (m (inp + len)) (m.read inp len) := by
  obtain ⟨out, hout, htext, -, hlen⟩ := base64Encode_eq signed m inp len
  rw [← inLines_encodeText_iff signed (m (inp + len)) (len / 3), ← htext, ← hlen, EncodesStandard,
    hout]
  constructor
  · rintro ⟨out', h, hstandard, -⟩
    split at h
    · case isTrue hfit => exact ⟨hfit, Option.some.inj h ▸ hstandard⟩
    · cases h
  · rintro ⟨hfit, hstandard⟩
    exact ⟨out, if_pos hfit, hstandard, hlen⟩

/-- The bytes `00 80 00` give `A4AA`, and their base64 text is `AIAA`. -/
theorem base64Encode_standard_sign :
    ¬ EncodesStandard true (Mem.write (fun _ => 0) 0 [0x00, 0x80, 0x00]) 0 3 := by
  rintro ⟨out, hout, hstandard, -⟩
  have hencode : base64Encode true (Mem.write (fun _ => 0) 0 [0x00, 0x80, 0x00]) 0 3 =
      some [0x41, 0x34, 0x41, 0x41] := by decide
  obtain rfl := Option.some.inj (hencode.symm.trans hout)
  exact absurd hstandard (by decide)

end XToolkits.Base64
