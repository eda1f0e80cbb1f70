import Mathlib.Data.List.Forall2
import XToolkits.Base64.Decode
import XToolkits.Base64.Encode

set_option autoImplicit false

/-! # Encoding and decoding

The decoder does not know the character `/` of the sextet `63`, and with signed chars the second and
the third sextet are not those of base64 when the byte of the low bits is negative.
`base64_roundTrip_iff` says exactly which bytes come back. A sextet that is lost shortens the output,
and the `0` that the decoder writes at the end can make up for one byte: then the last byte was `0`,
and going back from it no sextet can have been lost (`all_of_filter_marks`), except the one that is
made with the byte behind the input. -/

namespace XToolkits.Base64

variable {signed : Bool} {z : UInt8} {xs : List UInt8}

/-! ## The bytes that come back -/

/-- The second sextet is that of base64, and not `63`. -/
def SecondFits (signed : Bool) (a b : UInt8) : Prop :=
  if signed ∧ 128 ≤ b.toNat then a.toNat % 4 = 3 ∧ b.toNat < 240
  else ¬ (a.toNat % 4 = 3 ∧ 240 ≤ b.toNat)

/-- The third sextet is that of base64, and not `63`. -/
def ThirdFits (signed : Bool) (b c : UInt8) : Prop :=
  if signed ∧ 128 ≤ c.toNat then b.toNat % 16 = 15 ∧ c.toNat < 192
  else ¬ (b.toNat % 16 = 15 ∧ 192 ≤ c.toNat)

/-- All sextets are those of base64, as far as they are bits of the input, and none is `63`. The
    byte behind the input, `z`, is read when one byte is left behind the groups. -/
def BytesFit (signed : Bool) (z : UInt8) : List UInt8 → Prop
  | [] => True
  | [a] => a.toNat < 252 ∧ SecondFits signed a z
  | [a, b] => a.toNat < 252 ∧ SecondFits signed a b
  | a :: b :: c :: xs =>
      (a.toNat < 252 ∧ SecondFits signed a b ∧ ThirdFits signed b c ∧ c.toNat % 64 ≠ 63) ∧
        BytesFit signed z xs

/-- The last byte is `0`, alone behind groups that fit, and its second sextet is `63`. -/
def ZeroFits (signed : Bool) (z : UInt8) (xs : List UInt8) : Prop :=
  (signed = true ∧ 240 ≤ z.toNat) ∧ xs.length % 3 = 1 ∧ xs.getLast? = some 0 ∧
    BytesFit signed z xs.dropLast

/-- What `base64Encode` makes of the bytes, `base64Decode` gives back. -/
def RoundTrips (signed : Bool) (m : Mem UInt8) (inp : Int) (len maxlen : Nat) : Prop :=
  ∃ out, base64Encode signed m inp len = some out ∧
    m.read inp len <+: base64Decode (out ++ [0]) maxlen

/-! ## Sextets that fit -/

theorem secondFits_iff (signed : Bool) (a b : UInt8) :
    SecondFits signed a b ↔ secondSextet signed a b ≠ 63 ∧
      secondSextet signed a b / 16 = a.toNat % 4 := by
  have hb := UInt8.toNat_lt b
  rw [SecondFits, secondSextet]
  split <;> omega

theorem thirdFits_iff (signed : Bool) (b c : UInt8) :
    ThirdFits signed b c ↔ thirdSextet signed b c ≠ 63 ∧
      thirdSextet signed b c / 4 = b.toNat % 16 := by
  have hc := UInt8.toNat_lt c
  rw [ThirdFits, thirdSextet]
  split <;> omega

theorem second_mod (signed : Bool) (a b : UInt8) :
    secondSextet signed a b % 16 = b.toNat / 16 := by
  have hb := UInt8.toNat_lt b
  rw [secondSextet]
  split <;> omega

theorem third_mod (signed : Bool) (b c : UInt8) :
    thirdSextet signed b c % 4 = c.toNat / 64 := by
  have hc := UInt8.toNat_lt c
  rw [thirdSextet]
  split <;> omega

/-- Prefixes, part by part. -/
theorem append_prefix_append {α : Type} {u u' v v' : List α} (h : u.length = u'.length) :
    u ++ v <+: u' ++ v' ↔ u = u' ∧ v <+: v' := by
  constructor
  · rintro ⟨w, heq⟩
    rw [List.append_assoc] at heq
    obtain ⟨hu, hv⟩ := List.append_inj heq h
    exact ⟨hu, w, hv⟩
  · rintro ⟨rfl, hv⟩
    exact (List.prefix_append_right_inj u).2 hv

theorem bitsOf_eq_iff {w m n : Nat} (hm : m < 2 ^ w) (hn : n < 2 ^ w) :
    bitsOf w m = bitsOf w n ↔ m = n :=
  ⟨bitsOf_inj hm hn, fun h => by rw [h]⟩

/-- The bits of the second sextet, those of `a` first. -/
theorem bitsOf_secondSextet (signed : Bool) (a b : UInt8) : bitsOf 6 (secondSextet signed a b) =
    bitsOf 2 (secondSextet signed a b / 16) ++ bitsOf 4 (b.toNat / 16) := by
  rw [← second_mod signed a b]
  exact bitsOf_split 2 4 _

theorem bitsOf_thirdSextet (signed : Bool) (b c : UInt8) : bitsOf 6 (thirdSextet signed b c) =
    bitsOf 4 (thirdSextet signed b c / 4) ++ bitsOf 2 (c.toNat / 64) := by
  rw [← third_mod signed b c]
  exact bitsOf_split 4 2 _

/-- **The bytes fit** exactly when no sextet is `63` and the sextets begin with the bits of the
    bytes. -/
theorem bytesFit_iff (signed : Bool) (z : UInt8) (xs : List UInt8) :
    BytesFit signed z xs ↔ (∀ v ∈ sextets signed z xs, v ≠ 63) ∧
      bitString 8 (xs.map UInt8.toNat) <+: bitString 6 (sextets signed z xs) := by
  have hfirst : ∀ a : UInt8, a.toNat < 252 ↔ a.toNat / 4 ≠ 63 := fun a => by
    have := UInt8.toNat_lt a
    omega
  have hhigh : ∀ a b : UInt8, bitsOf 2 (a.toNat % 4) = bitsOf 2 (secondSextet signed a b / 16) ↔
      secondSextet signed a b / 16 = a.toNat % 4 := fun a b => by
    have := secondSextet_lt signed a b
    rw [bitsOf_eq_iff (w := 2) (by omega) (by omega), eq_comm]
  have hhigh' : ∀ b c : UInt8, bitsOf 4 (b.toNat % 16) = bitsOf 4 (thirdSextet signed b c / 4) ↔
      thirdSextet signed b c / 4 = b.toNat % 16 := fun b c => by
    have := thirdSextet_lt signed b c
    rw [bitsOf_eq_iff (w := 4) (by omega) (by omega), eq_comm]
  fun_induction BytesFit signed z xs with
  | case1 => simp [sextets]
  | case2 a =>
      have hbits : bitString 8 ([a].map UInt8.toNat) <+: bitString 6 (sextets signed z [a]) ↔
          secondSextet signed a z / 16 = a.toNat % 4 := by
        simp only [sextets, List.map_cons, List.map_nil, bitString_cons, bitString_nil,
          List.append_nil, bitsOf_first a, bitsOf_secondSextet, List.prefix_append_right_inj]
        rw [← List.append_nil (bitsOf 2 (a.toNat % 4)), append_prefix_append (by simp), hhigh]
        simp
      rw [hbits, hfirst, secondFits_iff]
      simp [sextets, and_assoc]
  | case3 a b =>
      have hbits : bitString 8 ([a, b].map UInt8.toNat) <+: bitString 6 (sextets signed z [a, b]) ↔
          secondSextet signed a b / 16 = a.toNat % 4 := by
        simp only [sextets, List.map_cons, List.map_nil, bitString_cons, bitString_nil,
          List.append_nil, bitsOf_first a, bitsOf_middle b, bitsOf_secondSextet, bitsOf_alone,
          List.append_assoc, List.prefix_append_right_inj]
        rw [append_prefix_append (by simp), hhigh]
        simp
      have halone : b.toNat % 16 * 4 ≠ 63 := by omega
      rw [hbits, hfirst, secondFits_iff]
      simp [sextets, and_assoc, halone]
  | case4 a b c xs ih =>
      have hbits : bitString 8 ((a :: b :: c :: xs).map UInt8.toNat) <+:
          bitString 6 (sextets signed z (a :: b :: c :: xs)) ↔
          secondSextet signed a b / 16 = a.toNat % 4 ∧ thirdSextet signed b c / 4 = b.toNat % 16 ∧
            bitString 8 (xs.map UInt8.toNat) <+: bitString 6 (sextets signed z xs) := by
        simp only [sextets, List.map_cons, bitString_cons, bitsOf_first a, bitsOf_middle b,
          bitsOf_last c, bitsOf_secondSextet, bitsOf_thirdSextet, List.append_assoc,
          List.prefix_append_right_inj]
        rw [append_prefix_append (by simp), hhigh, List.prefix_append_right_inj,
          append_prefix_append (by simp), hhigh', List.prefix_append_right_inj,
          List.prefix_append_right_inj]
      rw [hbits, hfirst, secondFits_iff, thirdFits_iff]
      simp only [ih, sextets, List.forall_mem_cons]
      constructor
      · rintro ⟨⟨ha, ⟨hb, hab⟩, ⟨hc, hbc⟩, hd⟩, hxs, hpre⟩
        exact ⟨⟨ha, hb, hc, hd, hxs⟩, hab, hbc, hpre⟩
      · rintro ⟨⟨ha, hb, hc, hd, hxs⟩, hab, hbc, hpre⟩
        exact ⟨⟨ha, ⟨hb, hab⟩, ⟨hc, hbc⟩, hd⟩, hxs, hpre⟩

/-! ## Bytes that are decoded -/

theorem map_toNat_inj {xs ys : List UInt8} (h : xs.map UInt8.toNat = ys.map UInt8.toNat) : xs = ys :=
  List.map_injective_iff.2 (fun _ _ => UInt8.toNat_inj.1) h

/-- As many bytes with the same bits. -/
theorem eq_of_prefix_bits {xs ys : List UInt8} {rest : List Bool} (hlen : xs.length = ys.length)
    (h : bitString 8 (xs.map UInt8.toNat) <+: bitString 8 (ys.map UInt8.toNat) ++ rest) : xs = ys := by
  have hlt : ∀ l : List UInt8, ∀ n ∈ l.map UInt8.toNat, n < 2 ^ 8 := fun l n hn => by
    obtain ⟨c, -, rfl⟩ := List.mem_map.1 hn
    exact UInt8.toNat_lt c
  obtain ⟨w, hw⟩ := h
  have hbits := (List.append_inj hw (by simp [hlen])).1
  have hpre := prefix_of_prefix_bits (by decide) (hlt xs) (hlt ys) ⟨[], by simpa using hbits⟩
  exact map_toNat_inj (hpre.eq_of_length (by simpa using hlen))

theorem decoded_prefix_iff {xs full : List UInt8} {maxlen : Nat} (hfull : full.length ≤ xs.length)
    (hmax : xs.length ≤ maxlen) :
    xs <+: full.take maxlen ++ (if full.length < maxlen then [0] else []) ↔
      xs = full ∨ xs = full ++ [0] := by
  have heq : xs <+: full ↔ xs = full :=
    ⟨fun h => h.eq_of_length (Nat.le_antisymm h.length_le hfull), fun h => h ▸ List.prefix_refl xs⟩
  rw [List.take_of_length_le (Nat.le_trans hfull hmax)]
  split
  · rw [List.prefix_concat_iff, heq, or_comm]
  · case isFalse hlen =>
      rw [List.append_nil, heq, or_iff_left]
      rintro rfl
      rw [List.length_append, List.length_singleton] at hmax
      omega

/-! ## Zeros at the end -/

theorem secondSextet_zero {a b : UInt8} (h : secondSextet false a b = 0) :
    secondSextet signed a b = 0 := by
  have hb : b.toNat / 16 = 0 := by
    simp only [secondSextet, Bool.false_eq_true, false_and, if_false] at h
    omega
  rw [← h, secondSextet, secondSextet, if_neg (by omega), if_neg (by simp)]

theorem thirdSextet_zero {b c : UInt8} (h : thirdSextet false b c = 0) :
    thirdSextet signed b c = 0 := by
  have hc : c.toNat / 64 = 0 := by
    simp only [thirdSextet, Bool.false_eq_true, false_and, if_false] at h
    omega
  rw [← h, thirdSextet, thirdSextet, if_neg (by omega), if_neg (by simp)]

theorem forall₂_sextets (signed : Bool) (z : UInt8) (xs : List UInt8) :
    List.Forall₂ (fun t v => t = 0 → v = 0) (sextets false z xs) (sextets signed z xs) := by
  fun_induction sextets signed z xs with
  | case1 => exact .nil
  | case2 a => exact .cons id (.cons secondSextet_zero .nil)
  | case3 a b => exact .cons id (.cons secondSextet_zero (.cons id .nil))
  | case4 a b c xs ih =>
      exact .cons id (.cons secondSextet_zero (.cons thirdSextet_zero (.cons id ih)))

/-- A sextet of base64 that is `0` is written as `0`. -/
theorem sextets_zero (signed : Bool) {d : Nat} (h : (sextets false z xs)[d]? = some 0) :
    (sextets signed z xs)[d]? = some 0 := by
  obtain ⟨hd, hzero⟩ := List.getElem?_eq_some_iff.1 h
  have hd' : d < (sextets signed z xs).length := by
    rwa [length_sextets] at hd ⊢
  have hzero' : (sextets signed z xs)[d] = 0 := (forall₂_sextets signed z xs).get hd hd' hzero
  rw [List.getElem?_eq_getElem hd', hzero']

variable {full : List UInt8} {rest : List Bool} {d : Nat}

/-- The bits behind `full`, when a byte `0` follows. -/
theorem bitString_behind {i : Nat} (hi : 8 * full.length ≤ i)
    (hend : i < 8 * (full.length + 1) ∨ (full.length + 1) % 3 ≠ 1) :
    (bitString 6 (sextets false z (full ++ [0])))[i]? ≠ some true := by
  rw [bitString_sextets, List.map_append, bitString_append, List.append_assoc,
    List.getElem?_append_right (by simpa using hi), List.length_append, List.length_singleton]
  intro h
  have hzero : bitString 8 ([0].map UInt8.toNat) = bitsOf 8 0 := rfl
  rw [hzero, length_bitString, List.length_map] at h
  rcases Nat.lt_or_ge i (8 * (full.length + 1)) with hlt | hge
  · rw [List.getElem?_append_left (by rw [length_bitsOf]; omega)] at h
    exact true_not_mem_bitsOf_zero 8 (List.mem_of_getElem? h)
  · have htail : true ∉ tailBits z ((full.length + 1) % 3) := by
      rcases show (full.length + 1) % 3 = 0 ∨ (full.length + 1) % 3 = 2 by omega with hr | hr
      · rw [hr]
        exact List.not_mem_nil
      · rw [hr]
        exact true_not_mem_bitsOf_zero 2
    rcases List.mem_append.1 (List.mem_of_getElem? h) with hmem | hmem
    · exact true_not_mem_bitsOf_zero 8 hmem
    · exact htail hmem

/-! ## Sextets that are lost

`full` are the bytes made of the sextets that are left, `rest` the bits behind them. -/

section Lost

variable (hbits : bitString 6 ((sextets signed z xs).filter (· != 63)) =
    bitString 8 (full.map UInt8.toNat) ++ rest) (hrest : rest.length < 8)
include hbits

/-- A sextet `0` that is left stands where a sextet is `0`, when the last byte was `0`. -/
theorem zero_of_left (hxs : xs = full ++ [0])
    (h : ((sextets signed z xs).filter (· != 63))[d]? = some 0)
    (hlost : ((sextets signed z xs).filter (· != 63)).length < (sextets signed z xs).length) :
    (sextets signed z xs)[d]? = some 0 := by
  subst hxs
  have hd := (List.getElem?_eq_some_iff.1 h).1
  have hV := length_sextets signed z (full ++ [0])
  have hT := length_sextets false z (full ++ [0])
  rw [List.length_append, List.length_singleton] at hV hT
  have hlt : d < (sextets false z (full ++ [0])).length := by omega
  refine sextets_zero signed ?_
  rw [List.getElem?_eq_getElem hlt]
  have hzero := eq_zero_of_bitString (w := 6) (List.getElem?_eq_getElem hlt)
    (sextets_lt false z _ _ (List.getElem_mem hlt)) fun j hj => ?_
  · rw [hzero]
  · rcases Nat.lt_or_ge (6 * d + j) (8 * full.length) with hin | hout
    · have hleft : (bitString 6 ((sextets signed z (full ++ [0])).filter (· != 63)))[6 * d + j]? =
          some false := by
        rw [getElem?_bitString hj, h, Option.map_some, Nat.zero_testBit]
      rw [hbits, List.getElem?_append_left (by simpa using hin)] at hleft
      rw [bitString_sextets, List.map_append, bitString_append, List.append_assoc,
        List.getElem?_append_left (by simpa using hin), hleft]
      decide
    · exact bitString_behind hout (Or.inl (by omega))

include hrest

/-- The sextets that are left, and the bytes made of them. -/
theorem length_left : 8 * full.length ≤ 6 * ((sextets signed z xs).filter (· != 63)).length ∧
    6 * ((sextets signed z xs).filter (· != 63)).length < 8 * (full.length + 1) := by
  have hlen := congrArg List.length hbits
  rw [length_bitString, List.length_append, length_bitString, List.length_map] at hlen
  omega

/-- **Only the sextet made with the byte behind the input can be lost** without changing the bytes
    that come back. -/
theorem zeroFits_of_lost (hxs : xs = full ++ [0]) : ZeroFits signed z xs := by
  obtain ⟨-, hleft⟩ := length_left hbits hrest
  have hlost : ((sextets signed z xs).filter (· != 63)).length < (sextets signed z xs).length := by
    rw [length_sextets, hxs, List.length_append, List.length_singleton] at *
    omega
  have hzero : ∀ i < (sextets signed z xs).length, 8 * full.length ≤ 6 * i →
      6 * (i + 1) ≤ 8 * (full.length + 1) ∨ (full.length + 1) % 3 ≠ 1 →
      (sextets signed z xs)[i]? = some 0 := fun i hi hbehind hend => by
    have hi' : i < (sextets false z xs).length := by rwa [length_sextets] at hi ⊢
    refine sextets_zero signed ?_
    rw [List.getElem?_eq_getElem hi', eq_zero_of_bitString (w := 6) (List.getElem?_eq_getElem hi')
      (sextets_lt false z xs _ (List.getElem_mem hi'))]
    intro j hj
    subst hxs
    exact bitString_behind (by omega) (hend.imp_left fun h => by omega)
  have hV := length_sextets signed z xs
  rw [hxs, List.length_append, List.length_singleton, ← hxs] at hV
  by_cases hone : (full.length + 1) % 3 = 1
  · -- the last sextet is made with the byte behind the input, the one before it is `0`
    obtain ⟨n, hn⟩ : ∃ n, full.length = 3 * n := ⟨full.length / 3, by omega⟩
    have hsplit : sextets signed z xs = sextets signed z full ++ [0, secondSextet signed 0 z] := by
      rw [hxs, sextets_append hn]
      rfl
    have hlen : (sextets signed z full).length = 4 * n := by
      rw [length_sextets, hn]
      omega
    have hall := all_of_filter_marks (p := (· != 63)) (z := 0) rfl
      (fun d h => zero_of_left hbits hxs h hlost)
      (hzero (4 * n) (by omega) (by omega) (Or.inl (by omega)))
    rw [hsplit, ← hlen, List.take_left] at hall
    have hkeep : (sextets signed z full).filter (· != 63) = sextets signed z full :=
      List.filter_eq_self.2 hall
    have hsecond : secondSextet signed 0 z = 63 := by
      by_contra hne
      rw [hsplit, List.filter_append, hkeep] at hlost
      simp [hne] at hlost
    have hfits : BytesFit signed z full := by
      rw [hsplit, List.filter_append, hkeep, bitString_append] at hbits
      have heq := (List.append_inj hbits (by simp [hlen, hn]; omega)).1
      exact (bytesFit_iff signed z full).2 ⟨fun v hv => by simpa using hall v hv,
        [], by rw [heq, List.append_nil]⟩
    have hz : signed = true ∧ 240 ≤ z.toNat := by
      have hlt := UInt8.toNat_lt z
      rw [secondSextet] at hsecond
      split at hsecond
      · case isTrue h => exact ⟨h.1, by omega⟩
      · have : (0 : UInt8).toNat = 0 := rfl
        omega
    subst hxs
    exact ⟨hz, by simpa using hone, by simp, by simpa using hfits⟩
  · -- the last sextet is `0`, so none before it is lost
    let i := (sextets signed z xs).length - 1
    have hi : (sextets signed z xs)[i]? = some 0 := hzero i (by omega) (by omega) (Or.inr hone)
    have hall := all_of_filter_marks (p := (· != 63)) (z := 0) rfl
      (fun d h => zero_of_left hbits hxs h hlost) hi
    have hend : (sextets signed z xs).drop (i + 1) = [] := List.drop_eq_nil_of_le (by omega)
    rw [eq_take_append_of_getElem? hi, List.filter_append, List.filter_eq_self.2 hall, hend] at hlost
    exact absurd hlost (Nat.lt_irrefl _)

/-- **The bytes that come back from the sextets**, when `full` are the bytes made of those that are
    left. -/
theorem left_iff : xs = full ∨ xs = full ++ [0] ↔ BytesFit signed z xs ∨ ZeroFits signed z xs := by
  obtain ⟨hle, hlt⟩ := length_left hbits hrest
  have hV := length_sextets signed z xs
  constructor
  · rintro (rfl | h)
    · have hkeep : (sextets signed z xs).filter (· != 63) = sextets signed z xs :=
        List.filter_eq_self.2 (List.length_filter_eq_length_iff.1 (Nat.le_antisymm
          (List.length_filter_le _ _) (by omega)))
      rw [hkeep] at hbits
      refine Or.inl ((bytesFit_iff signed z xs).2 ⟨fun v hv => ?_, ⟨rest, hbits.symm⟩⟩)
      simpa using List.filter_eq_self.1 hkeep v hv
    · exact Or.inr (zeroFits_of_lost hbits hrest h)
  · rintro (h | ⟨⟨rfl, hz⟩, hone, hlast, h⟩)
    · obtain ⟨hall, hpre⟩ := (bytesFit_iff signed z xs).1 h
      have hkeep : (sextets signed z xs).filter (· != 63) = sextets signed z xs :=
        List.filter_eq_self.2 fun v hv => by simpa using hall v hv
      rw [hkeep] at hbits hle hlt
      exact Or.inl (eq_of_prefix_bits (by omega) (hbits ▸ hpre))
    · obtain ⟨ys, rfl⟩ := List.getLast?_eq_some_iff.1 hlast
      rw [List.dropLast_concat] at h
      rw [List.length_append, List.length_singleton] at hone
      obtain ⟨hall, hpre⟩ := (bytesFit_iff true z ys).1 h
      obtain ⟨n, hn⟩ : ∃ n, ys.length = 3 * n := ⟨ys.length / 3, by omega⟩
      have hsecond : secondSextet true 0 z = 63 := by
        have := UInt8.toNat_lt z
        rw [secondSextet, if_pos ⟨rfl, by omega⟩]
        omega
      have hkeep : (sextets true z (ys ++ [0])).filter (· != 63) = sextets true z ys ++ [0] := by
        have hys : (sextets true z ys).filter (· != 63) = sextets true z ys :=
          List.filter_eq_self.2 fun v hv => by simpa using hall v hv
        rw [sextets_append hn, List.filter_append, hys]
        simp [sextets, hsecond]
      have hlen := length_sextets true z ys
      rw [hkeep] at hbits hle hlt
      rw [List.length_append, List.length_singleton] at hle hlt
      have hpre' : bitString 8 (ys.map UInt8.toNat) <+: bitString 8 (full.map UInt8.toNat) ++ rest := by
        rw [← hbits, bitString_append]
        exact hpre.trans (List.prefix_append ..)
      exact Or.inr (by rw [eq_of_prefix_bits (by omega) hpre'])

end Lost

/-! ## The round trip -/

/-- **Which bytes come back.** For every input, every byte behind it, signed or unsigned chars and
    every buffer with room for the input: the bytes come back from the encoder and the decoder
    exactly when the length of the encoding fits in an `int` and all sextets are those of base64 and
    none is `63`, or only the last sextet is `63`, behind a last byte `0`. -/
theorem base64_roundTrip_iff (signed : Bool) (m : Mem UInt8) (inp : Int) (len maxlen : Nat)
    (hmax : len ≤ maxlen) :
    RoundTrips signed m inp len maxlen ↔
      4 * ((len + 2) / 3) + len / 3 / 18 < 2 ^ 31 ∧
        (BytesFit signed (m (inp + len)) (m.read inp len) ∨
          ZeroFits signed (m (inp + len)) (m.read inp len)) := by
  obtain ⟨out, hout, -, hwritten, hlen⟩ := base64Encode_eq signed m inp len
  have htext : (out ++ [0]).takeWhile (· != 0) = out := by
    rw [List.takeWhile_append_of_pos fun c hc => by
      simpa using fun h : c = 0 => hwritten.text (h ▸ hc)]
    simp
  have hback (hfit : out.length < 2 ^ 31) : m.read inp len <+: base64Decode (out ++ [0]) maxlen ↔
      BytesFit signed (m (inp + len)) (m.read inp len) ∨
        ZeroFits signed (m (inp + len)) (m.read inp len) := by
    obtain ⟨full, rest, hbits, hrest, hdecode⟩ := base64Decode_eq (out ++ [0]) maxlen
    rw [charsRead_eq (by rwa [htext]), htext, hwritten.values] at hbits
    have hfull : full.length ≤ (m.read inp len).length := by
      have hle := (length_left hbits hrest).1
      have hfilter :=
        List.length_filter_le (· != 63) (sextets signed (m (inp + len)) (m.read inp len))
      rw [length_sextets] at hfilter
      omega
    rw [hdecode, decoded_prefix_iff hfull (by rwa [Mem.length_read]), left_iff hbits hrest]
  rw [← hlen, RoundTrips, hout]
  constructor
  · rintro ⟨out', h, hpre⟩
    split at h
    · case isTrue hfit => exact ⟨hfit, (hback hfit).1 (Option.some.inj h ▸ hpre)⟩
    · cases h
  · rintro ⟨hfit, hpre⟩
    exact ⟨out, if_pos hfit, (hback hfit).2 hpre⟩

/-- Three bytes that come back. -/
theorem base64_roundTrip_man :
    RoundTrips true (Mem.write (fun _ => 0) 0 [0x4d, 0x61, 0x6e]) 0 3 3 := by
  refine (base64_roundTrip_iff true _ 0 3 3 (Nat.le_refl 3)).2 ⟨by decide, Or.inl ?_⟩
  exact ⟨⟨by decide, by unfold SecondFits; decide, by unfold ThirdFits; decide, by decide⟩, trivial⟩

/-- The byte `FF` does not come back: its first character is the `/` that the decoder skips. -/
theorem base64_roundTrip_slash : ¬ RoundTrips true (Mem.write (fun _ => 0) 0 [0xff]) 0 1 1 := by
  rintro ⟨out, hout, hpre⟩
  have hencode : base64Encode true (Mem.write (fun _ => 0) 0 [0xff]) 0 1 =
      some [0x2f, 0x77, 0x3d, 0x3d] := by decide
  obtain rfl := Option.some.inj (hencode.symm.trans hout)
  exact absurd hpre (by decide)

end XToolkits.Base64
