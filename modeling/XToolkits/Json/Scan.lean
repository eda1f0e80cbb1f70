import Mathlib.Data.List.TakeWhile
import Mathlib.Data.Bool.AllAny
import XToolkits.Json.Grammar

set_option autoImplicit false

/-! # What the parser makes of the tokens

White space is skipped, a number gives its value, and a string the bytes that its escapes stand for.
Each lemma says so in front of whatever else the text has. -/

namespace XToolkits.Json

variable {α β : Type} {pow : Int → Double} {item : Fields} {s e w rest str : List UInt8} {b : UInt8}

theorem ok_bind (a : α) (f : α → Except Stop β) : (Except.ok a >>= f) = f a := rfl

theorem map_ok (f : α → β) (a : α) : (Except.ok a : Except Stop α).map f = .ok (f a) := rfl

/-! ## White space and words -/

theorem skip_cons (h : ¬ (b ≠ 0 ∧ b ≤ 32)) (t : Text) : skip (b :: t) = .ok (b :: t) := by
  rw [skip, if_neg h]

theorem skip_append (hw : Blank w) (t : Text) : skip (w ++ t) = skip t := by
  induction w with
  | nil => rfl
  | cons b w ih =>
      rw [List.cons_append, skip, if_pos (hw b (List.mem_cons_self ..))]
      exact ih fun c hc => hw c (List.mem_cons_of_mem b hc)

theorem startsWith_append (s : CStr) (t : Text) : startsWith s (s ++ t) = .ok true := by
  induction s with
  | nil => rw [startsWith]
  | cons c s ih => rw [List.cons_append, startsWith, if_pos rfl, ih]

theorem startsWith_of_ne {c : UInt8} (h : c ≠ b) (s : CStr) (t : Text) :
    startsWith (c :: s) (b :: t) = .ok false := by
  rw [startsWith, if_neg h]

/-! ## Numbers -/

/-- The text does not go on with a digit. -/
def NoDigit (t : Text) : Prop := ∃ b t', t = b :: t' ∧ ¬ IsDigit b

/-- The text does not go on with anything that a number could go on with. -/
def NumberEnds (t : Text) : Prop := ∃ b t', t = b :: t' ∧ ¬ IsDigit b ∧ b ≠ 46 ∧ b ≠ 101 ∧ b ≠ 69

theorem NumberEnds.noDigit (h : NumberEnds rest) : NoDigit rest := by
  obtain ⟨b, t, rfl, hb, -⟩ := h
  exact ⟨b, t, rfl, hb⟩

theorem takeDigits_append {ds : List UInt8} {t : Text} (hds : ∀ b ∈ ds, IsDigit b) (ht : NoDigit t) :
    takeDigits (ds ++ t) = .ok (ds, t) := by
  induction ds with
  | nil =>
      obtain ⟨b, t, rfl, hb⟩ := ht
      rw [List.nil_append, takeDigits, if_neg hb]
  | cons d ds ih =>
      rw [List.cons_append, takeDigits, if_pos (hds d (List.mem_cons_self ..)),
        ih fun b hb => hds b (List.mem_cons_of_mem d hb), ok_bind]

/-- The exponent of a number, if it has one. -/
def expText (exp : Option Exponent) : List UInt8 := exp.elim [] Exponent.text

/-- The fraction of a number, if it has one. -/
def fracText (frac : List UInt8) : List UInt8 := if frac = [] then [] else 46 :: frac

theorem noDigit_expText {exp : Option Exponent} (hexp : ∀ e ∈ exp, e.Valid) (h : NumberEnds rest) :
    ∃ b t, expText exp ++ rest = b :: t ∧ ¬ IsDigit b ∧ b ≠ 46 := by
  cases exp with
  | none =>
      obtain ⟨b, t, rfl, hb, hpoint, -⟩ := h
      exact ⟨b, t, rfl, hb, hpoint⟩
  | some e =>
      refine ⟨e.marker, _, rfl, ?_⟩
      rcases (hexp e rfl).marker with hm | hm <;> rw [hm] <;> decide

theorem noDigit_fracText (frac : List UInt8) {t : Text}
    (ht : ∃ b t', t = b :: t' ∧ ¬ IsDigit b ∧ b ≠ 46) : NoDigit (fracText frac ++ t) := by
  rw [fracText]
  split
  · obtain ⟨b, t', rfl, hb, -⟩ := ht
    exact ⟨b, t', rfl, hb⟩
  · exact ⟨46, _, rfl, by decide⟩

theorem takeFrac_append {frac : List UInt8} {t : Text} (hfrac : ∀ b ∈ frac, IsDigit b)
    (ht : ∃ b t', t = b :: t' ∧ ¬ IsDigit b ∧ b ≠ 46) :
    takeFrac (fracText frac ++ t) = .ok (frac, t) := by
  cases frac with
  | nil =>
      obtain ⟨b, t', rfl, -, hb⟩ := ht
      simp only [fracText, if_true, List.nil_append, takeFrac, if_neg hb]
  | cons d ds =>
      have hdigit : NoDigit t := by
        obtain ⟨b, t', rfl, hb, -⟩ := ht
        exact ⟨b, t', rfl, hb⟩
      have htake := takeDigits_append hfrac hdigit
      simp only [fracText, if_neg (List.cons_ne_nil d ds), List.cons_append, takeFrac, if_true,
        if_pos (hfrac d (List.mem_cons_self ..))] at htake ⊢
      exact htake

theorem takeExp_append {exp : Option Exponent} (hexp : ∀ e ∈ exp, e.Valid) (h : NumberEnds rest) :
    takeExp (expText exp ++ rest) = .ok (exp.elim 0 Exponent.value, rest) := by
  cases exp with
  | none =>
      obtain ⟨b, t, rfl, -, -, he, hE⟩ := h
      rw [expText, Option.elim_none, List.nil_append, takeExp, if_neg (by rintro (rfl | rfl) <;> simp_all)]
      rfl
  | some e =>
      obtain ⟨hmarker, hdigits, hne⟩ := hexp e rfl
      obtain ⟨marker, negative, ds⟩ := e
      have htake : takeDigits (ds ++ rest) = .ok (ds, rest) := takeDigits_append hdigits h.noDigit
      rcases negative with - | - | -
      · -- a sign is not a digit
        obtain ⟨d, ds, rfl⟩ := List.exists_cons_of_ne_nil hne
        have hd := hdigits d (List.mem_cons_self ..)
        have hplus : d ≠ 43 := by rintro rfl; exact absurd hd (by decide)
        have hminus : d ≠ 45 := by rintro rfl; exact absurd hd (by decide)
        simp only [expText, Option.elim_some, Exponent.text, List.cons_append, List.nil_append]
          at htake ⊢
        simp only [takeExp, if_pos hmarker, skipByte, if_neg hplus, if_neg hminus, ok_bind, htake,
          Bool.false_eq_true, if_false]
        rfl
      · simp only [expText, Option.elim_some, Exponent.text, List.cons_append, List.nil_append,
          takeExp, if_pos hmarker, skipByte, if_true, ok_bind, htake]
        rfl
      · have hsign : (45 : UInt8) ≠ 43 := by decide
        simp only [expText, Option.elim_some, Exponent.text, List.cons_append, List.nil_append,
          takeExp, if_pos hmarker, skipByte, if_neg hsign, if_true, Bool.false_eq_true, if_false,
          ok_bind, htake]
        rfl

/-- The digits in front of the point, with the `0` that is skipped or without. -/
theorem takeInt_append {int t : List UInt8} (hint : int = [48] ∨ ∃ b ds, int = b :: ds ∧ 49 ≤ b)
    (hdigits : ∀ b ∈ int, IsDigit b) (ht : NoDigit t) :
    ∃ zero ds t', skipByte 48 (int ++ t) = .ok (zero, t') ∧ takeInt t' = .ok (ds, t) ∧
      accDigits (.ofInt 0) int = accDigits (.ofInt 0) ds := by
  rcases hint with rfl | ⟨b, ds, rfl, hb⟩
  · obtain ⟨b, t, rfl, hb⟩ := ht
    refine ⟨true, [], b :: t, by rw [List.cons_append, skipByte, if_pos rfl]; rfl, ?_, ?_⟩
    · rw [takeInt, if_neg fun h => hb ⟨UInt8.le_trans (by decide) h.1, h.2⟩]
    · exact accDigits_ofInt (n := 0) (by decide)
  · have hne : b ≠ 48 := by rintro rfl; exact absurd hb (by decide)
    have hb9 := (hdigits b (List.mem_cons_self ..)).2
    refine ⟨false, b :: ds, b :: ds ++ t, ?_, ?_, rfl⟩
    · rw [List.cons_append, skipByte, if_neg hne]
    · rw [List.cons_append, takeInt, if_pos ⟨hb, hb9⟩, ← List.cons_append,
        takeDigits_append hdigits ht]

/-- **A number is parsed into its value.** -/
theorem parseNumber_append {t : NumberText} (ht : t.Valid) (h : NumberEnds rest) :
    parseNumber pow item (t.text ++ rest) =
      .ok ({ item with valuedouble := t.value pow, valueint := (t.value pow).toInt, type := cJSONNumber },
        rest) := by
  have hexp := noDigit_expText ht.exp h
  have hfrac := noDigit_fracText t.frac hexp
  obtain ⟨zero, ds, t', hzero, hint, hacc⟩ := takeInt_append ht.int
    (fun b hb => ht.digits b (List.mem_append_left _ hb)) hfrac
  have hfrac' := takeFrac_append (fun b hb => ht.digits b (List.mem_append_right _ hb)) hexp
  have hexp' := takeExp_append ht.exp h
  have hsign : skipByte 45 (t.text ++ rest) =
      .ok (t.negative, t.int ++ (fracText t.frac ++ (expText t.exp ++ rest))) := by
    simp only [NumberText.text, List.append_assoc]
    cases t.negative with
    | true => rfl
    | false =>
        have hdigit : ∃ b ds, t.int = b :: ds ∧ IsDigit b := by
          rcases ht.int with h48 | ⟨b, ds, hb, -⟩
          · exact ⟨48, [], h48, by decide⟩
          · exact ⟨b, ds, hb, ht.digits b (by rw [hb]; exact List.mem_cons_self ..)⟩
        obtain ⟨b, ds, hb, hdigit⟩ := hdigit
        have hne : b ≠ 45 := by rintro rfl; exact absurd hdigit (by decide)
        rw [if_neg Bool.false_ne_true, List.nil_append, hb, List.cons_append, skipByte, if_neg hne]
        rfl
  have hvalue : accDigits (.ofInt 0) (ds ++ t.frac) = accDigits (.ofInt 0) (t.int ++ t.frac) := by
    rw [accDigits, accDigits, List.foldl_append, List.foldl_append]
    exact congrArg (accDigits · t.frac) hacc.symm
  simp only [parseNumber, hsign, ok_bind, hzero, hint, hfrac', hexp', hvalue, NumberText.value]

/-! ## Strings -/

/-- A byte behind the first one has the low six bits. -/
theorem utf8_byte (uc : Nat) :
    UInt8.ofNat ((uc ||| 0x80) &&& 0xBF) = UInt8.ofNat (uc % 64 + 128) := by
  have hbyte : ∀ m < 2 ^ 8, (m ||| 0x80) &&& 0xBF = m % 64 + 128 := by decide +kernel
  have hmod : (uc ||| 0x80) &&& 0xBF = ((uc % 2 ^ 8) ||| 0x80) &&& 0xBF := by
    refine Nat.eq_of_testBit_eq fun i => ?_
    simp only [Nat.testBit_and, Nat.testBit_or, Nat.testBit_mod_two_pow]
    by_cases hi : i < 8
    · simp [hi]
    · have hmask : Nat.testBit 0xBF i = false := Nat.testBit_lt_two_pow
        (Nat.lt_of_lt_of_le (by decide : 0xBF < 2 ^ 8) (Nat.pow_le_pow_right (by decide) (by omega)))
      simp [hmask]
  rw [hmod, hbyte _ (Nat.mod_lt _ (by decide))]
  congr 2
  omega

/-- **The bytes of a character are its UTF-8.** -/
theorem utf8_eq (c : Char) : utf8 c.toNat = String.utf8EncodeChar c := by
  have hc : c.toNat < 0x110000 := by
    rcases c.valid with h | h
    · exact Nat.lt_trans h (by decide)
    · exact h.2
  have hmark2 : ∀ m < 2 ^ 5, m ||| 0xC0 = m % 32 + 192 := by decide
  have hmark3 : ∀ m < 2 ^ 4, m ||| 0xE0 = m % 16 + 224 := by decide
  have hmark4 : ∀ m < 2 ^ 3, m ||| 0xF0 = m % 8 + 240 := by decide
  have hval : c.val.toNat = c.toNat := rfl
  simp only [String.utf8EncodeChar, hval, utf8]
  generalize c.toNat = uc at hc
  by_cases h1 : uc < 0x80
  · rw [if_pos h1, if_pos (Nat.le_of_lt_succ h1)]
    show [UInt8.ofNat (uc ||| 0)] = _
    rw [Nat.or_zero]
  rw [if_neg h1, if_neg fun h => h1 (Nat.lt_succ_of_le h)]
  by_cases h2 : uc < 0x800
  · rw [if_pos h2, if_pos (Nat.le_of_lt_succ h2)]
    simp only [utf8Tail, firstByteMark, utf8_byte, Nat.shiftRight_eq_div_pow]
    rw [hmark2 _ (by omega)]
  rw [if_neg h2, if_neg fun h => h2 (Nat.lt_succ_of_le h)]
  by_cases h3 : uc < 0x10000
  · rw [if_pos h3, if_pos (Nat.le_of_lt_succ h3)]
    simp only [utf8Tail, firstByteMark, utf8_byte, Nat.shiftRight_eq_div_pow, Nat.div_div_eq_div_mul]
    rw [hmark3 _ (by omega)]
  · rw [if_neg h3, if_neg fun h => h3 (Nat.lt_succ_of_le h)]
    simp only [utf8Tail, firstByteMark, utf8_byte, Nat.shiftRight_eq_div_pow, Nat.div_div_eq_div_mul]
    rw [hmark4 _ (by omega)]

theorem Char.lt_or_lt_of_valid (c : Char) :
    c.toNat < 0xD800 ∨ 0xDFFF < c.toNat ∧ c.toNat < 0x110000 := c.valid

theorem hexVal_ne {d : Nat} (h : hexVal b = some d) : ¬ (b = 34 ∨ b = 0) ∧ b ≠ 92 := by
  refine ⟨?_, ?_⟩
  · rintro (rfl | rfl) <;> cases h
  · rintro rfl
    cases h

theorem parseHex4_append {n : Nat} {u : List UInt8} (hu : Hex4 n u) (t : Text) :
    parseHex4 (u ++ t) = .ok n := by
  obtain ⟨h₀, h₁, h₂, h₃⟩ := hu
  simp only [parseHex4, List.cons_append, List.nil_append, hexLoop, h₀, h₁, h₂, h₃,
    Nat.shiftLeft_eq]
  norm_num

theorem scanString_end (h : b = 34 ∨ b = 0) (t : Text) : scanString (b :: t) = .ok (0, b :: t) := by
  cases t <;> rw [scanString, if_pos h]

theorem scanString_cons (h : ¬ (b = 34 ∨ b = 0)) (hb : b ≠ 92) (t : Text) :
    scanString (b :: t) = (scanString t).map fun r => (r.1 + 1, r.2) := by
  cases t <;> simp only [scanString, if_neg h, if_neg hb]

theorem scanString_backslash (c : UInt8) (t : Text) :
    scanString (92 :: c :: t) = (scanString t).map fun r => (r.1 + 1, r.2) := by
  simp only [scanString, if_neg (show ¬ ((92 : UInt8) = 34 ∨ (92 : UInt8) = 0) by decide), if_true]

theorem map_map_add (r : Except Stop (Nat × Text)) (j k : Nat) :
    ((r.map fun r => (r.1 + j, r.2)).map fun r => (r.1 + k, r.2)) =
      r.map fun r => (r.1 + (j + k), r.2) := by
  cases r with
  | error e => rfl
  | ok r => rw [map_ok, map_ok, map_ok, Nat.add_assoc]

/-- The digits of a code point are not the end of a string. -/
theorem scanString_hex {n : Nat} {u : List UInt8} (hu : Hex4 n u) (t : Text) :
    scanString (u ++ t) = (scanString t).map fun r => (r.1 + 4, r.2) := by
  obtain ⟨h₀, h₁, h₂, h₃⟩ := hu
  simp only [List.cons_append, List.nil_append,
    scanString_cons (hexVal_ne h₀).1 (hexVal_ne h₀).2, scanString_cons (hexVal_ne h₁).1 (hexVal_ne h₁).2,
    scanString_cons (hexVal_ne h₂).1 (hexVal_ne h₂).2, scanString_cons (hexVal_ne h₃).1 (hexVal_ne h₃).2,
    map_map_add]

theorem scanString_unicode {n : Nat} {u : List UInt8} (hu : Hex4 n u) (t : Text) :
    scanString (92 :: 117 :: (u ++ t)) = (scanString t).map fun r => (r.1 + 5, r.2) := by
  rw [scanString_backslash, scanString_hex hu, map_map_add]

/-- The first loop goes over what stands for a string, and counts enough. -/
theorem scanString_escaped (he : Escaped s e) (t : Text) :
    ∃ k, s.length ≤ k ∧ scanString (e ++ t) = (scanString t).map fun r => (r.1 + k, r.2) := by
  induction he with
  | nil =>
      refine ⟨0, Nat.le_refl 0, ?_⟩
      rw [List.nil_append]
      cases scanString t <;> rfl
  | @plain b s e hb _ ih =>
      obtain ⟨k, hlen, hscan⟩ := ih
      have hend : ¬ (b = 34 ∨ b = 0) := fun h => h.elim hb.2.1 hb.1
      refine ⟨k + 1, Nat.succ_le_succ hlen, ?_⟩
      rw [List.cons_append, scanString_cons hend hb.2.2, hscan, map_map_add]
  | escape _ _ ih =>
      obtain ⟨k, hlen, hscan⟩ := ih
      refine ⟨k + 1, Nat.succ_le_succ hlen, ?_⟩
      rw [List.cons_append, List.cons_append, scanString_backslash, hscan, map_map_add]
  | @unicode c u s e _ hu _ ih =>
      obtain ⟨k, hlen, hscan⟩ := ih
      refine ⟨k + 5, ?_, ?_⟩
      · have hsize := Char.utf8Size_le_four c
        rw [List.length_append, String.length_utf8EncodeChar]
        omega
      · rw [List.cons_append, List.cons_append, List.cons_append, List.cons_append, List.append_assoc,
          scanString_unicode hu, hscan, map_map_add]
  | @surrogates c u v s e _ hu hv _ ih =>
      obtain ⟨k, hlen, hscan⟩ := ih
      refine ⟨k + 5 + 5, ?_, ?_⟩
      · have hsize := Char.utf8Size_le_four c
        rw [List.length_append, String.length_utf8EncodeChar]
        omega
      · have hlow := scanString_unicode hv (e ++ t)
        simp only [List.cons_append, List.append_assoc]
        rw [scanString_unicode hu, hlow, hscan, map_map_add, map_map_add]

/-- It ends at the quote. -/
theorem scanString_append (he : Escaped s e) (rest : Text) :
    ∃ len, scanString (e ++ 34 :: rest) = .ok (len, 34 :: rest) ∧ s.length ≤ len := by
  obtain ⟨k, hlen, hscan⟩ := scanString_escaped he (34 :: rest)
  rw [scanString_end (Or.inl rfl), map_ok, Nat.zero_add] at hscan
  exact ⟨k, hscan, hlen⟩

theorem unescape_of_mem : ∀ p ∈ escapes, p.1 ≠ 117 ∧ unescape p.1 = p.2 :=
  List.all_iff_forall_prop.1 (by decide)

/-- The two halves of a character beyond the first 65536 give it back. -/
theorem surrogates_eq {n : Nat} (h : 0x10000 ≤ n) (hlt : n < 0x110000) :
    0x10000 + (((0xD800 + (n - 0x10000) / 1024) &&& 0x3FF) <<< 10 |||
      ((0xDC00 + (n - 0x10000) % 1024) &&& 0x3FF)) = n := by
  have hmask : ∀ m, m &&& 0x3FF = m % 1024 := fun m => Nat.and_two_pow_sub_one_eq_mod m 10
  rw [hmask, hmask, ← Nat.shiftLeft_add_eq_or_of_lt (Nat.mod_lt _ (by decide)), Nat.shiftLeft_eq]
  omega

theorem length_of_hex4 {n : Nat} {u : List UInt8} (hu : Hex4 n u) : u.length = 4 := by
  cases hu
  rfl

/-- `\u` and the code point of a character. -/
theorem decodeChar_unicode {c : Char} {u t : List UInt8} {endLen : Nat} (hc : c ≠ '\x00')
    (hu : Hex4 c.toNat u) (hend : endLen ≤ t.length) :
    decodeChar str endLen (92 :: 117 :: (u ++ t)) = .ok (String.utf8EncodeChar c, t) := by
  have hvalid := Char.lt_or_lt_of_valid c
  have hzero : c.toNat ≠ 0 := fun h => hc (Char.ext (UInt32.toNat.inj h))
  have hlen := length_of_hex4 hu
  have hdrop : ((u ++ t).drop 3).length = t.length + 1 := by
    rw [List.length_drop, List.length_append]
    omega
  have htrans : transcode str endLen (u ++ t) =
      .ok (String.utf8EncodeChar c, (u ++ t).drop 3) := by
    rw [transcode, parseHex4_append hu, ok_bind]
    rw [if_neg (by omega), if_neg (by omega), if_neg (by omega), utf8_eq]
  show (transcode str endLen (u ++ t)).map _ = _
  rw [htrans, map_ok, List.drop_drop, List.drop_left' hlen]

/-- `\u` and the first half of a character, with the second one behind it. -/
theorem decodeChar_surrogates {c : Char} {u v t : List UInt8} {endLen : Nat} (hc : 0x10000 ≤ c.toNat)
    (hu : Hex4 (0xD800 + (c.toNat - 0x10000) / 1024) u)
    (hv : Hex4 (0xDC00 + (c.toNat - 0x10000) % 1024) v) (hend : endLen ≤ t.length) :
    decodeChar str endLen (92 :: 117 :: (u ++ 92 :: 117 :: (v ++ t))) =
      .ok (String.utf8EncodeChar c, t) := by
  have hvalid := Char.lt_or_lt_of_valid c
  have hlen := length_of_hex4 hv
  obtain ⟨b, hdrop⟩ : ∃ b, (u ++ 92 :: 117 :: (v ++ t)).drop 3 = b :: 92 :: 117 :: (v ++ t) := by
    obtain ⟨b₀, b₁, b₂, b₃, rfl⟩ := List.length_eq_four.1 (length_of_hex4 hu)
    exact ⟨b₃, rfl⟩
  have hlow : parseHex4 ((b :: 92 :: 117 :: (v ++ t)).drop 3) =
      .ok (0xDC00 + (c.toNat - 0x10000) % 1024) := parseHex4_append hv t
  have hlength : (b :: 92 :: 117 :: (v ++ t)).length = t.length + 7 := by
    simp only [List.length_cons, List.length_append, hlen]
    omega
  have htrans : transcode str endLen (u ++ 92 :: 117 :: (v ++ t)) =
      .ok (String.utf8EncodeChar c, (v ++ t).drop 3) := by
    simp only [transcode, parseHex4_append hu, ok_bind, hdrop]
    rw [if_neg (by omega), if_neg (by omega), if_pos (by omega), if_neg (by omega), if_neg (by simp),
      hlow, ok_bind, if_neg (by omega), surrogates_eq hc (by omega), utf8_eq]
    rfl
  show (transcode str endLen (u ++ 92 :: 117 :: (v ++ t))).map _ = _
  rw [htrans, map_ok, List.drop_drop, List.drop_left' hlen]

theorem decodeString_step {endLen fuel : Nat} {ptr ptr' bytes : List UInt8}
    (h : endLen < ptr.length) (hchar : decodeChar str endLen ptr = .ok (bytes, ptr')) :
    decodeString str endLen (fuel + 1) ptr =
      (decodeString str endLen fuel ptr').map fun r => (bytes ++ r.1, r.2) := by
  rw [decodeString, if_pos h, hchar, ok_bind]

/-- The second loop writes the bytes of the string. -/
theorem decodeString_append (he : Escaped s e) {fuel : Nat} (hfuel : e.length < fuel) :
    decodeString str (34 :: rest).length fuel (e ++ 34 :: rest) = .ok (s, 34 :: rest) := by
  have hend : ∀ e : List UInt8, (34 :: rest).length ≤ (e ++ 34 :: rest).length := fun e => by
    rw [List.length_append]
    exact Nat.le_add_left _ _
  induction he generalizing fuel with
  | nil =>
      obtain ⟨fuel, rfl⟩ := Nat.exists_eq_succ_of_ne_zero (Nat.ne_zero_of_lt hfuel)
      rw [List.nil_append, decodeString, if_neg (Nat.lt_irrefl _)]
  | @plain b s e hb _ ih =>
      obtain ⟨fuel, rfl⟩ := Nat.exists_eq_succ_of_ne_zero (Nat.ne_zero_of_lt hfuel)
      have hchar : decodeChar str (34 :: rest).length (b :: (e ++ 34 :: rest)) =
          .ok ([b], e ++ 34 :: rest) := if_pos hb.2.2
      rw [List.cons_append, decodeString_step (Nat.lt_succ_of_le (hend e)) hchar,
        ih (Nat.lt_of_succ_lt_succ hfuel), map_ok, List.singleton_append]
  | @escape c b s e hc _ ih =>
      obtain ⟨fuel, rfl⟩ := Nat.exists_eq_succ_of_ne_zero (Nat.ne_zero_of_lt hfuel)
      obtain ⟨hne, hb⟩ : c ≠ 117 ∧ unescape c = b := unescape_of_mem _ hc
      have hchar : decodeChar str (34 :: rest).length (92 :: c :: (e ++ 34 :: rest)) =
          .ok ([b], e ++ 34 :: rest) := by
        rw [← hb]
        exact if_pos hne
      have hlt := Nat.lt_succ_of_le (Nat.le_succ_of_le (hend e))
      rw [List.cons_append, List.cons_append, decodeString_step hlt hchar,
        ih (Nat.lt_of_succ_lt (Nat.lt_of_succ_lt_succ hfuel)), map_ok, List.singleton_append]
  | @unicode c u s e hc hu _ ih =>
      obtain ⟨fuel, rfl⟩ := Nat.exists_eq_succ_of_ne_zero (Nat.ne_zero_of_lt hfuel)
      simp only [List.length_cons, List.length_append] at hfuel
      have hlt : e.length < fuel := by omega
      have hnext := ih hlt
      have htext : 92 :: 117 :: u ++ e ++ 34 :: rest = 92 :: 117 :: (u ++ (e ++ 34 :: rest)) := by
        simp
      have hlt : (34 :: rest).length < (92 :: 117 :: (u ++ (e ++ 34 :: rest))).length := by
        simp
        omega
      rw [htext, decodeString_step hlt (decodeChar_unicode hc hu (hend e)), hnext, map_ok]
  | @surrogates c u v s e hc hu hv _ ih =>
      obtain ⟨fuel, rfl⟩ := Nat.exists_eq_succ_of_ne_zero (Nat.ne_zero_of_lt hfuel)
      simp only [List.length_cons, List.length_append] at hfuel
      have hlt : e.length < fuel := by omega
      have hnext := ih hlt
      have htext : 92 :: 117 :: u ++ (92 :: 117 :: v ++ e) ++ 34 :: rest =
          92 :: 117 :: (u ++ 92 :: 117 :: (v ++ (e ++ 34 :: rest))) := by
        simp
      have hlt : (34 :: rest).length <
          (92 :: 117 :: (u ++ 92 :: 117 :: (v ++ (e ++ 34 :: rest)))).length := by
        simp
        omega
      rw [htext, decodeString_step hlt (decodeChar_surrogates hc hu hv (hend e)), hnext, map_ok]

/-- The bytes of a character that is not `NUL` are not `NUL`. -/
theorem zero_notMem_utf8EncodeChar {c : Char} (hc : c.toNat ≠ 0) : 0 ∉ String.utf8EncodeChar c := by
  have hlt : ∀ {n : Nat}, 0 < n → n < 256 → (0 : UInt8) ≠ UInt8.ofNat n := by
    intro n hpos hlt h
    have := congrArg UInt8.toNat h
    rw [UInt8.toNat_ofNat_of_lt' hlt] at this
    exact absurd this (by rw [UInt8.toNat_zero]; omega)
  have hpos : 0 < c.val.toNat := Nat.pos_of_ne_zero hc
  unfold String.utf8EncodeChar
  generalize c.val.toNat = n at hpos
  intro hmem
  simp only at hmem
  split at hmem
  · exact hlt hpos (by omega) (List.mem_singleton.1 hmem)
  split at hmem
  · simp only [List.mem_cons, List.not_mem_nil, or_false] at hmem
    rcases hmem with h | h <;> exact hlt (by omega) (by omega) h
  split at hmem
  · simp only [List.mem_cons, List.not_mem_nil, or_false] at hmem
    rcases hmem with h | h | h <;> exact hlt (by omega) (by omega) h
  · simp only [List.mem_cons, List.not_mem_nil, or_false] at hmem
    rcases hmem with h | h | h | h <;> exact hlt (by omega) (by omega) h

theorem escapes_ne_zero : ∀ p ∈ escapes, p.2 ≠ 0 := List.all_iff_forall_prop.1 (by decide)

/-- No string has a `NUL` in it. -/
theorem zero_notMem_of_escaped (he : Escaped s e) : 0 ∉ s := by
  induction he with
  | nil => exact List.not_mem_nil
  | plain hb _ ih => exact List.not_mem_cons_of_ne_of_not_mem hb.1.symm ih
  | escape hc _ ih => exact List.not_mem_cons_of_ne_of_not_mem (escapes_ne_zero _ hc).symm ih
  | @unicode c u s e hc _ _ ih =>
      have hzero : c.toNat ≠ 0 := fun h => hc (Char.ext (UInt32.toNat.inj h))
      exact fun h => (List.mem_append.1 h).elim (zero_notMem_utf8EncodeChar hzero) ih
  | @surrogates c u v s e hc _ _ _ ih =>
      exact fun h => (List.mem_append.1 h).elim (zero_notMem_utf8EncodeChar (by omega)) ih

/-- **A string is parsed into its bytes.** -/
theorem parseString_append (he : Escaped s e) :
    parseString item (34 :: e ++ [34] ++ rest) =
      .ok ({ item with valuestring := some s, type := cJSONString }, rest) := by
  obtain ⟨len, hscan, hlen⟩ := scanString_append he rest
  have htext : 34 :: e ++ [34] ++ rest = 34 :: (e ++ 34 :: rest) := by simp
  have hfuel : e.length < (e ++ 34 :: rest).length + 1 := by
    rw [List.length_append]
    omega
  have htake : s.takeWhile (fun b => b ≠ 0) = s := List.takeWhile_eq_self_iff.2 fun b hb =>
    decide_eq_true fun h => zero_notMem_of_escaped he (h ▸ hb)
  rw [htext, parseString, if_neg (by decide), hscan, ok_bind]
  simp only [decodeString_append he hfuel, ok_bind, if_neg (Nat.not_lt_of_le hlen), htake, if_true]

end XToolkits.Json
