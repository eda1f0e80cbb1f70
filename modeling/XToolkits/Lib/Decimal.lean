import Mathlib.Data.Nat.Digits.Lemmas
import XToolkits.Lib.Binary64
import XToolkits.Lib.CInt

set_option autoImplicit false

/-! # Numbers in decimal

`NumberText` is a number as it is written: a sign, digits, perhaps a fraction and an exponent. `exact`
is the number that it stands for, and `value` what double arithmetic makes of it, digit by digit, with a
power of ten from the C library; integers below `2 ^ 53` are exact there. The formats `%d`, `%.0f`, `%f`
and `%e` of `printf` all write numbers of this form. -/

namespace XToolkits

/-! ## Digits -/

def digitByte (d : Nat) : UInt8 := UInt8.ofNat (48 + d)

def IsDigit (b : UInt8) : Prop := 48 ≤ b ∧ b ≤ 57

instance (b : UInt8) : Decidable (IsDigit b) := inferInstanceAs (Decidable (_ ∧ _))

/-- The digits of `n`, the high one first. -/
def decimalDigits (n : Nat) : List UInt8 :=
  if n = 0 then [48] else (Nat.digits 10 n).reverse.map digitByte

/-- The digits of `n` with zeros in front, `w` at least. -/
def paddedDigits (w n : Nat) : List UInt8 :=
  List.replicate (w - (decimalDigits n).length) 48 ++ decimalDigits n

theorem isDigit_digitByte : ∀ d < 10, IsDigit (digitByte d) := by decide

theorem toNat_digitByte : ∀ d < 10, (digitByte d).toNat = 48 + d := by decide

theorem isDigit_of_mem_decimalDigits {n : Nat} {b : UInt8} (h : b ∈ decimalDigits n) : IsDigit b := by
  rw [decimalDigits] at h
  split at h
  · rw [List.mem_singleton] at h
    rw [h]
    decide
  · obtain ⟨d, hd, rfl⟩ := List.mem_map.1 h
    exact isDigit_digitByte d (Nat.digits_lt_base (by decide) (List.mem_reverse.1 hd))

theorem isDigit_of_mem_paddedDigits {w n : Nat} {b : UInt8} (h : b ∈ paddedDigits w n) :
    IsDigit b := by
  rcases List.mem_append.1 h with h | h
  · rw [List.eq_of_mem_replicate h]
    decide
  · exact isDigit_of_mem_decimalDigits h

theorem decimalDigits_ne_nil (n : Nat) : decimalDigits n ≠ [] := by
  rw [decimalDigits]
  split
  · exact List.cons_ne_nil _ _
  · next hn => simpa [Nat.digits_eq_nil_iff_eq_zero] using hn

theorem paddedDigits_ne_nil (w n : Nat) : paddedDigits w n ≠ [] :=
  List.append_ne_nil_of_right_ne_nil _ (decimalDigits_ne_nil n)

/-- The first digit of a number that is not zero is not zero. -/
theorem decimalDigits_eq_cons {n : Nat} (hn : n ≠ 0) :
    ∃ b ds, decimalDigits n = b :: ds ∧ 49 ≤ b ∧ IsDigit b := by
  have hne : Nat.digits 10 n ≠ [] := Nat.digits_ne_nil_iff_ne_zero.2 hn
  have hlast := Nat.getLast_digit_ne_zero 10 hn
  obtain ⟨ds, d, hds⟩ := List.eq_nil_or_concat (Nat.digits 10 n) |>.resolve_left hne
  have hlt : d < 10 := Nat.digits_lt_base (by decide) (by rw [hds]; simp : d ∈ Nat.digits 10 n)
  have hd : d ≠ 0 := by
    simpa only [hds, List.concat_eq_append, List.getLast_append_singleton] using hlast
  refine ⟨digitByte d, ds.reverse.map digitByte, ?_, ?_, isDigit_digitByte d hlt⟩
  · rw [decimalDigits, if_neg hn, hds]
    simp
  · rw [UInt8.le_iff_toNat_le, toNat_digitByte d hlt]
    show 49 ≤ 48 + d
    omega

/-- A number below `10 ^ k` has at most `k` digits. -/
theorem length_decimalDigits_le {n k : Nat} (hk : 1 ≤ k) (h : n < 10 ^ k) :
    (decimalDigits n).length ≤ k := by
  rw [decimalDigits]
  split
  · exact hk
  · next hn =>
      rw [List.length_map, List.length_reverse, Nat.length_digits 10 n (by decide) hn]
      exact Nat.log_lt_of_lt_pow hn h

theorem length_paddedDigits_le {w n k : Nat} (hk : 1 ≤ k) (hw : w ≤ k) (h : n < 10 ^ k) :
    (paddedDigits w n).length ≤ k := by
  have hle := length_decimalDigits_le hk h
  rw [paddedDigits, List.length_append, List.length_replicate]
  omega

/-! ## The value of digits -/

/-- The number with the digits `ds` behind those of `n`. -/
def natOfDigits (n : Nat) (ds : List UInt8) : Nat := ds.foldl (fun n b => n * 10 + (b.toNat - 48)) n

/-- The same in doubles. -/
def accDigits (n : Double) (ds : List UInt8) : Double :=
  ds.foldl (fun n b => (n.mul (.ofInt 10)).add (.ofInt (b.toNat - 48 : Nat))) n

theorem le_natOfDigits (n : Nat) (ds : List UInt8) : n ≤ natOfDigits n ds := by
  induction ds generalizing n with
  | nil => exact Nat.le_refl n
  | cons b ds ih => exact Nat.le_trans (by omega) (ih (n * 10 + (b.toNat - 48)))

theorem natOfDigits_decimalDigits (n : Nat) : natOfDigits 0 (decimalDigits n) = n := by
  rw [decimalDigits]
  split
  · next hn => exact hn.symm
  · have hof := Nat.ofDigits_digits 10 n
    have hlt : ∀ d ∈ Nat.digits 10 n, d < 10 := fun d hd => Nat.digits_lt_base (by decide) hd
    rw [natOfDigits, List.map_reverse, List.foldl_reverse]
    nth_rewrite 2 [← hof]
    generalize Nat.digits 10 n = ds at hlt
    induction ds with
    | nil => rfl
    | cons d ds ih =>
        rw [List.map_cons, List.foldr_cons, ih fun x hx => hlt x (List.mem_cons_of_mem _ hx),
          toNat_digitByte d (hlt d (List.mem_cons_self ..)), Nat.ofDigits_cons]
        omega

/-- **Below `2 ^ 53` the double is the number.** -/
theorem accDigits_ofInt {n : Nat} {ds : List UInt8} (h : natOfDigits n ds < 2 ^ 53) :
    accDigits (.ofInt n) ds = .ofInt (natOfDigits n ds) := by
  induction ds generalizing n with
  | nil => rfl
  | cons b ds ih =>
      have hle : n * 10 + (b.toNat - 48) ≤ natOfDigits n (b :: ds) :=
        le_natOfDigits (n * 10 + (b.toNat - 48)) ds
      have habs : ∀ {m : Nat}, m < 2 ^ 53 → |(m : ℤ)| < 2 ^ 53 := by
        intro m hm
        rw [Nat.abs_cast]
        exact_mod_cast hm
      have hmul : Double.mul (.ofInt n) (.ofInt 10) = .ofInt ((n * 10 : Nat) : ℤ) := by
        rw [Double.mul_ofInt (habs (by omega)) (by decide)]
        push_cast
        rfl
      have hadd : Double.add (.ofInt ((n * 10 : Nat) : ℤ)) (.ofInt ((b.toNat - 48 : Nat) : ℤ)) =
          .ofInt ((n * 10 + (b.toNat - 48) : Nat) : ℤ) := by
        rw [Double.add_ofInt (habs (by omega)) (habs (by omega))]
        push_cast
        rfl
      show accDigits ((Double.mul (.ofInt n) (.ofInt 10)).add _) ds = _
      rw [hmul, hadd, ih h]
      rfl

/-! ## Numbers -/

/-- What follows the digits of an exponent mark. -/
structure Exponent where
  marker : UInt8
  /-- `-` or `+`, if there is a sign. -/
  negative : Option Bool
  digits : List UInt8
  deriving DecidableEq

/-- A number as it is written. -/
structure NumberText where
  negative : Bool
  int : List UInt8
  /-- The digits behind the point; there is none without them. -/
  frac : List UInt8
  exp : Option Exponent
  deriving DecidableEq

def Exponent.text (e : Exponent) : List UInt8 :=
  e.marker :: (match e.negative with | none => [] | some true => [45] | some false => [43]) ++ e.digits

def NumberText.text (t : NumberText) : List UInt8 :=
  (if t.negative then [45] else []) ++ t.int ++ (if t.frac = [] then [] else 46 :: t.frac) ++
    (t.exp.elim [] Exponent.text)

structure Exponent.Valid (e : Exponent) : Prop where
  marker : e.marker = 101 ∨ e.marker = 69
  digits : ∀ b ∈ e.digits, IsDigit b
  ne_nil : e.digits ≠ []

/-- The number has digits, and none too many in front. -/
structure NumberText.Valid (t : NumberText) : Prop where
  int : t.int = [48] ∨ ∃ b ds, t.int = b :: ds ∧ 49 ≤ b
  digits : ∀ b ∈ t.int ++ t.frac, IsDigit b
  exp : ∀ e ∈ t.exp, e.Valid

/-- The digits of an exponent in an `int`. -/
def accInt (x : Int) (ds : List UInt8) : Int :=
  ds.foldl (fun x b => wrapS32 (x * 10 + (b.toNat - 48 : Nat))) x

def Exponent.value (e : Exponent) : Int :=
  wrapS32 (accInt 0 e.digits * if e.negative = some true then -1 else 1)

/-- What double arithmetic makes of a number, with a `pow(10.0, k)`. -/
def NumberText.value (pow : Int → Double) (t : NumberText) : Double :=
  ((Double.ofInt (if t.negative then -1 else 1)).mul (accDigits (.ofInt 0) (t.int ++ t.frac))).mul
    (pow (-(t.frac.length : Int) + t.exp.elim 0 Exponent.value))

/-- The exponent that is written. -/
def Exponent.exact (e : Exponent) : Int :=
  (if e.negative = some true then -1 else 1) * natOfDigits 0 e.digits

/-- The place of the last digit of a number. -/
def NumberText.scale (t : NumberText) : Int := -(t.frac.length : Int) + t.exp.elim 0 Exponent.exact

/-- The number that is written. -/
def NumberText.exact (t : NumberText) : ℚ :=
  (if t.negative then -1 else 1) * natOfDigits 0 (t.int ++ t.frac) * 10 ^ t.scale

/-! ## Formats -/

/-- `%d`. -/
def intText (k : Int) : NumberText := ⟨decide (k < 0), decimalDigits k.natAbs, [], none⟩

/-- `%.0f`. -/
def fixed0 (q : ℚ) : NumberText := ⟨decide (q < 0), decimalDigits (nearestEven |q|).toNat, [], none⟩

/-- `%f`. -/
def fixed6 (q : ℚ) : NumberText :=
  let m := (nearestEven (|q| * 10 ^ 6)).toNat
  ⟨decide (q < 0), decimalDigits (m / 10 ^ 6), paddedDigits 6 (m % 10 ^ 6), none⟩

/-- The seven digits and the exponent that `%e` writes: the rounding may carry. -/
def scientificDigits (q : ℚ) : Nat × Int :=
  let k := if q = 0 then 0 else Int.log 10 |q|
  let m := (nearestEven (|q| / 10 ^ (k - 6))).toNat
  if m = 10 ^ 7 then (10 ^ 6, k + 1) else (m, k)

/-- `%e`. -/
def scientific (q : ℚ) : NumberText :=
  let (m, k) := scientificDigits q
  ⟨decide (q < 0), decimalDigits (m / 10 ^ 6), paddedDigits 6 (m % 10 ^ 6),
    some ⟨101, some (decide (k < 0)), paddedDigits 2 k.natAbs⟩⟩

/-- The digits of a number are in front of a point, of an exponent or alone. -/
theorem NumberText.valid_decimalDigits {negative : Bool} {n : Nat} {frac : List UInt8}
    {exp : Option Exponent} (hfrac : ∀ b ∈ frac, IsDigit b) (hexp : ∀ e ∈ exp, e.Valid) :
    NumberText.Valid ⟨negative, decimalDigits n, frac, exp⟩ where
  int := by
    by_cases hn : n = 0
    · exact Or.inl (by rw [hn]; rfl)
    · obtain ⟨b, ds, heq, hb, -⟩ := decimalDigits_eq_cons hn
      exact Or.inr ⟨b, ds, heq, hb⟩
  digits := fun b hb => (List.mem_append.1 hb).elim isDigit_of_mem_decimalDigits (hfrac b)
  exp := hexp

theorem valid_intText (k : Int) : (intText k).Valid :=
  NumberText.valid_decimalDigits (by simp) (by simp)

theorem valid_fixed0 (q : ℚ) : (fixed0 q).Valid :=
  NumberText.valid_decimalDigits (by simp) (by simp)

theorem valid_fixed6 (q : ℚ) : (fixed6 q).Valid :=
  NumberText.valid_decimalDigits (fun _ => isDigit_of_mem_paddedDigits) (by simp)

theorem valid_scientific (q : ℚ) : (scientific q).Valid :=
  NumberText.valid_decimalDigits (fun _ => isDigit_of_mem_paddedDigits) <| by
    rintro e he
    obtain rfl := Option.mem_some_iff.1 he
    exact ⟨Or.inl rfl, fun _ => isDigit_of_mem_paddedDigits, paddedDigits_ne_nil _ _⟩

/-- **An integer below `2 ^ 53` is read exactly.** -/
theorem value_eq_ofInt {pow : Int → Double} {t : NumberText} (hpow : pow 0 = .ofInt 1)
    (hfrac : t.frac = []) (hexp : t.exp = none) (hlt : natOfDigits 0 t.int < 2 ^ 53) :
    t.value pow = .ofInt ((if t.negative then -1 else 1) * natOfDigits 0 t.int) := by
  have habs : |((natOfDigits 0 t.int : ℕ) : ℤ)| < 2 ^ 53 := by
    rw [Nat.abs_cast]
    exact_mod_cast hlt
  have hsigned : |(if t.negative then -1 else 1) * ((natOfDigits 0 t.int : ℕ) : ℤ)| < 2 ^ 53 := by
    cases t.negative <;> simpa using habs
  have hsmall : |(if t.negative then -1 else 1 : ℤ)| < 2 ^ 53 := by
    split <;> decide
  have hacc := accDigits_ofInt (n := 0) hlt
  rw [Nat.cast_zero] at hacc
  rw [NumberText.value, hfrac, hexp, List.append_nil, hacc, Double.mul_ofInt hsmall habs]
  show Double.mul _ (pow 0) = _
  rw [hpow, Double.mul_ofInt hsigned (by decide), Int.mul_one]

/-- **`%d` writes the number.** -/
theorem value_intText {pow : Int → Double} (hpow : pow 0 = .ofInt 1) {k : Int} (h : |k| < 2 ^ 53) :
    (intText k).value pow = .ofInt k := by
  have hdigits : natOfDigits 0 (decimalDigits k.natAbs) = k.natAbs := natOfDigits_decimalDigits _
  have habs : k.natAbs < 2 ^ 53 := by
    rw [Int.abs_eq_natAbs] at h
    omega
  rw [value_eq_ofInt (t := intText k) hpow rfl rfl (hdigits.trans_lt habs), intText, hdigits]
  congr 1
  simp only [decide_eq_true_eq]
  split <;> omega

/-- The bytes of a number: digits, signs, a point and the mark of an exponent. -/
theorem mem_text {t : NumberText} (ht : t.Valid) {b : UInt8} (h : b ∈ t.text) :
    IsDigit b ∨ b ∈ [43, 45, 46, 69, 101] := by
  obtain ⟨negative, int, frac, exp⟩ := t
  rcases List.mem_append.1 h with h | h
  · rcases List.mem_append.1 h with h | h
    · rcases List.mem_append.1 h with h | h
      · right
        revert h
        cases negative <;> simp +contextual
      · exact Or.inl (ht.digits b (List.mem_append_left frac h))
    · obtain _ | ⟨d, frac⟩ := frac
      · exact absurd h List.not_mem_nil
      · rcases List.mem_cons.1 h with rfl | h
        · exact Or.inr (by decide)
        · exact Or.inl (ht.digits b (List.mem_append_right int h))
  · obtain _ | e := exp
    · exact absurd h List.not_mem_nil
    obtain ⟨hmarker, hdigits, -⟩ := ht.exp e rfl
    rcases List.mem_append.1 h with h | h
    · right
      rcases List.mem_cons.1 h with rfl | h
      · rcases hmarker with h | h <;> rw [h] <;> decide
      · revert h
        cases e.negative with
        | none => exact fun h => absurd h List.not_mem_nil
        | some negative => cases negative <;> simp +contextual
    · exact Or.inl (hdigits b h)

/-! ## Lengths of the formats -/

theorem length_text (negative : Bool) (int frac : List UInt8) (exp : Option Exponent) :
    (NumberText.text ⟨negative, int, frac, exp⟩).length ≤
      1 + int.length + (1 + frac.length) + (exp.elim [] Exponent.text).length := by
  simp only [NumberText.text, List.length_append]
  have hsign : (if negative then [(45 : UInt8)] else []).length ≤ 1 := by
    split <;> decide
  have hfrac : (if frac = [] then [] else (46 : UInt8) :: frac).length ≤ 1 + frac.length := by
    split
    · exact Nat.zero_le _
    · rw [List.length_cons, Nat.add_comm]
  omega

theorem toNat_nearestEven_le {q : ℚ} {n : ℕ} (h : |q| ≤ n) : (nearestEven q).toNat ≤ n := by
  have hle := abs_nearestEven_le (q := q) (n := n) (by exact_mod_cast h)
  have hself := le_abs_self (nearestEven q)
  omega

theorem length_intText {k : Int} (h0 : -2 ^ 31 ≤ k) (h1 : k < 2 ^ 31) :
    (intText k).text.length ≤ 12 := by
  have hdigits : (decimalDigits k.natAbs).length ≤ 10 :=
    length_decimalDigits_le (by decide) (by omega)
  have htext := length_text (decide (k < 0)) (decimalDigits k.natAbs) [] none
  simp only [List.length_nil, Option.elim_none] at htext
  rw [intText]
  omega

theorem length_fixed0 {q : ℚ} (h : |q| ≤ 2 * 10 ^ 60) : (fixed0 q).text.length ≤ 63 := by
  have hdigits : (decimalDigits (nearestEven |q|).toNat).length ≤ 61 := by
    refine length_decimalDigits_le (by decide) ?_
    have hle := toNat_nearestEven_le (q := |q|) (n := 2 * 10 ^ 60) (by
      rw [abs_abs]
      exact_mod_cast h)
    exact hle.trans_lt (by norm_num)
  have htext := length_text (decide (q < 0)) (decimalDigits (nearestEven |q|).toNat) [] none
  simp only [List.length_nil, Option.elim_none] at htext
  rw [fixed0]
  omega

theorem length_fixed6 {q : ℚ} (h : |q| ≤ 2 * 10 ^ 9) : (fixed6 q).text.length ≤ 18 := by
  have hm : (nearestEven (|q| * 10 ^ 6)).toNat ≤ 2 * 10 ^ 15 := by
    refine toNat_nearestEven_le ?_
    rw [abs_of_nonneg (by positivity)]
    push_cast
    linarith
  have hint : (decimalDigits ((nearestEven (|q| * 10 ^ 6)).toNat / 10 ^ 6)).length ≤ 10 :=
    length_decimalDigits_le (by decide) (by omega)
  have hfrac : (paddedDigits 6 ((nearestEven (|q| * 10 ^ 6)).toNat % 10 ^ 6)).length ≤ 6 :=
    length_paddedDigits_le (by decide) (Nat.le_refl 6) (Nat.mod_lt _ (by decide))
  have htext := length_text (decide (q < 0))
    (decimalDigits ((nearestEven (|q| * 10 ^ 6)).toNat / 10 ^ 6))
    (paddedDigits 6 ((nearestEven (|q| * 10 ^ 6)).toNat % 10 ^ 6)) none
  simp only [Option.elim_none, List.length_nil] at htext
  rw [fixed6]
  omega

/-- The digits of `%e` are seven. -/
theorem scientificDigits_lt (q : ℚ) : (scientificDigits q).1 < 10 ^ 7 := by
  unfold scientificDigits
  generalize hk : (if q = 0 then 0 else Int.log 10 |q|) = k
  simp only
  split
  · show 10 ^ 6 < 10 ^ 7
    decide
  · next hne =>
      refine lt_of_le_of_ne (toNat_nearestEven_le (n := 10 ^ 7) ?_) hne
      have hpos : (0 : ℚ) < 10 ^ (k - 6) := by positivity
      have hlt : |q| ≤ 10 ^ (k + 1) := by
        split at hk
        · next hq =>
            rw [hq, abs_zero]
            positivity
        · have hself := Int.lt_zpow_succ_log_self (b := 10) (by decide) |q|
          rw [hk] at hself
          exact_mod_cast hself.le
      rw [abs_of_nonneg (by positivity), div_le_iff₀ hpos, Nat.cast_pow, Nat.cast_ofNat, ← zpow_natCast,
        ← zpow_add₀ (by norm_num)]
      refine hlt.trans (zpow_le_zpow_right₀ (by norm_num) ?_)
      push_cast
      omega

/-- The exponent of a double has four digits at most. -/
theorem natAbs_scientificDigits_le {q : ℚ} (h : IsDouble q) :
    (scientificDigits q).2.natAbs ≤ 1075 := by
  unfold scientificDigits
  generalize hk : (if q = 0 then 0 else Int.log 10 |q|) = k
  have hbound : -1074 ≤ k ∧ k < 1024 := by
    split at hk
    · omega
    · next hq =>
        have hpos : 0 < |q| := abs_pos.2 hq
        have hten : ∀ n : ℕ, (10 : ℚ) ^ (-(n : ℤ)) ≤ 2 ^ (-(n : ℤ)) := by
          intro n
          rw [zpow_neg, zpow_neg, zpow_natCast, zpow_natCast]
          exact inv_anti₀ (by positivity) (pow_le_pow_left₀ (by norm_num) (by norm_num) n)
        have hlow : (10 : ℚ) ^ (-1074 : ℤ) ≤ |q| := (hten 1074).trans (h.eq_zero_or.resolve_left hq)
        have hhigh : |q| < (10 : ℚ) ^ (1024 : ℤ) :=
          h.2.trans_le (pow_le_pow_left₀ (by norm_num) (by norm_num) 1024)
        rw [← hk]
        refine ⟨?_, ?_⟩
        · exact (Int.zpow_le_iff_le_log (b := 10) (by decide) hpos).1 (by exact_mod_cast hlow)
        · exact (Int.lt_zpow_iff_log_lt (b := 10) (by decide) hpos).1 (by exact_mod_cast hhigh)
  simp only
  split <;> simp only <;> omega

theorem length_scientific {q : ℚ} (h : IsDouble q) : (scientific q).text.length ≤ 17 := by
  have hm := scientificDigits_lt q
  have hk := natAbs_scientificDigits_le h
  rw [scientific]
  generalize scientificDigits q = r at hm hk
  obtain ⟨m, k⟩ := r
  have hint : (decimalDigits (m / 10 ^ 6)).length ≤ 1 := length_decimalDigits_le (by decide) (by omega)
  have hfrac : (paddedDigits 6 (m % 10 ^ 6)).length ≤ 6 :=
    length_paddedDigits_le (by decide) (Nat.le_refl 6) (Nat.mod_lt _ (by decide))
  have hexp : (paddedDigits 2 k.natAbs).length ≤ 4 :=
    length_paddedDigits_le (by decide) (by decide) (by omega)
  have htext := length_text (decide (q < 0)) (decimalDigits (m / 10 ^ 6)) (paddedDigits 6 (m % 10 ^ 6))
    (some ⟨101, some (decide (k < 0)), paddedDigits 2 k.natAbs⟩)
  have hsign : (Exponent.text ⟨101, some (decide (k < 0)), paddedDigits 2 k.natAbs⟩).length ≤ 6 := by
    simp only [Exponent.text]
    split <;> simp <;> omega
  simp only [Option.elim_some] at htext
  simp only
  omega

end XToolkits
