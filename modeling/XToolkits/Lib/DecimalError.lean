import XToolkits.Lib.Decimal

set_option autoImplicit false

/-! # How far numbers in decimal are off

A number is read in doubles, digit by digit, and every operation rounds. Each of them adds a little to
the relative error, so a number of three hundred digits is still right to twelve places. Where the
formats of `printf` round, the number that is written is as near as its digits allow. -/

namespace XToolkits

variable {pow : ℤ → Double} {q x y e e' : ℚ} {d d' : Double} {N : ℕ} {ds : List UInt8}

/-! ## One operation -/

/-- The double is off from the number by a fraction `e` of it at most. -/
def Near (e x : ℚ) (d : Double) : Prop := ∃ r hr, d = .finite r hr ∧ |r - x| ≤ e * |x|

/-- The numbers whose halves and doubles have all their 53 bits. -/
def InRange (x : ℚ) : Prop := x = 0 ∨ (2 : ℚ) ^ (-1021 : ℤ) ≤ |x|

theorem Near.mono (h : Near e x d) (he : e ≤ e') : Near e' x d := by
  obtain ⟨r, hr, heq, hnear⟩ := h
  exact ⟨r, hr, heq, hnear.trans (mul_le_mul_of_nonneg_right he (abs_nonneg x))⟩

theorem near_ofInt {k : ℤ} (h : |k| < 2 ^ 53) : Near 0 k (.ofInt k) :=
  ⟨k, _, Double.ofInt_eq h, by rw [sub_self, abs_zero, zero_mul]⟩

/-- The last place of a number with 53 bits. -/
theorem two_zpow_lastPlace_le (h : (2 : ℚ) ^ (-1022 : ℤ) ≤ |q|) :
    (2 : ℚ) ^ Double.lastPlace q ≤ |q| / 2 ^ 52 := by
  have hpos : 0 < |q| := lt_of_lt_of_le (by positivity) h
  have hlog : -1022 ≤ Int.log 2 |q| :=
    (Int.zpow_le_iff_le_log (b := 2) one_lt_two hpos).1 (by exact_mod_cast h)
  have hplace : Double.lastPlace q = Int.log 2 |q| - (52 : ℕ) := by
    rw [Double.lastPlace]
    push_cast
    omega
  have hself := Int.zpow_log_le_self (b := 2) one_lt_two hpos
  push_cast at hself
  rw [hplace, zpow_sub₀ two_ne_zero, zpow_natCast]
  exact div_le_div_of_nonneg_right hself (by positivity)

/-- **A rounding adds `2 ^ -52` to the error.** -/
theorem near_round (hx : InRange x) (hq : |q - x| ≤ e * |x|) (he : e ≤ 1 / 2)
    (hhigh : (1 + e) * |x| < Double.overflow) : Near (e + 1 / 2 ^ 52) x (.round q) := by
  have hhalf : e * |x| ≤ 1 / 2 * |x| := mul_le_mul_of_nonneg_right he (abs_nonneg x)
  have hle : |q| ≤ |q - x| + |x| := by simpa only [sub_add_cancel] using abs_add_le (q - x) x
  obtain ⟨r, hr, hround, hnear⟩ := Double.exists_round_near (hle.trans_lt (by linarith))
  have hplace : (2 : ℚ) ^ Double.lastPlace q / 2 ≤ 1 / 2 ^ 52 * |x| ∨ (q = 0 ∧ x = 0) := by
    rcases hx with rfl | hx
    · right
      rw [abs_zero, mul_zero, sub_zero] at hq
      exact ⟨abs_nonpos_iff.1 hq, rfl⟩
    · left
      have hlow : |x| ≤ |q - x| + |q| := by
        simpa only [abs_sub_comm x q, sub_add_cancel] using abs_add_le (x - q) q
      have hnormal : (2 : ℚ) ^ (-1022 : ℤ) ≤ |q| := by
        have htwo : (2 : ℚ) ^ (-1021 : ℤ) = 2 ^ (-1022 : ℤ) * 2 := by
          rw [← zpow_add_one₀ two_ne_zero]
          rfl
        linarith
      have hlast := two_zpow_lastPlace_le hnormal
      linarith
  rcases hplace with hplace | ⟨rfl, rfl⟩
  · refine ⟨r, hr, hround, ?_⟩
    have habs := abs_sub_le r q x
    linarith
  · have hzero : IsDouble 0 := by exact_mod_cast Double.isDouble_intCast (n := 0) (by decide)
    exact ⟨0, hzero, Double.round_of_isDouble hzero, by simp⟩

/-- **A product.** -/
theorem Near.mul (h : Near e x d) (h' : Near e' y d') (hxy : InRange (x * y)) (he : 0 ≤ e)
    (hle : e + e' + e * e' ≤ 1 / 2) (hhigh : (1 + (e + e' + e * e')) * |x * y| < Double.overflow) :
    Near (e + e' + e * e' + 1 / 2 ^ 52) (x * y) (d.mul d') := by
  obtain ⟨a, ha, rfl, hnear⟩ := h
  obtain ⟨b, hb, rfl, hnear'⟩ := h'
  refine near_round hxy ?_ hle hhigh
  have hparts : a * b - x * y = (a - x) * (b - y) + (a - x) * y + x * (b - y) := by ring
  have hboth : |a - x| * |b - y| ≤ e * |x| * (e' * |y|) :=
    mul_le_mul hnear hnear' (abs_nonneg _) (mul_nonneg he (abs_nonneg x))
  have hleft : |a - x| * |y| ≤ e * |x| * |y| := mul_le_mul_of_nonneg_right hnear (abs_nonneg y)
  have hright : |x| * |b - y| ≤ |x| * (e' * |y|) := mul_le_mul_of_nonneg_left hnear' (abs_nonneg x)
  calc |a * b - x * y| ≤ |a - x| * |b - y| + |a - x| * |y| + |x| * |b - y| := by
        rw [hparts, ← abs_mul, ← abs_mul, ← abs_mul]
        exact (abs_add_le _ _).trans (by gcongr; exact abs_add_le _ _)
    _ ≤ (e + e' + e * e') * |x * y| := by
        rw [abs_mul]
        linarith

/-- The sign of a number is exact. -/
theorem Near.sign (h : Near e x d) (negative : Bool) :
    Near e ((if negative then -1 else 1) * x) ((Double.ofInt (if negative then -1 else 1)).mul d) := by
  obtain ⟨r, hr, rfl, hnear⟩ := h
  cases negative with
  | false =>
      refine ⟨r, hr, ?_, by simpa using hnear⟩
      rw [Double.ofInt_eq (by decide), Double.mul, ← Double.round_of_isDouble hr]
      simp
  | true =>
      refine ⟨-r, hr.neg, ?_, ?_⟩
      · rw [Double.ofInt_eq (by decide), Double.mul, ← Double.round_of_isDouble hr.neg]
        simp
      · have habs : |-r - -1 * x| = |r - x| := by
          rw [← abs_neg]
          ring_nf
        rw [if_pos rfl, habs, abs_mul, abs_neg, abs_one, one_mul]
        exact hnear

/-! ## The digits -/

theorem isDigit_sub_le {b : UInt8} (h : IsDigit b) : b.toNat - 48 ≤ 9 := by
  have hle : b.toNat ≤ 57 := UInt8.le_iff_toNat_le.1 h.2
  omega

theorem natOfDigits_lt (hds : ∀ b ∈ ds, IsDigit b) : natOfDigits N ds < (N + 1) * 10 ^ ds.length := by
  induction ds generalizing N with
  | nil => exact Nat.lt_of_lt_of_eq (Nat.lt_succ_self N) (Nat.mul_one _).symm
  | cons b ds ih =>
      have hb := isDigit_sub_le (hds b (List.mem_cons_self ..))
      have htail := ih (N := N * 10 + (b.toNat - 48)) fun c hc => hds c (List.mem_cons_of_mem b hc)
      calc natOfDigits N (b :: ds) < (N * 10 + (b.toNat - 48) + 1) * 10 ^ ds.length := htail
        _ ≤ (N + 1) * 10 * 10 ^ ds.length := Nat.mul_le_mul_right _ (by omega)
        _ = (N + 1) * 10 ^ (b :: ds).length := by rw [List.length_cons, pow_succ]; ring

theorem natOfDigits_lt_pow {k : ℕ} (hds : ∀ b ∈ ds, IsDigit b) (h : ds.length ≤ k) :
    natOfDigits 0 ds < 10 ^ k := by
  have hlt := natOfDigits_lt (N := 0) hds
  rw [Nat.zero_add, Nat.one_mul] at hlt
  exact hlt.trans_le (Nat.pow_le_pow_right (by decide) h)

theorem inRange_natCast (n : ℕ) : InRange n := by
  rcases Nat.eq_zero_or_pos n with rfl | hn
  · exact Or.inl Nat.cast_zero
  · right
    have hone : (1 : ℚ) ≤ n := by exact_mod_cast hn
    rw [abs_of_pos (by linarith)]
    exact (zpow_le_one_of_nonpos₀ one_le_two (by decide)).trans hone

/-- A number of three hundred digits is far from the largest double. -/
theorem natCast_lt_overflow {n : ℕ} (hn : n < 10 ^ 300) (he : e ≤ 1 / 2) :
    (1 + e) * |(n : ℚ)| < Double.overflow := by
  have hlt : (n : ℚ) < 10 ^ 300 := by exact_mod_cast hn
  rw [Nat.abs_cast]
  calc (1 + e) * n ≤ 10 ^ 8 * n := mul_le_mul_of_nonneg_right (by linarith) n.cast_nonneg
    _ ≤ 10 ^ 8 * 10 ^ 300 := mul_le_mul_of_nonneg_left hlt.le (by positivity)
    _ = 10 ^ 308 := (pow_add 10 8 300).symm
    _ < Double.overflow := Double.ten_pow_lt_overflow

/-- A digit more. -/
theorem Near.digit (h : Near e N d) {c : ℕ} (hc : c ≤ 9) (he : 0 ≤ e) (hle : e + 1 / 2 ^ 50 ≤ 1 / 2)
    (hlt : N * 10 + c < 10 ^ 300) :
    Near (e + 1 / 2 ^ 50) (N * 10 + c : ℕ) ((d.mul (.ofInt 10)).add (.ofInt c)) := by
  have hten : Near 0 ((10 : ℕ) : ℚ) (.ofInt 10) := near_ofInt (k := 10) (by decide)
  have hcast : (N : ℚ) * ((10 : ℕ) : ℚ) = (N * 10 : ℕ) := by push_cast; rfl
  have hmul := Near.mul h hten (hcast ▸ inRange_natCast _) he (by linarith)
    (hcast ▸ natCast_lt_overflow (by omega) (by linarith))
  rw [hcast, mul_zero, add_zero, add_zero] at hmul
  obtain ⟨r, hr, hd, hnear⟩ := hmul
  have habs : |((c : ℕ) : ℤ)| < 2 ^ 53 := by
    rw [Nat.abs_cast]
    omega
  rw [hd, Double.ofInt_eq habs, Double.add]
  refine Near.mono (near_round (e := e + 1 / 2 ^ 52) (inRange_natCast _) ?_ (by linarith)
    (natCast_lt_overflow hlt (by linarith))) (by linarith)
  have hsub : r + ((c : ℤ) : ℚ) - ((N * 10 + c : ℕ) : ℚ) = r - ((N * 10 : ℕ) : ℚ) := by
    push_cast
    ring
  rw [hsub]
  refine hnear.trans (mul_le_mul_of_nonneg_left ?_ (by linarith))
  rw [Nat.abs_cast, Nat.abs_cast]
  exact_mod_cast Nat.le_add_right _ _

/-- **Each digit adds to the error.** -/
theorem near_accDigits (hds : ∀ b ∈ ds, IsDigit b) (h : Near e N d) (he : 0 ≤ e)
    (hle : e + ds.length / 2 ^ 50 ≤ 1 / 2) (hlt : natOfDigits N ds < 10 ^ 300) :
    Near (e + ds.length / 2 ^ 50) (natOfDigits N ds) (accDigits d ds) := by
  induction ds generalizing N d e with
  | nil =>
      rw [List.length_nil, Nat.cast_zero, zero_div, add_zero]
      exact h
  | cons b ds ih =>
      rw [List.length_cons] at hle ⊢
      push_cast at hle ⊢
      have hstep : e + (ds.length + 1 : ℚ) / 2 ^ 50 = e + 1 / 2 ^ 50 + ds.length / 2 ^ 50 := by ring
      have hnonneg : (0 : ℚ) ≤ ds.length / 2 ^ 50 := by positivity
      rw [hstep] at hle ⊢
      have hdigit := h.digit (isDigit_sub_le (hds b (List.mem_cons_self ..))) he (by linarith)
        ((le_natOfDigits _ ds).trans_lt hlt)
      exact ih (fun c hc => hds c (List.mem_cons_of_mem b hc)) hdigit (by positivity) hle hlt

/-! ## The exponent -/

/-- No digit of a small exponent makes the `int` wrap. -/
theorem accInt_eq {n : ℕ} (h : natOfDigits n ds < 2 ^ 31) : accInt n ds = natOfDigits n ds := by
  induction ds generalizing n with
  | nil => rfl
  | cons b ds ih =>
      have hle := le_natOfDigits (n * 10 + (b.toNat - 48)) ds
      have hlt : n * 10 + (b.toNat - 48) < 2 ^ 31 := hle.trans_lt h
      have hwrap : wrapS32 ((n : ℤ) * 10 + (b.toNat - 48 : ℕ)) = (n * 10 + (b.toNat - 48) : ℕ) := by
        rw [wrapS32_of_mem] <;> push_cast <;> omega
      rw [accInt, List.foldl_cons, hwrap]
      exact ih h

theorem Exponent.value_eq {exp : Exponent} (h : natOfDigits 0 exp.digits < 2 ^ 31) :
    exp.value = exp.exact := by
  have hacc := accInt_eq (n := 0) h
  rw [Nat.cast_zero] at hacc
  rw [Exponent.value, Exponent.exact, hacc, Int.mul_comm]
  split <;> exact wrapS32_of_mem (by omega) (by omega)

theorem two_zpow_le_ten_zpow {k : ℤ} (hk : -300 ≤ k) : (2 : ℚ) ^ (-1021 : ℤ) ≤ 10 ^ k :=
  calc (2 : ℚ) ^ (-1021 : ℤ) ≤ 10 ^ (-300 : ℤ) := by
        rw [zpow_neg, zpow_neg]
        refine inv_anti₀ (by positivity) ?_
        have hnat : 10 ^ 300 ≤ 2 ^ 1021 := by decide +kernel
        exact_mod_cast hnat
    _ ≤ 10 ^ k := zpow_le_zpow_right₀ (by norm_num) hk

/-- **A power of ten**, as long as it has all of its bits. -/
theorem Double.PowTen.pow_near (hpow : Double.PowTen pow) {k : ℤ} (hlow : -300 ≤ k) (hhigh : k ≤ 308) :
    Near (1 / 2 ^ 52) (10 ^ k) (pow k) := by
  obtain ⟨r, hr, heq, hnear⟩ := hpow.near k hhigh
  refine ⟨r, hr, heq, hnear.trans ?_⟩
  have hnormal : (2 : ℚ) ^ (-1022 : ℤ) ≤ |(10 : ℚ) ^ k| := by
    rw [abs_of_pos (by positivity)]
    exact (zpow_le_zpow_right₀ one_le_two (by decide)).trans (two_zpow_le_ten_zpow hlow)
  have hplace := two_zpow_lastPlace_le hnormal
  linarith

/-! ## Reading -/

variable {t : NumberText}

theorem abs_exact (t : NumberText) :
    |t.exact| = natOfDigits 0 (t.int ++ t.frac) * 10 ^ t.scale := by
  have habs : |(if t.negative then -1 else 1 : ℚ)| = 1 := by split <;> simp
  rw [NumberText.exact, abs_mul, abs_mul, habs, one_mul, Nat.abs_cast, abs_of_pos (by positivity)]

/-- A number with three hundred digits at most, of a size that doubles can have. -/
structure NumberText.Moderate (t : NumberText) : Prop where
  digits : (t.int ++ t.frac).length ≤ 300
  scale : -300 ≤ t.scale ∧ t.scale ≤ 308
  exact : |t.exact| ≤ 1797693 * 10 ^ 302

/-- A small exponent fits an `int`. -/
theorem exp_eq_exact (hlen : t.frac.length ≤ 300) (hlow : -2000 ≤ t.scale) (hhigh : t.scale ≤ 308) :
    t.exp.elim 0 Exponent.value = t.exp.elim 0 Exponent.exact := by
  rw [NumberText.scale] at hlow hhigh
  cases hexp : t.exp with
  | none => rfl
  | some exp =>
      rw [hexp, Option.elim_some, Exponent.exact] at hlow hhigh
      refine Exponent.value_eq ?_
      by_cases hneg : exp.negative = some true
      · rw [if_pos hneg] at hlow
        omega
      · rw [if_neg hneg] at hhigh
        omega

theorem largest_lt_overflow : (1 + 1 / 10 ^ 9) * (1797693 * 10 ^ 302) < Double.overflow := by
  have hnat : (10 ^ 9 + 1) * (1797693 * 10 ^ 302) + 10 ^ 9 * 2 ^ 970 < 10 ^ 9 * 2 ^ 1024 := by
    decide +kernel
  have hcast : ((10 : ℚ) ^ 9 + 1) * (1797693 * 10 ^ 302) + 10 ^ 9 * 2 ^ 970 < 10 ^ 9 * 2 ^ 1024 := by
    exact_mod_cast hnat
  rw [Double.overflow]
  generalize (10 : ℚ) ^ 302 = a, (2 : ℚ) ^ 970 = b, (2 : ℚ) ^ 1024 = c at *
  linarith

/-- The digits with the sign. -/
theorem near_digits (ht : t.Valid) (hlen : (t.int ++ t.frac).length ≤ 300) :
    Near (300 / 2 ^ 50) ((if t.negative then -1 else 1) * natOfDigits 0 (t.int ++ t.frac))
      ((Double.ofInt (if t.negative then -1 else 1)).mul (accDigits (.ofInt 0) (t.int ++ t.frac))) := by
  have hlt : natOfDigits 0 (t.int ++ t.frac) < 10 ^ 300 := natOfDigits_lt_pow ht.digits hlen
  have herror : 0 + ((t.int ++ t.frac).length : ℚ) / 2 ^ 50 ≤ 300 / 2 ^ 50 := by
    have hcast : ((t.int ++ t.frac).length : ℚ) ≤ 300 := by exact_mod_cast hlen
    rw [zero_add]
    gcongr
  have hacc := near_accDigits ht.digits (near_ofInt (k := (0 : ℕ)) (by decide)) le_rfl
    (herror.trans (by norm_num)) hlt
  exact (hacc.mono herror).sign t.negative

/-- **A number is read to twelve places.** -/
theorem near_value (hpow : Double.PowTen pow) (ht : t.Valid) (h : t.Moderate) :
    Near (1 / 10 ^ 12) t.exact (t.value pow) := by
  have hrange : InRange t.exact := by
    rcases Nat.eq_zero_or_pos (natOfDigits 0 (t.int ++ t.frac)) with hzero | hpos
    · left
      rw [NumberText.exact, hzero, Nat.cast_zero, mul_zero, zero_mul]
    · right
      have hone : (1 : ℚ) ≤ natOfDigits 0 (t.int ++ t.frac) := by exact_mod_cast hpos
      rw [abs_exact]
      exact (two_zpow_le_ten_zpow h.scale.1).trans (le_mul_of_one_le_left (by positivity) hone)
  have hvalue := (near_digits ht h.digits).mul (hpow.pow_near h.scale.1 h.scale.2) hrange
    (by positivity) (by norm_num) ?_
  · have hfrac : t.frac.length ≤ 300 := by
      have hlen := h.digits
      rw [List.length_append] at hlen
      omega
    rw [NumberText.value, exp_eq_exact hfrac (by linarith [h.scale.1]) h.scale.2]
    exact hvalue.mono (by norm_num)
  · calc (1 + (300 / 2 ^ 50 + 1 / 2 ^ 52 + 300 / 2 ^ 50 * (1 / 2 ^ 52))) * |t.exact|
        ≤ (1 + 1 / 10 ^ 9) * (1797693 * 10 ^ 302) :=
          mul_le_mul (by norm_num) h.exact (abs_nonneg _) (by norm_num)
      _ < Double.overflow := largest_lt_overflow

theorem natOfDigits_eq_add (n : ℕ) (ds : List UInt8) :
    natOfDigits n ds = n * 10 ^ ds.length + natOfDigits 0 ds := by
  induction ds generalizing n with
  | nil => exact (Nat.mul_one n).symm
  | cons b ds ih =>
      show natOfDigits (n * 10 + (b.toNat - 48)) ds = _ + natOfDigits (0 * 10 + (b.toNat - 48)) ds
      rw [ih, ih (0 * 10 + _), List.length_cons, pow_succ]
      ring

theorem natOfDigits_append (ds ds' : List UInt8) :
    natOfDigits 0 (ds ++ ds') = natOfDigits 0 ds * 10 ^ ds'.length + natOfDigits 0 ds' := by
  rw [← natOfDigits_eq_add, natOfDigits, List.foldl_append]
  rfl

theorem natOfDigits_paddedDigits (w n : ℕ) : natOfDigits 0 (paddedDigits w n) = n := by
  rw [paddedDigits, natOfDigits_append, natOfDigits_decimalDigits]
  generalize w - (decimalDigits n).length = k
  have hzero : natOfDigits 0 (List.replicate k 48) = 0 := by
    induction k with
    | zero => rfl
    | succ k ih => exact ih
  rw [hzero, Nat.zero_mul, Nat.zero_add]

theorem length_paddedDigits {w n : ℕ} (hw : 1 ≤ w) (h : n < 10 ^ w) : (paddedDigits w n).length = w := by
  have hle := length_decimalDigits_le hw h
  rw [paddedDigits, List.length_append, List.length_replicate]
  omega

/-- A point changes no digit. -/
theorem natOfDigits_point {w : ℕ} (hw : 1 ≤ w) (m : ℕ) :
    natOfDigits 0 (decimalDigits (m / 10 ^ w) ++ paddedDigits w (m % 10 ^ w)) = m := by
  rw [natOfDigits_append, natOfDigits_decimalDigits, natOfDigits_paddedDigits,
    length_paddedDigits hw (Nat.mod_lt _ (by positivity)), Nat.div_add_mod']

theorem natCast_nearestEven (hx : 0 ≤ x) : ((nearestEven x).toNat : ℚ) = nearestEven x := by
  have hnonneg : 0 ≤ nearestEven x := (Int.floor_nonneg.2 hx).trans (floor_le_nearestEven x)
  exact_mod_cast congrArg (fun n : ℤ => (n : ℚ)) (Int.toNat_of_nonneg hnonneg)

/-- Both sides of a difference may lose their sign. -/
theorem abs_exact_sub (h : t.negative = decide (q < 0)) :
    |t.exact - q| = |natOfDigits 0 (t.int ++ t.frac) * 10 ^ t.scale - (|q|)| := by
  rw [NumberText.exact, h]
  generalize (natOfDigits 0 (t.int ++ t.frac) : ℚ) = n, (10 : ℚ) ^ t.scale = p
  by_cases hq : q < 0
  · rw [if_pos (decide_eq_true hq), abs_of_neg hq, ← abs_neg]
    congr 1
    ring
  · rw [if_neg (by simpa using hq), abs_of_nonneg (not_lt.1 hq), one_mul]

theorem intText_scale (k : ℤ) : (intText k).scale = 0 := rfl

theorem fixed0_scale (q : ℚ) : (fixed0 q).scale = 0 := rfl

theorem fixed6_scale (q : ℚ) : (fixed6 q).scale = -6 := by
  show -((paddedDigits 6 _).length : ℤ) + 0 = -6
  rw [length_paddedDigits (by decide) (Nat.mod_lt _ (by decide))]
  rfl

theorem exact_intText (k : ℤ) : (intText k).exact = k := by
  have hdigits : natOfDigits 0 (decimalDigits k.natAbs ++ []) = k.natAbs := by
    rw [List.append_nil, natOfDigits_decimalDigits]
  rw [NumberText.exact, intText_scale, intText, hdigits, zpow_zero, mul_one, Nat.cast_natAbs, Int.cast_abs]
  by_cases hk : k < 0
  · rw [if_pos (decide_eq_true hk), abs_of_neg (Int.cast_lt_zero.2 hk), neg_mul_neg, one_mul]
  · rw [if_neg (by simpa using hk), one_mul, abs_of_nonneg (Int.cast_nonneg (not_lt.1 hk))]

/-- `%.0f` rounds to an integer. -/
theorem abs_exact_fixed0_sub (q : ℚ) : |(fixed0 q).exact - q| = |(nearestEven |q| : ℚ) - (|q|)| := by
  have hdigits : natOfDigits 0 ((fixed0 q).int ++ (fixed0 q).frac) = (nearestEven |q|).toNat := by
    rw [fixed0, List.append_nil, natOfDigits_decimalDigits]
  rw [abs_exact_sub rfl, hdigits, fixed0_scale, zpow_zero, mul_one, natCast_nearestEven (abs_nonneg q)]

/-- `%f` rounds to six places. -/
theorem abs_exact_fixed6_sub_le (q : ℚ) : |(fixed6 q).exact - q| ≤ 1 / 2 / 10 ^ 6 := by
  have hdigits : natOfDigits 0 ((fixed6 q).int ++ (fixed6 q).frac) =
      (nearestEven (|q| * 10 ^ 6)).toNat := natOfDigits_point (by decide) _
  have hnear := abs_nearestEven_sub_le (|q| * 10 ^ 6)
  have hparts : (nearestEven (|q| * 10 ^ 6) : ℚ) * 10 ^ (-6 : ℤ) - |q| =
      (nearestEven (|q| * 10 ^ 6) - |q| * 10 ^ 6) / 10 ^ 6 := by
    rw [zpow_neg, sub_div, mul_div_cancel_right₀ _ (by positivity)]
    rfl
  rw [abs_exact_sub rfl, hdigits, fixed6_scale, natCast_nearestEven (by positivity), hparts, abs_div,
    abs_of_pos (show (0 : ℚ) < 10 ^ 6 by positivity)]
  exact div_le_div_of_nonneg_right hnear (by positivity)

/-- The seven digits of `%e` at the place of the last of them: a carry changes nothing. -/
theorem scientificDigits_mul (q : ℚ) (hq : q ≠ 0) :
    ((scientificDigits q).1 : ℚ) * 10 ^ ((scientificDigits q).2 - 6) =
      nearestEven (|q| / 10 ^ (Int.log 10 |q| - 6)) * 10 ^ (Int.log 10 |q| - 6) := by
  rw [← natCast_nearestEven (by positivity)]
  simp only [scientificDigits, if_neg hq]
  generalize (nearestEven (|q| / 10 ^ (Int.log 10 |q| - 6))).toNat = m
  split
  · next hm =>
      rw [hm, show Int.log 10 |q| + 1 - 6 = Int.log 10 |q| - 6 + 1 by ring, zpow_add_one₀ (by norm_num)]
      push_cast
      ring
  · rfl

theorem scientific_digits (q : ℚ) :
    natOfDigits 0 ((scientific q).int ++ (scientific q).frac) = (scientificDigits q).1 :=
  natOfDigits_point (by decide) _

theorem scientific_scale (q : ℚ) : (scientific q).scale = (scientificDigits q).2 - 6 := by
  have hexp : (scientific q).exp.elim 0 Exponent.exact = (scientificDigits q).2 := by
    show (if some (decide ((scientificDigits q).2 < 0)) = some true then -1 else 1) *
      ((natOfDigits 0 (paddedDigits 2 (scientificDigits q).2.natAbs) : ℕ) : ℤ) = _
    rw [natOfDigits_paddedDigits]
    by_cases hneg : (scientificDigits q).2 < 0
    · rw [if_pos (by rw [decide_eq_true hneg])]
      omega
    · rw [if_neg (by simpa using hneg)]
      omega
  have hlen : (scientific q).frac.length = 6 :=
    length_paddedDigits (by decide) (Nat.mod_lt _ (by decide))
  rw [NumberText.scale, hexp, hlen]
  omega

/-- `%e` rounds to seven digits. -/
theorem abs_exact_scientific_sub_le (hq : q ≠ 0) :
    |(scientific q).exact - q| ≤ |q| / 2 / 10 ^ 6 := by
  have hpos : 0 < |q| := abs_pos.2 hq
  rw [abs_exact_sub rfl, scientific_digits, scientific_scale, scientificDigits_mul q hq]
  have hself : (10 : ℚ) ^ Int.log 10 |q| ≤ |q| := by
    exact_mod_cast Int.zpow_log_le_self (b := 10) (by decide) hpos
  have hlast : (10 : ℚ) ^ (Int.log 10 |q| - 6) = 10 ^ Int.log 10 |q| / 10 ^ 6 := by
    rw [zpow_sub₀ (by norm_num)]
    rfl
  have hplace : (0 : ℚ) < 10 ^ (Int.log 10 |q| - 6) := by positivity
  have hnear := abs_nearestEven_sub_le (|q| / 10 ^ (Int.log 10 |q| - 6))
  have hparts : (nearestEven (|q| / 10 ^ (Int.log 10 |q| - 6)) : ℚ) * 10 ^ (Int.log 10 |q| - 6) - |q| =
      (nearestEven (|q| / 10 ^ (Int.log 10 |q| - 6)) - |q| / 10 ^ (Int.log 10 |q| - 6)) *
        10 ^ (Int.log 10 |q| - 6) := by
    rw [sub_mul, div_mul_cancel₀ _ hplace.ne']
  calc |(nearestEven (|q| / 10 ^ (Int.log 10 |q| - 6)) : ℚ) * 10 ^ (Int.log 10 |q| - 6) - (|q|)|
      ≤ 1 / 2 * 10 ^ (Int.log 10 |q| - 6) := by
        rw [hparts, abs_mul, abs_of_pos hplace]
        exact mul_le_mul_of_nonneg_right hnear hplace.le
    _ ≤ |q| / 2 / 10 ^ 6 := by
        rw [hlast]
        linarith

/-! ## Sizes -/

/-- A number without a positive exponent. -/
theorem moderate_of_scale_le (ht : t.Valid) (hlen : (t.int ++ t.frac).length ≤ 300)
    (hscale : -300 ≤ t.scale ∧ t.scale ≤ 0) : t.Moderate where
  digits := hlen
  scale := ⟨hscale.1, hscale.2.trans (by decide)⟩
  exact := by
    have hlt : (natOfDigits 0 (t.int ++ t.frac) : ℚ) < 10 ^ 300 := by
      exact_mod_cast natOfDigits_lt_pow ht.digits hlen
    have hone : (10 : ℚ) ^ t.scale ≤ 1 := zpow_le_one_of_nonpos₀ (by norm_num) hscale.2
    rw [abs_exact]
    calc (natOfDigits 0 (t.int ++ t.frac) : ℚ) * 10 ^ t.scale ≤ 10 ^ 300 * 1 :=
          mul_le_mul hlt.le hone (by positivity) (by positivity)
      _ = 1 * 10 ^ 300 := mul_comm _ _
      _ ≤ 1797693 * 10 ^ 302 := mul_le_mul (by norm_num)
          (pow_le_pow_right₀ (by norm_num) (by decide)) (by positivity) (by positivity)

theorem moderate_intText {k : ℤ} (h : k.natAbs < 10 ^ 300) : (intText k).Moderate := by
  refine moderate_of_scale_le (valid_intText k) ?_ (by rw [intText_scale]; decide)
  rw [intText, List.append_nil]
  exact length_decimalDigits_le (by decide) h

theorem moderate_fixed0 (h : |q| ≤ 2 * 10 ^ 60) : (fixed0 q).Moderate := by
  refine moderate_of_scale_le (valid_fixed0 q) ?_ (by rw [fixed0_scale]; decide)
  have hle := toNat_nearestEven_le (q := |q|) (n := 2 * 10 ^ 60) (by rw [abs_abs]; exact_mod_cast h)
  rw [fixed0, List.append_nil]
  exact (length_decimalDigits_le (k := 61) (by decide) (by omega)).trans (by decide)

theorem moderate_fixed6 (h : |q| ≤ 2 * 10 ^ 9) : (fixed6 q).Moderate := by
  refine moderate_of_scale_le (valid_fixed6 q) ?_ (by rw [fixed6_scale]; decide)
  have hle := toNat_nearestEven_le (q := |q| * 10 ^ 6) (n := 2 * 10 ^ 15) (by
    rw [abs_of_nonneg (by positivity)]
    push_cast
    linarith)
  have hint := length_decimalDigits_le (n := (nearestEven (|q| * 10 ^ 6)).toNat / 10 ^ 6) (k := 10)
    (by decide) (by omega)
  have hfrac := length_paddedDigits (w := 6) (by decide)
    (Nat.mod_lt (nearestEven (|q| * 10 ^ 6)).toNat (by decide))
  rw [List.length_append]
  show (decimalDigits _).length + (paddedDigits 6 _).length ≤ 300
  omega

/-- The digits of the largest double round down. -/
theorem two_pow_lt_largest : (2 : ℚ) ^ 1024 < 17976932 / 10 * 10 ^ 302 := by
  have hnat : 10 * 2 ^ 1024 < 17976932 * 10 ^ 302 := by decide +kernel
  have hcast : 10 * (2 : ℚ) ^ 1024 < 17976932 * 10 ^ 302 := by exact_mod_cast hnat
  generalize (2 : ℚ) ^ 1024 = a, (10 : ℚ) ^ 302 = b at *
  linarith

theorem log_le_of_isDouble (hq : IsDouble q) (hne : q ≠ 0) : Int.log 10 |q| ≤ 308 := by
  have hlt : |q| < (10 : ℚ) ^ (309 : ℤ) := by
    have hnat : 2 ^ 1024 < 10 ^ 309 := by decide +kernel
    have hcast : (2 : ℚ) ^ 1024 < 10 ^ 309 := by exact_mod_cast hnat
    rw [show (309 : ℤ) = ((309 : ℕ) : ℤ) from rfl, zpow_natCast]
    exact hq.2.trans hcast
  rw [← Nat.cast_ofNat] at hlt
  exact Int.lt_add_one_iff.1 ((Int.lt_zpow_iff_log_lt (b := 10) (by decide) (abs_pos.2 hne)).1 hlt)

/-- What `%e` writes is no larger than the largest number that is read. -/
theorem nearestEven_scientific_le (hq : IsDouble q) (hne : q ≠ 0) :
    (nearestEven (|q| / 10 ^ (Int.log 10 |q| - 6)) : ℚ) * 10 ^ (Int.log 10 |q| - 6) ≤
      1797693 * 10 ^ 302 := by
  have hk := log_le_of_isDouble hq hne
  have hself : |q| < (10 : ℚ) ^ (Int.log 10 |q| + 1) := by
    exact_mod_cast Int.lt_zpow_succ_log_self (b := 10) (by decide) |q|
  generalize Int.log 10 |q| = k at *
  have hpos : (0 : ℚ) < 10 ^ (k - 6) := by positivity
  rcases lt_or_eq_of_le hk with hlt | rfl
  · have hseven : |(|q| / 10 ^ (k - 6))| ≤ ((10 ^ 7 : ℤ) : ℚ) := by
      rw [abs_of_nonneg (by positivity), div_le_iff₀ hpos]
      rw [Int.cast_pow, Int.cast_ofNat, ← zpow_natCast, ← zpow_add₀ (by norm_num)]
      exact hself.le.trans (le_of_eq (by congr 1; push_cast; ring))
    have hle := (le_abs_self _).trans (abs_nearestEven_le hseven)
    have hcast : (nearestEven (|q| / 10 ^ (k - 6)) : ℚ) ≤ 10 ^ 7 := by exact_mod_cast hle
    calc (nearestEven (|q| / 10 ^ (k - 6)) : ℚ) * 10 ^ (k - 6) ≤ 10 ^ 7 * 10 ^ (301 : ℤ) :=
          mul_le_mul hcast (zpow_le_zpow_right₀ (by norm_num) (by omega)) hpos.le (by positivity)
      _ = 10 ^ 6 * 10 ^ 302 := by
          rw [show (301 : ℤ) = ((301 : ℕ) : ℤ) from rfl, zpow_natCast, ← pow_add, ← pow_add]
      _ ≤ 1797693 * 10 ^ 302 := mul_le_mul_of_nonneg_right (by norm_num) (by positivity)
  · have hpow : (10 : ℚ) ^ ((308 : ℤ) - 6) = 10 ^ 302 := by
      rw [show (308 : ℤ) - 6 = ((302 : ℕ) : ℤ) from rfl, zpow_natCast]
    rw [hpow] at hpos ⊢
    have hlarge : |q| / 10 ^ 302 < 17976932 / 10 := by
      rw [div_lt_iff₀ hpos]
      exact hq.2.trans two_pow_lt_largest
    refine mul_le_mul_of_nonneg_right ?_ hpos.le
    generalize |q| / 10 ^ 302 = x at hlarge ⊢
    have hnear := (abs_le.1 (abs_nearestEven_sub_le x)).2
    have hlt : (nearestEven x : ℚ) < ((1797694 : ℤ) : ℚ) := by
      push_cast
      linarith
    have hle : nearestEven x ≤ 1797693 := Int.le_of_lt_add_one (Int.cast_lt.1 hlt)
    exact_mod_cast hle

theorem length_scientific_digits (q : ℚ) : ((scientific q).int ++ (scientific q).frac).length ≤ 7 := by
  have hm := scientificDigits_lt q
  have hint := length_decimalDigits_le (n := (scientificDigits q).1 / 10 ^ 6) (k := 1) (by decide)
    (by omega)
  have hfrac := length_paddedDigits (w := 6) (by decide) (Nat.mod_lt (scientificDigits q).1 (by decide))
  rw [List.length_append]
  show (decimalDigits ((scientificDigits q).1 / 10 ^ 6)).length +
    (paddedDigits 6 ((scientificDigits q).1 % 10 ^ 6)).length ≤ 7
  omega

theorem moderate_scientific (hq : IsDouble q) (hne : q ≠ 0) (h : -300 ≤ (scientific q).scale) :
    (scientific q).Moderate where
  digits := (length_scientific_digits q).trans (by decide)
  scale := by
    refine ⟨h, ?_⟩
    have hk := log_le_of_isDouble hq hne
    have hexp : (scientificDigits q).2 ≤ Int.log 10 |q| + 1 := by
      simp only [scientificDigits, if_neg hne]
      split <;> simp
    rw [scientific_scale]
    omega
  exact := by
    rw [abs_exact, scientific_digits, scientific_scale, scientificDigits_mul q hne]
    exact nearestEven_scientific_le hq hne

/-! ## What is written is read again -/

/-- The text is read as a number that agrees with `q` in six places, whatever the powers of ten are
    rounded to. -/
def ReadsAs (t : NumberText) (q : ℚ) : Prop :=
  ∀ pow, Double.PowTen pow → ∃ r hr, t.value pow = .finite r hr ∧ |r - q| ≤ max 1 |q| / 10 ^ 6

theorem readsAs_of_moderate (ht : t.Valid) (h : t.Moderate)
    (hq : |t.exact - q| ≤ 6 * max 1 |q| / 10 ^ 7) : ReadsAs t q := by
  intro pow hpow
  obtain ⟨r, hr, heq, hnear⟩ := near_value hpow ht h
  refine ⟨r, hr, heq, ?_⟩
  have hone : (1 : ℚ) ≤ max 1 |q| := le_max_left _ _
  have hmax : |q| ≤ max 1 |q| := le_max_right _ _
  have hexact : |t.exact| ≤ |t.exact - q| + |q| := by
    simpa only [sub_add_cancel] using abs_add_le (t.exact - q) q
  have hsub := abs_sub_le r t.exact q
  linarith

theorem readsAs_intText {k : ℤ} (hk : |k| < 2 ^ 53) (hq : |(k : ℚ) - q| ≤ 1 / 2 ^ 51) :
    ReadsAs (intText k) q := by
  have hone : (1 : ℚ) ≤ max 1 |q| := le_max_left _ _
  have hnat : k.natAbs < 2 ^ 53 := by
    rw [Int.abs_eq_natAbs] at hk
    omega
  refine readsAs_of_moderate (valid_intText k) (moderate_intText (hnat.trans ?_)) ?_
  · decide +kernel
  · rw [exact_intText]
    linarith

theorem abs_nearestEven_abs_sub (q : ℚ) :
    |(nearestEven |q| : ℚ) - (|q|)| = |(nearestEven q : ℚ) - q| := by
  rcases abs_choice q with h | h <;> rw [h]
  rw [nearestEven_neg, ← abs_neg]
  congr 1
  push_cast
  ring

theorem readsAs_fixed0 (h : |q| ≤ 2 * 10 ^ 60) (hq : 10 ^ 6 ≤ |q| ∨ |(⌊q⌋ : ℚ) - q| ≤ 1 / 2 ^ 51) :
    ReadsAs (fixed0 q) q := by
  refine readsAs_of_moderate (valid_fixed0 q) (moderate_fixed0 h) ?_
  rw [abs_exact_fixed0_sub, abs_nearestEven_abs_sub]
  rcases hq with hlarge | hfloor
  · have hnear := abs_nearestEven_sub_le q
    have hmax : |q| ≤ max 1 |q| := le_max_right _ _
    linarith
  · have hone : (1 : ℚ) ≤ max 1 |q| := le_max_left _ _
    have hfract : 2 * Int.fract q < 1 := by
      have hself : Int.fract q = q - ⌊q⌋ := rfl
      have hle := (abs_le.1 hfloor).1
      linarith
    have hnearest : nearestEven q = ⌊q⌋ := if_pos (Or.inl hfract)
    rw [hnearest]
    linarith

theorem readsAs_fixed6 (h : |q| ≤ 2 * 10 ^ 9) : ReadsAs (fixed6 q) q := by
  have hone : (1 : ℚ) ≤ max 1 |q| := le_max_left _ _
  have hnear := abs_exact_fixed6_sub_le q
  exact readsAs_of_moderate (valid_fixed6 q) (moderate_fixed6 h) (by linarith)

theorem two_zpow_lastPlace_le_of_lt (h : |q| < 2) : (2 : ℚ) ^ Double.lastPlace q ≤ 1 / 2 ^ 52 := by
  have hle : Double.lastPlace q ≤ -52 := by
    rcases eq_or_ne q 0 with rfl | hq
    · rw [Double.lastPlace, abs_zero, Int.log_zero_right]
      decide
    · exact Double.lastPlace_le hq (by simpa using h) (by decide)
  calc (2 : ℚ) ^ Double.lastPlace q ≤ 2 ^ (-52 : ℤ) := zpow_le_zpow_right₀ one_le_two hle
    _ = 1 / 2 ^ 52 := by rw [zpow_neg, one_div]; rfl

/-- A few digits at a low place are read as a number that is almost zero. -/
theorem readsAs_tiny (ht : t.Valid) (hlen : (t.int ++ t.frac).length ≤ 7) (hlow : -2000 ≤ t.scale)
    (hhigh : t.scale ≤ -20) (hq : |q| ≤ 1 / 10 ^ 7) : ReadsAs t q := by
  intro pow hpow
  have hlt : natOfDigits 0 (t.int ++ t.frac) < 10 ^ 7 := natOfDigits_lt_pow ht.digits hlen
  obtain ⟨a, ha, hsign, hnear⟩ := near_digits ht (hlen.trans (by decide))
  obtain ⟨p, hp, hscale, hplace⟩ := hpow.near t.scale (by omega)
  have hten : (10 : ℚ) ^ t.scale ≤ 1 / 10 ^ 20 := by
    calc (10 : ℚ) ^ t.scale ≤ 10 ^ (-20 : ℤ) := zpow_le_zpow_right₀ (by norm_num) hhigh
      _ = 1 / 10 ^ 20 := by rw [zpow_neg, one_div]; rfl
  have htenpos : (0 : ℚ) < 10 ^ t.scale := by positivity
  have ha7 : |a| ≤ 2 * 10 ^ 7 := by
    have habs := abs_sub_abs_le_abs_sub a ((if t.negative then -1 else 1) *
      (natOfDigits 0 (t.int ++ t.frac) : ℚ))
    have hcast : (natOfDigits 0 (t.int ++ t.frac) : ℚ) ≤ 10 ^ 7 := by exact_mod_cast hlt.le
    have hnat : |(if t.negative then -1 else 1) * (natOfDigits 0 (t.int ++ t.frac) : ℚ)| ≤ 10 ^ 7 := by
      cases t.negative <;> simpa using hcast
    linarith
  have hp16 : |p| ≤ 3 / 10 ^ 16 := by
    have habs := abs_sub_abs_le_abs_sub p (10 ^ t.scale)
    have hlast := two_zpow_lastPlace_le_of_lt (q := 10 ^ t.scale) (by
      rw [abs_of_pos htenpos]
      linarith)
    rw [abs_of_pos htenpos] at habs
    linarith
  have hap : |a * p| ≤ 6 / 10 ^ 9 := by
    rw [abs_mul]
    calc |a| * |p| ≤ 2 * 10 ^ 7 * (3 / 10 ^ 16) := mul_le_mul ha7 hp16 (abs_nonneg p) (by positivity)
      _ = 6 / 10 ^ 9 := by norm_num
  have hoverflow : |a * p| < Double.overflow :=
    (hap.trans (by norm_num)).trans_lt
      ((one_le_pow₀ (by norm_num)).trans_lt Double.ten_pow_lt_overflow : (1 : ℚ) < Double.overflow)
  obtain ⟨r, hr, hround, hsub⟩ := Double.exists_round_near hoverflow
  refine ⟨r, hr, ?_, ?_⟩
  · have hfrac : t.frac.length ≤ 300 := by
      rw [List.length_append] at hlen
      omega
    rw [NumberText.value, exp_eq_exact hfrac hlow (by omega), hsign, ← hround]
    show Double.mul _ (pow t.scale) = _
    rw [hscale, Double.mul]
  · have hlast := two_zpow_lastPlace_le_of_lt (q := a * p) (by linarith)
    have hone : (1 : ℚ) ≤ max 1 |q| := le_max_left _ _
    have hle := abs_sub_abs_le_abs_sub r (a * p)
    have hrq := abs_sub r q
    linarith

/-- `%e`. -/
theorem readsAs_scientific (hq : IsDouble q) (hne : q ≠ 0) : ReadsAs (scientific q) q := by
  by_cases hscale : -300 ≤ (scientific q).scale
  · have hmax : |q| ≤ max 1 |q| := le_max_right _ _
    have hone : (1 : ℚ) ≤ max 1 |q| := le_max_left _ _
    have hnear := abs_exact_scientific_sub_le hne
    exact readsAs_of_moderate (valid_scientific q) (moderate_scientific hq hne hscale) (by linarith)
  · have hexp := natAbs_scientificDigits_le hq
    have hlog : Int.log 10 |q| ≤ (scientificDigits q).2 := by
      simp only [scientificDigits, if_neg hne]
      split <;> simp
    rw [scientific_scale] at hscale
    have hsmall : |q| ≤ 1 / 10 ^ 7 := by
      have hself : |q| < (10 : ℚ) ^ (Int.log 10 |q| + 1) := by
        exact_mod_cast Int.lt_zpow_succ_log_self (b := 10) (by decide) |q|
      calc |q| ≤ 10 ^ (-7 : ℤ) :=
            hself.le.trans (zpow_le_zpow_right₀ (by norm_num) (by omega))
        _ = 1 / 10 ^ 7 := by rw [zpow_neg, one_div]; rfl
    refine readsAs_tiny (valid_scientific q) (length_scientific_digits q) ?_ ?_ hsmall <;>
      rw [scientific_scale] <;> omega

end XToolkits
