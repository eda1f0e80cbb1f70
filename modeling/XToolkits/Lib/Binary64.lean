import Mathlib.Data.Int.Log
import Mathlib.Data.Rat.Floor
import Mathlib.Algebra.Order.Field.Power
import Mathlib.Tactic.FieldSimp
import Mathlib.Tactic.NormNum
import Mathlib.Tactic.Positivity
import Mathlib.Tactic.Ring

set_option autoImplicit false

/-! # Doubles

The numbers of the binary64 format as rationals. An operation computes the exact rational and
rounds it to 53 bits, to the nearest number and to the even one of two; a number too large for the
format is an infinity. Zeros of both signs are one value.

Integers below `2 ^ 53` are numbers of the format, so sums and products of integers that stay below
it are exact. -/

namespace XToolkits

/-- The nearest integer, and the even one of two. -/
def nearestEven (q : ℚ) : ℤ :=
  if 2 * Int.fract q < 1 ∨ (2 * Int.fract q = 1 ∧ ⌊q⌋ % 2 = 0) then ⌊q⌋ else ⌊q⌋ + 1

theorem nearestEven_intCast (n : ℤ) : nearestEven n = n := by
  rw [nearestEven, Int.fract_intCast, if_pos (Or.inl (by norm_num)), Int.floor_intCast]

theorem floor_le_nearestEven (q : ℚ) : ⌊q⌋ ≤ nearestEven q := by
  rw [nearestEven]
  split <;> omega

theorem nearestEven_le_floor_add_one (q : ℚ) : nearestEven q ≤ ⌊q⌋ + 1 := by
  rw [nearestEven]
  split <;> omega

/-- The nearest integer is at most a half away. -/
theorem abs_nearestEven_sub_le (q : ℚ) : |(nearestEven q : ℚ) - q| ≤ 1 / 2 := by
  have hfract : Int.fract q = q - ⌊q⌋ := rfl
  have hnonneg := Int.fract_nonneg q
  have hlt := Int.fract_lt_one q
  rw [nearestEven, abs_le]
  split
  · next h =>
      have hhalf : 2 * Int.fract q ≤ 1 := h.elim le_of_lt fun h => h.1.le
      exact ⟨by linarith, by linarith⟩
  · next h =>
      have hhalf : 1 ≤ 2 * Int.fract q := not_lt.1 fun hlt => h (Or.inl hlt)
      push_cast
      exact ⟨by linarith, by linarith⟩

/-- An integer bound stays a bound. -/
theorem abs_nearestEven_le {q : ℚ} {n : ℤ} (h : |q| ≤ n) : |nearestEven q| ≤ n := by
  rw [abs_le] at h ⊢
  have hfloor : -n ≤ ⌊q⌋ := Int.le_floor.2 (by push_cast; exact h.1)
  refine ⟨hfloor.trans (floor_le_nearestEven q), ?_⟩
  rcases eq_or_lt_of_le h.2 with hq | hq
  · rw [hq, nearestEven_intCast]
  · exact (nearestEven_le_floor_add_one q).trans (Int.floor_lt.2 hq)

theorem nearestEven_neg (q : ℚ) : nearestEven (-q) = -nearestEven q := by
  by_cases hfract : Int.fract q = 0
  · have hq : ((⌊q⌋ : ℤ) : ℚ) = q := by
      have := Int.self_sub_floor q
      linarith
    rw [← hq, ← Int.cast_neg, nearestEven_intCast, nearestEven_intCast]
  · have hfloor : ⌊-q⌋ = -⌊q⌋ - 1 := by
      have hlt : 0 < q - ⌊q⌋ := lt_of_le_of_ne (Int.fract_nonneg q) (Ne.symm hfract)
      rw [Int.floor_eq_iff]
      push_cast
      exact ⟨by linarith [Int.lt_floor_add_one q], by linarith⟩
    rw [nearestEven, nearestEven, Int.fract_neg hfract, hfloor]
    rcases lt_trichotomy (2 * Int.fract q) 1 with h | h | h
    · rw [if_neg, if_pos (Or.inl h)]
      · omega
      · rintro (h' | h') <;> linarith
    · have h' : 2 * (1 - Int.fract q) = 1 := by linarith
      simp only [h, h', lt_irrefl, false_or, true_and]
      split <;> split <;> omega
    · rw [if_pos (Or.inl (by linarith)), if_neg]
      · omega
      · rintro (h' | h') <;> linarith

namespace Double

/-! ## Rounding -/

/-- The exponent of the last place of a number. -/
def lastPlace (q : ℚ) : ℤ := max (Int.log 2 |q| - 52) (-1074)

/-- The rational that `q` is rounded to, when the exponents have no upper bound. -/
def rounded (q : ℚ) : ℚ := nearestEven (q / 2 ^ lastPlace q) * 2 ^ lastPlace q

/-- A multiple of a last place that is high enough is rounded to itself. -/
theorem rounded_of_multiple {q : ℚ} {n e : ℤ} (h : q = n * 2 ^ e) (he : lastPlace q ≤ e) :
    rounded q = q := by
  obtain ⟨k, hk⟩ := Int.le.dest he
  have hpos : (2 : ℚ) ^ lastPlace q ≠ 0 := by positivity
  have hq : q = ((n * 2 ^ k : ℤ) : ℚ) * 2 ^ lastPlace q := by
    rw [Int.cast_mul, Int.cast_pow, Int.cast_ofNat, mul_assoc, ← zpow_natCast, ← zpow_add₀ two_ne_zero,
      Int.add_comm, hk]
    exact h
  rw [rounded]
  nth_rewrite 1 [hq]
  rw [mul_div_cancel_right₀ _ hpos, nearestEven_intCast, ← hq]

theorem abs_lt_two_zpow (q : ℚ) : |q| < 2 ^ (lastPlace q + 53) := by
  have hle : Int.log 2 |q| + 1 ≤ lastPlace q + 53 := by
    rw [lastPlace]
    omega
  exact (Int.lt_zpow_succ_log_self one_lt_two |q|).trans_le (zpow_le_zpow_right₀ one_le_two hle)

theorem lastPlace_le {q : ℚ} {e : ℤ} (hq : q ≠ 0) (h : |q| < 2 ^ (e + 53)) (he : -1074 ≤ e) :
    lastPlace q ≤ e := by
  have hlog := (Int.lt_zpow_iff_log_lt one_lt_two (abs_pos.2 hq)).1 h
  rw [lastPlace]
  omega

/-- Rounding again changes nothing: a carry gives a power of two. -/
theorem rounded_rounded (q : ℚ) : rounded (rounded q) = rounded q := by
  have hpos : (0 : ℚ) < 2 ^ lastPlace q := by positivity
  have hlow : -1074 ≤ lastPlace q := le_max_right _ _
  have hdigits : |nearestEven (q / 2 ^ lastPlace q)| ≤ 2 ^ 53 := by
    refine abs_nearestEven_le ?_
    have hlt := (abs_lt_two_zpow q).le
    rw [zpow_add₀ two_ne_zero] at hlt
    rw [abs_div, abs_of_pos hpos, div_le_iff₀ hpos, mul_comm]
    exact_mod_cast hlt
  rw [show rounded q = nearestEven (q / 2 ^ lastPlace q) * 2 ^ lastPlace q from rfl]
  generalize nearestEven (q / 2 ^ lastPlace q) = n at hdigits
  rcases eq_or_ne n 0 with rfl | hn
  · simp [rounded, nearestEven]
  have hne : (n : ℚ) * 2 ^ lastPlace q ≠ 0 := mul_ne_zero (Int.cast_ne_zero.2 hn) hpos.ne'
  rcases lt_or_eq_of_le hdigits with hlt | hcarry
  · refine rounded_of_multiple rfl (lastPlace_le hne ?_ hlow)
    have hcast : |(n : ℚ)| < 2 ^ (53 : ℤ) := by exact_mod_cast hlt
    rw [abs_mul, abs_of_pos hpos, zpow_add₀ two_ne_zero, mul_comm]
    exact mul_lt_mul_of_pos_left hcast hpos
  · have hhalf : n = n / 2 * 2 := by
      rcases eq_or_eq_neg_of_abs_eq hcarry with h | h <;> omega
    have heq : (n : ℚ) * 2 ^ lastPlace q = (n / 2 : ℤ) * 2 ^ (lastPlace q + 1) := by
      rw [zpow_add_one₀ two_ne_zero]
      nth_rewrite 1 [hhalf]
      push_cast
      ring
    refine rounded_of_multiple heq (lastPlace_le hne ?_ (by omega))
    have hcast : |(n : ℚ)| = 2 ^ (53 : ℤ) := by exact_mod_cast hcarry
    rw [abs_mul, abs_of_pos hpos, hcast, mul_comm, ← zpow_add₀ two_ne_zero]
    exact zpow_lt_zpow_right₀ one_lt_two (by omega)

/-- Rounding is off by half a last place at most. -/
theorem abs_rounded_sub_le (q : ℚ) : |rounded q - q| ≤ 2 ^ lastPlace q / 2 := by
  have hpos : (0 : ℚ) < 2 ^ lastPlace q := by positivity
  have heq : rounded q - q = (nearestEven (q / 2 ^ lastPlace q) - q / 2 ^ lastPlace q) *
      2 ^ lastPlace q := by
    rw [sub_mul, div_mul_cancel₀ _ hpos.ne', rounded]
  calc |rounded q - q| ≤ 1 / 2 * 2 ^ lastPlace q := by
        rw [heq, abs_mul, abs_of_pos hpos]
        exact mul_le_mul_of_nonneg_right (abs_nearestEven_sub_le _) hpos.le
    _ = 2 ^ lastPlace q / 2 := by ring

theorem rounded_neg (q : ℚ) : rounded (-q) = -rounded q := by
  rw [rounded, rounded, lastPlace, abs_neg, ← lastPlace, neg_div, nearestEven_neg, Int.cast_neg, neg_mul]

theorem rounded_eq_zero_or (q : ℚ) : rounded q = 0 ∨ (2 : ℚ) ^ (-1074 : ℤ) ≤ |rounded q| := by
  by_cases hn : nearestEven (q / 2 ^ lastPlace q) = 0
  · left
    rw [rounded, hn, Int.cast_zero, zero_mul]
  · right
    have hone : (1 : ℚ) ≤ |(nearestEven (q / 2 ^ lastPlace q) : ℚ)| := by
      rw [← Int.cast_abs]
      exact_mod_cast Int.one_le_abs hn
    have hplace : (2 : ℚ) ^ (-1074 : ℤ) ≤ 2 ^ lastPlace q :=
      zpow_le_zpow_right₀ one_le_two (le_max_right _ _)
    have hpos : (0 : ℚ) < 2 ^ lastPlace q := by positivity
    rw [rounded, abs_mul, abs_of_pos hpos]
    nlinarith

/-- **Integers below `2 ^ 53` are exact.** -/
theorem rounded_intCast {n : ℤ} (h : |n| < 2 ^ 53) : rounded (n : ℚ) = n := by
  obtain ⟨k, hk⟩ : ∃ k : ℕ, lastPlace (n : ℚ) = -(k : ℤ) := by
    have hlog : Int.log 2 |(n : ℚ)| < 53 := by
      rcases eq_or_ne n 0 with rfl | hn
      · simp
      · have hn : (0 : ℚ) < |(n : ℚ)| := abs_pos.2 (Int.cast_ne_zero.2 hn)
        rw [← Int.lt_zpow_iff_log_lt one_lt_two hn, ← Int.cast_abs]
        exact_mod_cast h
    refine ⟨(-lastPlace (n : ℚ)).toNat, ?_⟩
    rw [lastPlace]
    omega
  refine rounded_of_multiple (n := n * 2 ^ k) ?_ hk.le
  rw [zpow_neg, zpow_natCast]
  push_cast
  field_simp

/-! ## The numbers of the format -/

end Double

/-- A number of the format: 53 bits, and not too large. -/
def IsDouble (q : ℚ) : Prop := Double.rounded q = q ∧ |q| < 2 ^ 1024

instance (q : ℚ) : Decidable (IsDouble q) := inferInstanceAs (Decidable (_ ∧ _))

inductive Double where
  | finite (q : ℚ) (hq : IsDouble q)
  | infinity (negative : Bool)
  | nan
  deriving DecidableEq

/-- A number of the format is zero, or from the least subnormal on. -/
theorem IsDouble.eq_zero_or {q : ℚ} (h : IsDouble q) : q = 0 ∨ (2 : ℚ) ^ (-1074 : ℤ) ≤ |q| := by
  have hrounded := Double.rounded_eq_zero_or q
  rwa [h.1] at hrounded

theorem IsDouble.neg {q : ℚ} (h : IsDouble q) : IsDouble (-q) := by
  refine ⟨?_, ?_⟩
  · rw [Double.rounded_neg, h.1]
  · rw [abs_neg]
    exact h.2

theorem IsDouble.abs {q : ℚ} (h : IsDouble q) : IsDouble |q| := by
  rcases abs_choice q with hq | hq <;> rw [hq]
  · exact h
  · exact h.neg

namespace Double

/-- The double nearest to a rational. -/
def round (q : ℚ) : Double :=
  if h : |rounded q| < 2 ^ 1024 then .finite (rounded q) ⟨rounded_rounded q, h⟩
  else .infinity (decide (q < 0))

/-- **A number of the format is rounded to itself.** -/
theorem round_of_isDouble {q : ℚ} (h : IsDouble q) : round q = .finite q h := by
  have hlt : |rounded q| < 2 ^ 1024 := by
    rw [h.1]
    exact h.2
  rw [round, dif_pos hlt]
  simp only [h.1]

/-! ## Operations -/

def ofInt (n : ℤ) : Double := round n

/-- `finite`, for an integer below `2 ^ 53`. -/
theorem isDouble_intCast {n : ℤ} (h : |n| < 2 ^ 53) : IsDouble (n : ℚ) := by
  refine ⟨rounded_intCast h, ?_⟩
  calc |(n : ℚ)| = ((|n| : ℤ) : ℚ) := (Int.cast_abs).symm
    _ < ((2 ^ 53 : ℤ) : ℚ) := Int.cast_lt.2 h
    _ = (2 : ℚ) ^ 53 := by push_cast; rfl
    _ < 2 ^ 1024 := pow_lt_pow_right₀ one_lt_two (by decide)

theorem ofInt_eq {n : ℤ} (h : |n| < 2 ^ 53) : ofInt n = .finite n (isDouble_intCast h) :=
  round_of_isDouble (isDouble_intCast h)

def neg : Double → Double
  | .finite q hq => .finite (-q) hq.neg
  | .infinity s => .infinity !s
  | .nan => .nan

def add : Double → Double → Double
  | .finite a _, .finite b _ => round (a + b)
  | .infinity s, .infinity t => if s = t then .infinity s else .nan
  | .infinity s, .finite _ _ => .infinity s
  | .finite _ _, .infinity t => .infinity t
  | .nan, _ => .nan
  | _, .nan => .nan

def sub (a b : Double) : Double := add a (neg b)

def mul : Double → Double → Double
  | .finite a _, .finite b _ => round (a * b)
  | .infinity s, .infinity t => .infinity (s != t)
  | .infinity s, .finite b _ => if b = 0 then .nan else .infinity (s != decide (b < 0))
  | .finite a _, .infinity t => if a = 0 then .nan else .infinity (decide (a < 0) != t)
  | .nan, _ => .nan
  | _, .nan => .nan

/-- `fabs`. -/
def abs : Double → Double
  | .finite q hq => .finite |q| hq.abs
  | .infinity _ => .infinity false
  | .nan => .nan

/-- `floor`. -/
def floor : Double → Double
  | .finite q _ => round ⌊q⌋
  | .infinity s => .infinity s
  | .nan => .nan

/-- `a <= b`. -/
def le : Double → Double → Bool
  | .finite a _, .finite b _ => decide (a ≤ b)
  | .infinity s, .infinity t => s || !t
  | .infinity s, .finite _ _ => s
  | .finite _ _, .infinity t => !t
  | .nan, _ => false
  | _, .nan => false

/-- `a < b`. -/
def lt : Double → Double → Bool
  | .finite a _, .finite b _ => decide (a < b)
  | .infinity s, .infinity t => s && !t
  | .infinity s, .finite _ _ => s
  | .finite _ _, .infinity t => !t
  | .nan, _ => false
  | _, .nan => false

/-- `a == b`. -/
def eq : Double → Double → Bool
  | .finite a _, .finite b _ => decide (a = b)
  | .infinity s, .infinity t => s == t
  | _, _ => false

/-- `(int)d`: the fraction is cut off. What does not fit an `int` has no defined result in C; here it
    has the one of x86-64. -/
def toInt : Double → ℤ
  | .finite q _ =>
      let n := if q < 0 then -⌊-q⌋ else ⌊q⌋
      if -2 ^ 31 ≤ n ∧ n < 2 ^ 31 then n else -2 ^ 31
  | .infinity _ => -2 ^ 31
  | .nan => -2 ^ 31

theorem toInt_bounds (d : Double) : -2 ^ 31 ≤ d.toInt ∧ d.toInt < 2 ^ 31 := by
  have hlow : (-2 ^ 31 : ℤ) < 2 ^ 31 := by decide
  obtain ⟨q, hq⟩ | _ | _ := d
  · simp only [toInt]
    generalize (if q < 0 then -⌊-q⌋ else ⌊q⌋) = n
    split
    · assumption
    · exact ⟨Int.le_refl _, hlow⟩
  · exact ⟨Int.le_refl _, hlow⟩
  · exact ⟨Int.le_refl _, hlow⟩

/-! ## Integers -/

theorem add_ofInt {a b : ℤ} (ha : |a| < 2 ^ 53) (hb : |b| < 2 ^ 53) :
    add (ofInt a) (ofInt b) = ofInt (a + b) := by
  rw [ofInt_eq ha, ofInt_eq hb, add, ofInt, Int.cast_add]

theorem mul_ofInt {a b : ℤ} (ha : |a| < 2 ^ 53) (hb : |b| < 2 ^ 53) :
    mul (ofInt a) (ofInt b) = ofInt (a * b) := by
  rw [ofInt_eq ha, ofInt_eq hb, mul, ofInt, Int.cast_mul]

/-- The test that a double is finite. -/
theorem mul_ofInt_zero {q : ℚ} (hq : IsDouble q) : mul (finite q hq) (ofInt 0) = ofInt 0 := by
  have hzero : q * ((0 : ℤ) : ℚ) = ((0 : ℤ) : ℚ) := by rw [Int.cast_zero, mul_zero]
  calc mul (finite q hq) (ofInt 0) = mul (finite q hq) (finite (0 : ℤ) (isDouble_intCast (by decide))) := by
        rw [ofInt_eq (by decide)]
    _ = round (q * ((0 : ℤ) : ℚ)) := rfl
    _ = ofInt 0 := congrArg round hzero

theorem sub_ofInt {a b : ℤ} (ha : |a| < 2 ^ 53) (hb : |b| < 2 ^ 53) :
    sub (ofInt a) (ofInt b) = ofInt (a - b) := by
  rw [ofInt_eq ha, ofInt_eq hb, sub, neg, add, ofInt, Int.cast_sub, sub_eq_add_neg]

theorem abs_ofInt {n : ℤ} (h : |n| < 2 ^ 53) : abs (ofInt n) = ofInt |n| := by
  rw [ofInt_eq h, ofInt_eq (by rwa [abs_abs]), abs]
  simp only [Int.cast_abs]

theorem floor_ofInt {n : ℤ} (h : |n| < 2 ^ 53) : floor (ofInt n) = ofInt n := by
  rw [ofInt_eq h, floor, Int.floor_intCast, round_of_isDouble]

theorem eq_ofInt {a b : ℤ} (ha : |a| < 2 ^ 53) (hb : |b| < 2 ^ 53) :
    eq (ofInt a) (ofInt b) = decide (a = b) := by
  rw [ofInt_eq ha, ofInt_eq hb, eq]
  simp only [Int.cast_inj]

theorem le_ofInt {a b : ℤ} (ha : |a| < 2 ^ 53) (hb : |b| < 2 ^ 53) :
    le (ofInt a) (ofInt b) = decide (a ≤ b) := by
  rw [ofInt_eq ha, ofInt_eq hb, le]
  simp only [Int.cast_le]

theorem toInt_ofInt {n : ℤ} (h0 : -2 ^ 31 ≤ n) (h1 : n < 2 ^ 31) : toInt (ofInt n) = n := by
  have habs : |n| < 2 ^ 53 := by
    rw [abs_lt]
    omega
  have hfloor : (if (n : ℚ) < 0 then -⌊-(n : ℚ)⌋ else ⌊(n : ℚ)⌋) = n := by
    split
    · rw [← Int.cast_neg, Int.floor_intCast, Int.neg_neg]
    · exact Int.floor_intCast n
  rw [ofInt_eq habs]
  simp only [toInt, hfloor]
  exact if_pos ⟨h0, h1⟩

/-! ## Bounds -/

/-- From one on, rounding changes a number by less than half of it. -/
theorem exists_round_eq {q : ℚ} (h1 : 1 ≤ q) (h : q < 2 ^ 1023) :
    ∃ r hr, round q = .finite r hr ∧ q / 2 ≤ r ∧ r ≤ q * 2 := by
  have hpos : 0 < q := by linarith
  have hplace : (2 : ℚ) ^ lastPlace q ≤ q / 2 := by
    have hlog : 0 ≤ Int.log 2 q := by
      have hmono := Int.log_mono_right (b := 2) one_pos h1
      rwa [Int.log_one_right] at hmono
    have hle : lastPlace q ≤ Int.log 2 q - 1 := by
      rw [lastPlace, abs_of_pos hpos]
      omega
    calc (2 : ℚ) ^ lastPlace q ≤ 2 ^ (Int.log 2 q - 1) := zpow_le_zpow_right₀ one_le_two hle
      _ = 2 ^ Int.log 2 q / 2 := by rw [zpow_sub_one₀ two_ne_zero, div_eq_mul_inv]
      _ ≤ q / 2 := by
        have hself := Int.zpow_log_le_self (b := 2) one_lt_two hpos
        push_cast at hself
        linarith
  have hsub := abs_le.1 (abs_rounded_sub_le q)
  have hlow : q / 2 ≤ rounded q := by linarith
  have hhigh : rounded q ≤ q * 2 := by linarith
  have hlt : |rounded q| < 2 ^ 1024 := by
    have hnonneg : 0 ≤ rounded q := by linarith only [hpos, hlow]
    rw [abs_of_nonneg hnonneg, pow_succ]
    exact hhigh.trans_lt (mul_lt_mul_of_pos_right h two_pos)
  refine ⟨rounded q, ⟨rounded_rounded q, hlt⟩, ?_, hlow, hhigh⟩
  rw [round, dif_pos hlt]

/-- From here on a number is rounded to an infinity. -/
def overflow : ℚ := 2 ^ 1024 - 2 ^ 970

/-- Below it, to a number that is half a last place away at most. -/
theorem exists_round_near {q : ℚ} (h : |q| < overflow) :
    ∃ r hr, round q = .finite r hr ∧ |r - q| ≤ 2 ^ lastPlace q / 2 := by
  have hsub := abs_rounded_sub_le q
  rw [overflow] at h
  have hlt : |rounded q| < 2 ^ 1024 := by
    have hplace : (2 : ℚ) ^ lastPlace q ≤ 2 ^ 971 := by
      rcases eq_or_ne q 0 with rfl | hq
      · rw [lastPlace, abs_zero, Int.log_zero_right]
        exact (zpow_le_one_of_nonpos₀ one_le_two (by decide)).trans (one_le_pow₀ one_le_two)
      · have hle := lastPlace_le (e := 971) hq (h.trans (sub_lt_self _ (by positivity))) (by decide)
        exact (zpow_le_zpow_right₀ one_le_two hle).trans (le_of_eq (by norm_num))
    have habs : |rounded q| ≤ |rounded q - q| + |q| := by
      simpa only [sub_add_cancel] using abs_add_le (rounded q - q) q
    have hdouble : (2 : ℚ) ^ 971 = 2 ^ 970 * 2 := pow_succ 2 970
    generalize (2 : ℚ) ^ 1024 = top, (2 : ℚ) ^ 971 = last, (2 : ℚ) ^ 970 = half at *
    linarith
  refine ⟨rounded q, ⟨rounded_rounded q, hlt⟩, ?_, hsub⟩
  rw [round, dif_pos hlt]

theorem isDouble_two_zpow {e : ℤ} (h : -1022 ≤ e) (he : e < 1024) : IsDouble ((2 : ℚ) ^ e) := by
  have habs : |(2 : ℚ) ^ e| = 2 ^ e := abs_of_pos (by positivity)
  have hplace : lastPlace ((2 : ℚ) ^ e) = e - 52 := by
    have hlog := Int.log_zpow (R := ℚ) (b := 2) one_lt_two e
    rw [Nat.cast_ofNat] at hlog
    rw [lastPlace, habs, hlog]
    omega
  refine ⟨rounded_of_multiple (n := 2 ^ 52) (e := e - 52) ?_ hplace.le, ?_⟩
  · rw [zpow_sub₀ two_ne_zero]
    push_cast
    field_simp
  · rw [habs, ← zpow_natCast]
    exact zpow_lt_zpow_right₀ one_lt_two (by exact_mod_cast he)

/-! ## Powers of ten -/

/-- What a C library says of its `pow(10.0, k)`: the power of zero is one, and as long as the power is
    in the range of the format the result is off by one last place at most. -/
structure PowTen (pow : ℤ → Double) : Prop where
  zero : pow 0 = ofInt 1
  near : ∀ k : ℤ, k ≤ 308 → ∃ r hr, pow k = .finite r hr ∧ |r - 10 ^ k| ≤ 2 ^ lastPlace (10 ^ k)

theorem ten_pow_lt_overflow : (10 : ℚ) ^ 308 < overflow := by
  have hnat : 10 ^ 308 + 2 ^ 970 < 2 ^ 1024 := by decide +kernel
  have hcast : (10 : ℚ) ^ 308 + 2 ^ 970 < 2 ^ 1024 := by exact_mod_cast hnat
  exact lt_sub_iff_add_lt.2 hcast

/-- The power that is rounded correctly. -/
def roundedPow (k : ℤ) : Double := round ((10 : ℚ) ^ k)

theorem powTen_roundedPow : PowTen roundedPow where
  zero := by rw [roundedPow, ofInt, zpow_zero, Int.cast_one]
  near := by
    intro k hk
    have hpos : (0 : ℚ) < 10 ^ k := by positivity
    have hle : (10 : ℚ) ^ k ≤ 10 ^ 308 := by
      rw [← zpow_natCast]
      exact zpow_le_zpow_right₀ (by norm_num) (by exact_mod_cast hk)
    have hlt : |(10 : ℚ) ^ k| < overflow := by
      rw [abs_of_pos hpos]
      exact hle.trans_lt ten_pow_lt_overflow
    obtain ⟨r, hr, hround, hnear⟩ := exists_round_near hlt
    exact ⟨r, hr, hround, hnear.trans (half_le_self (by positivity))⟩

end Double

end XToolkits
