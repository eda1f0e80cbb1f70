import Mathlib.Algebra.Group.Int.Defs
import Mathlib.Algebra.Group.Nat.Defs
import Mathlib.Data.List.Basic
import Mathlib.Tactic.Common

set_option autoImplicit false

/-! # Numbers as bit strings

`bitsOf w n` are the `w` low bits of `n`, the highest first, and `bitString w l` is the concatenation
of the bits of the numbers of `l`. A list of digits of one width is given back by its bit string
(`prefix_of_prefix_bits`), and regrouping the digits (bytes as sextets and back) is an equation
between two bit strings; `digitsOf` cuts a bit string into numbers again. `all_of_filter_marks` is
the fact about lists that is used when some of the digits are lost on the way. -/

namespace XToolkits

/-! ## The bits of a number -/

/-- The `w` low bits of `n`, the highest first. -/
def bitsOf : (w : Nat) → (n : Nat) → List Bool
  | 0, _ => []
  | w + 1, n => n.testBit w :: bitsOf w n

variable {w u m n i j d : Nat}

@[simp] theorem length_bitsOf (w n : Nat) : (bitsOf w n).length = w := by
  induction w with
  | zero => rfl
  | succ w ih => simp [bitsOf, ih]

theorem bitsOf_congr (h : ∀ i < w, m.testBit i = n.testBit i) : bitsOf w m = bitsOf w n := by
  induction w with
  | zero => rfl
  | succ w ih =>
      rw [bitsOf, bitsOf, h w (Nat.lt_succ_self w), ih fun i hi => h i (Nat.lt_succ_of_lt hi)]

theorem getElem?_bitsOf (hj : j < w) : (bitsOf w n)[j]? = some (n.testBit (w - 1 - j)) := by
  induction w generalizing j with
  | zero => omega
  | succ w ih =>
      cases j with
      | zero => simp [bitsOf]
      | succ j =>
          rw [bitsOf, List.getElem?_cons_succ, ih (by omega)]
          congr 2
          omega

/-- The bits of a number in two parts. -/
theorem bitsOf_add (u m : Nat) (hn : n < 2 ^ w) :
    bitsOf (u + w) (m * 2 ^ w + n) = bitsOf u m ++ bitsOf w n := by
  have hbit : ∀ i, (m * 2 ^ w + n).testBit i =
      if i < w then n.testBit i else m.testBit (i - w) := fun i => by
    rw [Nat.mul_comm]
    exact Nat.testBit_two_pow_mul_add m hn i
  induction u with
  | zero =>
      rw [Nat.zero_add]
      exact bitsOf_congr fun i hi => by rw [hbit, if_pos hi]
  | succ u ih =>
      rw [Nat.succ_add, bitsOf, bitsOf, List.cons_append, ih, hbit, if_neg (by omega),
        Nat.add_sub_cancel]

/-- The bits of a number, cut `w` bits from the end. -/
theorem bitsOf_split (u w n : Nat) :
    bitsOf (u + w) n = bitsOf u (n / 2 ^ w) ++ bitsOf w (n % 2 ^ w) := by
  conv_lhs => rw [← Nat.div_add_mod' n (2 ^ w)]
  exact bitsOf_add u (n / 2 ^ w) (Nat.mod_lt n (Nat.two_pow_pos w))

/-- No bit of zero is set. -/
theorem true_not_mem_bitsOf_zero (w : Nat) : true ∉ bitsOf w 0 := by
  induction w with
  | zero => exact List.not_mem_nil
  | succ w ih => simpa [bitsOf] using ih

theorem bitsOf_inj (hm : m < 2 ^ w) (hn : n < 2 ^ w) (h : bitsOf w m = bitsOf w n) : m = n := by
  refine Nat.eq_of_testBit_eq fun i => ?_
  rcases Nat.lt_or_ge i w with hi | hi
  · have hm' := getElem?_bitsOf (n := m) (show w - 1 - i < w by omega)
    have hn' := getElem?_bitsOf (n := n) (show w - 1 - i < w by omega)
    rw [h, hn', show w - 1 - (w - 1 - i) = i by omega] at hm'
    exact (Option.some.inj hm').symm
  · rw [Nat.testBit_lt_two_pow (Nat.lt_of_lt_of_le hm (Nat.pow_le_pow_right (by decide) hi)),
      Nat.testBit_lt_two_pow (Nat.lt_of_lt_of_le hn (Nat.pow_le_pow_right (by decide) hi))]

/-! ## The bits of a list -/

/-- The concatenation of the bits of the numbers of a list. -/
def bitString (w : Nat) (l : List Nat) : List Bool := l.flatMap (bitsOf w)

variable {l l' : List Nat}

@[simp] theorem bitString_nil (w : Nat) : bitString w [] = [] := rfl

@[simp] theorem bitString_cons (w n : Nat) (l : List Nat) :
    bitString w (n :: l) = bitsOf w n ++ bitString w l := List.flatMap_cons

@[simp] theorem bitString_append (w : Nat) (l l' : List Nat) :
    bitString w (l ++ l') = bitString w l ++ bitString w l' := List.flatMap_append

@[simp] theorem length_bitString (w : Nat) (l : List Nat) :
    (bitString w l).length = w * l.length := by
  induction l with
  | nil => rfl
  | cons n l ih => simp [ih, Nat.mul_succ, Nat.add_comm]

/-- The bit `j` of the number `d` of a list. -/
theorem getElem?_bitString (hj : j < w) :
    (bitString w l)[w * d + j]? = l[d]?.map fun n => n.testBit (w - 1 - j) := by
  induction l generalizing d with
  | nil => simp
  | cons n l ih =>
      cases d with
      | zero =>
          rw [bitString_cons, List.getElem?_append_left (by simpa using hj), Nat.mul_zero,
            Nat.zero_add, getElem?_bitsOf hj]
          rfl
      | succ d =>
          rw [bitString_cons, List.getElem?_append_right (by rw [length_bitsOf, Nat.mul_succ]; omega),
            length_bitsOf, show w * (d + 1) + j - w = w * d + j by rw [Nat.mul_succ]; omega, ih,
            List.getElem?_cons_succ]

/-- A number with no bit set is zero. -/
theorem eq_zero_of_bitString (hd : l[d]? = some n) (hn : n < 2 ^ w)
    (h : ∀ j < w, (bitString w l)[w * d + j]? ≠ some true) : n = 0 := by
  refine Nat.eq_of_testBit_eq fun i => ?_
  rw [Nat.zero_testBit]
  rcases Nat.lt_or_ge i w with hi | hi
  · have hbit := h (w - 1 - i) (by omega)
    rw [getElem?_bitString (by omega), hd, Option.map_some,
      show w - 1 - (w - 1 - i) = i by omega] at hbit
    simpa using hbit
  · exact Nat.testBit_lt_two_pow (Nat.lt_of_lt_of_le hn (Nat.pow_le_pow_right (by decide) hi))

/-- Lists of numbers below `2 ^ w` are given back by their bit strings. -/
theorem prefix_of_prefix_bits (hw : 0 < w) (hl : ∀ n ∈ l, n < 2 ^ w) (hl' : ∀ n ∈ l', n < 2 ^ w)
    (h : bitString w l <+: bitString w l') : l <+: l' := by
  induction l generalizing l' with
  | nil => exact List.nil_prefix
  | cons n l ih =>
      cases l' with
      | nil =>
          have hlen := h.length_le
          rw [length_bitString, length_bitString, List.length_nil, List.length_cons,
            Nat.mul_succ] at hlen
          omega
      | cons n' l' =>
          obtain ⟨zs, heq⟩ := h
          rw [bitString_cons, bitString_cons, List.append_assoc] at heq
          obtain ⟨hhead, htail⟩ := List.append_inj heq (by simp)
          have hn := bitsOf_inj (hl n List.mem_cons_self) (hl' n' List.mem_cons_self) hhead
          exact List.cons_prefix_cons.2 ⟨hn, ih (fun k hk => hl k (List.mem_cons_of_mem n hk))
            (fun k hk => hl' k (List.mem_cons_of_mem n' hk)) ⟨zs, htail⟩⟩

/-! ## Cutting a bit string into numbers -/

/-- The number of the first `w` bits; bits that are missing are not set. -/
def numOf : Nat → List Bool → Nat
  | 0, _ => 0
  | w + 1, bs => (bs.headD false).toNat * 2 ^ w + numOf w bs.tail

/-- A bit string cut into numbers of `w` bits, the last one filled up with bits that are not set. -/
def digitsOf (w : Nat) (bs : List Bool) : List Nat :=
  (List.range ((bs.length + (w - 1)) / w)).map fun i => numOf w (bs.drop (w * i))

theorem numOf_bitsOf_append (hn : n < 2 ^ w) (bs : List Bool) : numOf w (bitsOf w n ++ bs) = n := by
  induction w generalizing n with
  | zero =>
      rw [Nat.pow_zero] at hn
      exact (Nat.lt_one_iff.1 hn).symm
  | succ w ih =>
      have hhigh : (n.testBit w).toNat = n / 2 ^ w := by
        rw [Nat.toNat_testBit, Nat.mod_eq_of_lt]
        rwa [Nat.div_lt_iff_lt_mul (Nat.two_pow_pos w), ← Nat.pow_succ']
      have hlow : bitsOf w n = bitsOf w (n % 2 ^ w) := bitsOf_congr fun i hi => by
        rw [Nat.testBit_mod_two_pow, decide_eq_true hi, Bool.true_and]
      show (n.testBit w).toNat * 2 ^ w + numOf w (bitsOf w n ++ bs) = n
      rw [hhigh, hlow, ih (Nat.mod_lt n (Nat.two_pow_pos w)), Nat.div_add_mod']

/-- Bits that are not set behind a bit string make no difference. -/
theorem numOf_append_false (w k : Nat) (bs : List Bool) :
    numOf w (bs ++ List.replicate k false) = numOf w bs := by
  induction w generalizing k bs with
  | zero => rfl
  | succ w ih =>
      cases bs with
      | nil =>
          cases k with
          | zero => rfl
          | succ k => exact congrArg (0 * 2 ^ w + ·) ((ih k []).trans rfl)
      | cons b bs => exact congrArg (b.toNat * 2 ^ w + ·) (ih k bs)

theorem drop_bitString (w i : Nat) (l : List Nat) :
    (bitString w l).drop (w * i) = bitString w (l.drop i) := by
  induction i generalizing l with
  | zero => rfl
  | succ i ih =>
      cases l with
      | nil => simp
      | cons n l =>
          rw [bitString_cons, Nat.mul_succ, Nat.add_comm, ← List.drop_drop,
            List.drop_left' (length_bitsOf w n), ih, List.drop_succ_cons]

/-- **The numbers are the digits**, when they have the bits of the string and fewer than `w` more
    that are not set. -/
theorem digitsOf_eq {k : Nat} {bs : List Bool} (hl : ∀ n ∈ l, n < 2 ^ w) (hk : k < w)
    (h : bitString w l = bs ++ List.replicate k false) : digitsOf w bs = l := by
  have hlen : bs.length + k = w * l.length := by
    rw [← length_bitString, h, List.length_append, List.length_replicate]
  have hcount : (bs.length + (w - 1)) / w = l.length := by
    rw [Nat.div_eq_iff (by omega), Nat.mul_comm l.length w]
    omega
  refine List.ext_getElem (by rw [digitsOf, List.length_map, List.length_range, hcount]) ?_
  intro i hi hi'
  have hle : w * i ≤ bs.length := by
    have : w * (i + 1) ≤ w * l.length := Nat.mul_le_mul_left w hi'
    rw [Nat.mul_succ] at this
    omega
  have hdrop : bs.drop (w * i) ++ List.replicate k false =
      bitsOf w l[i] ++ bitString w (l.drop (i + 1)) := by
    rw [← List.drop_append_of_le_length hle, ← h, drop_bitString, List.drop_eq_getElem_cons hi',
      bitString_cons]
  simp only [digitsOf, List.getElem_map, List.getElem_range]
  rw [← numOf_append_false w k, hdrop, numOf_bitsOf_append (hl _ (List.getElem_mem hi'))]

/-! ## Losing some of the elements -/

variable {α : Type}

theorem eq_take_append_of_getElem? {xs : List α} {z : α} {i : Nat} (hi : xs[i]? = some z) :
    xs = xs.take i ++ z :: xs.drop (i + 1) := by
  obtain ⟨hlt, rfl⟩ := List.getElem?_eq_some_iff.1 hi
  rw [← List.drop_eq_getElem_cons hlt, List.take_append_drop]

/-- **Nothing is lost before a mark**: when every mark that is left behind stands where the list had
    one, no element before a mark is lost. By strong induction: the place where a mark is left
    behind is not behind the mark, and there the list has a mark as well. -/
theorem all_of_filter_marks {p : α → Bool} {z : α} (hz : p z = true) {xs : List α}
    (h : ∀ i : Nat, (xs.filter p)[i]? = some z → xs[i]? = some z) {i : Nat} (hi : xs[i]? = some z) :
    ∀ x ∈ xs.take i, p x = true := by
  induction i using Nat.strongRecOn with
  | ind i ih =>
      let d := ((xs.take i).filter p).length
      have hd : (xs.filter p)[d]? = some z := by
        rw [eq_take_append_of_getElem? hi, List.filter_append, List.filter_cons_of_pos hz,
          List.getElem?_append_right (Nat.le_refl _), Nat.sub_self, List.getElem?_cons_zero]
      have hlen : (xs.take i).length = i :=
        List.length_take_of_le (Nat.le_of_lt (List.getElem?_eq_some_iff.1 hi).1)
      have hle : d ≤ i := hlen ▸ List.length_filter_le p (xs.take i)
      rcases Nat.lt_or_eq_of_le hle with hlt | heq
      · -- the elements before `d` are all left, so the mark at `d` would be one more than `d`
        have htake : (xs.take i)[d]? = some z := by
          rw [List.getElem?_take_of_lt hlt]
          exact h d hd
        have hkeep : ((xs.take i).take d).filter p = (xs.take i).take d := by
          rw [List.take_take, Nat.min_eq_left hle]
          exact List.filter_eq_self.2 (ih d hlt (h d hd))
        have hcount : d = ((xs.take i).filter p).length := rfl
        rw [eq_take_append_of_getElem? htake, List.filter_append, hkeep,
          List.filter_cons_of_pos hz, List.length_append, List.length_cons,
          List.length_take_of_le (by omega)] at hcount
        omega
      · exact List.length_filter_eq_length_iff.1 (by rw [hlen]; exact heq)

end XToolkits
