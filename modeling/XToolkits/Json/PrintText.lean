import XToolkits.Json.ParseText

set_option autoImplicit false

/-! # What the printer writes is a JSON text

An item that has a value is written as a text of that value: the printed text is in the grammar, without
gaps or with those of the format. So the parser gets the value back, its integers as they were and its
other numbers in the places that are printed. -/

namespace XToolkits.Json

variable {gap : List UInt8 → Prop} {pow : ℤ → Double} {d : Double} {q : ℚ} {k : ℤ} {v : Value}
  {b : UInt8} {s e : List UInt8}

/-! ## Numbers -/

/-- A double writes a number, but for those that no number text stands for. -/
theorem sprintf_finite (format : ℚ → NumberText) (hq : IsDouble q) :
    sprintf format (.finite q hq) = (format q).text := rfl

theorem fixed0_intCast (k : ℤ) : fixed0 (k : ℚ) = intText k := by
  have hdigits : (nearestEven |(k : ℚ)|).toNat = k.natAbs := by
    rw [← Int.cast_abs, nearestEven_intCast, ← Int.natCast_natAbs, Int.toNat_natCast]
  simp only [fixed0, intText, hdigits, Int.cast_lt_zero]

theorem ten_zpow_lt : (10 : ℚ) ^ (60 : ℤ) < 2 ^ 1023 :=
  calc (10 : ℚ) ^ (60 : ℤ) < 2 ^ 200 := by norm_num
    _ < 2 ^ 1023 := pow_lt_pow_right₀ one_lt_two (by decide)

theorem ofInt_lt_round (h : |k| < 2 ^ 53) :
    (Double.ofInt k).lt (.round ((10 : ℚ) ^ (60 : ℤ))) = true := by
  obtain ⟨r, hr, hround, hlow, -⟩ := Double.exists_round_eq (q := (10 : ℚ) ^ (60 : ℤ))
    (one_le_zpow₀ (by norm_num) (by decide)) ten_zpow_lt
  rw [hround, Double.ofInt_eq h, Double.lt, decide_eq_true_eq]
  have hk : (k : ℚ) < 2 ^ 53 := by exact_mod_cast (abs_lt.1 h).2
  have hbig : (2 : ℚ) ^ 53 ≤ 10 ^ (60 : ℤ) / 2 := by norm_num
  linarith

theorem intMax_abs : |intMax| < 2 ^ 53 := by decide

theorem intMin_abs : |intMin| < 2 ^ 53 := by decide

/-- **An integer below `2 ^ 53` is printed with all of its digits.** -/
theorem printNumber_ofInt (h : |k| < 2 ^ 53) :
    (printNumber (.ofInt k) (Double.ofInt k).toInt).text = (intText k).text := by
  have hzero : |(0 : ℤ)| < 2 ^ 53 := by decide
  rw [printNumber]
  split
  · next heq =>
      rw [Double.eq_ofInt h hzero, decide_eq_true_eq] at heq
      rw [heq]
      decide
  split
  · next hint =>
      obtain ⟨-, hmax, hmin⟩ := hint
      rw [Double.le_ofInt h intMax_abs, decide_eq_true_eq] at hmax
      rw [Double.le_ofInt intMin_abs h, decide_eq_true_eq] at hmin
      rw [Double.toInt_ofInt hmin (Int.lt_of_le_sub_one hmax)]
  · have hmul : ((Double.ofInt k).mul (.ofInt 0)).eq (.ofInt 0) = true := by
      rw [Double.mul_ofInt h hzero, Int.mul_zero, Double.eq_ofInt hzero hzero, decide_eq_true_eq]
    have hfloor : ((Double.ofInt k).floor.sub (.ofInt k)).abs.le dblEpsilon = true := by
      rw [Double.floor_ofInt h, Double.sub_ofInt h h, Int.sub_self, Double.abs_ofInt hzero, abs_zero,
        Double.ofInt_eq hzero, dblEpsilon,
        Double.round_of_isDouble (Double.isDouble_two_zpow (by decide) (by decide)), Double.le,
        decide_eq_true_eq, Int.cast_zero]
      positivity
    have hlt : (Double.ofInt k).abs.lt (.round ((10 : ℚ) ^ (60 : ℤ))) = true := by
      rw [Double.abs_ofInt h]
      exact ofInt_lt_round (by rwa [abs_abs])
    rw [if_neg (not_not_intro hmul), if_pos ⟨hfloor, hlt⟩, Double.ofInt_eq h, sprintf_finite,
      fixed0_intCast]

/-- The number of a double that is an integer below `2 ^ 53`. -/
def exactNumber : Double → Option Value
  | .finite q hq => if q.den = 1 ∧ |q.num| < 2 ^ 53 then some (.num (.finite q hq)) else none
  | .infinity _ => none
  | .nan => none

theorem exactNumber_ofInt (h : |k| < 2 ^ 53) : exactNumber (.ofInt k) = some (.num (.ofInt k)) := by
  rw [Double.ofInt_eq h, exactNumber, if_pos ⟨Rat.den_intCast k, h⟩]

theorem exactNumber_renders (hpow : pow 0 = .ofInt 1) (h : exactNumber d = some v) :
    Renders gap (NumberText.value pow) (.value v) (printNumber d d.toInt).text := by
  obtain ⟨q, hq⟩ | _ | _ := d
  · rw [exactNumber] at h
    split at h
    · next hexact =>
        obtain ⟨hden, hnum⟩ := hexact
        obtain rfl := Option.some_inj.1 h
        have hd : Double.finite q hq = .ofInt q.num := by
          rw [Double.ofInt_eq hnum]
          simp only [Rat.den_eq_one_iff q |>.1 hden]
        rw [hd, printNumber_ofInt hnum, ← value_intText hpow hnum]
        exact .num (valid_intText q.num)
    · cases h
  · cases h
  · cases h

/-- A double is printed as a number, or as `null`. -/
theorem printNumber_text (d : Double) (valueint : Int) :
    (∃ t : NumberText, t.Valid ∧ (printNumber d valueint).text = t.text) ∨
      (printNumber d valueint).text = cstr "null" := by
  rw [printNumber]
  split
  · exact Or.inl ⟨intText 0, valid_intText 0, by decide⟩
  split
  · exact Or.inl ⟨intText valueint, valid_intText valueint, rfl⟩
  split
  · exact Or.inr rfl
  · next _ _ hfinite =>
      left
      have hzero : |(0 : ℤ)| < 2 ^ 53 := by decide
      obtain ⟨q, hq⟩ | _ | _ := d
      · split
        · exact ⟨fixed0 q, valid_fixed0 q, rfl⟩
        split
        · exact ⟨scientific q, valid_scientific q, rfl⟩
        · exact ⟨fixed6 q, valid_fixed6 q, rfl⟩
      · rw [Double.ofInt_eq hzero, Double.mul, if_pos Int.cast_zero] at hfinite
        exact absurd Bool.false_ne_true hfinite
      · exact absurd Bool.false_ne_true hfinite

theorem le_of_lt_round (hq : IsDouble q)
    (h : (Double.finite q hq).abs.lt (.round ((10 : ℚ) ^ (60 : ℤ))) = true) : |q| ≤ 2 * 10 ^ 60 := by
  obtain ⟨r, hr, hround, -, hhigh⟩ := Double.exists_round_eq (q := (10 : ℚ) ^ (60 : ℤ))
    (one_le_zpow₀ (by norm_num) (by decide)) ten_zpow_lt
  rw [hround, Double.abs, Double.lt, decide_eq_true_eq] at h
  rw [mul_comm, ← zpow_natCast]
  exact h.le.trans hhigh

theorem le_of_not_round_lt (hq : IsDouble q)
    (h : ¬ Double.lt (.round ((10 : ℚ) ^ (9 : ℤ))) (Double.finite q hq).abs = true) :
    |q| ≤ 2 * 10 ^ 9 := by
  obtain ⟨r, hr, hround, -, hhigh⟩ := Double.exists_round_eq (q := (10 : ℚ) ^ (9 : ℤ))
    (one_le_zpow₀ (by norm_num) (by decide)) (by
      calc (10 : ℚ) ^ (9 : ℤ) < 2 ^ 200 := by norm_num
        _ < 2 ^ 1023 := pow_lt_pow_right₀ one_lt_two (by decide))
  rw [hround, Double.abs, Double.lt, decide_eq_true_eq, not_lt] at h
  rw [mul_comm, ← zpow_natCast]
  exact h.trans hhigh

/-- A difference that is no larger than `DBL_EPSILON` after it was rounded was not much larger before. -/
theorem abs_sub_le_of_le_dblEpsilon {a b : ℚ} (ha : IsDouble a) (hb : IsDouble b)
    (h : (Double.sub (.finite a ha) (.finite b hb)).abs.le dblEpsilon = true) : |a - b| ≤ 1 / 2 ^ 51 := by
  have hround : Double.sub (.finite a ha) (.finite b hb) = .round (a - b) := by
    rw [Double.sub, Double.neg, Double.add, sub_eq_add_neg]
  rw [hround, dblEpsilon, Double.round_of_isDouble (Double.isDouble_two_zpow (by decide) (by decide)),
    Double.round] at h
  have hepsilon : (2 : ℚ) ^ (-52 : ℤ) = 1 / 2 ^ 52 := by
    rw [zpow_neg, one_div]
    rfl
  split at h
  · have h : |Double.rounded (a - b)| ≤ 1 / 2 ^ 52 := by
      rw [← hepsilon]
      exact of_decide_eq_true h
    rcases lt_or_ge |a - b| (2 ^ (-1022 : ℤ)) with hsmall | hnormal
    · refine hsmall.le.trans ?_
      calc (2 : ℚ) ^ (-1022 : ℤ) ≤ 2 ^ (-51 : ℤ) := zpow_le_zpow_right₀ one_le_two (by decide)
        _ = 1 / 2 ^ 51 := by rw [zpow_neg, one_div]; rfl
    · have hplace := two_zpow_lastPlace_le hnormal
      have hnear := Double.abs_rounded_sub_le (a - b)
      have hle := abs_sub_abs_le_abs_sub (a - b) (Double.rounded (a - b))
      rw [abs_sub_comm (a - b) (Double.rounded (a - b))] at hle
      linarith
  · exact absurd h Bool.false_ne_true

/-- A double that `floor` leaves almost as it is is almost an integer, or large. -/
theorem abs_floor_sub_le (hq : IsDouble q)
    (h : ((Double.finite q hq).floor.sub (.finite q hq)).abs.le dblEpsilon = true) :
    10 ^ 6 ≤ |q| ∨ |(⌊q⌋ : ℚ) - q| ≤ 1 / 2 ^ 51 := by
  rcases le_or_gt (10 ^ 6) |q| with hlarge | hsmall
  · exact Or.inl hlarge
  · right
    have hfloor : |⌊q⌋| < 2 ^ 53 := by
      have hq := abs_lt.1 hsmall
      have hlow : (-(10 : ℤ) ^ 6 - 1 : ℤ) ≤ ⌊q⌋ := Int.le_floor.2 (by push_cast; linarith)
      have hhigh : ⌊q⌋ < 10 ^ 6 := Int.floor_lt.2 (by push_cast; linarith)
      rw [abs_lt]
      omega
    rw [Double.floor, ← Double.ofInt, Double.ofInt_eq hfloor] at h
    exact abs_sub_le_of_le_dblEpsilon _ hq h

/-- What `print_number` writes for a double that is no integer. -/
theorem printNumber_readsAs (hq : IsDouble q) (hne : q ≠ 0) :
    ∃ t : NumberText, t.Valid ∧ (printNumber (.finite q hq) (Double.finite q hq).toInt).text = t.text ∧
      ReadsAs t q := by
  have hzero : |(0 : ℤ)| < 2 ^ 53 := by decide
  rw [printNumber]
  split
  · next heq =>
      rw [Double.ofInt_eq hzero, Double.eq, decide_eq_true_eq, Int.cast_zero] at heq
      exact absurd heq hne
  split
  · next hint =>
      obtain ⟨hlow, hhigh⟩ := (Double.finite q hq).toInt_bounds
      generalize (Double.finite q hq).toInt = k at hint hlow hhigh
      have hk : |k| < 2 ^ 53 := by
        rw [abs_lt]
        omega
      rw [Double.ofInt_eq hk] at hint
      exact ⟨intText k, valid_intText k, rfl,
        readsAs_intText hk (abs_sub_le_of_le_dblEpsilon _ hq hint.1)⟩
  split
  · next hnan =>
      rw [Double.mul_ofInt_zero, Double.eq_ofInt hzero hzero] at hnan
      exact absurd rfl hnan
  · split
    · next hfloor =>
        exact ⟨fixed0 q, valid_fixed0 q, rfl,
          readsAs_fixed0 (le_of_lt_round hq hfloor.2) (abs_floor_sub_le hq hfloor.1)⟩
    split
    · exact ⟨scientific q, valid_scientific q, rfl, readsAs_scientific hq hne⟩
    · next hfixed =>
        exact ⟨fixed6 q, valid_fixed6 q, rfl,
          readsAs_fixed6 (le_of_not_round_lt hq fun h => hfixed (Or.inr h))⟩

/-- **What `print_number` writes for a double**: an integer below `2 ^ 53` with all of its digits, and
    another number in six places at least. -/
theorem printNumber_finite (hq : IsDouble q) :
    ∃ t : NumberText, t.Valid ∧ (printNumber (.finite q hq) (Double.finite q hq).toInt).text = t.text ∧
      (∀ k : ℤ, |k| < 2 ^ 53 → q = k → t = intText k) ∧ ReadsAs t q := by
  by_cases hint : ∃ k : ℤ, |k| < 2 ^ 53 ∧ q = k
  · obtain ⟨k, hk, rfl⟩ := hint
    have htext := printNumber_ofInt hk
    rw [Double.ofInt_eq hk] at htext
    refine ⟨intText k, valid_intText k, htext, ?_, readsAs_intText hk (by simp)⟩
    intro k' _ heq
    rw [Int.cast_inj.1 heq]
  · have hne : q ≠ 0 := by
      rintro rfl
      exact hint ⟨0, by decide, Int.cast_zero.symm⟩
    obtain ⟨t, ht, htext, hreads⟩ := printNumber_readsAs hq hne
    exact ⟨t, ht, htext, fun k hk heq => absurd ⟨k, hk, heq⟩ hint, hreads⟩

/-- A double that is no number is neither zero nor in the range of an `int`. -/
theorem printNumber_null (hzero : d.eq (.ofInt 0) = false)
    (hrange : ¬ (d.le (.ofInt intMax) = true ∧ Double.le (.ofInt intMin) d = true))
    (hmul : (d.mul (.ofInt 0)).eq (.ofInt 0) = false) (k : Int) :
    (printNumber d k).text = cstr "null" := by
  rw [printNumber, if_neg (Bool.eq_false_iff.1 hzero), if_neg fun h => hrange h.2,
    if_pos (Bool.eq_false_iff.1 hmul)]

theorem printNumber_infinity (negative : Bool) (k : Int) :
    (printNumber (.infinity negative) k).text = cstr "null" := by
  have hzero := Double.ofInt_eq (n := 0) (by decide)
  refine printNumber_null ?_ ?_ ?_ k
  · rw [hzero]
    rfl
  · rw [Double.ofInt_eq intMax_abs, Double.ofInt_eq intMin_abs]
    cases negative <;> simp [Double.le]
  · rw [hzero, Double.mul, if_pos Int.cast_zero]
    rfl

theorem printNumber_nan (k : Int) : (printNumber .nan k).text = cstr "null" := by
  refine printNumber_null rfl ?_ rfl k
  simp [Double.le]

/-! ## Strings -/

/-- A control character as four hexadecimal digits. -/
theorem escaped_unicode (hb : b ≠ 0) (hlt : b < 32) (h : Escaped s e) :
    Escaped (b :: s) (92 :: (unicodeEscape b ++ e)) := by
  have hdigit : ∀ n < 16, hexVal (hexDigit n) = some n := by decide
  have hn : b.toNat < 32 := UInt8.lt_iff_toNat_lt.1 hlt
  have hhex : Hex4 (((0 * 16 + 0) * 16 + b.toNat / 16) * 16 + b.toNat % 16)
      [48, 48, hexDigit (b.toNat / 16), hexDigit (b.toNat % 16)] :=
    .mk rfl rfl (hdigit _ (by omega)) (hdigit _ (by omega))
  have hcontrol : ∀ n < 32, (Char.ofNat n).toNat = n := by decide
  have hchar : (Char.ofNat b.toNat).toNat = b.toNat := hcontrol _ hn
  have hval : (Char.ofNat b.toNat).val.toNat = b.toNat := hchar
  have hbytes : String.utf8EncodeChar (Char.ofNat b.toNat) = [b] := by
    simp only [String.utf8EncodeChar, hval, if_pos (show b.toNat ≤ 127 by omega), UInt8.ofNat_toNat]
  have hcode : ((0 * 16 + 0) * 16 + b.toNat / 16) * 16 + b.toNat % 16 =
      (Char.ofNat b.toNat).toNat := by
    rw [hchar]
    omega
  have hne : Char.ofNat b.toNat ≠ '\x00' := fun h => hb (UInt8.toNat_inj.1 (by
    rw [← hchar, h]
    rfl))
  rw [hcode] at hhex
  have hescaped := Escaped.unicode hne hhex h
  rw [hbytes] at hescaped
  exact hescaped

/-- **A byte is printed as something that stands for it.** -/
theorem escaped_escapeByte (hb : b ≠ 0) (h : Escaped s e) :
    Escaped (b :: s) (escapeByte b ++ e) := by
  by_cases hplain : isPlain b = true
  · rw [escapeByte, if_pos hplain]
    have hplain : b > 31 ∧ b ≠ 34 ∧ b ≠ 92 := by simpa only [isPlain, decide_eq_true_eq] using hplain
    exact .plain ⟨hb, hplain.2⟩ h
  · rw [escapeByte, if_neg hplain]
    split
    · next hb =>
        rw [hb]
        exact .escape (by decide) h
    split
    · next hb =>
        rw [hb]
        exact .escape (by decide) h
    split
    · next hb =>
        rw [hb]
        exact .escape (by decide) h
    split
    · next hb =>
        rw [hb]
        exact .escape (by decide) h
    split
    · next hb =>
        rw [hb]
        exact .escape (by decide) h
    split
    · next hb =>
        rw [hb]
        exact .escape (by decide) h
    split
    · next hb =>
        rw [hb]
        exact .escape (by decide) h
    · next hback hquote _ _ _ _ _ =>
        refine escaped_unicode hb ?_ h
        rw [isPlain, decide_eq_true_eq] at hplain
        refine UInt8.lt_of_le_of_lt (b := 31) (UInt8.not_lt.1 fun hlt => hplain ⟨hlt, hquote, hback⟩) ?_
        decide

theorem escaped_flatMap (h : 0 ∉ s) : Escaped s (s.flatMap escapeByte) := by
  induction s with
  | nil => exact .nil
  | cons b s ih =>
      rw [List.mem_cons, not_or] at h
      obtain ⟨hb, hs⟩ := h
      exact escaped_escapeByte (Ne.symm hb) (ih hs)

/-- A string without bytes to escape is its own text. -/
theorem flatMap_escapeByte_of_plain (h : s.all isPlain = true) : s.flatMap escapeByte = s := by
  induction s with
  | nil => rfl
  | cons b s ih =>
      rw [List.all_cons, Bool.and_eq_true] at h
      rw [List.flatMap_cons, ih h.2, escapeByte, if_pos h.1]
      rfl

/-- Both branches of `print_string_ptr` write the same. -/
theorem printStringPtr_some (s : CStr) :
    (printStringPtr (some s)).text = 34 :: s.flatMap escapeByte ++ [34] := by
  rw [printStringPtr]
  split
  · next h => rw [flatMap_escapeByte_of_plain h]
  · rfl

/-- **The text of a string stands for the string.** -/
theorem exists_escaped {str : Option CStr} (h : cString str = some s) :
    ∃ e, Escaped s e ∧ (printStringPtr str).text = 34 :: e ++ [34] := by
  obtain ⟨s', rfl, hs⟩ := Option.bind_eq_some_iff.1 h
  split at hs
  · cases hs
  · next hzero =>
      obtain rfl := Option.some_inj.1 hs
      exact ⟨_, escaped_flatMap hzero, printStringPtr_some s'⟩

/-! ## Arrays and objects -/

/-- The gaps of a format: none, or some white space. -/
def FormatGap (fmt : Bool) (w : List UInt8) : Prop := if fmt then Blank w else w = []

theorem FormatGap.blank {fmt : Bool} {w : List UInt8} (h : FormatGap fmt w) : Blank w := by
  cases fmt with
  | true => exact h
  | false => exact h ▸ fun b hb => absurd hb List.not_mem_nil

theorem FormatGap.append {fmt : Bool} {w w' : List UInt8} (h : FormatGap fmt w)
    (h' : FormatGap fmt w') : FormatGap fmt (w ++ w') := by
  cases fmt with
  | true => exact fun b hb => (List.mem_append.1 hb).elim (h b) (h' b)
  | false =>
      rw [show w = [] from h, show w' = [] from h']
      rfl

theorem formatGap_nil (fmt : Bool) : FormatGap fmt [] := by
  cases fmt with
  | true => exact fun b hb => absurd hb List.not_mem_nil
  | false => rfl

theorem formatGap_whenFmt {fmt : Bool} {w : List UInt8} (hw : Blank w) :
    FormatGap fmt (whenFmt fmt w) := by
  cases fmt with
  | true => exact hw
  | false => rfl

theorem blank_tabs (n : Nat) : Blank (tabs n) := fun b hb => by
  rw [List.eq_of_mem_replicate hb]
  decide

theorem blank_cons {w : List UInt8} (hb : b ≠ 0 ∧ b ≤ 32) (hw : Blank w) : Blank (b :: w) := by
  intro c hc
  rcases List.mem_cons.1 hc with rfl | hc
  · exact hb
  · exact hw c hc

theorem blank_nil : Blank [] := fun _ hb => absurd hb List.not_mem_nil

variable {fmt : Bool} {read : NumberText → Double} {vs : List Value} {es : List CStr}

/-- The entries of an array are its elements. -/
theorem renders_joinEntries (h : List.Forall₂ (fun v e => Renders (FormatGap fmt) read (.value v) e) vs es)
    (hne : vs ≠ []) {w : List UInt8} (hw : FormatGap fmt w) :
    Renders (FormatGap fmt) read (.elements vs) (w ++ joinEntries fmt es) := by
  induction h generalizing w with
  | nil => exact absurd rfl hne
  | @cons v e vs es hv hvs ih =>
      have hfirst := Renders.element hw hv (formatGap_nil fmt)
      rw [List.append_nil] at hfirst
      cases hvs with
      | nil => exact .lastElement hfirst
      | cons hv' hvs' =>
          have hspace : FormatGap fmt (whenFmt fmt [32]) :=
            formatGap_whenFmt (blank_cons (by decide) blank_nil)
          have hrest := ih (List.cons_ne_nil _ _) hspace
          have helements := Renders.elements hfirst hrest
          simpa only [joinEntries, List.append_assoc, List.cons_append] using helements

/-- A name as it is printed, with the text of its value. -/
def MemberText (fmt : Bool) (read : NumberText → Double) (m : CStr × Value) (r : CStr × CStr) : Prop :=
  (∃ e, Escaped m.1 e ∧ r.1 = 34 :: e ++ [34]) ∧ Renders (FormatGap fmt) read (.value m.2) r.2

variable {ms : List (CStr × Value)} {rs : List (CStr × CStr)}

/-- The members of an object, with the gaps in front and behind them. -/
theorem renders_joinMembers (depth : Nat) (h : List.Forall₂ (MemberText fmt read) ms rs) (hne : ms ≠ [])
    {w w' : List UInt8} (hw : FormatGap fmt w) (hw' : FormatGap fmt w') :
    Renders (FormatGap fmt) read (.members ms) (w ++ joinMembers fmt depth rs ++ w') := by
  have htab : FormatGap fmt (whenFmt fmt [9]) :=
    formatGap_whenFmt (blank_cons (by decide) blank_nil)
  have hline : FormatGap fmt (whenFmt fmt [10]) :=
    formatGap_whenFmt (blank_cons (by decide) blank_nil)
  have hfront : FormatGap fmt (w ++ whenFmt fmt (tabs depth)) :=
    hw.append (formatGap_whenFmt (blank_tabs depth))
  induction h generalizing w with
  | nil => exact absurd rfl hne
  | @cons m r ms rs hm hms ih =>
      obtain ⟨⟨e, he, hname⟩, hv⟩ := hm
      cases hms with
      | nil =>
          have hmember := Renders.lastMember
            (.member hfront he (formatGap_nil fmt) (.element htab hv (hline.append hw')))
          simpa only [joinMembers, hname, List.append_assoc, List.cons_append, List.nil_append,
            List.append_nil, if_true] using hmember
      | @cons m' r' ms' rs' hm' hms' =>
          have hrest := ih (List.cons_ne_nil _ _) hline
            (hline.append (formatGap_whenFmt (blank_tabs depth)))
          have hmembers := Renders.members
            (.member hfront he (formatGap_nil fmt) (.element htab hv (formatGap_nil fmt))) hrest
          simpa only [joinMembers, hname, List.append_assoc, List.cons_append, List.nil_append,
            List.append_nil, if_neg (List.cons_ne_nil r' rs')] using hmembers

/-! ## Items -/

section Items

variable {num : Double → Option Value} {item : Fields} {cs : List (Option CStr × Value)}
  {ps : List (Printed × Printed)}

/-- The name of an item as it is printed, with the text of its value. -/
def PartText (fmt : Bool) (read : NumberText → Double) (c : Option CStr × Value) (r : Printed × Printed) : Prop :=
  r.1 = printStringPtr c.1 ∧ Renders (FormatGap fmt) read (.value c.2) r.2.text

theorem mapM_snd (ps : List (Printed × Printed)) :
    (ps.map fun r => (r.1, some r.2)).mapM Prod.snd = some (ps.map Prod.snd) := by
  induction ps with
  | nil => rfl
  | cons r ps ih =>
      rw [List.map_cons, List.mapM_cons, ih]
      rfl

theorem mapM_pair (ps : List (Printed × Printed)) :
    (ps.map fun r => (r.1, some r.2)).mapM
      (fun (e : Printed × Option Printed) => e.2.map fun r => (e.1, r)) = some ps := by
  induction ps with
  | nil => rfl
  | cons r ps ih =>
      rw [List.map_cons, List.mapM_cons, ih]
      rfl

/-- The members of an object with names are printed as members. -/
theorem memberText_of_mapM (h : List.Forall₂ (PartText fmt read) cs ps)
    (hnames : cs.mapM (fun c => (cString c.1).map fun name => (name, c.2)) = some ms) :
    List.Forall₂ (MemberText fmt read) ms (ps.map fun r => (r.1.text, r.2.text)) := by
  induction h generalizing ms with
  | nil =>
      obtain rfl := Option.some_inj.1 hnames
      exact .nil
  | @cons c r cs ps hc _ ih =>
      rw [List.mapM_cons] at hnames
      obtain ⟨m, hm, hnames⟩ := Option.bind_eq_some_iff.1 hnames
      obtain ⟨ms', hms, hnames⟩ := Option.bind_eq_some_iff.1 hnames
      obtain rfl := Option.some_inj.1 hnames
      obtain ⟨name, hname, rfl⟩ := Option.map_eq_some_iff.1 hm
      obtain ⟨e, he, htext⟩ := exists_escaped hname
      exact .cons ⟨⟨e, he, (congrArg Printed.text hc.1).trans htext⟩, hc.2⟩ (ih hms)

theorem forall₂_snd (h : List.Forall₂ (PartText fmt read) cs ps) :
    List.Forall₂ (fun v e => Renders (FormatGap fmt) read (.value v) e) (cs.map Prod.snd)
      ((ps.map Prod.snd).map Printed.text) := by
  induction h with
  | nil => exact .nil
  | cons hc _ ih => exact .cons hc.2 ih

/-- The children of an array as they are printed. -/
theorem printArray_renders (h : List.Forall₂ (PartText fmt read) cs ps) :
    Renders (FormatGap fmt) read (.value (.arr (cs.map Prod.snd)))
      (printArray fmt (ps.map Prod.snd)).text := by
  have hentries := forall₂_snd h
  cases h with
  | nil => exact .arrNil (formatGap_nil fmt)
  | @cons c r cs ps _ _ =>
      have hne : (c :: cs).map Prod.snd ≠ [] := List.cons_ne_nil _ _
      rw [printArray, if_neg (show (r :: ps).map Prod.snd ≠ [] from List.cons_ne_nil _ _)]
      exact .arr (renders_joinEntries (w := []) hentries hne (formatGap_nil fmt))

/-- The children of an object with names. -/
theorem printObject_renders (h : List.Forall₂ (MemberText fmt read) ms (ps.map fun r => (r.1.text, r.2.text)))
    (depth : Nat) :
    Renders (FormatGap fmt) read (.value (.obj ms)) (printObject fmt depth ps).text := by
  rw [printObject]
  split
  · next hnil =>
      rw [hnil] at h
      cases h with
      | nil =>
          exact .objNil (formatGap_whenFmt (blank_cons (by decide) (blank_tabs depth)))
  · next hne =>
      have hms : ms ≠ [] := by
        rintro rfl
        cases ps with
        | nil => exact hne rfl
        | cons r ps => cases h
      have hline : FormatGap fmt (whenFmt fmt [10]) :=
        formatGap_whenFmt (blank_cons (by decide) blank_nil)
      have hmembers := Renders.obj (renders_joinMembers (depth + 1) h hms hline
        (formatGap_whenFmt (blank_tabs depth)))
      simpa only [List.append_assoc, List.cons_append, Nat.add_sub_cancel] using hmembers

/-- Numbers are printed as what `num` takes them for. -/
def NumPrints (fmt : Bool) (read : NumberText → Double) (num : Double → Option Value) : Prop :=
  ∀ d v, num d = some v → Renders (FormatGap fmt) read (.value v) (printNumber d d.toInt).text

/-- **An item with a value is printed as a text of the value.** -/
theorem printValue_renders (hnum : NumPrints fmt read num) (h : List.Forall₂ (PartText fmt read) cs ps)
    (hv : valueOf num item cs = some v) (depth : Nat) :
    ∃ r, printValue fmt depth item (ps.map fun r => (r.1, some r.2)) = some r ∧
      Renders (FormatGap fmt) read (.value v) r.text := by
  simp only [valueOf] at hv
  simp only [printValue]
  by_cases hnull : item.type % 256 = cJSONNull
  · rw [if_pos hnull] at hv ⊢
    obtain rfl := Option.some_inj.1 hv
    exact ⟨_, rfl, .null⟩
  rw [if_neg hnull] at hv ⊢
  by_cases hfalse : item.type % 256 = cJSONFalse
  · rw [if_pos hfalse] at hv ⊢
    obtain rfl := Option.some_inj.1 hv
    exact ⟨_, rfl, .bool false⟩
  rw [if_neg hfalse] at hv ⊢
  by_cases htrue : item.type % 256 = cJSONTrue
  · rw [if_pos htrue] at hv ⊢
    obtain rfl := Option.some_inj.1 hv
    exact ⟨_, rfl, .bool true⟩
  rw [if_neg htrue] at hv ⊢
  by_cases hnumber : item.type % 256 = cJSONNumber
  · rw [if_pos hnumber] at hv ⊢
    split at hv
    · next hint => exact ⟨_, rfl, hint ▸ hnum _ _ hv⟩
    · cases hv
  rw [if_neg hnumber] at hv ⊢
  by_cases hstring : item.type % 256 = cJSONString
  · rw [if_pos hstring] at hv ⊢
    obtain ⟨s, hs, rfl⟩ := Option.map_eq_some_iff.1 hv
    obtain ⟨e, he, htext⟩ := exists_escaped hs
    exact ⟨_, rfl, htext ▸ .str he⟩
  rw [if_neg hstring] at hv ⊢
  by_cases harray : item.type % 256 = cJSONArray
  · rw [if_pos harray] at hv ⊢
    obtain rfl := Option.some_inj.1 hv
    rw [mapM_snd]
    exact ⟨_, rfl, printArray_renders h⟩
  rw [if_neg harray] at hv ⊢
  by_cases hobject : item.type % 256 = cJSONObject
  · rw [if_pos hobject] at hv ⊢
    obtain ⟨ms, hms, rfl⟩ := Option.map_eq_some_iff.1 hv
    rw [mapM_pair]
    exact ⟨_, rfl, printObject_renders (memberText_of_mapM h hms) depth⟩
  · rw [if_neg hobject] at hv
    cases hv

/-- The items of a chain, each with its name. -/
theorem Item.printChain_renders (hnum : NumPrints fmt read num) {chain : Item}
    (h : chain.parts num = some cs) (depth : Nat) :
    ∃ ps, chain.printChain fmt depth = ps.map (fun r => (r.1, some r.2)) ∧
      List.Forall₂ (PartText fmt read) cs ps := by
  induction chain generalizing cs depth with
  | null =>
      obtain rfl := Option.some_inj.1 h
      exact ⟨[], rfl, .nil⟩
  | node item child next ihChild ihNext =>
      rw [Item.parts] at h
      obtain ⟨qs, hqs, h⟩ := Option.bind_eq_some_iff.1 h
      obtain ⟨v, hv, h⟩ := Option.bind_eq_some_iff.1 h
      obtain ⟨rest, hrest, h⟩ := Option.bind_eq_some_iff.1 h
      obtain rfl := Option.some_inj.1 h
      obtain ⟨children, hchildren, hchild⟩ := ihChild hqs (depth + 1)
      obtain ⟨ps, hps, hnext⟩ := ihNext hrest depth
      obtain ⟨r, hr, htext⟩ := printValue_renders hnum hchild hv depth
      refine ⟨(printStringPtr item.string, r) :: ps, ?_, .cons ⟨rfl, htext⟩ hnext⟩
      rw [Item.printChain, hchildren, hr, hps, List.map_cons]

/-- **An item with a value is printed as a text of the value.** -/
theorem cJSONPrint_renders (hnum : NumPrints fmt read num) {t : Item} (hv : t.value num = some v) :
    ∃ r, cJSONPrint fmt t = some r ∧ Renders (FormatGap fmt) read (.value v) r.text := by
  cases t with
  | null => cases hv
  | node item child next =>
      obtain ⟨qs, hqs, hv⟩ := Option.bind_eq_some_iff.1 hv
      obtain ⟨children, hchildren, hchild⟩ := Item.printChain_renders hnum hqs 1
      obtain ⟨r, hr, htext⟩ := printValue_renders hnum hchild hv 0
      exact ⟨r, by rw [cJSONPrint, hchildren, hr], htext⟩

/-- **What is printed is parsed into the same value.** -/
theorem cJSONParse_cJSONPrint (hnum : NumPrints fmt (NumberText.value pow) num) {t : Item}
    (hv : t.value num = some v) (junk : Text) (b : Bool) :
    ∃ r t' endPtr, cJSONPrint fmt t = some r ∧
      cJSONParseWithOpts pow (r.text ++ 0 :: junk) b = .ok (t', endPtr) ∧
      skip endPtr = .ok (0 :: junk) ∧ t'.value anyNumber = some v := by
  obtain ⟨r, hr, htext⟩ := cJSONPrint_renders hnum hv
  have helement : Renders Blank (NumberText.value pow) (.element v) ([] ++ r.text ++ []) :=
    .element blank_nil (htext.mono fun w hw => FormatGap.blank hw) blank_nil
  rw [List.append_nil] at helement
  obtain ⟨t', endPtr, hparse, hend, hv'⟩ := cJSONParseWithOpts_renders helement junk b
  exact ⟨r, t', endPtr, hr, hparse, hend, hv'⟩

end Items

/-- **Items whose numbers are integers below `2 ^ 53` survive printing and parsing.** -/
theorem cJSONParse_cJSONPrint_exact (hpow : pow 0 = .ofInt 1) {t : Item}
    (hv : t.value exactNumber = some v) (junk : Text) (fmt b : Bool) :
    ∃ r t' endPtr, cJSONPrint fmt t = some r ∧
      cJSONParseWithOpts pow (r.text ++ 0 :: junk) b = .ok (t', endPtr) ∧
      skip endPtr = .ok (0 :: junk) ∧ t'.value anyNumber = some v :=
  cJSONParse_cJSONPrint (fun _ _ h => exactNumber_renders hpow h) hv junk b

/-! ## An item -/

/-- The elements of an array: numbers, and a string with a tab behind them. -/
def sampleElements : List Double → Item
  | [] => .node { newItem with type := cJSONString, valuestring := some [120, 9] } .null .null
  | d :: ds => .node { newItem with type := cJSONNumber, valuedouble := d, valueint := d.toInt } .null
      (sampleElements ds)

/-- An object with the array. -/
def sampleItem (ds : List Double) : Item :=
  .node { newItem with type := cJSONObject }
    (.node { newItem with type := cJSONArray, string := some (cstr "a") } (sampleElements ds) .null) .null

theorem sampleElements_parts {num : Double → Option Value} {ds : List Double} {vs : List Value}
    (h : ds.mapM num = some vs) :
    (sampleElements ds).parts num = some ((vs ++ [Value.str [120, 9]]).map fun v => (none, v)) := by
  induction ds generalizing vs with
  | nil =>
      obtain rfl := Option.some_inj.1 h
      rfl
  | cons d ds ih =>
      rw [List.mapM_cons] at h
      obtain ⟨v, hv, h⟩ := Option.bind_eq_some_iff.1 h
      obtain ⟨vs', hvs, h⟩ := Option.bind_eq_some_iff.1 h
      obtain rfl := Option.some_inj.1 h
      have hnumber : valueOf num { newItem with
          type := cJSONNumber, valuedouble := d, valueint := d.toInt } [] = some v :=
        (if_pos rfl).trans hv
      rw [sampleElements, Item.parts, Item.parts, ih hvs]
      simp only [Option.bind_eq_bind, Option.bind_some, hnumber]
      rfl

theorem sampleItem_value {num : Double → Option Value} {ds : List Double} {vs : List Value}
    (h : ds.mapM num = some vs) :
    (sampleItem ds).value num = some (.obj [(cstr "a", .arr (vs ++ [.str [120, 9]]))]) := by
  have hparts := sampleElements_parts h
  have harray : valueOf num { newItem with type := cJSONArray, string := some (cstr "a") }
      ((vs ++ [Value.str [120, 9]]).map fun v => (none, v)) = some (.arr (vs ++ [.str [120, 9]])) := by
    show some (Value.arr _) = _
    rw [List.map_map]
    exact congrArg (some ∘ Value.arr) (List.map_id _)
  have hchild : Item.parts num (.node { newItem with type := cJSONArray, string := some (cstr "a") }
      (sampleElements ds) .null) = some [(some (cstr "a"), .arr (vs ++ [.str [120, 9]]))] := by
    rw [Item.parts, hparts]
    simp only [Option.bind_eq_bind, Option.bind_some, harray]
    rfl
  rw [sampleItem, Item.value, hchild]
  rfl

/-- Its numbers are integers below `2 ^ 53`. -/
theorem sampleItem_exact : (sampleItem [.ofInt (-7), .ofInt (2 ^ 52)]).value exactNumber =
    some (.obj [(cstr "a", .arr [.num (.ofInt (-7)), .num (.ofInt (2 ^ 52)), .str [120, 9]])]) := by
  have hnums : [Double.ofInt (-7), .ofInt (2 ^ 52)].mapM exactNumber =
      some [.num (.ofInt (-7)), .num (.ofInt (2 ^ 52))] := by
    rw [List.mapM_cons, List.mapM_cons, exactNumber_ofInt (by decide), exactNumber_ofInt (by decide)]
    rfl
  exact sampleItem_value hnums

/-- An object with integers and a string. -/
theorem cJSONParse_cJSONPrint_exact_sample :
    ∃ r t' endPtr, cJSONPrint true (sampleItem [.ofInt (-7), .ofInt (2 ^ 52)]) = some r ∧
      cJSONParseWithOpts Double.roundedPow (r.text ++ 0 :: []) true = .ok (t', endPtr) ∧
      skip endPtr = .ok (0 :: []) ∧ t'.value anyNumber =
        some (.obj [(cstr "a", .arr [.num (.ofInt (-7)), .num (.ofInt (2 ^ 52)), .str [120, 9]])]) :=
  cJSONParse_cJSONPrint_exact Double.powTen_roundedPow.zero sampleItem_exact [] true true

/-! ## Numbers that are printed and parsed -/

/-- What becomes of numbers that are printed and parsed: integers below `2 ^ 53` stay, the others keep
    six places, and what is no number becomes `null`. -/
structure Rereads (num : Double → Option Value) : Prop where
  integer : ∀ k : ℤ, |k| < 2 ^ 53 → num (.ofInt k) = some (.num (.ofInt k))
  finite : ∀ q hq, ∃ r hr, num (.finite q hq) = some (.num (.finite r hr)) ∧ |r - q| ≤ max 1 |q| / 10 ^ 6
  infinity : ∀ negative, num (.infinity negative) = some .null
  nan : num .nan = some .null

/-- What the printed text of a double is parsed into. -/
noncomputable def printedNumber (pow : ℤ → Double) : Double → Option Value
  | .finite _ hq => some (.num ((printNumber_finite hq).choose.value pow))
  | .infinity _ => some .null
  | .nan => some .null

theorem printedNumber_isSome (pow : ℤ → Double) (d : Double) : (printedNumber pow d).isSome := by
  cases d <;> rfl

theorem printedNumber_renders (h : printedNumber pow d = some v) :
    Renders gap (NumberText.value pow) (.value v) (printNumber d d.toInt).text := by
  obtain ⟨q, hq⟩ | negative | _ := d
  · obtain rfl := Option.some_inj.1 h
    have hrenders : ∀ t : NumberText, t.Valid →
        (printNumber (.finite q hq) (Double.finite q hq).toInt).text = t.text →
        Renders gap (NumberText.value pow) (.value (.num (t.value pow)))
          (printNumber (.finite q hq) (Double.finite q hq).toInt).text := by
      intro t ht htext
      rw [htext]
      exact .num ht
    obtain ⟨hvalid, htext, -⟩ := (printNumber_finite hq).choose_spec
    exact hrenders _ hvalid htext
  · obtain rfl := Option.some_inj.1 h
    rw [printNumber_infinity]
    exact .null
  · obtain rfl := Option.some_inj.1 h
    rw [printNumber_nan]
    exact .null

theorem rereads_printedNumber (hpow : Double.PowTen pow) : Rereads (printedNumber pow) where
  integer := by
    intro k hk
    rw [Double.ofInt_eq hk]
    obtain ⟨-, -, hint, -⟩ := (printNumber_finite (Double.isDouble_intCast hk)).choose_spec
    rw [printedNumber, hint k hk rfl, value_intText hpow.zero hk, Double.ofInt_eq hk]
  finite := by
    intro q hq
    obtain ⟨-, -, -, hreads⟩ := (printNumber_finite hq).choose_spec
    obtain ⟨r, hr, heq, hnear⟩ := hreads pow hpow
    exact ⟨r, hr, by rw [printedNumber, heq], hnear⟩
  infinity := fun _ => rfl
  nan := rfl

/-- **Whatever its numbers, an item is printed as a text that the parser takes**, and its numbers come
    back as `Rereads` says. -/
theorem cJSONParse_cJSONPrint_printed (hpow : Double.PowTen pow) :
    ∃ num, Rereads num ∧ ∀ {t : Item} {v : Value}, t.value num = some v → ∀ (junk : Text) (fmt b : Bool),
      ∃ r t' endPtr, cJSONPrint fmt t = some r ∧
        cJSONParseWithOpts pow (r.text ++ 0 :: junk) b = .ok (t', endPtr) ∧
        skip endPtr = .ok (0 :: junk) ∧ t'.value anyNumber = some v := by
  refine ⟨printedNumber pow, rereads_printedNumber hpow, ?_⟩
  intro t v hv junk fmt b
  exact cJSONParse_cJSONPrint (fun _ _ h => printedNumber_renders h) hv junk b

/-- An integer, a quarter and a double that is no number. -/
theorem cJSONParse_cJSONPrint_printed_sample :
    ∃ num, Rereads num ∧ ∃ r hr p t' endPtr, |r - 2 ^ (-2 : ℤ)| ≤ 1 / 10 ^ 6 ∧
      cJSONPrint false (sampleItem [.ofInt 3, .finite (2 ^ (-2 : ℤ))
        (Double.isDouble_two_zpow (by decide) (by decide)), .nan]) = some p ∧
      cJSONParseWithOpts Double.roundedPow (p.text ++ 0 :: []) true = .ok (t', endPtr) ∧
      skip endPtr = .ok (0 :: []) ∧ t'.value anyNumber =
        some (.obj [(cstr "a", .arr [.num (.ofInt 3), .num (.finite r hr), .null, .str [120, 9]])]) := by
  obtain ⟨num, hnum, hprinted⟩ := cJSONParse_cJSONPrint_printed Double.powTen_roundedPow
  obtain ⟨r, hr, hquarter, hnear⟩ := hnum.finite (2 ^ (-2 : ℤ))
    (Double.isDouble_two_zpow (by decide) (by decide))
  have hnums : [Double.ofInt 3, .finite (2 ^ (-2 : ℤ))
      (Double.isDouble_two_zpow (by decide) (by decide)), .nan].mapM num =
      some [.num (.ofInt 3), .num (.finite r hr), .null] := by
    rw [List.mapM_cons, List.mapM_cons, List.mapM_cons, hnum.integer 3 (by decide), hquarter, hnum.nan]
    rfl
  obtain ⟨p, t', endPtr, hp, hparse, hend, hv⟩ := hprinted (sampleItem_value hnums) [] false true
  refine ⟨num, hnum, r, hr, p, t', endPtr, ?_, hp, hparse, hend, hv⟩
  have hone : max 1 |(2 : ℚ) ^ (-2 : ℤ)| = 1 := by norm_num
  rwa [hone] at hnear

end XToolkits.Json
