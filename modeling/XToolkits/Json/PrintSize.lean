import XToolkits.Json.PrintText

set_option autoImplicit false

/-! # The printer allocates enough

Every function of the printer asks `malloc` for a size before it writes. Whatever the item holds, what
it writes has room there, its `NUL` included, as long as the `int` that counts the size does not wrap. -/

namespace XToolkits.Json

/-- The text and its `NUL` have room in the memory. -/
def Printed.Fits (r : Printed) : Prop := r.text.length < r.size

/-- The text is so short that an `int` counts it. -/
def Printed.Short (r : Printed) : Prop := r.text.length + 64 ≤ 2 ^ 30

/-! ## Numbers -/

theorem size_printNumber_le (d : Double) (k : Int) : (printNumber d k).size ≤ 64 := by
  rw [printNumber]
  split
  · show 2 ≤ 64
    decide
  split
  · show 21 ≤ 64
    decide
  · exact Nat.le_refl 64

/-- **A number has room.** -/
theorem printNumber_fits {k : Int} (h0 : -2 ^ 31 ≤ k) (h1 : k < 2 ^ 31) (d : Double) :
    (printNumber d k).Fits := by
  have hzero : |(0 : ℤ)| < 2 ^ 53 := by decide
  rw [printNumber]
  split
  · show (cstr "0").length < 2
    decide
  split
  · show (intText k).text.length < 21
    exact Nat.lt_of_le_of_lt (length_intText h0 h1) (by decide)
  · show List.length _ < 64
    split
    · decide
    · next hfinite =>
        obtain ⟨q, hq⟩ | _ | _ := d
        · split
          · next hlarge =>
              exact Nat.lt_succ_of_le (length_fixed0 (le_of_lt_round hq hlarge.2))
          split
          · exact Nat.lt_of_le_of_lt (length_scientific hq) (by decide)
          · next hsmall =>
              have hle := length_fixed6 (le_of_not_round_lt hq fun h => hsmall (Or.inr h))
              exact Nat.lt_of_le_of_lt hle (by decide)
        · rw [Double.ofInt_eq hzero, Double.mul, if_pos Int.cast_zero] at hfinite
          exact absurd Bool.false_ne_true hfinite
        · exact absurd Bool.false_ne_true hfinite

/-! ## Strings -/

theorem length_escapeByte (b : UInt8) : (escapeByte b).length = escapeLen b := by
  have hall : ∀ n < 256, (escapeByte (UInt8.ofNat n)).length = escapeLen (UInt8.ofNat n) := by
    decide +kernel
  have hb := hall b.toNat b.toNat_lt
  rwa [UInt8.ofNat_toNat] at hb

/-- A string has the memory that it needs, and no more. -/
theorem size_printStringPtr {str : Option CStr} (h : (printStringPtr str).Short) :
    (printStringPtr str).size = (printStringPtr str).text.length + 1 := by
  unfold Printed.Short at h
  unfold printStringPtr at h ⊢
  split
  · rfl
  · next s =>
      dsimp only at h
      split at h
      · next hplain =>
          rw [if_pos hplain]
          simp only [List.length_append, List.length_cons, List.length_nil] at h ⊢
          rw [wrapS32_of_mem (x := (s.length : ℤ)) (by omega) (by omega),
            wrapS32_of_mem (by omega) (by omega), sizeT_eq (by omega) (by omega)]
          omega
      · next hplain =>
          have hlen : (s.flatMap escapeByte).length = (s.map escapeLen).sum := by
            rw [List.length_flatMap, List.map_congr_left fun b _ => length_escapeByte b]
          rw [if_neg hplain]
          simp only [List.length_append, List.length_cons, List.length_nil, hlen] at h ⊢
          rw [sumS32_eq (by omega) (by omega), wrapS32_of_mem (by omega) (by omega),
            sizeT_eq (by omega) (by omega)]
          omega

theorem printStringPtr_fits {str : Option CStr} (h : (printStringPtr str).Short) :
    (printStringPtr str).Fits := Nat.lt_of_succ_le (size_printStringPtr h).ge

/-! ## Arrays and objects -/

variable {fmt : Bool} {depth : Nat}

theorem length_whenFmt (fmt : Bool) (s : List UInt8) :
    (whenFmt fmt s).length = if fmt then s.length else 0 := by
  cases fmt <;> rfl

theorem length_tabs (n : Nat) : (tabs n).length = n := List.length_replicate

theorem length_joinEntries_le (fmt : Bool) (es : List CStr) :
    (joinEntries fmt es).length ≤ (es.map fun e => e.length + 2 + if fmt then 1 else 0).sum := by
  induction es with
  | nil => exact Nat.zero_le _
  | cons e es ih =>
      rw [List.map_cons, List.sum_cons]
      cases es with
      | nil =>
          rw [joinEntries]
          omega
      | cons e' es =>
          have hspace : (whenFmt fmt [(32 : UInt8)]).length = if fmt then 1 else 0 := length_whenFmt ..
          rw [joinEntries, List.length_append, List.length_append, List.length_cons, hspace]
          · omega
          · exact List.cons_ne_nil e' es

/-- The size of an array is no more than twice its text. -/
theorem sum_entries_le (fmt : Bool) (es : List CStr) :
    (es.map fun e => e.length + 2 + if fmt then 1 else 0).sum ≤ 2 * (joinEntries fmt es).length + 3 := by
  induction es with
  | nil => exact Nat.zero_le _
  | cons e es ih =>
      have hfmt : (if fmt then 1 else 0) ≤ 1 := by split <;> decide
      rw [List.map_cons, List.sum_cons]
      cases es with
      | nil =>
          rw [joinEntries, List.map_nil, List.sum_nil]
          omega
      | cons e' es =>
          have hspace : (whenFmt fmt [(32 : UInt8)]).length = if fmt then 1 else 0 := length_whenFmt ..
          rw [joinEntries, List.length_append, List.length_append, List.length_cons, hspace]
          · omega
          · exact List.cons_ne_nil e' es

theorem printArray_fits {entries : List Printed} (h : (printArray fmt entries).Short) :
    (printArray fmt entries).Fits := by
  have hjoin := length_joinEntries_le fmt (entries.map Printed.text)
  have hsum := sum_entries_le fmt (entries.map Printed.text)
  rw [List.map_map] at hjoin hsum
  have hmap : entries.map ((fun e : CStr => e.length + 2 + if fmt then 1 else 0) ∘ Printed.text) =
      entries.map fun e => e.text.length + 2 + if fmt then 1 else 0 := rfl
  rw [hmap] at hjoin hsum
  unfold Printed.Short Printed.Fits at *
  rw [printArray] at h ⊢
  split
  · show 2 < 3
    decide
  · next hne =>
      rw [if_neg hne] at h
      simp only [List.length_append, List.length_cons, List.length_nil] at h ⊢
      rw [sumS32_eq (by omega) (by omega), sizeT_eq (by omega) (by omega)]
      omega

theorem length_joinMembers_le (fmt : Bool) (depth : Nat) (es : List (CStr × CStr)) :
    (joinMembers fmt depth es).length ≤
      (es.map fun e => e.2.length + e.1.length + 2 + if fmt then 2 + depth else 0).sum := by
  induction es with
  | nil => exact Nat.zero_le _
  | cons e es ih =>
      obtain ⟨name, entry⟩ := e
      have hcomma : (if es = [] then [] else [(44 : UInt8)]).length ≤ 1 := by
        split <;> decide
      rw [List.map_cons, List.sum_cons]
      simp only [joinMembers, List.length_append, List.length_cons, length_whenFmt, length_tabs,
        List.length_nil]
      cases fmt <;> simp only [if_true, if_false, Bool.false_eq_true] at ih ⊢ <;> omega

/-- The size of an object is no more than twice its text either. -/
theorem sum_members_le (fmt : Bool) (depth : Nat) (es : List (CStr × CStr)) :
    (es.map fun e => e.2.length + e.1.length + 2 + if fmt then 2 + depth else 0).sum ≤
      2 * (joinMembers fmt depth es).length := by
  induction es with
  | nil => exact Nat.zero_le _
  | cons e es ih =>
      obtain ⟨name, entry⟩ := e
      rw [List.map_cons, List.sum_cons]
      simp only [joinMembers, List.length_append, List.length_cons, length_whenFmt, length_tabs,
        List.length_nil]
      cases fmt <;> simp only [if_true, if_false, Bool.false_eq_true] at ih ⊢ <;> omega

/-- An object without members. -/
theorem size_printObject_nil (h : (printObject fmt depth []).Short) :
    (printObject fmt depth []).size = (printObject fmt depth []).text.length + 1 := by
  unfold Printed.Short at h
  rw [printObject, if_pos rfl] at h ⊢
  simp only [List.length_append, List.length_cons, length_whenFmt, length_tabs, List.length_nil] at h ⊢
  cases fmt with
  | false => simp only [Bool.false_eq_true, if_false]
  | true =>
      simp only [if_true] at h ⊢
      rw [wrapS32_of_mem (by omega) (by omega), sizeT_eq (by omega) (by omega)]
      omega

theorem printObject_fits {entries : List (Printed × Printed)} (h : (printObject fmt depth entries).Short) :
    (printObject fmt depth entries).Fits := by
  by_cases hne : entries = []
  · subst hne
    exact Nat.lt_of_succ_le (size_printObject_nil h).ge
  have hjoin := length_joinMembers_le fmt (depth + 1)
    (entries.map fun e => (e.1.text, e.2.text))
  have hsum := sum_members_le fmt (depth + 1) (entries.map fun e => (e.1.text, e.2.text))
  rw [List.map_map] at hjoin hsum
  have hmap : entries.map ((fun e : CStr × CStr => e.2.length + e.1.length + 2 +
      if fmt then 2 + (depth + 1) else 0) ∘ fun e => (e.1.text, e.2.text)) =
      entries.map fun e => e.2.text.length + e.1.text.length + 2 +
        if fmt then 2 + (depth + 1) else 0 := rfl
  rw [hmap] at hjoin hsum
  unfold Printed.Short Printed.Fits at *
  rw [printObject, if_neg hne] at h ⊢
  simp only [List.length_append, List.length_cons, length_whenFmt, length_tabs, List.length_nil] at h ⊢
  generalize (entries.map fun e =>
    e.2.text.length + e.1.text.length + 2 + if fmt then 2 + (depth + 1) else 0) = terms at hjoin hsum ⊢
  cases fmt with
  | false =>
      simp only [if_false, Bool.false_eq_true] at h ⊢
      rw [sumS32_eq (by omega) (by omega), sizeT_eq (by omega) (by omega)]
      omega
  | true =>
      simp only [if_true] at h ⊢
      rw [wrapS32_of_mem (by omega) (by omega), sumS32_eq (by omega) (by omega),
        sizeT_eq (by omega) (by omega)]
      omega

/-! ## What C can hold -/

/-- What a field can hold: an `int`, and strings that end where their `NUL` is. -/
structure Fields.Typed (item : Fields) : Prop where
  valueint : -2 ^ 31 ≤ item.valueint ∧ item.valueint < 2 ^ 31
  valuestring : ∀ s ∈ item.valuestring, 0 ∉ s
  string : ∀ s ∈ item.string, 0 ∉ s

/-- The same for all items of a chain and their children. -/
def Item.Typed : Item → Prop
  | .null => True
  | .node item child next => item.Typed ∧ child.Typed ∧ next.Typed

theorem sampleItem_typed (ds : List Double) : (sampleItem ds).Typed := by
  have hint : (-2 ^ 31 : ℤ) ≤ newItem.valueint ∧ newItem.valueint < 2 ^ 31 := by decide
  have helements : (sampleElements ds).Typed := by
    induction ds with
    | nil => exact ⟨⟨hint, by decide, by decide⟩, trivial, trivial⟩
    | cons d ds ih => exact ⟨⟨d.toInt_bounds, by simp [newItem], by simp [newItem]⟩, trivial, ih⟩
  exact ⟨⟨hint, by decide, by decide⟩, ⟨⟨hint, by decide, by decide⟩, helements, trivial⟩, trivial⟩

/-! ## Values by their type -/

variable {item : Fields} {r : Printed} {children : List (Printed × Option Printed)}

/-- What is printed for an item without children. -/
inductive Scalar (item : Fields) : Printed → Prop where
  | null (h : item.type % 256 = cJSONNull) : Scalar item ⟨5, cstr "null"⟩
  | false (h : item.type % 256 = cJSONFalse) : Scalar item ⟨6, cstr "false"⟩
  | true (h : item.type % 256 = cJSONTrue) : Scalar item ⟨5, cstr "true"⟩
  | number (h : item.type % 256 = cJSONNumber) :
      Scalar item (printNumber item.valuedouble item.valueint)
  | string (h : item.type % 256 = cJSONString) : Scalar item (printStringPtr item.valuestring)

theorem Scalar.printValue (h : Scalar item r) : printValue fmt depth item children = some r := by
  cases h with
  | null h | false h | true h | number h | string h => simp only [Json.printValue, h]; rfl

theorem printValue_array (h : item.type % 256 = cJSONArray) :
    printValue fmt depth item children = (children.mapM Prod.snd).map (printArray fmt) := by
  simp only [printValue, h]
  rfl

theorem printValue_object (h : item.type % 256 = cJSONObject) :
    printValue fmt depth item children =
      (children.mapM fun (e : Printed × Option Printed) => e.2.map fun r => (e.1, r)).map
        (printObject fmt depth) := by
  simp only [printValue, h]
  rfl

/-- **What can be printed**: an item without children, or an array or object whose children can. -/
theorem printValue_cases (h : printValue fmt depth item children = some r) :
    Scalar item r ∨
    (item.type % 256 = cJSONArray ∧ ∃ entries, children.mapM Prod.snd = some entries ∧
      r = printArray fmt entries) ∨
    (item.type % 256 = cJSONObject ∧ ∃ entries,
      children.mapM (fun (e : Printed × Option Printed) => e.2.map fun r => (e.1, r)) = some entries ∧
      r = printObject fmt depth entries) := by
  simp only [printValue] at h
  split at h
  · next hnull => exact Or.inl (Option.some_inj.1 h ▸ .null hnull)
  split at h
  · next hfalse => exact Or.inl (Option.some_inj.1 h ▸ .false hfalse)
  split at h
  · next htrue => exact Or.inl (Option.some_inj.1 h ▸ .true htrue)
  split at h
  · next hnumber => exact Or.inl (Option.some_inj.1 h ▸ .number hnumber)
  split at h
  · next hstring => exact Or.inl (Option.some_inj.1 h ▸ .string hstring)
  split at h
  · next harray =>
      obtain ⟨entries, hentries, hr⟩ := Option.map_eq_some_iff.1 h
      exact Or.inr (Or.inl ⟨harray, entries, hentries, hr.symm⟩)
  split at h
  · next hobject =>
      obtain ⟨entries, hentries, hr⟩ := Option.map_eq_some_iff.1 h
      exact Or.inr (Or.inr ⟨hobject, entries, hentries, hr.symm⟩)
  · cases h

theorem Scalar.fits (h : Scalar item r) (hitem : item.Typed) (hshort : r.Short) : r.Fits := by
  cases h with
  | null => show (cstr "null").length < 5; decide
  | false => show (cstr "false").length < 6; decide
  | true => show (cstr "true").length < 5; decide
  | number => exact printNumber_fits hitem.valueint.1 hitem.valueint.2 _
  | string => exact printStringPtr_fits hshort

theorem printValue_fits (hitem : item.Typed) (h : printValue fmt depth item children = some r)
    (hshort : r.Short) : r.Fits := by
  rcases printValue_cases h with hscalar | ⟨-, entries, -, rfl⟩ | ⟨-, entries, -, rfl⟩
  · exact hscalar.fits hitem hshort
  · exact printArray_fits hshort
  · exact printObject_fits hshort

/-! ## Items -/

/-- The strings that printing the items of a chain allocates, those for their children included. (Only
    an object asks for the names.) -/
def Item.allocations (fmt : Bool) : Item → Nat → List Printed
  | .null, _ => []
  | .node item child next, depth =>
      printStringPtr item.string ::
        (printValue fmt depth item (child.printChain fmt (depth + 1))).toList ++
        child.allocations fmt (depth + 1) ++ next.allocations fmt depth

/-- All of them have room, when an `int` counts them. -/
def Item.AllocationsFit (fmt : Bool) (t : Item) (depth : Nat) : Prop :=
  ∀ r ∈ t.allocations fmt depth, r.Short → r.Fits

/-- **Every string that is allocated has room for what is written to it.** -/
theorem allocations_fit {t : Item} (h : t.Typed) (depth : Nat) : t.AllocationsFit fmt depth := by
  induction t generalizing depth with
  | null => exact fun r hr => absurd hr List.not_mem_nil
  | node item child next ihChild ihNext =>
      obtain ⟨hitem, hchild, hnext⟩ := h
      intro r hr hshort
      rw [Item.allocations, List.mem_append, List.mem_append, List.mem_cons] at hr
      obtain ((rfl | hr) | hr) | hr := hr
      · exact printStringPtr_fits hshort
      · exact printValue_fits hitem (Option.mem_toList.1 hr) hshort
      · exact ihChild hchild (depth + 1) r hr hshort
      · exact ihNext hnext depth r hr hshort

/-- An object with an array of numbers and a string with a tab. -/
theorem allocations_fit_sample : (sampleItem [.ofInt (-7), .nan]).AllocationsFit true 0 :=
  allocations_fit (sampleItem_typed _) 0

end XToolkits.Json
