import XToolkits.Json.PrintSize

set_option autoImplicit false

/-! # The parser stays in its memory

Whatever the text is, the parser reads no byte behind its `NUL`, writes no string longer than the memory
that it allocated, and reports an error inside of the text; what it accepts can be printed. The text only
must not end with a backslash: behind one in an open string the first loop of `parse_string` steps over
the `NUL`. -/

namespace XToolkits.Json

variable {pow : Int → Double} {text t u : Text} {b c : UInt8} {item : Fields}

/-! ## Texts with a `NUL` -/

/-- A text up to its `NUL`, with no backslash in front of it. -/
inductive Terminated : Text → Prop where
  | nul : Terminated [0]
  | cons {b : UInt8} {t : Text} (hb : b ≠ 0) (hback : b = 92 → t ≠ [0]) (h : Terminated t) :
      Terminated (b :: t)

theorem terminated_append {s : List UInt8} (hzero : 0 ∉ s) (hback : s.getLast? ≠ some 92) :
    Terminated (s ++ [0]) := by
  induction s with
  | nil => exact .nul
  | cons b s ih =>
      rw [List.mem_cons, not_or] at hzero
      refine .cons (Ne.symm hzero.1) (fun hb => ?_) (ih hzero.2 fun h => hback ?_)
      · rintro hs
        obtain rfl : s = [] := by simpa using hs
        exact hback (by rw [hb]; rfl)
      · rw [List.getLast?_cons, h]
        rfl

/-- A later pointer into the same text. -/
structure Within (text t : Text) : Prop where
  terminated : Terminated t
  suffix : t <:+ text

theorem Within.refl (h : Terminated text) : Within text text := ⟨h, List.suffix_rfl⟩

theorem Within.trans (h : Within text t) (h' : Within t u) : Within text u :=
  ⟨h'.terminated, h'.suffix.trans h.suffix⟩

theorem Within.length_le (h : Within text t) : t.length ≤ text.length := h.suffix.length_le

theorem Terminated.within_tail (h : Terminated (b :: t)) (hb : b ≠ 0) : Within (b :: t) t := by
  cases h with
  | nul => exact absurd rfl hb
  | cons _ _ h => exact ⟨h, List.suffix_cons b t⟩

theorem Terminated.exists_cons (h : Terminated text) : ∃ b t, text = b :: t := by
  cases h <;> exact ⟨_, _, rfl⟩

/-! ## White space, words and numbers -/

theorem skip_within (h : Terminated text) : ∃ t, skip text = .ok t ∧ Within text t := by
  induction h with
  | nul => exact ⟨[0], rfl, .refl .nul⟩
  | @cons b t hb hback h ih =>
      rw [skip]
      split
      · obtain ⟨u, hu, hwithin⟩ := ih
        exact ⟨u, hu, (Within.trans ⟨h, List.suffix_cons b t⟩ hwithin)⟩
      · exact ⟨b :: t, rfl, .refl (.cons hb hback h)⟩

theorem startsWith_within {s : CStr} (hs : 0 ∉ s) (h : Terminated text) :
    ∃ r, startsWith s text = .ok r ∧ (r = true → Within text (text.drop s.length)) := by
  induction s generalizing text with
  | nil => exact ⟨true, by rw [startsWith], fun _ => .refl h⟩
  | cons c s ih =>
      rw [List.mem_cons, not_or] at hs
      obtain ⟨b, t, rfl⟩ := h.exists_cons
      rw [startsWith]
      split
      · next hc =>
          have htail := h.within_tail fun hb => hs.1 (hb ▸ hc.symm)
          obtain ⟨r, hr, hwithin⟩ := ih hs.2 htail.terminated
          exact ⟨r, hr, fun hr => htail.trans (hwithin hr)⟩
      · exact ⟨false, rfl, fun h => absurd h Bool.false_ne_true⟩

theorem skipByte_within (hc : c ≠ 0) (h : Terminated text) :
    ∃ r t, skipByte c text = .ok (r, t) ∧ Within text t := by
  obtain ⟨b, t, rfl⟩ := h.exists_cons
  rw [skipByte]
  split
  · next hb => exact ⟨true, t, rfl, h.within_tail (hb ▸ hc)⟩
  · exact ⟨false, b :: t, rfl, .refl h⟩

theorem ne_zero_of_isDigit (h : IsDigit b) : b ≠ 0 := by
  rintro rfl
  exact absurd h (by decide)

theorem takeDigits_within (h : Terminated text) :
    ∃ ds t, takeDigits text = .ok (ds, t) ∧ Within text t := by
  induction h with
  | nul => exact ⟨[], [0], rfl, .refl .nul⟩
  | @cons b t hb hback h ih =>
      rw [takeDigits]
      split
      · obtain ⟨ds, u, hu, hwithin⟩ := ih
        refine ⟨b :: ds, u, by rw [hu, ok_bind], Within.trans ⟨h, List.suffix_cons b t⟩ hwithin⟩
      · exact ⟨[], b :: t, rfl, .refl (.cons hb hback h)⟩

theorem takeInt_within (h : Terminated text) : ∃ ds t, takeInt text = .ok (ds, t) ∧ Within text t := by
  obtain ⟨b, t, rfl⟩ := h.exists_cons
  rw [takeInt]
  split
  · exact takeDigits_within h
  · exact ⟨[], b :: t, rfl, .refl h⟩

theorem takeFrac_within (h : Terminated text) :
    ∃ ds t, takeFrac text = .ok (ds, t) ∧ Within text t := by
  obtain ⟨b, t, rfl⟩ := h.exists_cons
  unfold takeFrac
  split
  · cases ‹_›
  · next b' t' heq =>
      obtain ⟨rfl, rfl⟩ := List.cons.inj heq
      split
      · next hb =>
          have htail := h.within_tail (by rw [hb]; decide)
          obtain ⟨d, t', rfl⟩ := htail.terminated.exists_cons
          dsimp only
          split
          · obtain ⟨ds, u, hu, hwithin⟩ := takeDigits_within htail.terminated
            exact ⟨ds, u, hu, htail.trans hwithin⟩
          · exact ⟨[], _, rfl, .refl h⟩
      · exact ⟨[], _, rfl, .refl h⟩

theorem takeExp_within (h : Terminated text) :
    ∃ k t, takeExp text = .ok (k, t) ∧ Within text t := by
  obtain ⟨b, t, rfl⟩ := h.exists_cons
  rw [takeExp]
  split
  · next hb =>
      have htail := h.within_tail (by rcases hb with rfl | rfl <;> decide)
      obtain ⟨plus, t₁, hplus, h₁⟩ := skipByte_within (c := 43) (by decide) htail.terminated
      obtain ⟨minus, t₂, hminus, h₂⟩ := skipByte_within (c := 45) (by decide) h₁.terminated
      obtain ⟨ds, t₃, hds, h₃⟩ := takeDigits_within h₂.terminated
      obtain ⟨ds', t₃', hds', h₃'⟩ := takeDigits_within h₁.terminated
      cases plus with
      | true =>
          simp only [hplus, ok_bind, if_true, hds']
          exact ⟨_, t₃', rfl, htail.trans (h₁.trans h₃')⟩
      | false =>
          simp only [hplus, ok_bind, Bool.false_eq_true, if_false, hminus, hds]
          exact ⟨_, t₃, rfl, htail.trans (h₁.trans (h₂.trans h₃))⟩
  · exact ⟨0, b :: t, rfl, .refl h⟩

/-- The sign and the digits in front of the point, of which one byte at least is there. -/
theorem sign_within (h : Terminated (b :: t)) (hb : b = 45 ∨ IsDigit b) :
    ∃ minus t₁ zero t₂ ds t₃, skipByte 45 (b :: t) = .ok (minus, t₁) ∧
      skipByte 48 t₁ = .ok (zero, t₂) ∧ takeInt t₂ = .ok (ds, t₃) ∧ Within t t₃ := by
  have htail : Within (b :: t) t := h.within_tail (by
    rcases hb with rfl | hb
    · decide
    · exact ne_zero_of_isDigit hb)
  by_cases hminus : b = 45
  · obtain ⟨zero, t₂, hzero, h₂⟩ := skipByte_within (c := 48) (by decide) htail.terminated
    obtain ⟨ds, t₃, hds, h₃⟩ := takeInt_within h₂.terminated
    exact ⟨true, t, zero, t₂, ds, t₃, by rw [skipByte, if_pos hminus], hzero, hds, h₂.trans h₃⟩
  have hdigit : IsDigit b := hb.resolve_left hminus
  by_cases hzero : b = 48
  · obtain ⟨ds, t₃, hds, h₃⟩ := takeInt_within htail.terminated
    exact ⟨false, b :: t, true, t, ds, t₃, by rw [skipByte, if_neg hminus],
      by rw [skipByte, if_pos hzero], hds, h₃⟩
  · obtain ⟨ds, t₃, hds, h₃⟩ := takeDigits_within htail.terminated
    have hone : 49 ≤ b := by
      have hlt : (48 : UInt8) < b := UInt8.lt_of_le_of_ne hdigit.1 (Ne.symm hzero)
      rw [UInt8.le_iff_toNat_le]
      rw [UInt8.lt_iff_toNat_lt] at hlt
      exact hlt
    refine ⟨false, b :: t, false, b :: t, b :: ds, t₃, by rw [skipByte, if_neg hminus],
      by rw [skipByte, if_neg hzero], ?_, h₃⟩
    rw [takeInt, if_pos ⟨hone, hdigit.2⟩, takeDigits, if_pos hdigit, hds, ok_bind]

/-- A number is always accepted, and one byte of it at least is taken. -/
theorem parseNumber_within (h : Terminated (b :: t)) (hb : b = 45 ∨ IsDigit b) :
    ∃ n u, parseNumber pow item (b :: t) =
      .ok ({ item with valuedouble := n, valueint := n.toInt, type := cJSONNumber }, u) ∧
        Within t u := by
  obtain ⟨minus, t₁, zero, t₂, ds, t₃, hminus, hzero, hds, h₃⟩ := sign_within h hb
  obtain ⟨frac, t₄, hfrac, h₄⟩ := takeFrac_within h₃.terminated
  obtain ⟨exp, t₅, hexp, h₅⟩ := takeExp_within h₄.terminated
  simp only [parseNumber, hminus, ok_bind, hzero, hds, hfrac, hexp]
  exact ⟨_, t₅, rfl, h₃.trans (h₄.trans h₅)⟩

/-! ## Strings -/

/-- Behind a backslash comes a byte that is not the `NUL`. -/
theorem Terminated.within_escape (h : Terminated (92 :: c :: t)) : c ≠ 0 ∧ Within (92 :: c :: t) t := by
  cases h with
  | cons _ hback h =>
      cases h with
      | nul => exact absurd rfl (hback rfl)
      | cons hc _ h => exact ⟨hc, h, (List.suffix_cons c t).trans (List.suffix_cons 92 (c :: t))⟩

/-- The first loop ends in the text. -/
theorem scanString_within (h : Terminated text) :
    ∃ len endPtr, scanString text = .ok (len, endPtr) ∧ Within text endPtr := by
  induction text using scanString.induct with
  | case1 => cases h
  | case2 b t hend => exact ⟨0, b :: t, scanString_end hend t, .refl h⟩
  | case3 =>
      cases h with
      | cons _ _ h => cases h
  | case4 c t _ ih =>
      obtain ⟨-, hwithin⟩ := h.within_escape
      obtain ⟨len, endPtr, hscan, hend⟩ := ih hwithin.terminated
      exact ⟨len + 1, endPtr, by rw [scanString_backslash, hscan, map_ok], hwithin.trans hend⟩
  | case5 b t hend hback ih =>
      have hwithin := h.within_tail fun hb => hend (Or.inr hb)
      obtain ⟨len, endPtr, hscan, hend'⟩ := ih hwithin.terminated
      exact ⟨len + 1, endPtr, by rw [scanString_cons hend hback, hscan, map_ok], hwithin.trans hend'⟩

/-- `parse_hex4` reads no further than the first byte that is not a digit; `0` says that there is one,
    or four zeros. -/
theorem parseHex4_within (h : Terminated text) :
    ∃ n, parseHex4 text = .ok n ∧ (n ≠ 0 → ∃ u t, Hex4 n u ∧ text = u ++ t ∧ Within text t) := by
  have hdigit : ∀ {b : UInt8} {d : Nat}, hexVal b = some d → b ≠ 0 := by
    rintro b d hd rfl
    exact (hexVal_ne hd).1 (Or.inr rfl)
  have hzero : ∀ {t : Text}, (0 : Nat) ≠ 0 → ∃ u t', Hex4 0 u ∧ t = u ++ t' ∧ Within t t' :=
    fun h => absurd rfl h
  obtain ⟨b₀, t₀, rfl⟩ := h.exists_cons
  cases h₀ : hexVal b₀ with
  | none => exact ⟨0, by simp only [parseHex4, hexLoop, h₀], hzero⟩
  | some d₀ =>
  have w₀ := h.within_tail (hdigit h₀)
  obtain ⟨b₁, t₁, rfl⟩ := w₀.terminated.exists_cons
  cases h₁ : hexVal b₁ with
  | none => exact ⟨0, by simp only [parseHex4, hexLoop, h₀, h₁], hzero⟩
  | some d₁ =>
  have w₁ := w₀.terminated.within_tail (hdigit h₁)
  obtain ⟨b₂, t₂, rfl⟩ := w₁.terminated.exists_cons
  cases h₂ : hexVal b₂ with
  | none => exact ⟨0, by simp only [parseHex4, hexLoop, h₀, h₁, h₂], hzero⟩
  | some d₂ =>
  have w₂ := w₁.terminated.within_tail (hdigit h₂)
  obtain ⟨b₃, t₃, rfl⟩ := w₂.terminated.exists_cons
  cases h₃ : hexVal b₃ with
  | none => exact ⟨0, by simp only [parseHex4, hexLoop, h₀, h₁, h₂, h₃], hzero⟩
  | some d₃ =>
  have w₃ := w₂.terminated.within_tail (hdigit h₃)
  have hu : Hex4 (((d₀ * 16 + d₁) * 16 + d₂) * 16 + d₃) [b₀, b₁, b₂, b₃] := .mk h₀ h₁ h₂ h₃
  exact ⟨_, parseHex4_append hu t₃, fun _ =>
    ⟨[b₀, b₁, b₂, b₃], t₃, hu, rfl, w₀.trans (w₁.trans (w₂.trans w₃))⟩⟩

theorem length_utf8_le (uc : Nat) : (utf8 uc).length ≤ 4 := by
  have htail : ∀ n uc s, (utf8Tail n uc s).2.length = n + s.length := by
    intro n
    induction n with
    | zero => exact fun uc s => (Nat.zero_add _).symm
    | succ n ih =>
        intro uc s
        rw [utf8Tail, ih, List.length_cons]
        omega
  simp only [utf8, List.length_cons, htail, List.length_nil]
  split
  · decide
  split
  · decide
  split <;> decide

/-- What a result of the first loop says of the rest. -/
theorem ok_of_map_ok {len k : Nat} {endPtr : Text} {r : Except Stop (Nat × Text)}
    (h : (r.map fun r => (r.1 + k, r.2)) = .ok (len, endPtr)) :
    ∃ len', r = .ok (len', endPtr) ∧ len = len' + k := by
  cases r with
  | error e => cases h
  | ok r =>
      obtain ⟨h₁, h₂⟩ := Prod.mk.inj (Except.ok.inj h)
      exact ⟨r.1, by rw [← h₂], h₁.symm⟩

/-- A character as `\u` escapes, with what the first loop counted for it. -/
theorem transcode_within (str : Text) {endPtr : Text} {len : Nat} (h : Terminated t)
    (hscan : scanString t = .ok (len, endPtr)) :
    (∃ bytes ptr len', transcode str endPtr.length t = .ok (bytes, ptr) ∧ Within t (ptr.drop 1) ∧
      scanString (ptr.drop 1) = .ok (len', endPtr) ∧ bytes.length + len' ≤ len) ∨
    transcode str endPtr.length t = .error (.fail str) := by
  obtain ⟨uc, huc, hdigits⟩ := parseHex4_within h
  simp only [transcode, huc, ok_bind]
  split
  · exact Or.inr rfl
  split
  · exact Or.inr rfl
  next hne =>
  obtain ⟨u, t', hu, rfl, hwithin⟩ := hdigits fun hzero => hne (Or.inr hzero)
  rw [scanString_hex hu] at hscan
  obtain ⟨len', hscan', rfl⟩ := ok_of_map_ok hscan
  obtain ⟨b₀, b₁, b₂, b₃, rfl⟩ := List.length_eq_four.1 (length_of_hex4 hu)
  have hdrop : ([b₀, b₁, b₂, b₃] ++ t').drop 3 = b₃ :: t' := rfl
  simp only [hdrop]
  have hlen : ∀ uc, (utf8 uc).length + len' ≤ len' + 4 := fun uc => by
    rw [Nat.add_comm]
    exact Nat.add_le_add_left (length_utf8_le uc) len'
  split
  · split
    · exact Or.inr rfl
    split
    · exact Or.inr rfl
    next hescape =>
    -- the second half is there
    obtain ⟨t₂, rfl⟩ : ∃ t₂, t' = 92 :: 117 :: t₂ := by
      rw [not_or, not_not, not_not] at hescape
      obtain ⟨h₁, h₂⟩ := hescape
      obtain _ | ⟨c, _ | ⟨c', t₂⟩⟩ := t'
      · cases h₁
      · cases h₂
      · obtain rfl : c = 92 := Option.some_inj.1 h₁
        obtain rfl : c' = 117 := Option.some_inj.1 h₂
        exact ⟨t₂, rfl⟩
    obtain ⟨-, hwithin₂⟩ := hwithin.terminated.within_escape
    obtain ⟨uc2, huc2, hdigits₂⟩ := parseHex4_within hwithin₂.terminated
    have hdrop₂ : (b₃ :: 92 :: 117 :: t₂).drop 3 = t₂ := rfl
    simp only [hdrop₂, huc2, ok_bind]
    split
    · exact Or.inr rfl
    next hlow =>
    obtain ⟨v, t₃, hv, rfl, hwithin₃⟩ := hdigits₂ (by omega)
    rw [scanString_backslash] at hscan'
    obtain ⟨len₂, hscan₂, rfl⟩ := ok_of_map_ok hscan'
    rw [scanString_hex hv] at hscan₂
    obtain ⟨len₃, hscan₃, rfl⟩ := ok_of_map_ok hscan₂
    obtain ⟨c₀, c₁, c₂, c₃, rfl⟩ := List.length_eq_four.1 (length_of_hex4 hv)
    refine Or.inl ⟨_, _, len₃, rfl, hwithin.trans (hwithin₂.trans hwithin₃), hscan₃, ?_⟩
    have hle := length_utf8_le (0x10000 + ((uc &&& 0x3FF) <<< 10 ||| (uc2 &&& 0x3FF)))
    omega
  · exact Or.inl ⟨_, _, len', rfl, hwithin, hscan', hlen uc⟩

/-- A round of the second loop: it takes what the first loop counted, and writes no more. -/
theorem decodeChar_within (str : Text) {endPtr ptr : Text} {len : Nat} (h : Terminated ptr)
    (hscan : scanString ptr = .ok (len, endPtr)) (hend : endPtr.length < ptr.length) :
    (∃ bytes ptr' len', decodeChar str endPtr.length ptr = .ok (bytes, ptr') ∧ Within ptr ptr' ∧
      ptr'.length < ptr.length ∧ scanString ptr' = .ok (len', endPtr) ∧ bytes.length + len' ≤ len) ∨
    decodeChar str endPtr.length ptr = .error (.fail str) := by
  obtain ⟨b, t, rfl⟩ := h.exists_cons
  by_cases hstop : b = 34 ∨ b = 0
  · rw [scanString_end hstop] at hscan
    obtain ⟨-, rfl⟩ := Prod.mk.inj (Except.ok.inj hscan)
    exact absurd hend (Nat.lt_irrefl _)
  by_cases hback : b = 92
  · obtain rfl := hback
    obtain _ | ⟨c, t⟩ := t
    · cases h with
      | cons _ _ h => cases h
    obtain ⟨-, hwithin⟩ := h.within_escape
    rw [scanString_backslash] at hscan
    obtain ⟨len', hscan', rfl⟩ := ok_of_map_ok hscan
    have hlt : t.length < (92 :: c :: t).length := by
      simp only [List.length_cons]
      omega
    by_cases hc : c = 117
    · obtain rfl := hc
      rcases transcode_within str hwithin.terminated hscan' with
        ⟨bytes, ptr, len'', htrans, hptr, hscan'', hlen⟩ | htrans
      · refine Or.inl ⟨bytes, ptr.drop 1, len'', ?_, hwithin.trans hptr, ?_, hscan'', by omega⟩
        · show (transcode str endPtr.length t).map _ = _
          rw [htrans, map_ok]
        · exact Nat.lt_of_le_of_lt hptr.length_le hlt
      · right
        show (transcode str endPtr.length t).map _ = _
        rw [htrans]
        rfl
    · refine Or.inl ⟨[unescape c], t, len', ?_, hwithin, hlt, hscan', ?_⟩
      · exact if_pos hc
      · rw [List.length_singleton, Nat.add_comm]
  · have hwithin := h.within_tail fun hb => hstop (Or.inr hb)
    rw [scanString_cons hstop hback] at hscan
    obtain ⟨len', hscan', rfl⟩ := ok_of_map_ok hscan
    refine Or.inl ⟨[b], t, len', if_pos hback, hwithin, Nat.lt_succ_self _, hscan', ?_⟩
    rw [List.length_singleton, Nat.add_comm]

/-- **The second loop ends where the first one did**, and writes no more than was counted. -/
theorem decodeString_within (str : Text) {endPtr ptr : Text} {len fuel : Nat} (h : Terminated ptr)
    (hscan : scanString ptr = .ok (len, endPtr)) (hfuel : ptr.length < fuel) :
    (∃ out, decodeString str endPtr.length fuel ptr = .ok (out, endPtr) ∧ out.length ≤ len) ∨
    decodeString str endPtr.length fuel ptr = .error (.fail str) := by
  induction fuel generalizing ptr len with
  | zero => exact absurd hfuel (Nat.not_lt_zero _)
  | succ fuel ih =>
      rw [decodeString]
      split
      · next hend =>
          rcases decodeChar_within str h hscan hend with
            ⟨bytes, ptr', len', hchar, hwithin, hlt, hscan', hlen⟩ | hchar
          · rw [hchar, ok_bind]
            rcases ih hwithin.terminated hscan' (by omega) with ⟨out, hout, hle⟩ | hfail
            · refine Or.inl ⟨bytes ++ out, by simp only [hout, map_ok], ?_⟩
              rw [List.length_append]
              omega
            · exact Or.inr (by simp only [hfail]; rfl)
          · rw [hchar]
            exact Or.inr rfl
      · next hend =>
          obtain ⟨len', endPtr', hscan', hwithin⟩ := scanString_within h
          rw [hscan] at hscan'
          obtain ⟨-, rfl⟩ := Prod.mk.inj (Except.ok.inj hscan')
          have heq : endPtr = ptr := hwithin.suffix.eq_of_length_le (Nat.not_lt.1 hend)
          exact Or.inl ⟨[], by rw [heq], Nat.zero_le _⟩

/-! ## The result of a part -/

section Stays

variable {α β : Type} {P : α → Prop} {R : β → Prop} {r : Except Stop (α × Text)}

/-- The parser stops inside of the text: behind something with the property `P`, of which it took a
    byte at least, or with an error. -/
def Stays (P : α → Prop) (text : Text) : Except Stop (α × Text) → Prop
  | .ok (a, t) => P a ∧ Within text t ∧ t.length < text.length
  | .error (.fail ep) => ep <:+ text
  | .error .outside => False
  | .error .fuel => False

theorem Stays.within (h : Stays P t r) (hwithin : Within text t) : Stays P text r := by
  obtain (ep | _ | _) | ⟨a, u⟩ := r
  · exact List.IsSuffix.trans h hwithin.suffix
  · exact h
  · exact h
  · obtain ⟨ha, hu, hlt⟩ := h
    exact ⟨ha, hwithin.trans hu, Nat.lt_of_lt_of_le hlt hwithin.length_le⟩

theorem Stays.bind {f : α × Text → Except Stop (β × Text)} (h : Stays P text r)
    (hf : ∀ a t, P a → Within text t → t.length < text.length → Stays R text (f (a, t))) :
    Stays R text (r >>= f) := by
  obtain (ep | _ | _) | ⟨a, u⟩ := r
  · exact h
  · exact h
  · exact h
  · exact hf a u h.1 h.2.1 h.2.2

theorem Stays.map {f : α → β} (h : Stays P text r) (hf : ∀ a, P a → R (f a)) :
    Stays R text (r.map fun r => (f r.1, r.2)) := by
  obtain (ep | _ | _) | ⟨a, u⟩ := r
  · exact h
  · exact h
  · exact h
  · exact ⟨hf a h.1, h.2⟩

end Stays

/-- A string stays in the text, and has room for its bytes. -/
theorem parseString_stays (h : Terminated text) :
    Stays (fun item' => ∃ s, 0 ∉ s ∧ item' = { item with valuestring := some s, type := cJSONString })
      text (parseString item text) := by
  obtain ⟨b, t, rfl⟩ := h.exists_cons
  rw [parseString]
  split
  · exact List.suffix_rfl
  next hquote =>
  have hb : b = 34 := not_not.1 hquote
  have hwithin := h.within_tail (by rw [hb]; decide)
  obtain ⟨len, endPtr, hscan, hend⟩ := scanString_within hwithin.terminated
  rw [hscan, ok_bind]
  rcases decodeString_within (b :: t) hwithin.terminated hscan (Nat.lt_succ_self _) with
    ⟨out, hout, hle⟩ | hfail
  · obtain ⟨q, rest, rfl⟩ := hend.terminated.exists_cons
    simp only [hout, ok_bind, if_neg (Nat.not_lt_of_le hle)]
    refine ⟨⟨_, fun hzero => ?_, rfl⟩, hwithin.trans ?_, ?_⟩
    · exact absurd (List.mem_takeWhile_imp hzero) (by decide)
    · split
      · next hq => exact hend.trans (hend.terminated.within_tail (by rw [hq]; decide))
      · exact hend
    · have hlength := hend.length_le
      simp only [List.length_cons] at hlength ⊢
      split
      · omega
      · simp only [List.length_cons]
        omega
  · simp only [hfail]
    exact List.suffix_rfl

/-! ## Values -/

section Values

variable {num : Double → Option Value}

/-- An item with a name that has a value and can be stored as C stores it. -/
structure Sound (num : Double → Option Value) (name : Option CStr) (r : Fields × Item) : Prop where
  string : r.1.string = name
  typed : r.1.Typed
  child : r.2.Typed
  value : ((r.2.parts num).bind (valueOf num r.1)).isSome

/-- A chain of such items. -/
structure SoundChain (num : Double → Option Value) (names : Bool) (chain : Item) : Prop where
  typed : chain.Typed
  parts : ∃ cs, chain.parts num = some cs ∧ (names → ∀ c ∈ cs, (cString c.1).isSome)

theorem newItem_typed : newItem.Typed where
  valueint := by decide
  valuestring := fun _ h => absurd h (by simp [newItem])
  string := fun _ h => absurd h (by simp [newItem])

theorem soundChain_null (names : Bool) : SoundChain num names .null :=
  ⟨trivial, [], rfl, fun _ _ hc => absurd hc List.not_mem_nil⟩

/-- A chain goes on with an item. -/
theorem Sound.chain {names : Bool} {name : Option CStr} {item : Fields} {child next : Item}
    (h : Sound num name (item, child)) (hname : names → (cString name).isSome)
    (hnext : SoundChain num names next) : SoundChain num names (.node item child next) := by
  obtain ⟨hstring, htyped, hchild, hvalue⟩ := h
  obtain ⟨hnextTyped, cs, hcs, hnames⟩ := hnext
  obtain ⟨v, hv⟩ := Option.isSome_iff_exists.1 hvalue
  obtain ⟨qs, hqs, hv⟩ := Option.bind_eq_some_iff.1 hv
  refine ⟨⟨htyped, hchild, hnextTyped⟩, (item.string, v) :: cs, ?_, ?_⟩
  · dsimp only at hqs hv
    simp only [Item.parts, hqs, hcs, Option.bind_eq_bind, Option.bind_some, hv]
    rfl
  · intro h c hc
    rcases List.mem_cons.1 hc with rfl | hc
    · exact hstring ▸ hname h
    · exact hnames h c hc

/-- What the parser of values does with the texts shorter than `n`. -/
def ValueStays (num : Double → Option Value) (n : Nat) (pv : ValueParser) : Prop :=
  ∀ (item : Fields) (text : Text), item.Typed → Terminated text → text.length < n →
    Stays (Sound num item.string) text (pv item text)

variable {n fuel : Nat} {pv : ValueParser}

theorem parseElements_stays (hpv : ValueStays num n pv) (h : Terminated text) (hn : text.length < n)
    (hfuel : text.length < fuel) : Stays (SoundChain num false) text (parseElements pv fuel text) := by
  induction fuel generalizing text with
  | zero => exact absurd hfuel (Nat.not_lt_zero _)
  | succ fuel ih =>
      obtain ⟨t, hskip, hwithin⟩ := skip_within h
      have hlt := hwithin.length_le
      rw [parseElements, hskip, ok_bind]
      refine Stays.within (Stays.bind (hpv newItem t newItem_typed hwithin.terminated (by omega)) ?_) hwithin
      rintro ⟨item, child⟩ t₁ hsound hwithin₁ hlt₁
      obtain ⟨t₂, hskip₂, hwithin₂⟩ := skip_within hwithin₁.terminated
      have hlt₂ := hwithin₂.length_le
      obtain ⟨b, t₃, rfl⟩ := hwithin₂.terminated.exists_cons
      simp only [hskip₂, ok_bind]
      split
      · next hb =>
          have hwithin₃ := hwithin₂.terminated.within_tail (by rw [hb]; decide)
          have hto := hwithin₁.trans (hwithin₂.trans hwithin₃)
          simp only [List.length_cons] at hlt₂
          refine Stays.within (Stays.bind (ih hwithin₃.terminated (by omega) (by omega)) ?_) hto
          intro next t₄ hnext hwithin₄ hlt₄
          exact ⟨hsound.chain (fun h => absurd h Bool.false_ne_true) hnext, hwithin₄, hlt₄⟩
      · exact ⟨hsound.chain (fun h => absurd h Bool.false_ne_true) (soundChain_null false),
          hwithin₁.trans hwithin₂, by omega⟩

theorem parseMembers_stays (hpv : ValueStays num n pv) (h : Terminated text) (hn : text.length < n)
    (hfuel : text.length < fuel) : Stays (SoundChain num true) text (parseMembers pv fuel text) := by
  induction fuel generalizing text with
  | zero => exact absurd hfuel (Nat.not_lt_zero _)
  | succ fuel ih =>
      obtain ⟨t, hskip, hwithin⟩ := skip_within h
      have hlt := hwithin.length_le
      rw [parseMembers, hskip, ok_bind]
      refine Stays.within (Stays.bind (parseString_stays hwithin.terminated) ?_) hwithin
      rintro _ t₁ ⟨name, hzero, rfl⟩ hwithin₁ hlt₁
      obtain ⟨t₂, hskip₂, hwithin₂⟩ := skip_within hwithin₁.terminated
      have hlt₂ := hwithin₂.length_le
      obtain ⟨b, t₃, rfl⟩ := hwithin₂.terminated.exists_cons
      simp only [hskip₂, ok_bind]
      split
      · exact (hwithin₁.trans hwithin₂).suffix
      next hcolon =>
      have hb : b = 58 := not_not.1 hcolon
      have hwithin₃ := hwithin₂.terminated.within_tail (by rw [hb]; decide)
      simp only [List.length_cons] at hlt₂
      obtain ⟨t₄, hskip₄, hwithin₄⟩ := skip_within hwithin₃.terminated
      have hlt₄ := hwithin₄.length_le
      have htyped : Fields.Typed ⟨cJSONString, none, newItem.valueint, newItem.valuedouble, some name⟩ :=
        ⟨newItem_typed.valueint, fun _ h => absurd h (by simp),
          fun s hs => Option.some_inj.1 hs ▸ hzero⟩
      have hname : (cString (some name)).isSome := by
        rw [cString, Option.bind_some, if_neg hzero]
        rfl
      have hto := hwithin₁.trans (hwithin₂.trans (hwithin₃.trans hwithin₄))
      simp only [hskip₄, ok_bind]
      refine Stays.within (Stays.bind (hpv _ t₄ htyped hwithin₄.terminated (by omega)) ?_) hto
      rintro ⟨item, child⟩ t₅ hsound hwithin₅ hlt₅
      obtain ⟨t₆, hskip₆, hwithin₆⟩ := skip_within hwithin₅.terminated
      have hlt₆ := hwithin₆.length_le
      obtain ⟨b', t₇, rfl⟩ := hwithin₆.terminated.exists_cons
      simp only [hskip₆, ok_bind]
      split
      · next hb' =>
          have hwithin₇ := hwithin₆.terminated.within_tail (by rw [hb']; decide)
          have hto := hwithin₅.trans (hwithin₆.trans hwithin₇)
          simp only [List.length_cons] at hlt₆
          refine Stays.within (Stays.bind (ih hwithin₇.terminated (by omega) (by omega)) ?_) hto
          intro next t₈ hnext hwithin₈ hlt₈
          exact ⟨hsound.chain (fun _ => hname) hnext, hwithin₈, hlt₈⟩
      · exact ⟨hsound.chain (fun _ => hname) (soundChain_null true), hwithin₅.trans hwithin₆, by omega⟩

/-- An array of items with values has a value. -/
theorem SoundChain.array {item : Fields} {child : Item} (h : SoundChain num false child)
    (hitem : item.Typed) : Sound num item.string ({ item with type := cJSONArray }, child) := by
  obtain ⟨htyped, cs, hcs, -⟩ := h
  refine ⟨rfl, ⟨hitem.valueint, hitem.valuestring, hitem.string⟩, htyped, ?_⟩
  rw [hcs, Option.bind_some]
  rfl

/-- An object of items with names and values has a value. -/
theorem SoundChain.object {item : Fields} {child : Item} (h : SoundChain num true child)
    (hitem : item.Typed) : Sound num item.string ({ item with type := cJSONObject }, child) := by
  obtain ⟨htyped, cs, hcs, hnames⟩ := h
  refine ⟨rfl, ⟨hitem.valueint, hitem.valuestring, hitem.string⟩, htyped, ?_⟩
  have hmembers : (cs.mapM fun c => (cString c.1).map fun name => (name, c.2)).isSome := by
    have hsome := hnames rfl
    clear hcs hnames
    induction cs with
    | nil => rfl
    | cons c cs ih =>
        obtain ⟨name, hname⟩ := Option.isSome_iff_exists.1 (hsome c (List.mem_cons_self ..))
        obtain ⟨ms, hms⟩ := Option.isSome_iff_exists.1
          (ih fun c' hc' => hsome c' (List.mem_cons_of_mem c hc'))
        rw [List.mapM_cons, hname, hms]
        rfl
  rw [hcs, Option.bind_some]
  show (((cs.mapM fun c => (cString c.1).map fun name => (name, c.2))).map Value.obj).isSome
  rw [Option.isSome_map]
  exact hmembers

variable {item : Fields}

theorem parseArray_stays (hpv : ValueStays num n pv) (hitem : item.Typed) (h : Terminated text)
    (hn : text.length < n + 1) (hfuel : text.length < fuel + 1) :
    Stays (Sound num item.string) text (parseArray pv fuel item text) := by
  obtain ⟨b, t, rfl⟩ := h.exists_cons
  simp only [List.length_cons] at hn hfuel
  rw [parseArray]
  split
  · exact List.suffix_rfl
  next hopen =>
  have hb : b = 91 := not_not.1 hopen
  have hwithin := h.within_tail (by rw [hb]; decide)
  obtain ⟨t₁, hskip, hwithin₁⟩ := skip_within hwithin.terminated
  have hlt₁ := hwithin₁.length_le
  obtain ⟨b₁, t₂, rfl⟩ := hwithin₁.terminated.exists_cons
  simp only [hskip, ok_bind]
  split
  · next hb₁ =>
      have hwithin₂ := hwithin₁.terminated.within_tail (by rw [hb₁]; decide)
      simp only [List.length_cons] at hlt₁
      exact ⟨(soundChain_null false).array hitem, hwithin.trans (hwithin₁.trans hwithin₂),
        by simp only [List.length_cons]; omega⟩
  · refine Stays.within (Stays.bind (parseElements_stays hpv hwithin₁.terminated (by omega) (by omega)) ?_)
      (hwithin.trans hwithin₁)
    intro child t₃ hchild hwithin₃ hlt₃
    obtain ⟨b₃, t₄, rfl⟩ := hwithin₃.terminated.exists_cons
    dsimp only
    split
    · next hb₃ =>
        have hwithin₄ := hwithin₃.terminated.within_tail (by rw [hb₃]; decide)
        simp only [List.length_cons] at hlt₃
        exact ⟨hchild.array hitem, hwithin₃.trans hwithin₄, by simp only [List.length_cons]; omega⟩
    · exact hwithin₃.suffix

theorem parseObject_stays (hpv : ValueStays num n pv) (hitem : item.Typed) (h : Terminated text)
    (hn : text.length < n + 1) (hfuel : text.length < fuel + 1) :
    Stays (Sound num item.string) text (parseObject pv fuel item text) := by
  obtain ⟨b, t, rfl⟩ := h.exists_cons
  simp only [List.length_cons] at hn hfuel
  rw [parseObject]
  split
  · exact List.suffix_rfl
  next hopen =>
  have hb : b = 123 := not_not.1 hopen
  have hwithin := h.within_tail (by rw [hb]; decide)
  obtain ⟨t₁, hskip, hwithin₁⟩ := skip_within hwithin.terminated
  have hlt₁ := hwithin₁.length_le
  obtain ⟨b₁, t₂, rfl⟩ := hwithin₁.terminated.exists_cons
  simp only [hskip, ok_bind]
  split
  · next hb₁ =>
      have hwithin₂ := hwithin₁.terminated.within_tail (by rw [hb₁]; decide)
      simp only [List.length_cons] at hlt₁
      exact ⟨(soundChain_null true).object hitem, hwithin.trans (hwithin₁.trans hwithin₂),
        by simp only [List.length_cons]; omega⟩
  · refine Stays.within (Stays.bind (parseMembers_stays hpv hwithin₁.terminated (by omega) (by omega)) ?_)
      (hwithin.trans hwithin₁)
    intro child t₃ hchild hwithin₃ hlt₃
    obtain ⟨b₃, t₄, rfl⟩ := hwithin₃.terminated.exists_cons
    dsimp only
    split
    · next hb₃ =>
        have hwithin₄ := hwithin₃.terminated.within_tail (by rw [hb₃]; decide)
        simp only [List.length_cons] at hlt₃
        exact ⟨hchild.object hitem, hwithin₃.trans hwithin₄, by simp only [List.length_cons]; omega⟩
    · exact hwithin₃.suffix

/-- An item without children. -/
theorem sound_leaf {name : Option CStr} (hname : item.string = name) (hitem : item.Typed)
    (hvalue : (valueOf num item []).isSome) : Sound num name (item, .null) :=
  ⟨hname, hitem, trivial, hvalue⟩

/-- **The parser stays in the text, and what it accepts has a value.** -/
theorem parseValue_stays (hnum : ∀ d, (num d).isSome) (n : Nat) :
    ValueStays num n (parseValue pow n) := by
  induction n with
  | zero => exact fun _ text _ _ hn => absurd hn (Nat.not_lt_zero _)
  | succ n ih =>
      intro item text hitem h hn
      obtain ⟨isNull, hisNull, hnull⟩ := startsWith_within (s := cstr "null") (by decide) h
      obtain ⟨isFalse, hisFalse, hfalse⟩ := startsWith_within (s := cstr "false") (by decide) h
      obtain ⟨isTrue, hisTrue, htrue⟩ := startsWith_within (s := cstr "true") (by decide) h
      obtain ⟨b, t, rfl⟩ := h.exists_cons
      simp only [parseValue, hisNull, hisFalse, hisTrue, ok_bind]
      have hdrop : ∀ k, ((b :: t).drop (k + 1)).length < (b :: t).length := fun k => by
        rw [List.length_drop, List.length_cons]
        omega
      have hone : (-2 ^ 31 : ℤ) ≤ 1 ∧ (1 : ℤ) < 2 ^ 31 := by decide
      split
      · exact ⟨sound_leaf rfl ⟨hitem.valueint, hitem.valuestring, hitem.string⟩ rfl, hnull ‹_›, hdrop 3⟩
      split
      · exact ⟨sound_leaf rfl ⟨hitem.valueint, hitem.valuestring, hitem.string⟩ rfl, hfalse ‹_›, hdrop 4⟩
      split
      · exact ⟨sound_leaf rfl ⟨hone, hitem.valuestring, hitem.string⟩ rfl, htrue ‹_›, hdrop 3⟩
      split
      · refine Stays.map (f := fun item => (item, Item.null)) (parseString_stays h) ?_
        rintro _ ⟨s, hs, rfl⟩
        refine sound_leaf rfl ⟨hitem.valueint, fun _ h => Option.some_inj.1 h ▸ hs, hitem.string⟩ ?_
        show ((cString (some s)).map Value.str).isSome
        rw [cString, Option.bind_some, if_neg hs]
        rfl
      split
      · next hnumber =>
          obtain ⟨d, u, hu, hwithin⟩ := parseNumber_within h hnumber
          rw [hu]
          refine ⟨sound_leaf rfl ⟨d.toInt_bounds, hitem.valuestring, hitem.string⟩ ?_, ?_, ?_⟩
          · show (if d.toInt = d.toInt then num d else none).isSome
            rw [if_pos rfl]
            exact hnum d
          · have hb : b ≠ 0 := by
              rcases hnumber with rfl | hdigit
              · decide
              · exact ne_zero_of_isDigit hdigit
            exact (h.within_tail hb).trans hwithin
          · exact Nat.lt_succ_of_le hwithin.length_le
      split
      · exact parseArray_stays ih hitem h hn hn
      split
      · exact parseObject_stays ih hitem h hn hn
      · exact List.suffix_rfl

end Values

/-! ## The whole text -/

/-- What `cJSON_ParseWithOpts` gives: an item as C holds it, with a value, and where its text ends, or
    where the error is. Either lies in the text. -/
inductive Parsed (num : Double → Option Value) (text : Text) : Except Stop (Item × Text) → Prop where
  | item {t : Item} {v : Value} {endPtr : Text} (htyped : t.Typed) (hv : t.value num = some v)
      (hend : endPtr <:+ text) : Parsed num text (.ok (t, endPtr))
  | fail {ep : Text} (hep : ep <:+ text) : Parsed num text (.error (.fail ep))

theorem cJSONParseWithOpts_parsed {num : Double → Option Value} (hnum : ∀ d, (num d).isSome)
    (h : Terminated text) (requireNullTerminated : Bool) :
    Parsed num text (cJSONParseWithOpts pow text requireNullTerminated) := by
  obtain ⟨start, hskip, hstart⟩ := skip_within h
  have hstays : Stays (Sound num none) start (parseValue pow (text.length + 1) newItem start) :=
    parseValue_stays hnum (text.length + 1) newItem start newItem_typed hstart.terminated
      (Nat.lt_succ_of_le hstart.length_le)
  rw [cJSONParseWithOpts, hskip, ok_bind]
  generalize parseValue pow (text.length + 1) newItem start = r at hstays ⊢
  obtain (ep | _ | _) | ⟨⟨item, child⟩, endPtr⟩ := r
  · exact .fail (List.IsSuffix.trans hstays hstart.suffix)
  · exact absurd hstays id
  · exact absurd hstays id
  obtain ⟨hsound, hend, -⟩ := hstays
  obtain ⟨v, hv⟩ := Option.isSome_iff_exists.1 hsound.value
  have htyped : (Item.node item child .null).Typed := ⟨hsound.typed, hsound.child, trivial⟩
  cases requireNullTerminated with
  | false => exact .item htyped hv (hend.suffix.trans hstart.suffix)
  | true =>
      obtain ⟨u, hskipEnd, hu⟩ := skip_within hend.terminated
      obtain ⟨b, t, rfl⟩ := hu.terminated.exists_cons
      have hsuffix := hu.suffix.trans (hend.suffix.trans hstart.suffix)
      simp only [ok_bind, if_true, hskipEnd]
      split
      · exact .fail hsuffix
      · exact .item htyped hv hsuffix

/-- **Whatever the text is, the parser does not leave it**: it gives an item of which every field is
    what C can hold and that has a value, or it says where the error is. -/
theorem cJSONParseWithOpts_inside {s : List UInt8} (hzero : 0 ∉ s) (hback : s.getLast? ≠ some 92)
    (requireNullTerminated : Bool) :
    Parsed anyNumber (s ++ [0]) (cJSONParseWithOpts pow (s ++ [0]) requireNullTerminated) :=
  cJSONParseWithOpts_parsed (fun _ => rfl) (terminated_append hzero hback) requireNullTerminated

/-- A string that is not closed. -/
theorem cJSONParseWithOpts_inside_open :
    Parsed anyNumber ([91, 34, 120] ++ [0]) (cJSONParseWithOpts Double.roundedPow ([91, 34, 120] ++ [0]) true) :=
  cJSONParseWithOpts_inside (by decide) (by decide) true

/-- A string up to where it is closed, or up to a backslash that escapes nothing: a byte for itself, or a
    backslash with the byte that it escapes, whether there is such an escape or not. -/
inductive Unclosed : List UInt8 → Prop where
  | nil : Unclosed []
  | plain {b : UInt8} {e : List UInt8} (hb : b ≠ 0 ∧ b ≠ 34 ∧ b ≠ 92) (h : Unclosed e) : Unclosed (b :: e)
  | escape {c : UInt8} {e : List UInt8} (hc : c ≠ 0) (h : Unclosed e) : Unclosed (92 :: c :: e)

/-- The scan for the closing quote comes to the last backslash, and steps over the `NUL` behind it. -/
theorem scanString_unclosed {e : List UInt8} (he : Unclosed e) :
    scanString (e ++ [92, 0]) = .error .outside := by
  induction he with
  | nil => rfl
  | plain hb _ ih =>
      rw [List.cons_append, scanString_cons (fun h => h.elim hb.2.1 hb.1) hb.2.2, ih]
      rfl
  | escape _ _ ih =>
      rw [List.cons_append, List.cons_append, scanString_backslash, ih]
      rfl

/-- **The text behind a backslash**: an open string that ends with one is read beyond its `NUL`. -/
theorem cJSONParseWithOpts_backslash {w e : List UInt8} (hw : Blank w) (he : Unclosed e)
    (requireNullTerminated : Bool) :
    cJSONParseWithOpts pow (w ++ 34 :: e ++ [92, 0]) requireNullTerminated = .error .outside := by
  have hstring : parseString newItem (34 :: (e ++ [92, 0])) = .error .outside := by
    rw [parseString, if_neg (by decide), scanString_unclosed he]
    rfl
  have hstart : skip (w ++ 34 :: e ++ [92, 0]) = .ok (34 :: (e ++ [92, 0])) := by
    rw [List.append_assoc, skip_append hw, List.cons_append, skip_cons (by decide)]
  rw [cJSONParseWithOpts, hstart, ok_bind, parseValue_cons (by decide), if_pos rfl, hstring]
  rfl

/-- A quote that is escaped, an escape that there is not, and a backslash. -/
theorem cJSONParseWithOpts_backslash_quote :
    cJSONParseWithOpts Double.roundedPow ([32] ++ 34 :: [92, 34, 92, 120] ++ [92, 0]) false =
      .error .outside :=
  cJSONParseWithOpts_backslash (by decide) (.escape (by decide) (.escape (by decide) .nil)) false

/-- **What the parser accepts can be printed**, and the parser takes the printed text again: its numbers
    come back as `Rereads` says, and everything else as it was. -/
theorem cJSONPrint_cJSONParse (hpow : Double.PowTen pow) :
    ∃ num, Rereads num ∧ ∀ {s : List UInt8} {b : Bool} {t : Item} {endPtr : Text}, 0 ∉ s →
      s.getLast? ≠ some 92 → cJSONParseWithOpts pow (s ++ [0]) b = .ok (t, endPtr) →
      ∀ (junk : Text) (fmt b' : Bool), ∃ r v t' endPtr', cJSONPrint fmt t = some r ∧
        t.value num = some v ∧ cJSONParseWithOpts pow (r.text ++ 0 :: junk) b' = .ok (t', endPtr') ∧
        skip endPtr' = .ok (0 :: junk) ∧ t'.value anyNumber = some v := by
  refine ⟨printedNumber pow, rereads_printedNumber hpow, ?_⟩
  intro s b t endPtr hzero hback h junk fmt b'
  have hparsed : Parsed (printedNumber pow) (s ++ [0]) (cJSONParseWithOpts pow (s ++ [0]) b) :=
    cJSONParseWithOpts_parsed (printedNumber_isSome pow) (terminated_append hzero hback) b
  rw [h] at hparsed
  cases hparsed with
  | item htyped hv hend =>
      obtain ⟨r, t', endPtr', hr, hparse, hskip, hv'⟩ :=
        cJSONParse_cJSONPrint (fun _ _ h => printedNumber_renders h) hv junk b'
      exact ⟨r, _, t', endPtr', hr, hv, hparse, hskip, hv'⟩

/-- The sample text. -/
theorem cJSONPrint_cJSONParse_sample :
    ∃ num, Rereads num ∧ ∃ t endPtr, cJSONParseWithOpts Double.roundedPow (sampleText [32] ++ [0]) true =
        .ok (t, endPtr) ∧
      ∃ r v t' endPtr', cJSONPrint true t = some r ∧ t.value num = some v ∧
        cJSONParseWithOpts Double.roundedPow (r.text ++ 0 :: []) true = .ok (t', endPtr') ∧
        skip endPtr' = .ok (0 :: []) ∧ t'.value anyNumber = some v := by
  obtain ⟨num, hnum, hprint⟩ := cJSONPrint_cJSONParse Double.powTen_roundedPow
  have helement : Renders Blank (NumberText.value Double.roundedPow) (.element (sampleValue _))
      ([] ++ sampleText [32] ++ []) :=
    .element (by decide) (renders_sample (by decide) (by decide) _) (by decide)
  obtain ⟨t, endPtr, hparse, -⟩ := cJSONParseWithOpts_renders helement [] true
  exact ⟨num, hnum, t, endPtr, hparse, hprint (by decide) (by decide) hparse [] true true⟩

end XToolkits.Json
