import XToolkits.Json.Scan
import XToolkits.Lib.DecimalError

set_option autoImplicit false

/-! # The parser takes every JSON text

Every text of the grammar, with any white space between the tokens, is parsed into an item with the
value that it stands for, and the parser ends where the text does. -/

namespace XToolkits.Json

variable {pow : Int → Double} {s w rest t : List UInt8} {b : UInt8} {v : Value} {item : Fields}
  {child : Item} {n fuel : Nat}

/-! ## What follows a value -/

/-- A comma, a closing bracket or the end of the text. -/
def Follows (t : Text) : Prop := ∃ b t', t = b :: t' ∧ (b = 44 ∨ b = 93 ∨ b = 125 ∨ b = 0)

theorem Follows.skip (h : Follows t) : skip t = .ok t := by
  obtain ⟨b, t, rfl, rfl | rfl | rfl | rfl⟩ := h <;> exact skip_cons (by decide) t

theorem Follows.numberEnds (h : Follows t) : NumberEnds t := by
  obtain ⟨b, t, rfl, h⟩ := h
  refine ⟨b, t, rfl, ?_⟩
  rcases h with rfl | rfl | rfl | rfl <;> decide

/-- White space is not part of a number either. -/
theorem Follows.numberEnds_append (h : Follows t) (hw : Blank w) : NumberEnds (w ++ t) := by
  obtain _ | ⟨b, w⟩ := w
  · exact h.numberEnds
  · refine ⟨b, w ++ t, rfl, ?_⟩
    have hle := (hw b (List.mem_cons_self ..)).2
    have hlt : ∀ {c : UInt8}, 32 < c → b ≠ c := fun hc h => absurd (h ▸ hle) (UInt8.not_le.2 hc)
    refine ⟨fun hdigit => ?_, hlt (by decide), hlt (by decide), hlt (by decide)⟩
    exact absurd (UInt8.le_trans hdigit.1 hle) (by decide)

theorem skip_idem (h : skip s = .ok t) : skip t = .ok t := by
  induction s with
  | nil => cases h
  | cons b s ih =>
      rw [skip] at h
      split at h
      · exact ih h
      · next hb =>
          cases h
          exact skip_cons hb s

/-! ## The first byte of a value -/

/-- A value starts with a byte that is neither white space nor a closing bracket. -/
theorem Renders.head {gap : List UInt8 → Prop} {read : NumberText → Double}
    (h : Renders gap read (.value v) s) :
    ∃ b t, s = b :: t ∧ 32 < b ∧ b ≠ 93 := by
  cases h with
  | null => exact ⟨110, _, rfl, by decide⟩
  | bool b => cases b <;> exact ⟨_, _, rfl, by decide⟩
  | @num t ht =>
      have hdigit : ∃ b ds, t.int = b :: ds ∧ IsDigit b := by
        rcases ht.int with h48 | ⟨b, ds, hb, -⟩
        · exact ⟨48, [], h48, by decide⟩
        · exact ⟨b, ds, hb, ht.digits b (by rw [hb]; exact List.mem_cons_self ..)⟩
      obtain ⟨b, ds, hint, hb⟩ := hdigit
      rw [NumberText.text, hint]
      cases t.negative with
      | true => exact ⟨45, _, rfl, by decide⟩
      | false =>
          refine ⟨b, _, rfl, UInt8.lt_of_lt_of_le (by decide) hb.1, ?_⟩
          rintro rfl
          exact absurd hb (by decide)
  | str => exact ⟨34, _, rfl, by decide⟩
  | arrNil | arr => exact ⟨91, _, rfl, by decide⟩
  | objNil | obj => exact ⟨123, _, rfl, by decide⟩

/-! ## Values by their first byte -/

/-- Only the three words start with their letters. -/
theorem parseValue_cons (h : b ≠ 110 ∧ b ≠ 102 ∧ b ≠ 116) (t : Text) :
    parseValue pow (n + 1) item (b :: t) =
      if b = 34 then (parseString item (b :: t)).map fun r => ((r.1, .null), r.2)
      else if b = 45 ∨ IsDigit b then (parseNumber pow item (b :: t)).map fun r => ((r.1, .null), r.2)
      else if b = 91 then parseArray (parseValue pow n) n item (b :: t)
      else if b = 123 then parseObject (parseValue pow n) n item (b :: t)
      else .error (.fail (b :: t)) := by
  have hnull : startsWith (cstr "null") (b :: t) = .ok false := startsWith_of_ne h.1.symm _ t
  have hfalse : startsWith (cstr "false") (b :: t) = .ok false := startsWith_of_ne h.2.1.symm _ t
  have htrue : startsWith (cstr "true") (b :: t) = .ok false := startsWith_of_ne h.2.2.symm _ t
  simp only [parseValue, hnull, hfalse, htrue, ok_bind, Bool.false_eq_true, if_false]

theorem parseValue_null : parseValue pow (n + 1) item (cstr "null" ++ rest) =
    .ok (({ item with type := cJSONNull }, .null), rest) := by
  simp only [parseValue, startsWith_append, ok_bind, if_true]
  rfl

theorem parseValue_bool (b : Bool) :
    ∃ item', parseValue pow (n + 1) item ((if b then cstr "true" else cstr "false") ++ rest) =
      .ok ((item', .null), rest) ∧ item'.string = item.string ∧
      valueOf anyNumber item' [] = some (.bool b) := by
  cases b with
  | false =>
      have hnull : startsWith (cstr "null") (cstr "false" ++ rest) = .ok false :=
        startsWith_of_ne (by decide) _ _
      refine ⟨{ item with type := cJSONFalse }, ?_, rfl, rfl⟩
      simp only [parseValue, hnull, startsWith_append, ok_bind, if_true, Bool.false_eq_true, if_false]
      rfl
  | true =>
      have hnull : startsWith (cstr "null") (cstr "true" ++ rest) = .ok false :=
        startsWith_of_ne (by decide) _ _
      have hfalse : startsWith (cstr "false") (cstr "true" ++ rest) = .ok false :=
        startsWith_of_ne (by decide) _ _
      refine ⟨{ item with type := cJSONTrue, valueint := 1 }, ?_, rfl, rfl⟩
      simp only [parseValue, hnull, hfalse, startsWith_append, ok_bind, if_true, Bool.false_eq_true,
        if_false]
      rfl

/-- A string is the only value that starts with a quote. -/
theorem parseValue_str {s e : List UInt8} (he : Escaped s e) :
    parseValue pow (n + 1) item (34 :: e ++ [34] ++ rest) =
      .ok (({ item with valuestring := some s, type := cJSONString }, .null), rest) := by
  rw [List.cons_append, List.cons_append, parseValue_cons (by decide), if_pos rfl]
  have hstring : parseString item (34 :: e ++ [34] ++ rest) = _ := parseString_append he
  rw [List.cons_append, List.cons_append] at hstring
  rw [hstring, map_ok]

theorem parseValue_num {t : NumberText} (ht : t.Valid) (h : NumberEnds rest) :
    parseValue pow (n + 1) item (t.text ++ rest) =
      .ok (({ item with valuedouble := t.value pow, valueint := (t.value pow).toInt, type := cJSONNumber },
        .null), rest) := by
  have hnumber : parseNumber pow item (t.text ++ rest) = _ := parseNumber_append ht h
  have hhead : ∃ b s, t.text ++ rest = b :: s ∧ (b = 45 ∨ IsDigit b) := by
    have hdigit : ∃ b ds, t.int = b :: ds ∧ IsDigit b := by
      rcases ht.int with h48 | ⟨b, ds, hb, -⟩
      · exact ⟨48, [], h48, by decide⟩
      · exact ⟨b, ds, hb, ht.digits b (by rw [hb]; exact List.mem_cons_self ..)⟩
    obtain ⟨b, ds, hint, hb⟩ := hdigit
    rw [NumberText.text, hint]
    cases t.negative with
    | true => exact ⟨45, _, rfl, Or.inl rfl⟩
    | false => exact ⟨b, _, rfl, Or.inr hb⟩
  obtain ⟨b, s, htext, hb⟩ := hhead
  have hletter : b ≠ 110 ∧ b ≠ 102 ∧ b ≠ 116 := by
    refine ⟨?_, ?_, ?_⟩ <;> rintro rfl <;> exact absurd hb (by decide)
  have hquote : b ≠ 34 := by
    rintro rfl
    exact absurd hb (by decide)
  rw [htext] at hnumber ⊢
  rw [parseValue_cons hletter, if_neg hquote, if_pos hb, hnumber, map_ok]

/-! ## Every text -/

/-- An item with a name and a value. -/
def Stands (name : Option CStr) (v : Value) (item : Fields) (child : Item) : Prop :=
  item.string = name ∧ (child.parts anyNumber).bind (valueOf anyNumber item) = some v

/-- A chain goes on with an item. -/
theorem Stands.parts {name : Option CStr} {next : Item} {ps : List (Option CStr × Value)}
    (h : Stands name v item child) (hnext : next.parts anyNumber = some ps) :
    (Item.node item child next).parts anyNumber = some ((name, v) :: ps) := by
  obtain ⟨hname, hv⟩ := h
  obtain ⟨qs, hqs, hv⟩ := Option.bind_eq_some_iff.1 hv
  simp only [Item.parts, hqs, hnext, Option.bind_eq_bind, Option.bind_some, hv, hname]
  rfl

/-- A number ends where its text ends. -/
def Ends (v : Value) (rest : Text) : Prop := ∀ d, v = .num d → NumberEnds rest

/-- What the parser makes of a part of a text, whatever follows it. -/
def Parses (pow : Int → Double) (s : List UInt8) : Part → Prop
  | .value v => ∀ {n : Nat} {rest : Text} (item : Fields), s.length < n → Ends v rest →
      ∃ item' child, parseValue pow n item (s ++ rest) = .ok ((item', child), rest) ∧
        Stands item.string v item' child
  | .element v => ∀ {n : Nat} {rest : Text} (item : Fields), s.length < n → Follows rest →
      ∃ b t t' item' child, skip (s ++ rest) = .ok (b :: t) ∧ b ≠ 93 ∧
        parseValue pow n item (b :: t) = .ok ((item', child), t') ∧ skip t' = .ok rest ∧
        Stands item.string v item' child
  | .elements vs => ∀ {n fuel : Nat} (rest : Text), s.length < n → s.length < fuel →
      ∃ b t child, skip (s ++ 93 :: rest) = .ok (b :: t) ∧ b ≠ 93 ∧
        parseElements (parseValue pow n) fuel (b :: t) = .ok (child, 93 :: rest) ∧
        child.parts anyNumber = some (vs.map fun v => (none, v))
  | .member name v => ∀ {n : Nat} {rest : Text}, s.length < n → Follows rest →
      ∃ t t' t'' u u' item child, skip (s ++ rest) = .ok (34 :: t) ∧
        parseString newItem (34 :: t) =
          .ok ({ newItem with valuestring := some name, type := cJSONString }, t') ∧
        skip t' = .ok (58 :: t'') ∧ skip t'' = .ok u ∧
        parseValue pow n ⟨cJSONString, none, newItem.valueint, newItem.valuedouble, some name⟩ u =
          .ok ((item, child), u') ∧ skip u' = .ok rest ∧ Stands (some name) v item child
  | .members ms => ∀ {n fuel : Nat} (rest : Text), s.length < n → s.length < fuel →
      ∃ t child, skip (s ++ 125 :: rest) = .ok (34 :: t) ∧
        parseMembers (parseValue pow n) fuel (34 :: t) = .ok (child, 125 :: rest) ∧
        child.parts anyNumber = some (ms.map fun m => (some m.1, m.2))

/-- White space in front of the elements is skipped. -/
theorem parseElements_skip (pv : ValueParser) (fuel : Nat) (h : skip s = .ok t) :
    parseElements pv fuel s = parseElements pv fuel t := by
  cases fuel with
  | zero => rfl
  | succ fuel => rw [parseElements, parseElements, h, skip_idem h]

theorem parseMembers_skip (pv : ValueParser) (fuel : Nat) (h : skip s = .ok t) :
    parseMembers pv fuel s = parseMembers pv fuel t := by
  cases fuel with
  | zero => rfl
  | succ fuel => rw [parseMembers, parseMembers, h, skip_idem h]

theorem parseArray_nil {pv : ValueParser} (hw : Blank w) :
    parseArray pv fuel item (91 :: w ++ [93] ++ rest) =
      .ok (({ item with type := cJSONArray }, .null), rest) := by
  have hskip : skip (w ++ 93 :: rest) = .ok (93 :: rest) := by
    rw [skip_append hw, skip_cons (by decide)]
  have htext : 91 :: w ++ [93] ++ rest = 91 :: (w ++ 93 :: rest) := by simp
  rw [htext]
  simp only [parseArray, if_neg (show ¬ (91 : UInt8) ≠ 91 by decide), hskip, ok_bind, if_true]

theorem parseArray_elements {pv : ValueParser} (hskip : skip (s ++ 93 :: rest) = .ok (b :: t))
    (hb : b ≠ 93) (h : parseElements pv fuel (b :: t) = .ok (child, 93 :: rest)) :
    parseArray pv fuel item (91 :: s ++ [93] ++ rest) =
      .ok (({ item with type := cJSONArray }, child), rest) := by
  have htext : 91 :: s ++ [93] ++ rest = 91 :: (s ++ 93 :: rest) := by simp
  rw [htext]
  simp only [parseArray, if_neg (show ¬ (91 : UInt8) ≠ 91 by decide), hskip, ok_bind, if_neg hb, h,
    if_true]

theorem parseObject_nil {pv : ValueParser} (hw : Blank w) :
    parseObject pv fuel item (123 :: w ++ [125] ++ rest) =
      .ok (({ item with type := cJSONObject }, .null), rest) := by
  have hskip : skip (w ++ 125 :: rest) = .ok (125 :: rest) := by
    rw [skip_append hw, skip_cons (by decide)]
  have htext : 123 :: w ++ [125] ++ rest = 123 :: (w ++ 125 :: rest) := by simp
  rw [htext]
  simp only [parseObject, if_neg (show ¬ (123 : UInt8) ≠ 123 by decide), hskip, ok_bind, if_true]

theorem parseObject_members {pv : ValueParser} (hskip : skip (s ++ 125 :: rest) = .ok (34 :: t))
    (h : parseMembers pv fuel (34 :: t) = .ok (child, 125 :: rest)) :
    parseObject pv fuel item (123 :: s ++ [125] ++ rest) =
      .ok (({ item with type := cJSONObject }, child), rest) := by
  have htext : 123 :: s ++ [125] ++ rest = 123 :: (s ++ 125 :: rest) := by simp
  rw [htext]
  simp only [parseObject, if_neg (show ¬ (123 : UInt8) ≠ 123 by decide), hskip, ok_bind,
    if_neg (show ¬ (34 : UInt8) = 125 by decide), h, if_true]

/-- The members of an object have names that pointers can give. -/
theorem valueOf_members {ms : List (CStr × Value)} (hnames : ∀ m ∈ ms, 0 ∉ m.1)
    (htype : item.type = cJSONObject) :
    valueOf anyNumber item (ms.map fun m => (some m.1, m.2)) = some (.obj ms) := by
  have hmap : (ms.map fun m => (some m.1, m.2)).mapM (fun c : Option CStr × Value =>
      (cString c.1).map fun name => (name, c.2)) = some ms := by
    induction ms with
    | nil => rfl
    | cons m ms ih =>
        have hm : cString (some m.1) = some m.1 := if_neg (hnames m (List.mem_cons_self ..))
        have hms := ih fun m' hm' => hnames m' (List.mem_cons_of_mem m hm')
        rw [List.map_cons, List.mapM_cons, hm, hms]
        rfl
  unfold valueOf
  rw [htype, hmap]
  rfl

theorem Renders.name {gap : List UInt8 → Prop} {read : NumberText → Double} {name : CStr}
    (h : Renders gap read (.member name v) s) :
    0 ∉ name := by
  cases h with
  | member _ he => exact zero_notMem_of_escaped he

theorem Renders.names {gap : List UInt8 → Prop} {read : NumberText → Double} {ms : List (CStr × Value)}
    (h : Renders gap read (.members ms) s) : ∀ m ∈ ms, 0 ∉ m.1 := by
  generalize hp : Part.members ms = p at h
  induction h generalizing ms with
  | lastMember h =>
      cases hp
      exact fun m hm => List.mem_singleton.1 hm ▸ h.name
  | members h _ _ ih' =>
      cases hp
      intro m hm
      rcases List.mem_cons.1 hm with rfl | hm
      · exact h.name
      · exact ih' rfl m hm
  | _ => cases hp

/-- **The parser takes every text.** -/
theorem Renders.parses {p : Part} (h : Renders Blank (NumberText.value pow) p s) : Parses pow s p := by
  induction h with
  | null =>
      intro n rest item hn _
      obtain ⟨n, rfl⟩ := Nat.exists_eq_succ_of_ne_zero (Nat.ne_zero_of_lt hn)
      exact ⟨_, _, parseValue_null, rfl, rfl⟩
  | bool b =>
      intro n rest item hn _
      obtain ⟨n, rfl⟩ := Nat.exists_eq_succ_of_ne_zero (Nat.ne_zero_of_lt hn)
      obtain ⟨item', hparse, hname, hv⟩ := parseValue_bool (n := n) b
      exact ⟨item', .null, hparse, hname, hv⟩
  | @num t ht =>
      intro n rest item hn hrest
      obtain ⟨n, rfl⟩ := Nat.exists_eq_succ_of_ne_zero (Nat.ne_zero_of_lt hn)
      refine ⟨_, _, parseValue_num ht (hrest _ rfl), rfl, ?_⟩
      exact if_pos rfl
  | @str s e he =>
      intro n rest item hn _
      obtain ⟨n, rfl⟩ := Nat.exists_eq_succ_of_ne_zero (Nat.ne_zero_of_lt hn)
      refine ⟨_, _, parseValue_str he, rfl, ?_⟩
      show (cString (some s)).map Value.str = some (.str s)
      rw [cString, Option.bind_some, if_neg (zero_notMem_of_escaped he), Option.map_some]
  | arrNil hw =>
      intro n rest item hn _
      obtain ⟨n, rfl⟩ := Nat.exists_eq_succ_of_ne_zero (Nat.ne_zero_of_lt hn)
      refine ⟨{ item with type := cJSONArray }, .null, ?_, rfl, rfl⟩
      rw [← parseArray_nil hw]
      exact parseValue_cons (by decide) _
  | @arr vs s _ ih =>
      intro n rest item hn _
      obtain ⟨n, rfl⟩ := Nat.exists_eq_succ_of_ne_zero (Nat.ne_zero_of_lt hn)
      have hlt : s.length < n := by
        simp only [List.length_append, List.length_cons, List.length_nil] at hn
        omega
      obtain ⟨b, t, child, hskip, hb, hparse, hparts⟩ := ih rest hlt hlt
      refine ⟨{ item with type := cJSONArray }, child, ?_, rfl, ?_⟩
      · rw [← parseArray_elements hskip hb hparse]
        exact parseValue_cons (by decide) _
      · rw [hparts, Option.bind_some]
        show some (Value.arr _) = _
        rw [List.map_map]
        exact congrArg (some ∘ Value.arr) (List.map_id vs)
  | objNil hw =>
      intro n rest item hn _
      obtain ⟨n, rfl⟩ := Nat.exists_eq_succ_of_ne_zero (Nat.ne_zero_of_lt hn)
      refine ⟨{ item with type := cJSONObject }, .null, ?_, rfl, rfl⟩
      rw [← parseObject_nil hw]
      exact parseValue_cons (by decide) _
  | @obj ms s hms ih =>
      intro n rest item hn _
      obtain ⟨n, rfl⟩ := Nat.exists_eq_succ_of_ne_zero (Nat.ne_zero_of_lt hn)
      have hlt : s.length < n := by
        simp only [List.length_append, List.length_cons, List.length_nil] at hn
        omega
      obtain ⟨t, child, hskip, hparse, hparts⟩ := ih rest hlt hlt
      refine ⟨{ item with type := cJSONObject }, child, ?_, rfl, ?_⟩
      · rw [← parseObject_members hskip hparse]
        exact parseValue_cons (by decide) _
      · rw [hparts, Option.bind_some]
        exact valueOf_members hms.names rfl
  | @element v w s w' hw hs hw' ih =>
      intro n rest item hn hrest
      have hlt : s.length < n := by
        simp only [List.length_append] at hn
        omega
      obtain ⟨b, t, rfl, hb, hne⟩ := hs.head
      obtain ⟨item', child, hparse, hstands⟩ := ih item hlt fun _ _ => hrest.numberEnds_append hw'
      refine ⟨b, t ++ (w' ++ rest), w' ++ rest, item', child, ?_, hne, hparse, ?_, hstands⟩
      · rw [List.append_assoc, List.append_assoc, skip_append hw]
        exact skip_cons (fun h => absurd h.2 (UInt8.not_le.2 hb)) _
      · rw [skip_append hw', hrest.skip]
  | @lastElement v s _ ih =>
      intro n fuel rest hn hfuel
      obtain ⟨fuel, rfl⟩ := Nat.exists_eq_succ_of_ne_zero (Nat.ne_zero_of_lt hfuel)
      have hrest : Follows (93 :: rest) := ⟨93, rest, rfl, by decide⟩
      obtain ⟨b, t, t', item', child, hskip, hne, hparse, hend, hstands⟩ := ih newItem hn hrest
      refine ⟨b, t, .node item' child .null, hskip, hne, ?_, hstands.parts rfl⟩
      rw [parseElements, skip_idem hskip]
      simp only [ok_bind, hparse, hend, if_neg (show ¬ (93 : UInt8) = 44 by decide)]
  | @elements v vs s s' _ _ ih ih' =>
      intro n fuel rest hn hfuel
      obtain ⟨fuel, rfl⟩ := Nat.exists_eq_succ_of_ne_zero (Nat.ne_zero_of_lt hfuel)
      simp only [List.length_append, List.length_cons] at hn hfuel
      have hcomma : Follows (44 :: (s' ++ 93 :: rest)) := ⟨44, _, rfl, by decide⟩
      obtain ⟨b, t, t', item', child, hskip, hne, hparse, hend, hstands⟩ :=
        ih (n := n) newItem (by omega) hcomma
      have hlt : s'.length < fuel := by omega
      obtain ⟨b', u, next, hskip', -, hparse', hparts⟩ := ih' (n := n) rest (by omega) hlt
      refine ⟨b, t, .node item' child next, ?_, hne, ?_, hstands.parts hparts⟩
      · rw [List.append_assoc]
        exact hskip
      · rw [parseElements, skip_idem hskip]
        simp only [ok_bind, hparse, hend, if_true, parseElements_skip _ _ hskip', hparse']
  | @member name v w e w' s hw he hw' _ ih =>
      intro n rest hn hrest
      simp only [List.length_append, List.length_cons] at hn
      obtain ⟨b, t, t', item', child, hskip, -, hparse, hend, hstands⟩ :=
        ih (n := n) ⟨cJSONString, none, newItem.valueint, newItem.valuedouble, some name⟩ (by omega)
          hrest
      refine ⟨e ++ [34] ++ (w' ++ 58 :: (s ++ rest)), w' ++ 58 :: (s ++ rest), s ++ rest, b :: t, t',
        item', child, ?_, ?_, ?_, hskip, hparse, hend, hstands⟩
      · have htext : w ++ (34 :: e ++ [34]) ++ w' ++ 58 :: s ++ rest =
            w ++ 34 :: (e ++ [34] ++ (w' ++ 58 :: (s ++ rest))) := by simp
        rw [htext, skip_append hw, skip_cons (by decide)]
      · exact parseString_append he
      · rw [skip_append hw', skip_cons (by decide)]
  | @lastMember name v s _ ih =>
      intro n fuel rest hn hfuel
      obtain ⟨fuel, rfl⟩ := Nat.exists_eq_succ_of_ne_zero (Nat.ne_zero_of_lt hfuel)
      have hrest : Follows (125 :: rest) := ⟨125, rest, rfl, by decide⟩
      obtain ⟨t, t', t'', u, u', item, child, hskip, hname, hcolon, hvalue, hparse, hend, hstands⟩ :=
        ih hn hrest
      refine ⟨t, .node item child .null, hskip, ?_, hstands.parts rfl⟩
      rw [parseMembers, skip_idem hskip]
      simp only [ok_bind, hname, hcolon, if_neg (show ¬ (58 : UInt8) ≠ 58 by decide), hvalue, hparse,
        hend, if_neg (show ¬ (125 : UInt8) = 44 by decide)]
  | @members name v ms s s' _ _ ih ih' =>
      intro n fuel rest hn hfuel
      obtain ⟨fuel, rfl⟩ := Nat.exists_eq_succ_of_ne_zero (Nat.ne_zero_of_lt hfuel)
      simp only [List.length_append, List.length_cons] at hn hfuel
      have hcomma : Follows (44 :: (s' ++ 125 :: rest)) := ⟨44, _, rfl, by decide⟩
      obtain ⟨t, t', t'', u, u', item, child, hskip, hname, hcolon, hvalue, hparse, hend, hstands⟩ :=
        ih (n := n) (by omega) hcomma
      have hlt : s'.length < fuel := by omega
      obtain ⟨t₂, next, hskip', hparse', hparts⟩ := ih' (n := n) rest (by omega) hlt
      refine ⟨t, .node item child next, ?_, ?_, hstands.parts hparts⟩
      · rw [List.append_assoc]
        exact hskip
      · rw [parseMembers, skip_idem hskip]
        simp only [ok_bind, hname, hcolon, if_neg (show ¬ (58 : UInt8) ≠ 58 by decide), hvalue,
          hparse, hend, if_true, parseMembers_skip _ _ hskip', hparse']

/-- **Every JSON text, with any white space and anything behind its end, is parsed into its value.** -/
theorem cJSONParseWithOpts_renders (h : Renders Blank (NumberText.value pow) (.element v) s) (junk : Text)
    (requireNullTerminated : Bool) :
    ∃ item endPtr, cJSONParseWithOpts pow (s ++ 0 :: junk) requireNullTerminated = .ok (item, endPtr) ∧
      skip endPtr = .ok (0 :: junk) ∧ item.value anyNumber = some v := by
  have hend : Follows (0 :: junk) := ⟨0, junk, rfl, by decide⟩
  have hlt : s.length < (s ++ 0 :: junk).length + 1 := by
    rw [List.length_append]
    omega
  obtain ⟨b, t, t', item, child, hskip, -, hparse, hendPtr, -, hv⟩ := h.parses newItem hlt hend
  rw [cJSONParseWithOpts]
  simp only [hskip, ok_bind, hparse]
  cases requireNullTerminated with
  | false => exact ⟨_, t', rfl, hendPtr, hv⟩
  | true =>
      simp only [hendPtr, ok_bind, if_true]
      exact ⟨_, 0 :: junk, rfl, hend.skip, hv⟩

/-- `1` and `-2.5e3`. -/
def sampleInt : NumberText := ⟨false, [49], [], none⟩
def sampleReal : NumberText := ⟨true, [50], [53], some ⟨101, none, [51]⟩⟩

/-- An object with an array, of which the last entry is a string with a tab. The gap is in front of
    every value but the first number. -/
def sampleText (w : List UInt8) : List UInt8 :=
  123 :: cstr "\"a\":" ++ w ++ cstr "[1," ++ w ++ cstr "-2.5e3," ++ w ++ cstr "\"x\\t\"]" ++ [125]

def sampleValue (read : NumberText → Double) : Value :=
  .obj [(cstr "a", .arr [.num (read sampleInt), .num (read sampleReal), .str [120, 9]])]

theorem valid_sampleInt : sampleInt.Valid where
  int := Or.inr ⟨49, [], rfl, by decide⟩
  digits := List.all_iff_forall_prop.1 (by decide)
  exp := by simp [sampleInt]

theorem valid_sampleReal : sampleReal.Valid where
  int := Or.inr ⟨50, [], rfl, by decide⟩
  digits := List.all_iff_forall_prop.1 (by decide)
  exp := by
    rintro exp hexp
    obtain rfl := Option.mem_some_iff.1 hexp
    exact ⟨Or.inl rfl, List.all_iff_forall_prop.1 (by decide), by decide⟩

theorem renders_sample {gap : List UInt8 → Prop} (hnil : gap []) (hw : gap w)
    (read : NumberText → Double) : Renders gap read (.value (sampleValue read)) (sampleText w) := by
  have hstring : Escaped [120, 9] [120, 92, 116] :=
    .plain (by decide) (.escape (by decide) .nil)
  have hname : Escaped (cstr "a") [97] := .plain (by decide) .nil
  have hint : Renders gap read (.value (.num (read sampleInt))) sampleInt.text := .num valid_sampleInt
  have helements := Renders.elements (.element hnil hint hnil)
    (.elements (.element hw (.num valid_sampleReal) hnil)
      (.lastElement (.element hw (.str hstring) hnil)))
  have hobject := Renders.obj (.lastMember (.member hnil hname hnil (.element hw (.arr helements) hnil)))
  have htext : sampleText w = 123 :: ([] ++ (34 :: [97] ++ [34]) ++ [] ++ 58 ::
      (w ++ (91 :: (([] ++ sampleInt.text ++ []) ++ 44 :: ((w ++ sampleReal.text ++ []) ++ 44 ::
        (w ++ (34 :: [120, 92, 116] ++ [34]) ++ []))) ++ [93]) ++ [])) ++ [125] := by
    simp [sampleText, cstr, sampleInt, sampleReal, NumberText.text, Exponent.text]
  rw [htext]
  exact hobject

end XToolkits.Json
