import XToolkits.Json.Forest
import Mathlib.Data.Nat.Bitwise

set_option autoImplicit false

/-! # New items and strings

What the functions that allocate do to the forest: a new root, another name for a root. `malloc` may
refuse at any point. -/

namespace XToolkits.Json

open Siblings Memory

variable {m m' : Memory} {F G : Forest} {lost : List Ptr} {b : Branch Ptr Cell} {a : Ptr}

/-! ## The flags of a type -/

/-- The flags are above the types. -/
theorem isReference_of_lt {v : Cell} (h : v.type < 256) : v.isReference = false := by
  have htype : v.type &&& 2 ^ 8 = 0 := by
    rw [Nat.and_two_pow, Nat.testBit_lt_two_pow h]
    rfl
  exact decide_eq_false fun hne => hne htype

theorem stringIsConst_of_lt {v : Cell} (h : v.type < 256) : v.stringIsConst = false := by
  have htype : v.type &&& 2 ^ 9 = 0 := by
    rw [Nat.and_two_pow, Nat.testBit_lt_two_pow (Nat.lt_trans h (by decide))]
    rfl
  exact decide_eq_false fun hne => hne htype

theorem owned_of_lt {v : Cell} (h : v.type < 256) : v.owned = v.strings := by
  rw [Cell.owned, Cell.strings, stringIsConst_of_lt h]
  rfl

theorem stray_of_lt {v : Cell} (h : v.type < 256) : v.stray = [] := by
  rw [Cell.stray, stringIsConst_of_lt h]
  rfl

theorem isReference_or_const (v : Cell) (s : CharPtr) :
    { v with string := s, type := v.type ||| cJSONStringIsConst : Cell }.isReference = v.isReference := by
  have htype : (v.type ||| cJSONStringIsConst) &&& cJSONIsReference = v.type &&& cJSONIsReference := by
    rw [Nat.and_or_distrib_right]
    exact Nat.or_zero _
  rw [Cell.isReference, Cell.isReference, htype]

theorem stringIsConst_or_const (v : Cell) (s : CharPtr) :
    { v with string := s, type := v.type ||| cJSONStringIsConst : Cell }.stringIsConst = true := by
  have htype : (v.type ||| cJSONStringIsConst) &&& cJSONStringIsConst ≠ 0 := by
    rw [Nat.and_or_distrib_right]
    exact fun hzero => absurd (Nat.or_eq_zero_iff.1 hzero).2 (by decide)
  exact decide_eq_true htype

theorem isReference_or_reference (v : Cell) (s : CharPtr) :
    { v with string := s, type := v.type ||| cJSONIsReference : Cell }.isReference = true := by
  have htype : (v.type ||| cJSONIsReference) &&& cJSONIsReference ≠ 0 := by
    rw [Nat.and_or_distrib_right]
    exact fun hzero => absurd (Nat.or_eq_zero_iff.1 hzero).2 (by decide)
  exact decide_eq_true htype

/-! ## Memory from `malloc` -/

/-- What `malloc` answers is `NULL`, which counts as refused, or not in use. -/
theorem malloc_cases (m : Memory) : ∃ a answers, m.malloc = (a, { m with answers }) ∧
    ((a = nullPtr ∧ m.refused < answers.refused) ∨
      (a ≠ nullPtr ∧ answers.refused = m.refused ∧ m.items a = none ∧ m.strings a = none)) := by
  unfold malloc
  cases hm : m.answers.next with
  | nil => exact ⟨nullPtr, _, rfl, Or.inl ⟨rfl, Nat.lt_succ_self _⟩⟩
  | cons a next =>
      by_cases hfree : a = nullPtr ∨ (m.items a).isSome ∨ (m.strings a).isSome
      · exact ⟨nullPtr, _, if_pos hfree, Or.inl ⟨rfl, Nat.lt_succ_self _⟩⟩
      · obtain ⟨hnull, hused⟩ := not_or.1 hfree
        obtain ⟨hitems, hstrings⟩ := not_or.1 hused
        exact ⟨a, _, if_neg hfree, Or.inr ⟨hnull, rfl, Option.not_isSome_iff_eq_none.1 hitems,
          Option.not_isSome_iff_eq_none.1 hstrings⟩⟩

/-- The forest does not depend on the answers of `malloc`. -/
theorem Owns.answers (h : Owns m F lost) (answers : Answers) : Owns { m with answers } F lost :=
  ⟨h.roots, h.items, h.strings, h.sound, h.live, h.null⟩

/-- A new item that has no strings and no children becomes a root. -/
theorem Owns.newRoot (h : Owns m F lost) (ha : m.items a = none) (hnull : a ≠ nullPtr)
    {t : Twig Ptr Cell} (hfits : cJSONLayout.Fits t .nil) (hsound : t.val.Sound)
    (hstrings : t.val.strings = []) :
    Owns { m with items := m.items.set a ⟨t, nullPtr, nullPtr⟩, live := m.live + 1 }
      (⟨a, t, .nil⟩ :: F) lost := by
  have hnew : a ∉ F.addrs := fun hmem => by
    obtain ⟨n, hn⟩ := h.items.exists_eq hmem
    rw [ha] at hn
    cases hn
  refine ⟨fun d hd => ?_, h.items.new ha _, ?_, fun c hc => ?_, ?_, ?_⟩
  · rcases List.mem_cons.1 hd with rfl | hd
    · exact ⟨Heap.set_self .., hfits, trivial⟩
    · exact (h.roots d hd).congr fun x hx => Heap.set_of_ne m.items _ fun heq =>
        hnew (heq ▸ List.mem_flatMap.2 ⟨d, hd, hx⟩)
  · have heq : Forest.strings (⟨a, t, .nil⟩ :: F) = F.strings := by
      rw [Forest.strings, List.flatMap_cons, Branch.gather, hstrings]
      rfl
    rw [heq]
    exact h.strings
  · rcases List.mem_cons.1 hc with rfl | hc
    · exact hsound
    · exact h.sound c hc
  · show m.live + 1 = _
    rw [h.live]
    rfl
  · exact (Heap.set_of_ne m.items _ hnull.symm).trans h.null

theorem heap_set_set (h : Heap Ptr (Node Ptr (Twig Ptr Cell))) (a : Ptr)
    (n n' : Node Ptr (Twig Ptr Cell)) : (h.set a n).set a n' = h.set a n' := by
  funext x
  by_cases hx : x = a
  · rw [hx, Heap.set_self, Heap.set_self]
  · rw [Heap.set_of_ne _ _ hx, Heap.set_of_ne _ _ hx, Heap.set_of_ne _ _ hx]

/-- `NULL`, when `malloc` refuses, or a new root. -/
def Made (m m' : Memory) (F : Forest) (lost : List Ptr) (b : Branch Ptr Cell) : Prop :=
  (b.addr = nullPtr ∧ m.refused < m'.refused ∧ Owns m' F lost) ∨
    (b.addr ≠ nullPtr ∧ m'.refused = m.refused ∧ Owns m' (b :: F) lost)

/-- An item that was just created, with the given fields. -/
def leaf (a : Ptr) (v : Cell) : Branch Ptr Cell := ⟨a, ⟨nullPtr, v⟩, .nil⟩

/-- `cJSON_New_Item` gives `NULL` or an item that is all zero. -/
theorem newItem_cases (m : Memory) : ∃ a answers,
    (a = nullPtr ∧ m.refused < answers.refused ∧ m.cJSONNewItem = (a, { m with answers })) ∨
    (a ≠ nullPtr ∧ answers.refused = m.refused ∧ m.items a = none ∧ m.cJSONNewItem = (a, { m with
      items := m.items.set a ⟨⟨nullPtr, .zero⟩, nullPtr, nullPtr⟩, live := m.live + 1, answers })) := by
  obtain ⟨a, answers, hmalloc, ⟨hnull, hrefused⟩ | ⟨hnull, hserved, hitems, -⟩⟩ := malloc_cases m
  · refine ⟨a, answers, Or.inl ⟨hnull, hrefused, ?_⟩⟩
    simp only [cJSONNewItem, hmalloc, hnull, if_true]
  · refine ⟨a, answers, Or.inr ⟨hnull, hserved, hitems, ?_⟩⟩
    simp only [cJSONNewItem, hmalloc, if_neg hnull]

/-- A new item and what is written into it at once. -/
theorem Owns.newItem (h : Owns m F lost) {t : Twig Ptr Cell} (ha : m.items a = none)
    (hnull : a ≠ nullPtr) (answers : Answers)
    (hfits : cJSONLayout.Fits t .nil) (hsound : t.val.Sound) (hstrings : t.val.strings = []) :
    Owns { m with
      items := (m.items.set a ⟨⟨nullPtr, .zero⟩, nullPtr, nullPtr⟩).set a ⟨t, nullPtr, nullPtr⟩,
      live := m.live + 1, answers } (⟨a, t, .nil⟩ :: F) lost := by
  rw [heap_set_set]
  exact (h.newRoot ha hnull hfits hsound hstrings).answers answers

/-- **Creating an item.** -/
theorem Owns.createWith (h : Owns m F lost) {f : Cell → Cell} (htype : (f .zero).type < 256)
    (hvaluestring : (f .zero).valuestring = .null) (hstring : (f .zero).string = .null) :
    ∃ a m', m.createWith f = some (a, m') ∧ m'.strings = m.strings ∧
      Made m m' F lost (leaf a (f .zero)) := by
  have hsound : (f .zero).Sound := ⟨fun _ => hvaluestring ▸ trivial, fun _ => hstring ▸ trivial⟩
  have hstrings : (f .zero).strings = [] := by
    rw [Cell.strings, isReference_of_lt htype, hvaluestring, hstring]
    rfl
  obtain ⟨a, answers, ⟨rfl, hrefused, hnew⟩ | ⟨hnull, hserved, ha, hnew⟩⟩ := newItem_cases m
  · refine ⟨nullPtr, { m with answers }, ?_, rfl, Or.inl ⟨rfl, hrefused, h.answers answers⟩⟩
    simp only [Memory.createWith, hnew, if_true]
  · refine ⟨a, _, ?_, ?_, Or.inr ⟨hnull, ?_,
      h.newItem ha hnull answers ⟨fun hsh => ?_, fun _ => rfl⟩ hsound hstrings⟩⟩
    · simp only [Memory.createWith, hnew, if_neg hnull, Memory.setVal, Heap.set_self, Option.map_some]
    · rfl
    · exact hserved
    · exact absurd (hsh.symm.trans (isReference_of_lt htype)) (by decide)

/-! ## Another name for a root -/

/-- The strings besides the name of a root. -/
def otherStrings (b : Branch Ptr Cell) (G : Forest) (lost : List Ptr) : List Ptr :=
  (if b.twig.val.isReference then [] else b.twig.val.valuestring.addrs) ++
    (b.children.gather (fun _ c => c.strings) ++ (G.strings ++ lost))

theorem strings_perm_name (b : Branch Ptr Cell) (G : Forest) (lost : List Ptr) :
    (Forest.strings (b :: G) ++ lost).Perm (b.twig.val.string.addrs ++ otherStrings b G lost) := by
  rw [Forest.strings, List.flatMap_cons, Branch.gather, Cell.strings, ← Forest.strings, otherStrings]
  simp only [← Multiset.coe_eq_coe, ← Multiset.coe_add]
  abel

/-- A root with other fields than its links. -/
def withVal (b : Branch Ptr Cell) (v : Cell) : Branch Ptr Cell := { b with twig.val := v }

/-- A write to the fields of a root. -/
theorem Owns.setVal (h : Owns m (b :: G) lost) (f : Cell → Cell) {lost' : List Ptr}
    {strings : Heap Ptr CStr} (answers : Answers)
    (href : (f b.twig.val).isReference = b.twig.val.isReference) (hsound : (f b.twig.val).Sound)
    (hstrings : strings.Domain (Forest.strings (withVal b (f b.twig.val) :: G) ++ lost')) :
    ∃ m', { m with strings, answers : Memory }.setVal b.addr f = some m' ∧ m'.strings = strings ∧
      m'.answers = answers ∧ Owns m' (withVal b (f b.twig.val) :: G) lost' := by
  obtain ⟨hnode, hinner⟩ := h.roots b (List.mem_cons_self ..)
  have hmem : b.addr ∈ Forest.addrs (b :: G) := List.mem_append_left _ (List.mem_append_left _
    (List.mem_singleton_self _))
  have hset : { m with strings, answers : Memory }.setVal b.addr f = some { m with
      items := m.items.set b.addr ⟨⟨b.twig.child, f b.twig.val⟩, nullPtr, nullPtr⟩, strings, answers } := by
    rw [Memory.setVal, hnode]
    rfl
  have hout : ∀ x ∈ b.children.addrs, x ≠ b.addr := fun x hx heq => by
    have hself := (List.nodup_append'.1 h.items.nodup).1
    exact (List.nodup_cons.1 hself).1 (heq ▸ hx)
  refine ⟨_, hset, rfl, rfl, fun d hd => ?_, h.items.write hmem _, hstrings, fun c hc => ?_, h.live, ?_⟩
  · rcases List.mem_cons.1 hd with rfl | hd
    · refine ⟨Heap.set_self .., ⟨fun hsh => hinner.fits.shared (href.symm.trans hsh),
        fun hown => hinner.fits.owned (href.symm.trans hown)⟩, hinner.below.congr fun x hx => ?_⟩
      exact Heap.set_of_ne m.items _ (hout x hx)
    · refine (h.roots d (List.mem_cons_of_mem b hd)).congr fun x hx => Heap.set_of_ne m.items _ fun heq => ?_
      exact (List.nodup_append'.1 h.items.nodup).2.2 (List.mem_append_left _ (List.mem_singleton_self _))
        (heq ▸ List.mem_flatMap.2 ⟨d, hd, hx⟩)
  · rcases List.mem_cons.1 hc with rfl | hc
    · exact hsound
    · exact h.sound c (List.mem_cons_of_mem _ hc)
  · refine (Heap.set_of_ne m.items _ fun heq => h.null_notMem ?_).trans h.null
    rw [heq]
    exact hmem

/-! ## Strings -/

/-- The copy of a string, or `NULL` when `malloc` refuses. -/
structure Copied (m : Memory) (s : CStr) (copy : CharPtr) (strings : Heap Ptr CStr)
    (answers : Answers) : Prop where
  freeable : copy.Freeable
  text : (copy = .null ∧ m.refused < answers.refused) ∨
    ((∃ a, copy = .heap a ∧ strings a = some s) ∧ answers.refused = m.refused)
  domain : ∀ as, m.strings.Domain as → strings.Domain (copy.addrs ++ as)
  frame : ∀ a, (m.strings a).isSome → strings a = m.strings a

theorem cJSONStrdup_eq {str : CharPtr} {s : CStr} (hread : m.read str = some (some s)) :
    ∃ copy strings answers, m.cJSONStrdup str = some (copy, { m with strings, answers }) ∧
      Copied m s copy strings answers := by
  obtain ⟨a, answers, hmalloc, ⟨hnull, hrefused⟩ | ⟨hnull, hserved, -, ha⟩⟩ := malloc_cases m
  all_goals simp only [cJSONStrdup, hread, hmalloc, Option.bind_eq_bind, Option.bind_some]
  · rw [if_pos hnull]
    exact ⟨_, m.strings, answers, rfl, trivial, Or.inl ⟨rfl, hrefused⟩, fun as has => has, fun _ _ => rfl⟩
  · rw [if_neg hnull]
    refine ⟨_, _, answers, rfl, trivial, Or.inr ⟨⟨a, rfl, Heap.set_self ..⟩, hserved⟩,
      fun as has => has.new ha s, fun x hx => Heap.set_of_ne m.strings s ?_⟩
    rintro rfl
    rw [ha] at hx
    cases hx

/-- Only the string that a pointer leads to is read. -/
theorem read_eq {str : CharPtr} (heq : ∀ x ∈ str.addrs, m'.strings x = m.strings x) :
    m'.read str = m.read str := by
  cases str with
  | heap a => rw [Memory.read, Memory.read, heq a (List.mem_singleton_self a)]
  | null | const s => rfl

theorem read_congr (heq : m'.strings = m.strings) (str : CharPtr) : m'.read str = m.read str :=
  read_eq fun x _ => by rw [heq]

/-- A copy of the string, or `NULL` when `malloc` refuses. -/
def Names (m : Memory) (string : CharPtr) (m' : Memory) (name : CharPtr) : Prop :=
  (name = .null ∧ m.refused < m'.refused) ∨ (m'.read name = m.read string ∧ m'.refused = m.refused)

theorem Copied.names {str copy : CharPtr} {s : CStr} {strings : Heap Ptr CStr} {answers : Answers}
    (h : Copied m s copy strings answers) (hread : m.read str = some (some s))
    (hstrings : m'.strings = strings) (hanswers : m'.answers = answers) : Names m str m' copy := by
  subst hstrings hanswers
  refine h.text.imp_right ?_
  rintro ⟨⟨a, rfl, ha⟩, hserved⟩
  refine ⟨?_, hserved⟩
  rw [hread, Memory.read, ha]
  rfl

/-- Only the strings and the answers matter. -/
theorem Names.congr {m'' : Memory} {string name : CharPtr} (h : Names m string m' name)
    (hstrings : m''.strings = m'.strings) (hanswers : m''.answers = m'.answers) :
    Names m string m'' name := by
  unfold Names Memory.refused
  rw [read_congr hstrings, hanswers]
  exact h

theorem strings_leaf (a : Ptr) (v : Cell) (F : Forest) :
    Forest.strings (leaf a v :: F) = v.strings ++ F.strings := by
  rw [Forest.strings, List.flatMap_cons, Branch.gather, leaf, gather, List.append_nil]
  rfl

/-- The fields of a string item. -/
def stringCell (copy : CharPtr) : Cell := { Cell.zero with type := cJSONString, valuestring := copy }

theorem strings_stringCell (copy : CharPtr) : (stringCell copy).strings = copy.addrs := by
  rw [Cell.strings, isReference_of_lt (show cJSONString < 256 by decide)]
  exact List.append_nil _

/-- **`cJSON_CreateString`.** -/
theorem Owns.createString (h : Owns m F lost) {str : CharPtr} {s : CStr}
    (hread : m.read str = some (some s)) :
    ∃ a m' copy, m.cJSONCreateString str = some (a, m') ∧
      (∀ x, (m.strings x).isSome → m'.strings x = m.strings x) ∧
      (a ≠ nullPtr → m'.read copy = some (some s)) ∧ Made m m' F lost (leaf a (stringCell copy)) := by
  obtain ⟨a, m₁, hcreate, hstrings₁, ⟨hnull, hrefused, hF⟩ | ⟨hnull, hserved, hF⟩⟩ :=
    h.createWith (f := fun v => { v with type := cJSONString }) (by decide) rfl rfl
  · change a = nullPtr at hnull
    refine ⟨a, m₁, .null, ?_, fun x _ => by rw [hstrings₁], fun ha => absurd hnull ha,
      Or.inl ⟨hnull, hrefused, hF⟩⟩
    simp only [Memory.cJSONCreateString, hcreate, hnull, Option.bind_eq_bind, Option.bind_some, if_true]
  · change a ≠ nullPtr at hnull
    have hread₁ : m₁.read str = some (some s) := by rw [read_congr hstrings₁, hread]
    obtain ⟨copy, strings, answers, hdup, hcopy⟩ := cJSONStrdup_eq hread₁
    have hdomain := hcopy.domain _ hF.strings
    rw [strings_leaf, show Cell.strings _ = [] from rfl, List.nil_append, ← strings_stringCell,
      ← List.append_assoc, ← strings_leaf a] at hdomain
    obtain ⟨m₂, hset, hstrings₂, hanswers₂, hown⟩ := hF.setVal
      (fun v => { v with valuestring := copy }) answers rfl
      ⟨fun _ => hcopy.freeable, fun _ => trivial⟩ hdomain
    have hset' : { m₁ with strings, answers : Memory }.setVal a
      (fun v => { v with valuestring := copy }) = some m₂ := hset
    have hframe : ∀ x, (m.strings x).isSome → m₂.strings x = m.strings x := fun x hx => by
      rw [hstrings₂, hcopy.frame x (hstrings₁ ▸ hx), hstrings₁]
    have hnames : Names m₁ str m₂ copy := hcopy.names hread₁ hstrings₂ hanswers₂
    simp only [Memory.cJSONCreateString, hcreate, if_neg hnull, hdup, hset', Option.bind_eq_bind,
      Option.bind_some]
    rcases hnames with ⟨hcopied, hrefused⟩ | ⟨htext, hserved₂⟩
    · -- no memory for the text: the item is given back
      have hown : Owns m₂ (leaf a (stringCell copy) :: F) lost := hown
      obtain ⟨hdel, hF'⟩ := hown.delete
      have hdel' : m₂.cJSONDelete a = _ := hdel
      have hfreed : ownedStrings (onlyChild (leaf a (stringCell .null))) = [] := by
        rw [ownedStrings, gather_onlyChild, Branch.gather, leaf,
          owned_of_lt (show cJSONString < 256 by decide), strings_stringCell]
        rfl
      rw [if_pos hcopied, hdel']
      refine ⟨nullPtr, _, copy, rfl, fun x hx => ?_, fun ha => absurd rfl ha, Or.inl ⟨rfl, ?_, ?_⟩⟩
      · rw [hcopied, hfreed]
        exact (without_strings m₂ List.not_mem_nil).trans (hframe x hx)
      · rw [← hserved]
        exact hrefused
      · have hstray : strayStrings (leaf a (stringCell copy)) = [] := by
          rw [strayStrings, Branch.gather, leaf, stray_of_lt (show cJSONString < 256 by decide)]
          rfl
        rw [hstray, List.append_nil] at hF'
        exact hF'
    · rw [hread₁] at htext
      have hcopied : copy ≠ .null := by
        rintro rfl
        cases htext
      rw [if_neg hcopied]
      exact ⟨a, m₂, copy, rfl, hframe, fun _ => htext, Or.inr ⟨hnull, hserved₂.trans hserved, hown⟩⟩

/-- **`create_reference`.** -/
theorem Owns.createReference (h : Owns m F lost) {item : Ptr} {n : Node Ptr (Twig Ptr Cell)}
    (hitem : m.items item = some n) :
    ∃ a m', m.createReference item = some (a, m') ∧ m'.strings = m.strings ∧
      Made m m' F lost ⟨a, { n.val with
        val.string := .null, val.type := n.val.val.type ||| cJSONIsReference }, .nil⟩ := by
  have href := isReference_or_reference n.val.val .null
  obtain ⟨a, answers, ⟨rfl, hrefused, hnew⟩ | ⟨hnull, hserved, ha, hnew⟩⟩ := newItem_cases m
  · refine ⟨nullPtr, { m with answers }, ?_, rfl, Or.inl ⟨rfl, hrefused, h.answers answers⟩⟩
    simp only [Memory.createReference, hnew, if_true]
  · have hne : item ≠ a := by
      rintro rfl
      rw [ha] at hitem
      cases hitem
    refine ⟨a, _, ?_, ?_, Or.inr ⟨hnull, ?_, h.newItem ha hnull answers
      ⟨fun _ => rfl, fun hown => ?_⟩ ⟨fun hown => ?_, fun _ => trivial⟩ ?_⟩⟩
    · simp only [Memory.createReference, hnew, if_neg hnull, Heap.set_of_ne m.items _ hne, hitem,
        Option.bind_eq_bind, Option.bind_some]
    · rfl
    · exact hserved
    · exact absurd (hown.symm.trans href) (by decide)
    · exact absurd (hown.symm.trans href) (by decide)
    · rw [Cell.strings, if_pos href]
      rfl

/-! ## Names -/

theorem without_nil_left (m : Memory) (ss : List Ptr) :
    m.without [] ss = { m with strings := m.strings.freeAll ss } := by
  rw [without, Heap.freeAll_nil, List.length_nil, Nat.sub_zero]

/-- **Another name for a root**: the old one is freed, and the new one is copied. -/
theorem Owns.rename (h : Owns m (b :: G) lost) (hfree : b.twig.val.string.Freeable) {string : CharPtr}
    {s : CStr} (hread : (m.without [] b.twig.val.string.addrs).read string = some (some s)) :
    ∃ m₁ copy m₂ m₃, m.freeString b.twig.val.string = some m₁ ∧
      m₁.cJSONStrdup string = some (copy, m₂) ∧
      m₂.setVal b.addr (fun v => { v with string := copy }) = some m₃ ∧
      Owns m₃ (withVal b { b.twig.val with string := copy } :: G) lost ∧
      Names (m.without [] b.twig.val.string.addrs) string m₃ copy ∧
      ∀ x, x ∉ b.twig.val.string.addrs → (m.strings x).isSome → m₃.strings x = m.strings x := by
  have hdomain := h.strings.perm (strings_perm_name b G lost)
  have hdel := m.freeString_eq hfree fun x hx => (hdomain.mem x).2 (List.mem_append_left _ hx)
  obtain ⟨copy, strings, answers, hdup, hcopy⟩ := cJSONStrdup_eq hread
  have hdomain' := hcopy.domain _ hdomain.freeAll
  have hsound : b.twig.val.Sound :=
    h.sound _ (List.mem_append_left _ (List.mem_append_left _ (List.mem_singleton_self _)))
  obtain ⟨m₃, hset, hstrings, hanswers, hown⟩ := h.setVal (fun v => { v with string := copy })
    answers rfl ⟨hsound.valuestring, fun _ => hcopy.freeable⟩
    (hdomain'.perm (strings_perm_name (withVal b { b.twig.val with string := copy }) G lost).symm)
  refine ⟨_, copy, _, m₃, hdel, hdup, ?_, hown, hcopy.names hread hstrings hanswers,
    fun x hx hsome => ?_⟩
  · rw [without_nil_left]
    exact hset
  · have hkept : (m.without [] b.twig.val.string.addrs).strings x = m.strings x := without_strings m hx
    rw [hstrings, hcopy.frame x (by rw [hkept]; exact hsome), hkept]

/-- **A name in the place of another one**, which is not freed. -/
theorem Owns.renameKeeping (h : Owns m (b :: G) lost) {string : CharPtr} {s : CStr}
    (hread : m.read string = some (some s)) :
    ∃ m₁ copy m₂, m.cJSONStrdup string = some (copy, m₁) ∧
      m₁.setVal b.addr (fun v => { v with string := copy }) = some m₂ ∧
      Owns m₂ (withVal b { b.twig.val with string := copy } :: G) (b.twig.val.string.addrs ++ lost) ∧
      Names m string m₂ copy ∧ ∀ x, (m.strings x).isSome → m₂.strings x = m.strings x := by
  obtain ⟨copy, strings, answers, hdup, hcopy⟩ := cJSONStrdup_eq hread
  have hdomain := hcopy.domain _ (h.strings.perm (strings_perm_name b G lost))
  have hkept : (b.twig.val.string.addrs ++ otherStrings b G lost).Perm
      (otherStrings (withVal b { b.twig.val with string := copy }) G (b.twig.val.string.addrs ++ lost)) := by
    rw [otherStrings, otherStrings, withVal]
    simp only [← Multiset.coe_eq_coe, ← Multiset.coe_add]
    rw [show Cell.isReference { b.twig.val with string := copy } = b.twig.val.isReference from rfl]
    abel
  have hnamed := strings_perm_name (withVal b { b.twig.val with string := copy }) G
    (b.twig.val.string.addrs ++ lost)
  have hsound : b.twig.val.Sound :=
    h.sound _ (List.mem_append_left _ (List.mem_append_left _ (List.mem_singleton_self _)))
  obtain ⟨m₂, hset, hstrings, hanswers, hown⟩ := h.setVal (fun v => { v with string := copy })
    answers rfl ⟨hsound.valuestring, fun _ => hcopy.freeable⟩
    (hdomain.perm ((hkept.append_left copy.addrs).trans hnamed.symm))
  refine ⟨_, copy, m₂, hdup, hset, hown, hcopy.names hread hstrings hanswers, fun x hsome => ?_⟩
  rw [hstrings, hcopy.frame x hsome]

/-- **A name of the caller's for a root**: the old one is freed, unless it is one of the caller's, too. -/
theorem Owns.renameConst (h : Owns m (b :: G) lost) (s : CStr) :
    ∃ m₁ m₂, m.freeUnless b.twig.val.stringIsConst b.twig.val.string = some m₁ ∧
      m₁.setVal b.addr (fun v => { v with
        string := .const s, type := v.type ||| cJSONStringIsConst }) = some m₂ ∧
      Owns m₂ (withVal b { b.twig.val with
        string := .const s, type := b.twig.val.type ||| cJSONStringIsConst } :: G)
        (b.twig.val.stray ++ lost) ∧
      ∀ x, x ∉ b.twig.val.string.addrs → m₂.strings x = m.strings x := by
  have hdomain := h.strings.perm (strings_perm_name b G lost)
  have hsound : b.twig.val.Sound :=
    h.sound _ (List.mem_append_left _ (List.mem_append_left _ (List.mem_singleton_self _)))
  have href := isReference_or_const b.twig.val (.const s)
  have hconst := stringIsConst_or_const b.twig.val (.const s)
  have hname : b.twig.val.string.addrs.Perm
      ((if b.twig.val.stringIsConst then [] else b.twig.val.string.addrs) ++ b.twig.val.stray) := by
    rw [Cell.stray]
    cases b.twig.val.stringIsConst <;> simp
  have hfreed := hdomain.perm (hname.append_right _)
  rw [List.append_assoc] at hfreed
  have hdel := m.freeUnless_eq hsound.string fun x hx => (hfreed.mem x).2 (List.mem_append_left _ hx)
  have hothers := (strings_perm_name (withVal b { b.twig.val with
    string := .const s, type := b.twig.val.type ||| cJSONStringIsConst }) G (b.twig.val.stray ++ lost)).symm
  have hkept : (b.twig.val.stray ++ otherStrings b G lost).Perm (otherStrings (withVal b { b.twig.val with
      string := .const s, type := b.twig.val.type ||| cJSONStringIsConst }) G
        (b.twig.val.stray ++ lost)) := by
    rw [otherStrings, otherStrings, withVal, href]
    simp only [← Multiset.coe_eq_coe, ← Multiset.coe_add]
    abel
  obtain ⟨m₂, hset, hstrings, -, hown⟩ := h.setVal
    (fun v => { v with string := .const s, type := v.type ||| cJSONStringIsConst }) m.answers href
    ⟨fun hown => hsound.valuestring (href.symm.trans hown), fun hnot => absurd (hnot.symm.trans hconst)
      (by decide)⟩ (hfreed.freeAll.perm (hkept.trans hothers))
  refine ⟨_, m₂, hdel, ?_, hown, fun x hx => ?_⟩
  · rw [without_nil_left]
    exact hset
  · rw [hstrings]
    refine Heap.freeAll_of_notMem m.strings fun hmem => hx ?_
    cases hconst : b.twig.val.stringIsConst with
    | true =>
        rw [hconst] at hmem
        cases hmem
    | false =>
        rw [hconst] at hmem
        exact hmem

end XToolkits.Json
