import XToolkits.Json.Leaks

set_option autoImplicit false

/-! # Copies

`cJSON_Duplicate` copies an item as the memory shows it, references followed. The copy shows the same
fields and has strings of its own; if `malloc` refuses on the way, the part that was made is deleted
again. Whatever was in memory before stays as it was. -/

namespace XToolkits.Json

open Siblings Memory

/-! ## What the memory shows -/

/-- The fields of an item, with the texts that its pointers lead to. -/
def Cell.seen (m : Memory) (c : Cell) : Fields :=
  ⟨c.type, (m.read c.valuestring).join, c.valueint, c.valuedouble, (m.read c.string).join⟩

/-- Items as they are printed. -/
def view (m : Memory) : Siblings Ptr Cell → Item
  | .nil => .null
  | .cons _ t ch rest => .node (t.val.seen m) (view m ch) (view m rest)

/-- The type of an item that is no reference. -/
def ownType (type : Nat) : Nat := type ^^^ (type &&& cJSONIsReference)

/-- The same items, none of them a reference. -/
def Item.own : Item → Item
  | .null => .null
  | .node f child next => .node { f with type := ownType f.type } child.own next.own

/-- The child link of a reference is followed like any other. -/
def seenLayout : TreeLayout Ptr Cell := ⟨nullPtr, fun _ => false⟩

/-- All strings can be read. -/
def Legible (m : Memory) (s : Siblings Ptr Cell) : Prop :=
  ∀ c ∈ s.gather fun _ c => [c], (m.read c.valuestring).isSome ∧ (m.read c.string).isSome

variable {m m' m₀ : Memory} {F G : Forest} {lost more : List Ptr} {b : Branch Ptr Cell} {a p : Ptr}
  {t : Twig Ptr Cell} {s ch rest : Siblings Ptr Cell}

theorem legible_cons : Legible m (.cons a t ch rest) ↔
    ((m.read t.val.valuestring).isSome ∧ (m.read t.val.string).isSome) ∧ Legible m ch ∧
      Legible m rest := by
  unfold Legible
  simp only [gather, List.singleton_append, List.forall_mem_cons, List.forall_mem_append]

/-- No name is under the flag that `cJSON_Delete` heeds. -/
def Quiet (s : Siblings Ptr Cell) : Prop := ∀ c ∈ s.gather fun _ c => [c], c.stringIsConst = false

theorem quiet_cons : Quiet (.cons a t ch rest) ↔
    t.val.stringIsConst = false ∧ Quiet ch ∧ Quiet rest := by
  unfold Quiet
  simp only [gather, List.singleton_append, List.forall_mem_cons, List.forall_mem_append]

/-- The strings that were there are there. -/
def StringsKept (m m' : Memory) : Prop := ∀ x t, m.strings x = some t → m'.strings x = some t

theorem StringsKept.trans {m'' : Memory} (h : StringsKept m m') (h' : StringsKept m' m'') :
    StringsKept m m'' := fun x t hx => h' x t (h x t hx)

theorem stringsKept_of_eq (heq : m'.strings = m.strings) : StringsKept m m' :=
  fun _ _ hx => heq ▸ hx

theorem StringsKept.read (h : StringsKept m m') {str : CharPtr} (hstr : (m.read str).isSome) :
    m'.read str = m.read str := by
  cases str with
  | null | const s => rfl
  | heap x =>
      rw [Memory.read, Option.isSome_map] at hstr
      obtain ⟨t, ht⟩ := Option.isSome_iff_exists.1 hstr
      rw [Memory.read, Memory.read, ht, h x t ht]

theorem StringsKept.legible (h : StringsKept m m') (hs : Legible m s) : Legible m' s := by
  intro c hc
  obtain ⟨hvalue, hname⟩ := hs c hc
  rw [h.read hvalue, h.read hname]
  exact ⟨hvalue, hname⟩

theorem StringsKept.view (h : StringsKept m m') (hs : Legible m s) : view m' s = view m s := by
  induction s with
  | nil => rfl
  | cons a t ch rest ihc ihr =>
      obtain ⟨⟨hvalue, hname⟩, hch, hrest⟩ := legible_cons.1 hs
      rw [Json.view, Json.view, ihc hch, ihr hrest, Cell.seen, Cell.seen, h.read hvalue, h.read hname]

/-- What was there is there. -/
structure Grown (m₀ m : Memory) : Prop where
  items : ∀ x n, m₀.items x = some n → m.items x = some n
  strings : StringsKept m₀ m

/-- What was there belongs to these trees, and is lost by the others. -/
structure BelongsTo (m₀ : Memory) (G : Forest) (lost : List Ptr) : Prop where
  items : ∀ x n, m₀.items x = some n → x ∈ G.addrs
  strings : ∀ x t, m₀.strings x = some t → x ∈ G.strings ++ lost

theorem BelongsTo.cons (h : BelongsTo m₀ G lost) (b : Branch Ptr Cell) : BelongsTo m₀ (b :: G) lost := by
  refine ⟨fun x n hx => List.mem_append_right _ (h.items x n hx), fun x t hx => ?_⟩
  rw [Forest.strings, List.flatMap_cons, List.append_assoc]
  exact List.mem_append_right _ (h.strings x t hx)

theorem BelongsTo.append (h : BelongsTo m₀ G lost) (more : List Ptr) : BelongsTo m₀ G (lost ++ more) := by
  refine ⟨h.items, fun x t hx => ?_⟩
  rw [← List.append_assoc]
  exact List.mem_append_left _ (h.strings x t hx)

theorem Owns.belongsTo (h : Owns m F lost) : BelongsTo m F lost := by
  refine ⟨fun x n hx => (h.items.mem x).1 (by rw [hx]; rfl), fun x t hx => ?_⟩
  exact (h.strings.mem x).1 (by rw [hx]; rfl)

/-- The trees that stay the same stay in memory. -/
theorem Owns.items_eq {A B : Forest} {lost' : List Ptr} (h : Owns m (A ++ G) lost)
    (h' : Owns m' (B ++ G) lost') {x : Ptr} (hx : x ∈ G.addrs) : m'.items x = m.items x := by
  refine h.stand.eq h'.stand x ?_
  rwa [addrs_ofList]

theorem Grown.step {A B : Forest} {lost' : List Ptr} (h : Grown m₀ m) (hbelongs : BelongsTo m₀ G lost)
    (hm : Owns m (A ++ G) lost) (hm' : Owns m' (B ++ G) lost') (hkept : StringsKept m m') :
    Grown m₀ m' := by
  refine ⟨fun x n hx => ?_, h.strings.trans hkept⟩
  rw [hm.items_eq hm' (hbelongs.items x n hx), h.items x n hx]

/-- Deleting a root that was not there. -/
theorem Grown.delete (h : Grown m₀ m) (hbelongs : BelongsTo m₀ G lost) (hm : Owns m (b :: G) lost) :
    ∃ m', m.cJSONDelete b.addr = some m' ∧ Owns m' G (lost ++ strayStrings b) ∧ Grown m₀ m' ∧
      m'.refused = m.refused := by
  obtain ⟨hdel, hown⟩ := hm.delete
  have hm' : Owns m ([b] ++ G) lost := hm
  have hown' : Owns _ ([] ++ G) _ := hown
  refine ⟨_, hdel, hown, ⟨fun x n hx => ?_, fun x t hx => ?_⟩, rfl⟩
  · rw [hm'.items_eq hown' (hbelongs.items x n hx), h.items x n hx]
  · refine (without_strings m fun hmem => ?_).trans (h.strings x t hx)
    have hperm := hm.strings.nodup
    rw [Forest.strings, List.flatMap_cons, List.append_assoc] at hperm
    exact (List.nodup_append'.1 hperm).2.2 (ownedStrings_subset b hmem) (hbelongs.strings x t hx)

/-! ## The fields of a copy -/

/-- A copy of the string failed. -/
def Refused (str copy : CharPtr) : Prop := str ≠ .null ∧ copy = .null

instance (str copy : CharPtr) : Decidable (Refused str copy) := by
  unfold Refused
  infer_instance

/-- A string of its own, unless `malloc` refuses. -/
def TextCopied (m : Memory) (str : CharPtr) (m' : Memory) (copy : CharPtr) : Prop :=
  (Refused str copy ∧ m.refused < m'.refused) ∨
    (¬ Refused str copy ∧ m'.read copy = m.read str ∧ m'.refused = m.refused)

theorem Names.textCopied {str copy : CharPtr} {s : CStr} (h : Names m str m' copy)
    (hread : m.read str = some (some s)) : TextCopied m str m' copy := by
  refine h.imp ?_ ?_
  · rintro ⟨hcopy, hrefused⟩
    refine ⟨⟨?_, hcopy⟩, hrefused⟩
    rintro rfl
    cases hread
  · rintro ⟨hcopy, hserved⟩
    refine ⟨?_, hcopy, hserved⟩
    rintro ⟨-, rfl⟩
    rw [hread] at hcopy
    cases hcopy

theorem TextCopied.congr {m'' : Memory} {str copy : CharPtr} (h : TextCopied m str m' copy)
    (hstrings : m''.strings = m'.strings) (hanswers : m''.answers = m'.answers) :
    TextCopied m str m'' copy := by
  unfold TextCopied Memory.refused
  rw [read_congr hstrings, hanswers]
  exact h

theorem strdupIf_eq {str : CharPtr} (hstr : (m.read str).isSome) :
    ∃ copy strings answers, m.strdupIf str = some (copy, { m with strings, answers }) ∧
      copy.Freeable ∧ TextCopied m str { m with strings, answers } copy ∧
      (∀ as, m.strings.Domain as → strings.Domain (copy.addrs ++ as)) ∧
      ∀ x, (m.strings x).isSome → strings x = m.strings x := by
  by_cases hnull : str = .null
  · subst hnull
    exact ⟨.null, m.strings, m.answers, rfl, trivial, Or.inr ⟨fun hrefused => hrefused.1 rfl, rfl, rfl⟩,
      fun _ has => has, fun _ _ => rfl⟩
  · obtain ⟨s, hs⟩ : ∃ s, m.read str = some (some s) := by
      cases str with
      | null => exact absurd rfl hnull
      | const s => exact ⟨s, rfl⟩
      | heap x =>
          rw [Memory.read, Option.isSome_map] at hstr
          obtain ⟨s, hs⟩ := Option.isSome_iff_exists.1 hstr
          exact ⟨s, congrArg (Option.map some) hs⟩
    obtain ⟨copy, strings, answers, hdup, hcopy⟩ := cJSONStrdup_eq hs
    refine ⟨copy, strings, answers, ?_, hcopy.freeable, (hcopy.names hs rfl rfl).textCopied hs,
      hcopy.domain, hcopy.frame⟩
    rw [strdupIf, if_neg hnull, hdup]

/-- **A string of a copy**: a field that was empty gets a string of its own. -/
theorem Owns.copyInto (h : Owns m (b :: G) lost) (f : CharPtr → Cell → Cell) {str : CharPtr}
    (hstr : (m.read str).isSome)
    (href : ∀ s, (f s b.twig.val).isReference = b.twig.val.isReference)
    (hsound : ∀ s, s.Freeable → (f s b.twig.val).Sound)
    (hperm : ∀ s, (f s b.twig.val).strings.Perm (s.addrs ++ b.twig.val.strings)) :
    ∃ copy m₁ m₂, m.strdupIf str = some (copy, m₁) ∧ m₁.setVal b.addr (f copy) = some m₂ ∧
      Owns m₂ (withVal b (f copy b.twig.val) :: G) lost ∧ StringsKept m m₂ ∧
      TextCopied m str m₂ copy := by
  obtain ⟨copy, strings, answers, hdup, hfree, hread, hdomain, hkept⟩ := strdupIf_eq hstr
  have hstrings : (copy.addrs ++ (Forest.strings (b :: G) ++ lost)).Perm
      (Forest.strings (withVal b (f copy b.twig.val) :: G) ++ lost) := by
    have hcell := (hperm copy).symm
    rw [Forest.strings, Forest.strings, List.flatMap_cons, List.flatMap_cons, Branch.gather, Branch.gather]
    simp only [← Multiset.coe_eq_coe, ← Multiset.coe_add] at hcell ⊢
    rw [show (withVal b (f copy b.twig.val)).twig.val = f copy b.twig.val from rfl, ← hcell,
      show (withVal b (f copy b.twig.val)).children = b.children from rfl]
    abel
  obtain ⟨m₂, hset, hstr₂, hanswers₂, hown⟩ := h.setVal (f copy) answers (href copy)
    (hsound copy hfree) ((hdomain _ h.strings).perm hstrings)
  refine ⟨copy, _, m₂, hdup, hset, hown, fun x t hx => ?_, hread.congr hstr₂ hanswers₂⟩
  rw [hstr₂, hkept x (by rw [hx]; rfl), hx]

/-- A string of a copy is there, or the copy is deleted again. -/
theorem Grown.copyField (hgrown : Grown m₀ m) (hbelongs : BelongsTo m₀ G lost)
    (h : Owns m (b :: G) lost) (f : CharPtr → Cell → Cell) {str : CharPtr}
    (hstr : (m₀.read str).isSome)
    (href : ∀ s, (f s b.twig.val).isReference = b.twig.val.isReference)
    (hsound : ∀ s, s.Freeable → (f s b.twig.val).Sound)
    (hperm : ∀ s, (f s b.twig.val).strings.Perm (s.addrs ++ b.twig.val.strings)) :
    ∃ copy m₁ m₂, m.strdupIf str = some (copy, m₁) ∧ m₁.setVal b.addr (f copy) = some m₂ ∧
      ((Refused str copy ∧ ∃ m', m₂.cJSONDelete b.addr = some m' ∧ Grown m₀ m' ∧
          m.refused < m'.refused ∧
          Owns m' G (lost ++ strayStrings (withVal b (f copy b.twig.val)))) ∨
        (¬ Refused str copy ∧ Owns m₂ (withVal b (f copy b.twig.val) :: G) lost ∧ Grown m₀ m₂ ∧
          StringsKept m m₂ ∧ m₂.read copy = m₀.read str ∧ m₂.refused = m.refused)) := by
  have hread : m.read str = m₀.read str := hgrown.strings.read hstr
  obtain ⟨copy, m₁, m₂, hdup, hset, hown, hkept, hcopy⟩ :=
    h.copyInto f (hread.symm ▸ hstr) href hsound hperm
  have hgrown₂ : Grown m₀ m₂ :=
    hgrown.step hbelongs (A := [b]) h (B := [withVal b (f copy b.twig.val)]) hown hkept
  refine ⟨copy, m₁, m₂, hdup, hset, ?_⟩
  rcases hcopy with ⟨hnone, hrefused⟩ | ⟨hsome, hcopy, hserved⟩
  · obtain ⟨m', hdel, hown', hgrown', hsame⟩ := hgrown₂.delete hbelongs hown
    exact Or.inl ⟨hnone, m', hdel, hgrown', hsame ▸ hrefused, hown'⟩
  · exact Or.inr ⟨hsome, hown, hgrown₂, hkept, hcopy.trans hread, hserved⟩

/-- A type without the flag of references. -/
theorem ownType_and (type : Nat) : ownType type &&& cJSONIsReference = 0 := by
  rw [ownType, Nat.and_xor_distrib_right, Nat.and_assoc, Nat.and_self, Nat.xor_self]

theorem isReference_ownType {v : Cell} {type : Nat} (hv : v.type = ownType type) :
    v.isReference = false := by
  refine decide_eq_false fun hne => hne ?_
  rw [hv]
  exact ownType_and type

/-- The fields of the copy before it has strings. -/
def bare (v : Cell) : Cell :=
  ⟨ownType v.type, .null, v.valueint, v.valuedouble, .null⟩

theorem bare_own (v : Cell) : (bare v).isReference = false := isReference_ownType rfl

/-- A new item with the fields that are no strings. -/
theorem Owns.bareItem (h : Owns m G lost) (v : Cell) :
    (∃ m', m.cJSONNewItem = (nullPtr, m') ∧ m.refused < m'.refused ∧ m'.strings = m.strings ∧
      Owns m' G lost) ∨
      ∃ a m₁ m₂, a ≠ nullPtr ∧ m.items a = none ∧ m.cJSONNewItem = (a, m₁) ∧
        (∀ x, x ≠ a → m₁.items x = m.items x) ∧
        m₁.setVal a (fun w => { w with
          type := v.type ^^^ (v.type &&& cJSONIsReference), valueint := v.valueint,
          valuedouble := v.valuedouble }) = some m₂ ∧
        m₂.strings = m.strings ∧ m₂.refused = m.refused ∧ Owns m₂ (leaf a (bare v) :: G) lost := by
  obtain ⟨a, answers, ⟨rfl, hrefused, hnew⟩ | ⟨hnull, hserved, ha, hnew⟩⟩ := newItem_cases m
  · exact Or.inl ⟨_, hnew, hrefused, rfl, h.answers answers⟩
  · refine Or.inr ⟨a, _, _, hnull, ha, hnew, fun x hx => Heap.set_of_ne m.items _ hx, ?_, ?_, ?_,
      h.newItem ha hnull answers ⟨fun hsh => ?_, fun _ => rfl⟩ ⟨fun _ => trivial, fun _ => trivial⟩ ?_⟩
    · rw [Memory.setVal]
      simp only [Heap.set_self, Option.map_some]
      rfl
    · rfl
    · exact hserved
    · exact absurd (hsh.symm.trans (bare_own v)) (by decide)
    · rw [Cell.strings, bare_own]
      rfl

/-! ## Copies of an item and of its children -/

/-- `NULL` and the trees as before when `malloc` refuses, and a new root that shows the item when it does
    not. Under `quiet` nothing is lost. -/
def Duplicated (m₀ m : Memory) (G : Forest) (lost : List Ptr) (quiet : Prop) (i : Item) (q : Ptr)
    (m' : Memory) : Prop :=
  Grown m₀ m' ∧ ((q = nullPtr ∧ m.refused < m'.refused ∧
      ∃ more, Owns m' G (lost ++ more) ∧ (quiet → more = [])) ∨
    (q ≠ nullPtr ∧ m'.refused = m.refused ∧ StringsKept m m' ∧ ∃ b, b.addr = q ∧ Owns m' (b :: G) lost ∧
      b.twig.val.isReference = false ∧ (quiet → Clean [b]) ∧ Legible m' (onlyChild b) ∧
      view m' (onlyChild b) = i))

/-- An item with more children. -/
def grow (e : Branch Ptr Cell) (new : List (Branch Ptr Cell)) : Branch Ptr Cell :=
  ⟨e.addr, ⟨(ofList (e.children.toList ++ new)).first nullPtr, e.twig.val⟩,
    ofList (e.children.toList ++ new)⟩

/-- `NULL` and the trees without the copy, or the copy with new children that show the items. -/
def Extended (m₀ m : Memory) (G : Forest) (lost : List Ptr) (quiet : Prop) (e : Branch Ptr Cell)
    (i : Item) (q : Ptr) (m' : Memory) : Prop :=
  Grown m₀ m' ∧ ((q = nullPtr ∧ m.refused < m'.refused ∧
      ∃ more, Owns m' G (lost ++ more) ∧ (quiet → Clean [e] → more = [])) ∨
    (q = e.addr ∧ m'.refused = m.refused ∧ StringsKept m m' ∧ ∃ new, Owns m' (grow e new :: G) lost ∧
      (quiet → Clean [e] → Clean [grow e new]) ∧ Legible m' (ofList new) ∧ view m' (ofList new) = i))

theorem grow_nil {e : Branch Ptr Cell} (h : Owns m (e :: G) lost) (hown : e.twig.val.isReference = false) :
    grow e [] = e := by
  have hchild : e.twig.child = e.children.first nullPtr :=
    (h.roots e (List.mem_cons_self ..)).inner.fits.owned hown
  rw [grow, List.append_nil, ofList_toList, ← hchild]

theorem grow_grow (e b : Branch Ptr Cell) (new : List (Branch Ptr Cell)) :
    grow (grow e [b]) new = grow e (b :: new) := by
  simp only [grow, toList_ofList, List.append_assoc, List.singleton_append]

theorem lastChild_grow (e b : Branch Ptr Cell) : lastChild (grow e [b]) = b.addr := by
  rw [lastChild, grow, toList_ofList, List.map_append, List.map_singleton, lastAddr_concat]
  rfl

theorem edit_root (e : Branch Ptr Cell) (G : Forest) (b : Branch Ptr Cell) :
    Forest.edit e.addr (· ++ [b]) (e :: G) = grow e [b] :: G := by
  rw [Forest.edit, ofList, Siblings.edit, if_pos rfl, toList, toList_ofList]
  rfl

/-- A copy of a child is linked behind the ones that are there. -/
theorem Owns.appendRoot {e : Branch Ptr Cell} (h : Owns m (b :: e :: G) lost)
    (hown : e.twig.val.isReference = false) :
    ∃ m', (if lastChild e ≠ nullPtr then m.suffixObject (lastChild e) b.addr
        else m.setChild e.addr b.addr) = some m' ∧ m'.strings = m.strings ∧
      m'.refused = m.refused ∧ Owns m' (grow e [b] :: G) lost := by
  have hF : Owns m ([b] ++ e :: G) lost := h
  have hfind : Forest.find e.addr (e :: G) = some e := if_pos rfl
  obtain ⟨m', happend, hlinks, hr⟩ := (hF.site hfind hown).append
  have hown' : Owns m' ([] ++ Forest.edit e.addr (· ++ [b]) (e :: G)) lost :=
    hF.rewire hfind hown hlinks hr rfl
  rw [edit_root] at hown'
  refine ⟨m', ?_, hlinks.strings, congrArg Answers.refused hlinks.answers, hown'⟩
  rwa [ite_not]

theorem Clean.withChild {e : Branch Ptr Cell} (he : Clean [e]) (hb : Clean [b]) : Clean [grow e [b]] := by
  unfold Clean Forest.cells at he hb ⊢
  simp only [List.flatMap_cons, List.flatMap_nil, List.append_nil, Branch.gather, grow,
    gather_eq_flatMap, toList_ofList, List.flatMap_append, List.forall_mem_append] at he hb ⊢
  exact ⟨he.1, he.2, hb⟩

theorem view_onlyChild (m : Memory) (b : Branch Ptr Cell) :
    view m (onlyChild b) = .node (b.twig.val.seen m) (view m b.children) .null := rfl

/-- **The loop along the children.** -/
def ChildrenCopied (m₀ : Memory) (s : Siblings Ptr Cell) : Prop :=
  ∀ {G : Forest} {lost : List Ptr} {m : Memory} {e : Branch Ptr Cell} {fuel : Nat},
    2 * s.addrs.length < fuel → Owns m (e :: G) lost → BelongsTo m₀ G lost → Grown m₀ m →
    e.twig.val.isReference = false →
    ∃ q m', duplicateChildren fuel m e.addr (s.first nullPtr) (lastChild e) = some (q, m') ∧
      Extended m₀ m G lost (Quiet s) e (view m₀ s).own q m'

theorem strings_valuestring {v : Cell} (hown : v.isReference = false) (hv : v.valuestring = .null)
    (str : CharPtr) : ({ v with valuestring := str } : Cell).strings.Perm (str.addrs ++ v.strings) := by
  have hown' : ({ v with valuestring := str } : Cell).isReference = false := hown
  rw [Cell.strings, Cell.strings, hown, hown', hv]
  exact List.Perm.refl _

theorem strings_string {v : Cell} (hv : v.string = .null) (str : CharPtr) :
    ({ v with string := str } : Cell).strings.Perm (str.addrs ++ v.strings) := by
  rw [Cell.strings, Cell.strings, hv]
  rw [show CharPtr.null.addrs = [] from rfl, List.append_nil]
  exact List.perm_append_comm

/-- The fields of a copy. -/
def copied (v : Cell) (value name : CharPtr) : Cell := { bare v with valuestring := value, string := name }

theorem stringIsConst_copied (v : Cell) (value name : CharPtr) :
    (copied v value name).stringIsConst = v.stringIsConst := by
  have htype : ownType v.type &&& cJSONStringIsConst = v.type &&& cJSONStringIsConst := by
    rw [ownType, Nat.and_xor_distrib_right, Nat.and_assoc,
      show cJSONIsReference &&& cJSONStringIsConst = 0 from rfl, Nat.and_zero, Nat.xor_zero]
  rw [Cell.stringIsConst, Cell.stringIsConst, copied, bare, htype]

/-- A copy without children, whose strings may be missing still. -/
theorem clean_copied {v : Cell} (hv : v.stringIsConst = false) (q : Ptr) (value name : CharPtr) :
    Clean [leaf q (copied v value name)] := by
  intro c hc
  rw [List.mem_singleton.1 (show c ∈ [copied v value name] from hc), stringIsConst_copied]
  exact hv

theorem seen_copied {v : Cell} {value name : CharPtr} (hvalue : m'.read value = m₀.read v.valuestring)
    (hname : m'.read name = m₀.read v.string) :
    (copied v value name).seen m' = { v.seen m₀ with type := ownType v.type } := by
  rw [Cell.seen, copied, hvalue, hname]
  rfl

/-- What a copy with its strings and children shows. -/
theorem shows_copied {v : Cell} {value name : CharPtr} {new : List (Branch Ptr Cell)} {i : Item} (p : Ptr)
    (hvalue : (m₀.read v.valuestring).isSome) (hname : (m₀.read v.string).isSome)
    (hvalue' : m'.read value = m₀.read v.valuestring) (hname' : m'.read name = m₀.read v.string)
    (hlegible : Legible m' (ofList new)) (hview : view m' (ofList new) = i.own) :
    Legible m' (onlyChild (grow (leaf p (copied v value name)) new)) ∧
      view m' (onlyChild (grow (leaf p (copied v value name)) new)) =
        (Item.node (v.seen m₀) i .null).own := by
  constructor
  · refine legible_cons.2 ⟨⟨?_, ?_⟩, hlegible, fun _ hc => absurd hc List.not_mem_nil⟩
    · exact hvalue'.symm ▸ hvalue
    · exact hname'.symm ▸ hname
  · rw [view_onlyChild]
    show Item.node ((copied v value name).seen m') (view m' (ofList new)) .null = _
    rw [seen_copied hvalue' hname', hview]
    rfl

/-- **The fields of the item**: `NULL`, or a copy without children that the loop along the children
    goes on with. -/
theorem Owns.copyFields (h : Owns m G lost) (hbelongs : BelongsTo m₀ G lost) (hgrown : Grown m₀ m)
    {n : Node Ptr (Twig Ptr Cell)} (hn : m₀.items a = some n) (hnull : a ≠ nullPtr)
    (hvalue : (m₀.read n.val.val.valuestring).isSome) (hname : (m₀.read n.val.val.string).isSome)
    (fuel : Nat) (recurse : Bool) :
    (∃ m', Memory.duplicateItem (fuel + 1) m a recurse = some (nullPtr, m') ∧ Grown m₀ m' ∧
      m.refused < m'.refused ∧ ∃ more, Owns m' G (lost ++ more) ∧ (n.val.val.stringIsConst = false → more = [])) ∨
    ∃ p value name m', p ≠ nullPtr ∧ Memory.duplicateItem (fuel + 1) m a recurse =
        (if ¬ recurse then some (p, m') else duplicateChildren fuel m' p n.val.child nullPtr) ∧
      Grown m₀ m' ∧ m'.refused = m.refused ∧ StringsKept m m' ∧
      Owns m' (leaf p (copied n.val.val value name) :: G) lost ∧
      m'.read value = m₀.read n.val.val.valuestring ∧ m'.read name = m₀.read n.val.val.string := by
  have hG : Owns m ([] ++ G) lost := h
  rcases h.bareItem n.val.val with ⟨m₁, hnew, hrefused₁, hstr₁, hown₁⟩ |
    ⟨p, m₁, m₂, hp, hfree, hnew, hframe, hset₂, hstr₂, hserved₂, hown₂⟩
  · -- no memory for the item
    refine Or.inl ⟨m₁, ?_, hgrown.step hbelongs hG (B := []) hown₁ (stringsKept_of_eq hstr₁), hrefused₁,
      [], (List.append_nil lost).symm ▸ hown₁, fun _ => rfl⟩
    simp only [Memory.duplicateItem, if_neg hnull, hnew, if_true]
  have ha : m₁.items a = some n := by
    refine (hframe a fun heq => ?_).trans (hgrown.items a n hn)
    have hsome := hgrown.items a n hn
    rw [heq, hfree] at hsome
    cases hsome
  have hkept₂ : StringsKept m m₂ := stringsKept_of_eq hstr₂
  have hgrown₂ : Grown m₀ m₂ := hgrown.step hbelongs hG (B := [leaf p (bare n.val.val)]) hown₂ hkept₂
  -- the text
  obtain ⟨value, m₃, m₄, hdup₃, hset₄, hcase₄⟩ := hgrown₂.copyField hbelongs hown₂
    (fun s v => { v with valuestring := s }) hvalue (fun _ => rfl)
    (fun _ hs => ⟨fun _ => hs, fun _ => trivial⟩) (strings_valuestring (bare_own n.val.val) rfl)
  change m₃.setVal p _ = some m₄ at hset₄
  have hstart : Memory.duplicateItem (fuel + 1) m a recurse =
      if Refused n.val.val.valuestring value then (m₄.cJSONDelete p).map (nullPtr, ·)
      else (m₄.strdupIf n.val.val.string).bind fun r =>
        (r.2.setVal p fun v => { v with string := r.1 }).bind fun m₆ =>
          if Refused n.val.val.string r.1 then (m₆.cJSONDelete p).map (nullPtr, ·)
          else if ¬ recurse then some (p, m₆)
          else duplicateChildren fuel m₆ p n.val.child nullPtr := by
    simp only [Memory.duplicateItem, if_neg hnull, hnew, if_neg hp, ha, hset₂, hdup₃, hset₄,
      Option.bind_eq_bind, Option.bind_some]
    rfl
  rw [hstart]
  rcases hcase₄ with ⟨hnone, m', hdel, hgrown', hrefused₄, hown'⟩ |
    ⟨hsome, hown₄, hgrown₄, hkept₄, hvalue₄, hserved₄⟩
  · refine Or.inl ⟨m', ?_, hgrown', hserved₂ ▸ hrefused₄, _, hown',
      fun hconst => (clean_copied hconst p value .null).stray⟩
    change m₄.cJSONDelete p = some m' at hdel
    rw [if_pos hnone, hdel]
    rfl
  -- the name
  obtain ⟨name, m₅, m₆, hdup₅, hset₆, hcase₆⟩ := hgrown₄.copyField hbelongs hown₄
    (fun s v => { v with string := s }) hname (fun _ => rfl)
    (fun _ hs => ⟨(hown₄.sound _ (List.mem_cons_self ..)).valuestring, fun _ => hs⟩)
    (strings_string rfl)
  change m₅.setVal p _ = some m₆ at hset₆
  have hserved₄' : m₄.refused = m.refused := hserved₄.trans hserved₂
  rw [if_neg hsome, hdup₅, Option.bind_some, hset₆, Option.bind_some]
  rcases hcase₆ with ⟨hnone', m', hdel, hgrown', hrefused₆, hown'⟩ |
    ⟨hsome', hown₆, hgrown₆, hkept₆, hname₆, hserved₆⟩
  · refine Or.inl ⟨m', ?_, hgrown', hserved₄' ▸ hrefused₆, _, hown',
      fun hconst => (clean_copied hconst p value name).stray⟩
    change m₆.cJSONDelete p = some m' at hdel
    rw [if_pos hnone', hdel]
    rfl
  · refine Or.inr ⟨p, value, name, m₆, hp, if_neg hsome', hgrown₆, hserved₆.trans hserved₄',
      hkept₂.trans (hkept₄.trans hkept₆), hown₆, ?_, hname₆⟩
    rw [hkept₆.read (hvalue₄.symm ▸ hvalue), hvalue₄]

/-- **The item itself.** -/
theorem Owns.duplicateItem (h : Owns m G lost) (hbelongs : BelongsTo m₀ G lost) (hgrown : Grown m₀ m)
    (hch : ChildrenCopied m₀ ch) {fuel : Nat} (hfuel : 2 * ch.addrs.length < fuel) (recurse : Bool)
    {n : Node Ptr (Twig Ptr Cell)} (hn : m₀.items a = some n) (hchild : n.val.child = ch.first nullPtr)
    (hvalue : (m₀.read n.val.val.valuestring).isSome) (hname : (m₀.read n.val.val.string).isSome)
    (hnull : a ≠ nullPtr) :
    ∃ q m', Memory.duplicateItem (fuel + 1) m a recurse = some (q, m') ∧
      Duplicated m₀ m G lost (n.val.val.stringIsConst = false ∧ Quiet ch)
        (Item.node (n.val.val.seen m₀) (if recurse then view m₀ ch else .null) .null).own q m' := by
  rcases h.copyFields hbelongs hgrown hn hnull hvalue hname fuel recurse with
    ⟨m', hrun, hgrown', hrefused, more, hown', hmore⟩ |
    ⟨p, value, name, m₁, hp, hrun, hgrown₁, hserved₁, hkept₁, hroot, hvalue₁, hname₁⟩
  · exact ⟨nullPtr, m', hrun, hgrown',
      Or.inl ⟨rfl, hrefused, more, hown', fun hquiet => hmore hquiet.1⟩⟩
  have hown : (copied n.val.val value name).isReference = false := isReference_ownType rfl
  rw [hrun]
  cases recurse with
  | false =>
      obtain ⟨hlegible, hview⟩ := shows_copied (i := .null) p hvalue hname hvalue₁ hname₁
        (show Legible m₁ (ofList []) from fun _ hc => absurd hc List.not_mem_nil) rfl
      exact ⟨p, m₁, rfl, hgrown₁, Or.inr ⟨hp, hserved₁, hkept₁, _, rfl, hroot, hown,
        fun hquiet => clean_copied hquiet.1 p value name, hlegible, hview⟩⟩
  | true =>
      obtain ⟨q, m', hrun', hgrown', hcases⟩ := hch hfuel hroot hbelongs hgrown₁ hown
      rw [hchild]
      refine ⟨q, m', hrun', hgrown', ?_⟩
      rcases hcases with ⟨hq, hrefused, more, hown', hmore⟩ |
        ⟨rfl, hserved', hkept', new, hown', hclean', hlegible', hview'⟩
      · exact Or.inl ⟨hq, hserved₁ ▸ hrefused, more, hown',
          fun hquiet => hmore hquiet.2 (clean_copied hquiet.1 p value name)⟩
      · have hvalue' : m'.read value = m₀.read n.val.val.valuestring := by
          rw [hkept'.read (hvalue₁.symm ▸ hvalue), hvalue₁]
        have hname' : m'.read name = m₀.read n.val.val.string := by
          rw [hkept'.read (hname₁.symm ▸ hname), hname₁]
        obtain ⟨hlegible, hview⟩ := shows_copied _ hvalue hname hvalue' hname' hlegible' hview'
        exact Or.inr ⟨hp, hserved'.trans hserved₁, hkept₁.trans hkept', _, rfl, hown', hown,
          fun hquiet => hclean' hquiet.2 (clean_copied hquiet.1 _ value name), hlegible, hview⟩

/-- A copy of a child, and behind it the copies of the others. -/
theorem Extended.cons {m₁ m₂ : Memory} {e : Branch Ptr Cell} {t : Twig Ptr Cell} {q : Ptr}
    (hkept₁ : StringsKept m m₁) (hkept₂ : StringsKept m₁ m₂) (hserved : m₂.refused = m.refused)
    (hlegible : Legible m₁ (onlyChild b))
    (hview : view m₁ (onlyChild b) = (Item.node (t.val.seen m₀) (view m₀ ch) .null).own)
    (hclean : Quiet (.cons a t ch rest) → Clean [e] → Clean [grow e [b]])
    (h : Extended m₀ m₂ G lost (Quiet rest) (grow e [b]) (view m₀ rest).own q m') :
    Extended m₀ m G lost (Quiet (.cons a t ch rest)) e (view m₀ (.cons a t ch rest)).own q m' := by
  obtain ⟨hgrown, hcases⟩ := h
  refine ⟨hgrown, hcases.imp ?_ ?_⟩
  · rintro ⟨hnull, hrefused, more, hown, hmore⟩
    exact ⟨hnull, hserved ▸ hrefused, more, hown, fun hquiet hcleane =>
      hmore (quiet_cons.1 hquiet).2.2 (hclean hquiet hcleane)⟩
  · rintro ⟨rfl, hserved', hkept, new, hown, hclean', hlegible', hview'⟩
    have hkept₃ : StringsKept m₁ m' := hkept₂.trans hkept
    have hb := hkept₃.view hlegible
    obtain ⟨hreads, hlegiblec, -⟩ := legible_cons.1 (hkept₃.legible hlegible)
    rw [hview, view_onlyChild] at hb
    obtain ⟨hseen, hchildren, -⟩ := Item.node.inj hb
    rw [grow_grow] at hown hclean'
    refine ⟨rfl, hserved'.trans hserved, hkept₁.trans hkept₃, b :: new, hown,
      fun hquiet hcleane => hclean' (quiet_cons.1 hquiet).2.2 (hclean hquiet hcleane),
      legible_cons.2 ⟨hreads, hlegiblec, hlegible'⟩, ?_⟩
    rw [ofList, view, hseen, hchildren, hview', view]
    rfl

/-- **The children.** -/
theorem childrenCopied (hs : seenLayout.Holds m₀.items p s) (hlegible : Legible m₀ s)
    (hnull : m₀.items nullPtr = none) : ChildrenCopied m₀ s := by
  induction s generalizing p with
  | nil =>
      intro G lost m e fuel hfuel h hbelongs hgrown hown
      obtain ⟨fuel, rfl⟩ := Nat.exists_eq_add_of_lt hfuel
      refine ⟨e.addr, m, rfl, hgrown, Or.inr ⟨rfl, rfl, fun _ _ hx => hx, [], ?_, fun _ hclean => ?_,
        fun _ hc => absurd hc List.not_mem_nil, rfl⟩⟩
      · rwa [grow_nil h hown]
      · rwa [grow_nil h hown]
  | cons a t ch rest ihc ihr =>
      intro G lost m e fuel hfuel h hbelongs hgrown hown
      obtain ⟨ha, hfits, hch, hrest⟩ := hs
      obtain ⟨⟨hvalue, hname⟩, hlegible, hlegibler⟩ := legible_cons.1 hlegible
      have hlen := length_addrs_cons a t ch rest
      obtain ⟨f, rfl⟩ : ∃ f, fuel = f + 1 + 1 := ⟨fuel - 2, by omega⟩
      have hanull : a ≠ nullPtr := by
        rintro rfl
        rw [hnull] at ha
        cases ha
      obtain ⟨q, m₁, hdup, hgrown₁, hcases⟩ := h.duplicateItem (hbelongs.cons e) hgrown
        (ihc hch hlegible) (show 2 * ch.addrs.length < f by omega) true ha (hfits.owned rfl) hvalue
        hname hanull
      rw [first, duplicateChildren, if_neg hanull, hdup, Option.bind_eq_bind, Option.bind_some]
      rcases hcases with ⟨rfl, hrefused₁, more, hown₁, hmore⟩ |
        ⟨hq, hserved₁, hkept₁, b, rfl, hown₁, hb, hcleanb, hlegibleb, hviewb⟩
      · -- no memory for a child: what there is of the copy is deleted
        obtain ⟨m', hdel, hown', hgrown', hsame⟩ := hgrown₁.delete (hbelongs.append more) hown₁
        rw [List.append_assoc] at hown'
        refine ⟨nullPtr, m', ?_, hgrown',
          Or.inl ⟨rfl, hsame ▸ hrefused₁, _, hown', fun hquiet hclean => ?_⟩⟩
        · refine (if_pos rfl).trans ?_
          rw [hdel]
          rfl
        · obtain ⟨hconst, hquietc, -⟩ := quiet_cons.1 hquiet
          rw [hmore ⟨hconst, hquietc⟩, hclean.stray]
          rfl
      · obtain ⟨m₂, hlink, hstr₂, hserved₂, hown₂⟩ := hown₁.appendRoot hown
        have hown₁' : Owns m₁ ([b, e] ++ G) lost := hown₁
        have hgrown₂ : Grown m₀ m₂ := hgrown₁.step hbelongs hown₁' (B := [grow e [b]]) hown₂
          (stringsKept_of_eq hstr₂)
        obtain ⟨q, m', hrun, hextended⟩ := ihr hrest hlegibler
          (show 2 * rest.addrs.length < f + 1 by omega) hown₂ hbelongs hgrown₂ hown
        rw [lastChild_grow] at hrun
        refine ⟨q, m', ?_, hextended.cons hkept₁ (stringsKept_of_eq hstr₂)
          (hserved₂.trans hserved₁) hlegibleb hviewb ?_⟩
        · refine (if_neg hq).trans ?_
          simp only [hlink, hgrown₂.items a _ ha, Option.bind_eq_bind, Option.bind_some]
          exact hrun
        · -- the copy of the child is clean, and so is what has it as another child
          intro hquiet hclean
          obtain ⟨hconst, hquietc, -⟩ := quiet_cons.1 hquiet
          exact hclean.withChild (hcleanb ⟨hconst, hquietc⟩)

/-- **Main result.** `cJSON_Duplicate` makes a tree of its own that shows what the item shows, references
    followed, when `malloc` refuses nothing, and gives `NULL` when it does. What was in memory is as it was, and in the second case
    nothing has been added to the trees and, if all names are freed with their items, nothing is lost. -/
theorem duplicateItem_copies {d : Branch Ptr Cell} {n : Node Ptr (Twig Ptr Cell)} {fuel : Nat}
    (h : Owns m F lost) (hn : m.items d.addr = some n) (hd : n.val = d.twig)
    (hinner : seenLayout.Inner m.items d) (hlegible : Legible m (onlyChild d))
    (hfuel : 2 * d.children.addrs.length + 1 < fuel) (recurse : Bool) :
    ∃ q m', m.duplicateItem fuel d.addr recurse = some (q, m') ∧ Grown m m' ∧
      ((q = nullPtr ∧ m.refused < m'.refused ∧
          ∃ more, Owns m' F (lost ++ more) ∧ (Quiet (onlyChild d) → more = [])) ∨
        (q ≠ nullPtr ∧ m'.refused = m.refused ∧
          ∃ b, b.addr = q ∧ Owns m' (b :: F) lost ∧ view m' (onlyChild b) =
            (Item.node (d.twig.val.seen m) (if recurse then view m d.children else .null) .null).own)) := by
  obtain ⟨⟨hvalue, hname⟩, hch, -⟩ := legible_cons.1 hlegible
  obtain ⟨fuel, rfl⟩ : ∃ k, fuel = k + 1 := ⟨fuel - 1, by omega⟩
  have hnull : d.addr ≠ nullPtr := by
    intro heq
    rw [heq, h.null] at hn
    cases hn
  have hchild : n.val.child = d.children.first nullPtr := by
    rw [hd]
    exact hinner.fits.owned rfl
  obtain ⟨q, m', hrun, hgrown, hcases⟩ := h.duplicateItem h.belongsTo ⟨fun _ _ hx => hx, fun _ _ hx => hx⟩
    (childrenCopied hinner.below hch h.null) (Nat.lt_of_succ_lt_succ hfuel) recurse hn hchild
    (hd ▸ hvalue) (hd ▸ hname) hnull
  rw [hd] at hcases
  refine ⟨q, m', hrun, hgrown, hcases.imp ?_ ?_⟩
  · rintro ⟨hq, hrefused, more, hown, hmore⟩
    refine ⟨hq, hrefused, more, hown, fun hquiet => hmore ?_⟩
    obtain ⟨hconst, hquietc, -⟩ := quiet_cons.1 hquiet
    exact ⟨hconst, hquietc⟩
  · rintro ⟨hq, hserved, -, b, haddr, hown, -, -, -, hview⟩
    exact ⟨hq, hserved, b, haddr, hown, hview⟩

/-! ## A memory with a reference

An object with a string and with a reference to an array, the array, and the number in it. -/

def sharedObject : Cell := { Cell.zero with type := cJSONObject }
def sharedString : Cell :=
  { Cell.zero with type := cJSONString, valuestring := .heap 6, string := .heap 7 }
def sharedReference : Cell :=
  { Cell.zero with type := cJSONArray ||| cJSONIsReference, string := .heap 8 }
def sharedArray : Cell := { Cell.zero with type := cJSONArray }
def sharedNumber : Cell :=
  { Cell.zero with type := cJSONNumber, valuedouble := .ofInt 7, valueint := 7 }

/-- `malloc` serves as many requests as a copy takes. -/
def sharedMemory : Memory where
  items := ((((((emptyMemory ⟨[], 0⟩).items.set 5 ⟨⟨nullPtr, sharedNumber⟩, nullPtr, nullPtr⟩).set 4
    ⟨⟨5, sharedArray⟩, nullPtr, nullPtr⟩).set 3 ⟨⟨5, sharedReference⟩, 2, nullPtr⟩).set 2
    ⟨⟨nullPtr, sharedString⟩, nullPtr, 3⟩).set 1 ⟨⟨2, sharedObject⟩, nullPtr, nullPtr⟩)
  strings := ((((emptyMemory ⟨[], 0⟩).strings.set 8 [114]).set 7 [116]).set 6 [120])
  live := 5
  answers := ⟨[9, 10, 11, 12, 13, 14, 15], 0⟩

/-- The children of the object; the reference has none of its own, but shows the ones of the array. -/
def sharedChildren (shown : Siblings Ptr Cell) : Siblings Ptr Cell :=
  .cons 2 ⟨nullPtr, sharedString⟩ .nil (.cons 3 ⟨5, sharedReference⟩ shown .nil)

def sharedForest : Forest :=
  [⟨1, ⟨2, sharedObject⟩, sharedChildren .nil⟩,
    ⟨4, ⟨5, sharedArray⟩, .cons 5 ⟨nullPtr, sharedNumber⟩ .nil .nil⟩]

/-- The object as the memory shows it. -/
def sharedBranch : Branch Ptr Cell :=
  ⟨1, ⟨2, sharedObject⟩, sharedChildren (.cons 5 ⟨nullPtr, sharedNumber⟩ .nil .nil)⟩

/-- What the copy shows. -/
def sharedItem : Item :=
  .node { newItem with type := cJSONObject }
    (.node { newItem with type := cJSONString, valuestring := some [120], string := some [116] } .null
      (.node { newItem with type := cJSONArray, string := some [114] }
        (.node { newItem with type := cJSONNumber, valuedouble := .ofInt 7, valueint := 7 } .null .null)
        .null)) .null

theorem owns_sharedMemory : Owns sharedMemory sharedForest [] where
  roots := fun d hd => by
    simp only [sharedForest, List.mem_cons, List.not_mem_nil, or_false] at hd
    rcases hd with rfl | rfl
    · exact ⟨rfl, ⟨fun _ => by contradiction, fun _ => rfl⟩,
        ⟨rfl, ⟨fun _ => rfl, fun _ => rfl⟩, trivial, rfl, ⟨fun _ => rfl, fun _ => by contradiction⟩,
          trivial, trivial⟩⟩
    · exact ⟨rfl, ⟨fun _ => by contradiction, fun _ => rfl⟩,
        ⟨rfl, ⟨fun _ => rfl, fun _ => rfl⟩, trivial, trivial⟩⟩
  items := (((((owns_empty ⟨[], 0⟩).items.new rfl _).new rfl _).new rfl _).new rfl _).new rfl _
  strings := (((owns_empty ⟨[], 0⟩).strings.new rfl _).new rfl _).new rfl _
  sound := fun c hc => by
    rw [show Forest.cells sharedForest =
      [sharedObject, sharedString, sharedReference, sharedArray, sharedNumber] from rfl] at hc
    simp only [List.mem_cons, List.not_mem_nil, or_false] at hc
    rcases hc with rfl | rfl | rfl | rfl | rfl <;> exact ⟨fun _ => trivial, fun _ => trivial⟩
  live := rfl
  null := rfl

theorem inner_sharedBranch : seenLayout.Inner sharedMemory.items sharedBranch :=
  ⟨⟨fun _ => by contradiction, fun _ => rfl⟩, rfl, ⟨fun _ => by contradiction, fun _ => rfl⟩, trivial, rfl,
    ⟨fun _ => by contradiction, fun _ => rfl⟩,
    ⟨rfl, ⟨fun _ => by contradiction, fun _ => rfl⟩, trivial, trivial⟩, trivial⟩

theorem legible_sharedBranch : Legible sharedMemory (onlyChild sharedBranch) := by
  intro c hc
  rw [show (onlyChild sharedBranch).gather (fun _ c => [c]) =
    [sharedObject, sharedString, sharedReference, sharedNumber] from rfl] at hc
  simp only [List.mem_cons, List.not_mem_nil, or_false] at hc
  rcases hc with rfl | rfl | rfl | rfl <;> exact ⟨rfl, rfl⟩

/-- **A witness**: the copy of the object, with the array in the place of the reference. -/
theorem duplicateItem_copies_shared :
    ∃ m', sharedMemory.duplicateItem 12 1 true = some (9, m') ∧ Grown sharedMemory m' ∧
      m'.refused = 0 ∧ ∃ b, b.addr = 9 ∧ Owns m' (b :: sharedForest) [] ∧
        view m' (onlyChild b) = sharedItem := by
  have hfuel : 2 * sharedBranch.children.addrs.length + 1 < 12 := by decide
  obtain ⟨q, m', hrun, hgrown, hcases⟩ := duplicateItem_copies owns_sharedMemory rfl rfl
    inner_sharedBranch legible_sharedBranch hfuel true
  have hserves : (sharedMemory.duplicateItem 12 1 true).map (·.1) = some 9 := by decide +kernel
  have hrun₁ : sharedMemory.duplicateItem 12 1 true = some (q, m') := hrun
  rw [hrun₁] at hserves
  obtain rfl : q = 9 := Option.some.inj hserves
  obtain ⟨-, hserved, b, haddr, hown, hview⟩ :=
    hcases.resolve_left fun hnull => absurd hnull.1 (by decide)
  exact ⟨m', hrun₁, hgrown, hserved, b, haddr, hown, hview⟩

end XToolkits.Json
