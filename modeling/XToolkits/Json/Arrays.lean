import XToolkits.Json.Copies

set_option autoImplicit false

/-! # Arrays that are created with their items

The four functions have one loop: it makes an item, links it behind the last one, and deletes the whole
array when there is no memory for an item. -/

namespace XToolkits.Json

open Siblings Memory

variable {α : Type} {make : Memory → α → Option (Ptr × Memory)} {good : Memory → α → Prop}
  {want : α → Fields} {m m' m₀ : Memory} {F G : Forest} {lost : List Ptr} {e b : Branch Ptr Cell}

/-- A function that makes an item with the wanted fields, or `NULL` when `malloc` refuses. -/
structure Makes (make : Memory → α → Option (Ptr × Memory)) (good : Memory → α → Prop)
    (want : α → Fields) : Prop where
  made : ∀ {m : Memory} {F : Forest} {lost : List Ptr} {x : α}, Owns m F lost → good m x →
    ∃ q m', make m x = some (q, m') ∧ StringsKept m m' ∧
      ((q = nullPtr ∧ m.refused < m'.refused ∧ Owns m' F lost) ∨
        (q ≠ nullPtr ∧ m'.refused = m.refused ∧ ∃ v : Cell, Owns m' (leaf q v :: F) lost ∧
          v.type < 256 ∧ Legible m' (onlyChild (leaf q v)) ∧ v.seen m' = want x))
  stays : ∀ {m m' : Memory} {x : α}, StringsKept m m' → good m x → good m' x

/-- Items without children, one behind the other. -/
def arrayItems (fs : List Fields) : Item := fs.foldr (fun f next => .node f .null next) .null

/-- `NULL` and the trees as before when `malloc` refuses, and a new array of the items when it does not. -/
def Filled (m : Memory) (F : Forest) (lost : List Ptr) (fs : List Fields)
    (r : Option (Ptr × Memory)) : Prop :=
  ∃ q m', r = some (q, m') ∧ Grown m m' ∧ ((q = nullPtr ∧ m.refused < m'.refused ∧ Owns m' F lost) ∨
    (q ≠ nullPtr ∧ m'.refused = m.refused ∧ ∃ b, b.addr = q ∧ Owns m' (b :: F) lost ∧
      view m' (onlyChild b) = .node { newItem with type := cJSONArray } (arrayItems fs) .null))

/-! ## The loop -/

theorem fillArray_filled (hm : Makes make good want) {xs : List α} (h : Owns m (e :: G) lost)
    (hbelongs : BelongsTo m₀ G lost) (hgrown : Grown m₀ m) (hown : e.twig.val.isReference = false)
    (hclean : Clean [e]) (hxs : ∀ x ∈ xs, good m x) :
    ∃ q m', fillArray make e.addr m (lastChild e) xs = some (q, m') ∧ Grown m₀ m' ∧
      ((q = nullPtr ∧ m.refused < m'.refused ∧ Owns m' G lost) ∨
        (q = e.addr ∧ m'.refused = m.refused ∧ StringsKept m m' ∧
        ∃ new, Owns m' (grow e new :: G) lost ∧ view m' (ofList new) = arrayItems (xs.map want))) := by
  induction xs generalizing m e with
  | nil =>
      refine ⟨e.addr, m, rfl, hgrown, Or.inr ⟨rfl, rfl, fun _ _ hx => hx, [], ?_, rfl⟩⟩
      rwa [grow_nil h hown]
  | cons x xs ih =>
      obtain ⟨hx, hxs⟩ := List.forall_mem_cons.1 hxs
      have hroot : Owns m ([e] ++ G) lost := h
      obtain ⟨q, m₁, hmake, hkept₁, ⟨rfl, hrefused₁, hown₁⟩ |
        ⟨hq, hserved₁, v, hown₁, hv, hlegible, hseen⟩⟩ := hm.made h hx
      · -- no memory for the item: the array is given back
        have hgrown₁ : Grown m₀ m₁ := hgrown.step hbelongs hroot (B := [e]) hown₁ hkept₁
        obtain ⟨m', hdel, hown', hgrown', hsame⟩ := hgrown₁.delete hbelongs hown₁
        rw [hclean.stray, List.append_nil] at hown'
        refine ⟨nullPtr, m', ?_, hgrown', Or.inl ⟨rfl, hsame ▸ hrefused₁, hown'⟩⟩
        simp only [fillArray, hmake, hdel, if_true, Option.bind_eq_bind, Option.bind_some,
          Option.map_some]
      · obtain ⟨m₂, hlink, hstr₂, hserved₂, hown₂⟩ := hown₁.appendRoot hown
        have hserved : m₂.refused = m.refused := hserved₂.trans hserved₁
        rw [ite_not] at hlink
        have hkept₂ : StringsKept m m₂ := hkept₁.trans (stringsKept_of_eq hstr₂)
        have hgrown₂ : Grown m₀ m₂ := hgrown.step hbelongs hroot (B := [grow e [leaf q v]]) hown₂ hkept₂
        obtain ⟨q', m', hrun, hgrown', hcases⟩ := ih hown₂ hgrown₂ hown (hclean.withChild (clean_leaf hv))
          fun y hy => hm.stays hkept₂ (hxs y hy)
        rw [lastChild_grow] at hrun
        refine ⟨q', m', ?_, hgrown', hcases.imp ?_ ?_⟩
        · simp only [fillArray, hmake, if_neg hq, Option.bind_eq_bind, Option.bind_some]
          have hlink' : (if lastChild e = nullPtr then m₁.setChild e.addr q
            else m₁.suffixObject (lastChild e) q) = some m₂ := hlink
          rw [hlink', Option.bind_some]
          exact hrun
        · rintro ⟨hq', hrefused, hown'⟩
          exact ⟨hq', hserved ▸ hrefused, hown'⟩
        · rintro ⟨rfl, hserved', hkept', new, hown', hview'⟩
          have hkept₃ : StringsKept m₁ m' := (stringsKept_of_eq hstr₂).trans hkept'
          have hb := hkept₃.view hlegible
          rw [view_onlyChild, view_onlyChild] at hb
          obtain ⟨hfields, -, -⟩ := Item.node.inj hb
          refine ⟨rfl, hserved'.trans hserved, hkept₂.trans hkept', leaf q v :: new,
            grow_grow e _ new ▸ hown', ?_⟩
          have hfields' : v.seen m' = want x := hfields.trans hseen
          rw [ofList, view, hview']
          show Item.node (v.seen m') .null _ = _
          rw [hfields']
          rfl

theorem createFilled_filled (hm : Makes make good want) {xs : List α} (h : Owns m F lost)
    (hxs : ∀ x ∈ xs, good m x) : Filled m F lost (xs.map want) (createFilled make m xs) := by
  have hroot : Owns m ([] ++ F) lost := h
  have hself : Grown m m := ⟨fun _ _ hx => hx, fun _ _ hx => hx⟩
  obtain ⟨a, m₁, hcreate, hstr₁, ⟨hnull, hrefused₁, hown₁⟩ | ⟨hnull, hserved₁, hown₁⟩⟩ := h.createWith
    (f := fun v => { v with type := cJSONArray }) (show cJSONArray < 256 by decide) rfl rfl
  · change a = nullPtr at hnull
    subst hnull
    refine ⟨nullPtr, m₁, ?_, ?_, Or.inl ⟨rfl, hrefused₁, hown₁⟩⟩
    · simp only [createFilled, Memory.cJSONCreate, hcreate, if_true, Option.bind_eq_bind, Option.bind_some]
    · exact hself.step h.belongsTo hroot (B := []) hown₁ (stringsKept_of_eq hstr₁)
  · change a ≠ nullPtr at hnull
    have hkept₁ : StringsKept m m₁ := stringsKept_of_eq hstr₁
    have hgrown₁ : Grown m m₁ := hself.step h.belongsTo hroot (B := [leaf a _]) hown₁ hkept₁
    obtain ⟨q, m', hrun, hgrown', hcases⟩ := fillArray_filled hm hown₁ h.belongsTo hgrown₁
      (isReference_of_lt (show cJSONArray < 256 by decide)) (clean_leaf (show cJSONArray < 256 by decide))
      fun x hx => hm.stays hkept₁ (hxs x hx)
    refine ⟨q, m', ?_, hgrown', hcases.imp ?_ ?_⟩
    · simp only [createFilled, Memory.cJSONCreate, hcreate, if_neg hnull, Option.bind_eq_bind,
        Option.bind_some]
      exact hrun
    · rintro ⟨hq, hrefused, hown'⟩
      exact ⟨hq, hserved₁ ▸ hrefused, hown'⟩
    · rintro ⟨rfl, hserved', -, new, hown', hview⟩
      refine ⟨hnull, hserved'.trans hserved₁, _, rfl, hown', ?_⟩
      rw [view_onlyChild]
      exact congrArg (Item.node _ · .null) hview

/-! ## The items -/

theorem makes_number {β : Type} (num : β → Double) :
    Makes (fun m x => m.cJSONCreateNumber (num x)) (fun _ _ => True) fun x =>
      { newItem with type := cJSONNumber, valuedouble := num x, valueint := (num x).toInt } where
  stays := fun _ _ => trivial
  made := by
    intro m F lost x h _
    obtain ⟨a, m', hcreate, hstr, hmade⟩ := h.createWith
      (f := fun v => { v with
        type := cJSONNumber, valuedouble := num x, valueint := (num x).toInt })
      (show cJSONNumber < 256 by decide) rfl rfl
    refine ⟨a, m', hcreate, stringsKept_of_eq hstr, hmade.imp_right ?_⟩
    rintro ⟨hnull, hserved, hown⟩
    refine ⟨hnull, hserved, _, hown, show cJSONNumber < 256 by decide, ?_, rfl⟩
    exact legible_cons.2 ⟨⟨rfl, rfl⟩, fun _ hc => absurd hc List.not_mem_nil,
      fun _ hc => absurd hc List.not_mem_nil⟩

theorem makes_string (m₀ : Memory) :
    Makes Memory.cJSONCreateString (fun m x => Readable m₀ x ∧ m.read x = m₀.read x) fun x =>
      { newItem with type := cJSONString, valuestring := (m₀.read x).join } where
  stays := by
    rintro m m' x hkept ⟨⟨s, hs⟩, heq⟩
    refine ⟨⟨s, hs⟩, ?_⟩
    rw [hkept.read (by rw [heq, hs]; rfl), heq]
  made := by
    rintro m F lost x h ⟨⟨s, hs⟩, heq⟩
    obtain ⟨a, m', copy, hcreate, hkept, hread, hmade⟩ := h.createString (heq.trans hs)
    refine ⟨a, m', hcreate, fun y t hy => ?_, hmade.imp_right ?_⟩
    · rw [hkept y (by rw [hy]; rfl), hy]
    · rintro ⟨hnull, hserved, hown⟩
      have hcopy : m'.read copy = some (some s) := hread hnull
      refine ⟨hnull, hserved, _, hown, show cJSONString < 256 by decide, legible_cons.2 ⟨⟨?_, rfl⟩,
        fun _ hc => absurd hc List.not_mem_nil, fun _ hc => absurd hc List.not_mem_nil⟩, ?_⟩
      · show (m'.read copy).isSome
        rw [hcopy]
        rfl
      · rw [Cell.seen, stringCell, hcopy, hs]
        rfl

/-- **Main result.** The arrays that are created with their items show exactly these items, in order, when
    `malloc` refuses nothing, and are `NULL`, with nothing left behind, when it refuses anywhere on the
    way. -/
theorem arrays_filled (h : Owns m F lost) (numbers : List Int) (doubles : List Double)
    (strings : List CharPtr) (hstrings : ∀ x ∈ strings, Readable m x) :
    Filled m F lost (numbers.map fun k => { newItem with
      type := cJSONNumber, valuedouble := .ofInt k, valueint := (Double.ofInt k).toInt })
      (m.cJSONCreateIntArray numbers) ∧
    Filled m F lost (doubles.map fun x => { newItem with
      type := cJSONNumber, valuedouble := x, valueint := x.toInt }) (m.cJSONCreateDoubleArray doubles) ∧
    Filled m F lost (strings.map fun x => { newItem with
      type := cJSONString, valuestring := (m.read x).join }) (m.cJSONCreateStringArray strings) :=
  ⟨createFilled_filled (makes_number Double.ofInt) h fun _ _ => trivial,
    createFilled_filled (makes_number id) h fun _ _ => trivial,
    createFilled_filled (makes_string m) h fun x hx => ⟨hstrings x hx, rfl⟩⟩

/-- The array, when there was memory for it. -/
theorem Filled.array {fs : List Fields} {r : Option (Ptr × Memory)} {q : Ptr}
    (h : Filled m F lost fs r) (hr : r.map (·.1) = some q) (hq : q ≠ nullPtr) :
    ∃ m', r = some (q, m') ∧ m'.refused = m.refused ∧ ∃ b, b.addr = q ∧ Owns m' (b :: F) lost ∧
      view m' (onlyChild b) = .node { newItem with type := cJSONArray } (arrayItems fs) .null := by
  obtain ⟨q', m', rfl, -, hcases⟩ := h
  obtain rfl : q' = q := Option.some.inj hr
  obtain ⟨-, hserved, b, haddr, hown, hview⟩ := hcases.resolve_left fun hnull => hq hnull.1
  exact ⟨m', rfl, hserved, b, haddr, hown, hview⟩

/-- **A witness**: there is memory for an array of two numbers and for one of two strings. -/
theorem arrays_filled_shared :
    (∃ m', sharedMemory.cJSONCreateIntArray [3, -4] = some (9, m') ∧ m'.refused = 0 ∧
      ∃ b, b.addr = 9 ∧ Owns m' (b :: sharedForest) [] ∧
        view m' (onlyChild b) = .node { newItem with type := cJSONArray } (arrayItems
          ([3, -4].map fun k => { newItem with
            type := cJSONNumber, valuedouble := .ofInt k, valueint := (Double.ofInt k).toInt })) .null) ∧
    ∃ m', sharedMemory.cJSONCreateStringArray [.const [97], .heap 6] = some (9, m') ∧ m'.refused = 0 ∧
      ∃ b, b.addr = 9 ∧ Owns m' (b :: sharedForest) [] ∧
        view m' (onlyChild b) = .node { newItem with type := cJSONArray } (arrayItems
          ([[97], [120]].map fun s => { newItem with
            type := cJSONString, valuestring := some s })) .null := by
  have hreadable : ∀ x ∈ [CharPtr.const [97], .heap 6], Readable sharedMemory x := by
    intro x hx
    simp only [List.mem_cons, List.not_mem_nil, or_false] at hx
    rcases hx with rfl | rfl
    · exact ⟨[97], rfl⟩
    · exact ⟨[120], rfl⟩
  obtain ⟨hnumbers, -, hstrings⟩ := arrays_filled owns_sharedMemory [3, -4] []
    [.const [97], .heap 6] hreadable
  exact ⟨hnumbers.array (by decide +kernel) (by decide), hstrings.array (by decide +kernel) (by decide)⟩

end XToolkits.Json
