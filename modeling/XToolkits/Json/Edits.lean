import XToolkits.Json.Alloc
import XToolkits.Json.Children

set_option autoImplicit false

/-! # What the functions do to the forest

One theorem for each function that changes the forest: it does not fail, and the forest afterwards is
the one before with an item added, taken out, put in or replaced in one list of children. -/

namespace XToolkits.Json

open Siblings Memory TreeLayout

variable {m m' : Memory} {F G : Forest} {lost : List Ptr} {b c d : Branch Ptr Cell}
  {array item : Ptr} {string : CharPtr} {s : CStr}

/-! ## Places in the forest -/

/-- `array` is an item of the forest and no reference. -/
structure At (F : Forest) (array : Ptr) (d : Branch Ptr Cell) : Prop where
  found : F.find array = some d
  own : d.twig.val.isReference = false

/-- `item` is a root, and `array` is an item of another tree. -/
structure Move (F : Forest) (array item : Ptr) (b : Branch Ptr Cell) (G : Forest)
    (d : Branch Ptr Cell) : Prop where
  perm : F.Perm (b :: G)
  addr : b.addr = item
  place : At G array d

theorem At.cons (h : At G array d) (hb : array ∉ b.addrs) : At (b :: G) array d := by
  refine ⟨?_, h.own⟩
  obtain ⟨hne, hch⟩ := not_or.1 (mt List.mem_cons.2 hb)
  have hnone : b.children.find array = none := find_eq_none hch
  rw [Forest.find, ofList, Siblings.find, if_neg (Ne.symm hne), hnone, Option.none_or]
  exact h.found

theorem Owns.siteAt (h : Owns m F lost) (hd : At F array d) : Site m array d [] := by
  have h : Owns m ([] ++ F) lost := h
  exact h.site hd.found hd.own

/-- The children of the item at a place, and the item in the memory. -/
theorem Owns.exists_node (h : Owns m F lost) (hd : At F array d) : ∃ n, m.items array = some n ∧
    n.val.child = headAddr (d.children.toList.map Branch.entry) nullPtr := by
  obtain ⟨n, hn, -, hchild⟩ := (h.siteAt hd).exists_node
  exact ⟨n, hn, hchild⟩

/-! ## Adding -/

/-- **`cJSON_AddItemToArray`** makes a root the last child. -/
theorem Owns.addItemToArray (h : Owns m F lost) (hm : Move F array item b G d) :
    ∃ m', m.cJSONAddItemToArray array item = some m' ∧ m'.strings = m.strings ∧
      m'.answers = m.answers ∧ Owns m' (G.edit array (· ++ [b])) lost := by
  have hF : Owns m ([b] ++ G) lost := h.perm hm.perm
  obtain ⟨m', hadd, hlinks, hr⟩ := (hF.site hm.place.found hm.place.own).addItemToArray
  rw [hm.addr] at hadd
  exact ⟨m', hadd, hlinks.strings, hlinks.answers,
    hF.rewire (f := (· ++ [b])) hm.place.found hm.place.own hlinks hr rfl⟩

/-- A null pointer is not added. -/
theorem Owns.addItemToArray_null (h : Owns m F lost) (harray : array ∈ F.addrs) :
    m.cJSONAddItemToArray array nullPtr = some m := by
  obtain ⟨n, hn⟩ := h.items.exists_eq harray
  rw [cJSONAddItemToArray, hn]
  rfl

theorem Move.withVal {v : Cell} (hm : Move F array item b G d) :
    Move (withVal b v :: G) array item (withVal b v) G d :=
  ⟨List.Perm.refl _, hm.addr, hm.place⟩

/-- The place is still there when the root counts as one of the forest. -/
theorem Move.at_cons (hm : Move F array item b G d) (h : Owns m F lost) : At (b :: G) array d := by
  refine hm.place.cons fun hmem => ?_
  have hplace := mem_addrs_of_find hm.place.found
  rw [Siblings.addrs, gather_ofList] at hplace
  exact (List.nodup_append'.1 (h.perm hm.perm).items.nodup).2.2 hmem hplace

theorem Owns.item_ne_null (h : Owns m F lost) (hm : Move F array item b G d) : item ≠ nullPtr := by
  rintro rfl
  exact (h.perm hm.perm).null_notMem (List.mem_append_left _ (List.mem_append_left _
    (List.mem_singleton.2 hm.addr.symm)))

theorem Owns.root_node (h : Owns m F lost) (hm : Move F array item b G d) :
    m.items item = some ⟨b.twig, nullPtr, nullPtr⟩ := by
  rw [← hm.addr]
  exact ((h.perm hm.perm).roots b (List.mem_cons_self ..)).node

/-- **`cJSON_AddItemToObject`** gives a root another name and makes it the last child. -/
theorem Owns.addItemToObject (h : Owns m F lost) (hm : Move F array item b G d)
    (hfree : b.twig.val.string.Freeable)
    (hread : (m.without [] b.twig.val.string.addrs).read string = some (some s)) :
    ∃ m' copy, m.cJSONAddItemToObject array string item = some m' ∧
      Names (m.without [] b.twig.val.string.addrs) string m' copy ∧
      (∀ x, x ∉ b.twig.val.string.addrs → (m.strings x).isSome → m'.strings x = m.strings x) ∧
      Owns m' (G.edit array (· ++ [withVal b { b.twig.val with string := copy }])) lost := by
  obtain ⟨m₁, copy, m₂, m₃, hfree₁, hdup, hset, hown, hcopy, hframe⟩ :=
    (h.perm hm.perm).rename hfree hread
  obtain ⟨m', hadd, hstrings, hanswers, hF⟩ := hown.addItemToArray hm.withVal
  rw [hm.addr] at hset
  refine ⟨m', copy, ?_, hcopy.congr hstrings hanswers, ?_, hF⟩
  · simp only [cJSONAddItemToObject, if_neg (h.item_ne_null hm), h.root_node hm, hfree₁, hdup, hset, hadd,
      Option.bind_eq_bind, Option.bind_some]
  · rwa [hstrings]

/-- **`cJSON_AddItemToObjectCS`** does so with a name of the caller's. -/
theorem Owns.addItemToObjectCS (h : Owns m F lost) (hm : Move F array item b G d) (s : CStr) :
    ∃ m', m.cJSONAddItemToObjectCS array (.const s) item = some m' ∧
      Owns m' (G.edit array (· ++ [withVal b { b.twig.val with
        string := .const s, type := b.twig.val.type ||| cJSONStringIsConst }]))
        (b.twig.val.stray ++ lost) ∧
      ∀ x, x ∉ b.twig.val.string.addrs → m'.strings x = m.strings x := by
  obtain ⟨m₁, m₂, hfree, hset, hown, hframe⟩ := (h.perm hm.perm).renameConst s
  obtain ⟨m', hadd, hstrings, -, hF⟩ := hown.addItemToArray hm.withVal
  rw [hm.addr] at hset
  refine ⟨m', ?_, hF, fun x hx => by rw [hstrings, hframe x hx]⟩
  simp only [cJSONAddItemToObjectCS, if_neg (h.item_ne_null hm), h.root_node hm, hfree, hset, hadd,
    Option.bind_eq_bind, Option.bind_some]

/-! ## References -/

/-- What `create_reference` makes of an item: it shares the value and has no name. -/
def reference (a : Ptr) (t : Twig Ptr Cell) : Branch Ptr Cell :=
  ⟨a, { t with val.string := .null, val.type := t.val.type ||| cJSONIsReference }, .nil⟩

/-- A root that is new is not below any other. -/
theorem At.move_new (hd : At F array d) : Move (b :: F) array b.addr b F d :=
  ⟨List.Perm.refl _, rfl, hd⟩

theorem At.mem (hd : At F array d) : array ∈ F.addrs := by
  have hmem := mem_addrs_of_find hd.found
  rwa [Siblings.addrs, gather_ofList] at hmem

/-- **`cJSON_AddItemReferenceToArray`** makes a reference the last child, unless `malloc` refuses. -/
theorem Owns.addItemReferenceToArray (h : Owns m F lost) {n : Node Ptr (Twig Ptr Cell)}
    (hitem : m.items item = some n) (hd : At F array d) :
    ∃ m', m.cJSONAddItemReferenceToArray array item = some m' ∧ m'.strings = m.strings ∧
      ((m.refused < m'.refused ∧ Owns m' F lost) ∨ (m'.refused = m.refused ∧
        ∃ a, Owns m' (F.edit array (· ++ [reference a n.val])) lost)) := by
  obtain ⟨a, m₁, href, hstrings, ⟨hnull, hrefused, hF⟩ | ⟨-, hserved, hF⟩⟩ := h.createReference hitem
  · change a = nullPtr at hnull
    refine ⟨m₁, ?_, hstrings, Or.inl ⟨hrefused, hF⟩⟩
    simp only [cJSONAddItemReferenceToArray, href, hnull, hF.addItemToArray_null hd.mem,
      Option.bind_eq_bind, Option.bind_some]
  · obtain ⟨m', hadd, hstrings', hanswers, hown⟩ := hF.addItemToArray hd.move_new
    have hadd' : m₁.cJSONAddItemToArray array a = some m' := hadd
    refine ⟨m', ?_, hstrings'.trans hstrings, Or.inr ⟨?_, a, hown⟩⟩
    · simp only [cJSONAddItemReferenceToArray, href, hadd', Option.bind_eq_bind, Option.bind_some]
    · rw [refused, hanswers]
      exact hserved

/-- **`cJSON_AddItemReferenceToObject`** gives the reference a name. -/
theorem Owns.addItemReferenceToObject (h : Owns m F lost) {n : Node Ptr (Twig Ptr Cell)}
    (hitem : m.items item = some n) (hd : At F array d) (hread : m.read string = some (some s)) :
    ∃ m', m.cJSONAddItemReferenceToObject array string item = some m' ∧
      (∀ x, (m.strings x).isSome → m'.strings x = m.strings x) ∧
      ((m.refused < m'.refused ∧ Owns m' F lost) ∨ ∃ a copy, Names m string m' copy ∧
        Owns m' (F.edit array (· ++ [withVal (reference a n.val)
          { (reference a n.val).twig.val with string := copy }])) lost) := by
  obtain ⟨a, m₁, href, hstrings, ⟨hnull, hrefused, hF⟩ | ⟨-, hserved, hF⟩⟩ := h.createReference hitem
  · change a = nullPtr at hnull
    refine ⟨m₁, ?_, fun x _ => by rw [hstrings], Or.inl ⟨hrefused, hF⟩⟩
    simp only [cJSONAddItemReferenceToObject, href, hnull, cJSONAddItemToObject, if_true,
      Option.bind_eq_bind, Option.bind_some]
  · have hread₁ : (m₁.without [] []).read string = some (some s) := by
      rw [without_nil, read_congr hstrings, hread]
    obtain ⟨m', copy, hadd, hcopy, hframe, hown⟩ :=
      hF.addItemToObject hd.move_new trivial hread₁
    have hadd' : m₁.cJSONAddItemToObject array string a = some m' := hadd
    have hcopy₁ : Names m₁ string m' copy := hcopy
    refine ⟨m', ?_, fun x hx => ?_, Or.inr ⟨a, copy, ?_, hown⟩⟩
    · simp only [cJSONAddItemReferenceToObject, href, hadd', Option.bind_eq_bind, Option.bind_some]
    · rw [hframe x List.not_mem_nil (by rw [hstrings]; exact hx), hstrings]
    · unfold Names at hcopy₁ ⊢
      rwa [read_congr hstrings, hserved] at hcopy₁

/-! ## Taking out -/

theorem exists_split {α : Type} {xs : List α} {k : Nat} (hk : k < xs.length) :
    ∃ x, xs[k]? = some x ∧ xs = xs.take k ++ x :: xs.drop (k + 1) :=
  ⟨xs[k], List.getElem?_eq_getElem hk, by rw [← List.drop_eq_getElem_cons hk, List.take_append_drop]⟩

/-- **`cJSON_DetachItemFromArray`** makes a child a root. -/
theorem Owns.detachItemFromArray (h : Owns m F lost) (hd : At F array d) {which : Int}
    (hc : d.children.toList[which.toNat]? = some c) :
    ∃ m', m.cJSONDetachItemFromArray array which = some (c.addr, m') ∧ m'.strings = m.strings ∧
      Owns m' (c :: F.edit array (·.eraseIdx which.toNat)) lost := by
  obtain ⟨hk, -⟩ := List.getElem?_eq_some_iff.1 hc
  obtain ⟨c', hc', hl⟩ := exists_split hk
  obtain rfl := Option.some.inj (hc'.symm.trans hc)
  have hsite := h.siteAt hd
  obtain ⟨m', hdetach, hlinks, hr⟩ := hsite.detachItemFromArray hl
    (List.length_take_of_le (Nat.le_of_lt hk)).symm
  have hF : Owns m ([] ++ F) lost := h
  exact ⟨m', hdetach, hlinks.strings, hF.rewire hd.found hd.own hlinks hr
    (List.eraseIdx_eq_take_drop_succ ..)⟩

/-- Behind the last child there is nothing to detach. -/
theorem Owns.detachItemFromArray_out (h : Owns m F lost) (hd : At F array d) {which : Int}
    (hc : d.children.toList[which.toNat]? = none) :
    m.cJSONDetachItemFromArray array which = some (nullPtr, m) :=
  (h.siteAt hd).detachItemFromArray_out (List.getElem?_eq_none_iff.1 hc)

/-- **`cJSON_DeleteItemFromArray`** takes a child out with all that is below it. -/
theorem Owns.deleteItemFromArray (h : Owns m F lost) (hd : At F array d) {which : Int}
    (hc : d.children.toList[which.toNat]? = some c) :
    ∃ m', m.cJSONDeleteItemFromArray array which = some m' ∧
      Owns m' (F.edit array (·.eraseIdx which.toNat)) (lost ++ strayStrings c) ∧
      ∀ x, x ∉ ownedStrings (onlyChild c) → m'.strings x = m.strings x := by
  obtain ⟨m₁, hdetach, hstrings, hF⟩ := h.detachItemFromArray hd hc
  obtain ⟨hdel, hown⟩ := hF.delete
  refine ⟨_, ?_, hown, fun x hx => (without_strings m₁ hx).trans (by rw [hstrings])⟩
  simp only [cJSONDeleteItemFromArray, hdetach, hdel, Option.bind_eq_bind, Option.bind_some]

theorem cJSONDelete_null (m : Memory) : m.cJSONDelete nullPtr = some m := rfl

theorem Owns.deleteItemFromArray_out (h : Owns m F lost) (hd : At F array d) {which : Int}
    (hc : d.children.toList[which.toNat]? = none) :
    m.cJSONDeleteItemFromArray array which = some m := by
  simp only [cJSONDeleteItemFromArray, h.detachItemFromArray_out hd hc, cJSONDelete_null,
    Option.bind_eq_bind, Option.bind_some]

/-! ## Searching -/

/-- Whether the name of an item is the one that is looked for. -/
def carries (m : Memory) (key : Option CStr) (t : Twig Ptr Cell) : Bool :=
  cJSONStrcasecmp (m.read t.val.string).join key = 0

/-- The first child with the name. -/
def indexOf (m : Memory) (key : Option CStr) (d : Branch Ptr Cell) : Nat :=
  d.children.toList.findIdx fun e => carries m key e.twig

/-- What is in a child is in the forest. -/
theorem At.gather_subset {W : Type} (g : Ptr → Cell → List W) (hd : At F array d) {e : Branch Ptr Cell}
    (he : e ∈ d.children.toList) : e.gather g ⊆ F.flatMap (Branch.gather g) := by
  intro x hx
  have hsub := find_sublist g hd.found
  rw [gather_ofList] at hsub
  refine hsub.subset (List.mem_append_right _ ?_)
  rw [gather_eq_flatMap]
  exact List.mem_flatMap.2 ⟨e, he, hx⟩

theorem Owns.read_name (h : Owns m F lost) (hd : At F array d) {e : Branch Ptr Cell}
    (he : e ∈ d.children.toList) : ∃ name, m.read e.twig.val.string = some name := by
  have hsub := hd.gather_subset (fun _ c => c.strings) he
  cases hstring : e.twig.val.string with
  | null => exact ⟨none, rfl⟩
  | const s => exact ⟨some s, rfl⟩
  | heap a =>
      have hmem : a ∈ F.strings ++ lost := List.mem_append_left _ (hsub (List.mem_append_left _
        (List.mem_append_right _ (by
          rw [hstring]
          exact List.mem_singleton_self a))))
      obtain ⟨s, hs⟩ := h.strings.exists_eq hmem
      exact ⟨some s, congrArg (Option.map some) hs⟩

theorem headAddr_drop (bs : List (Branch Ptr Cell)) (k : Nat) :
    headAddr ((bs.map Branch.entry).drop k) nullPtr = (bs[k]?.map Branch.addr).getD nullPtr := by
  rw [← List.map_drop]
  cases hk : bs[k]? with
  | none => rw [List.drop_eq_nil_of_le (List.getElem?_eq_none_iff.1 hk)]; rfl
  | some e =>
      obtain ⟨hlt, rfl⟩ := List.getElem?_eq_some_iff.1 hk
      rw [List.drop_eq_getElem_cons hlt]
      rfl

/-- The walk of the functions that look for a name. -/
theorem Owns.findItem (h : Owns m F lost) (hd : At F array d) {key : Option CStr}
    (hread : m.read string = some key) {n : Node Ptr (Twig Ptr Cell)}
    (hchild : n.val.child = headAddr (d.children.toList.map Branch.entry) nullPtr) :
    m.findItem string n.val.child =
      some ((d.children.toList[indexOf m key d]?.map Branch.addr).getD nullPtr, indexOf m key d) := by
  have hsite := h.siteAt hd
  have hnamed : ∀ x ∈ d.children.toList.map Branch.entry, m.named string x.2 =
      some (carries m key x.2) := by
    intro x hx
    obtain ⟨e, he, rfl⟩ := List.mem_map.1 hx
    obtain ⟨name, hname⟩ := h.read_name hd he
    have hname : m.read e.entry.2.val.string = some name := hname
    rw [named, carries, hname, hread]
    rfl
  have hshort : (d.children.toList.map Branch.entry).length < m.live + 1 := by
    rw [List.length_map]
    exact Nat.lt_succ_of_le hsite.short
  have hindex : (d.children.toList.map Branch.entry).findIdx
      (fun x => carries m key x.2) = indexOf m key d := List.findIdx_map ..
  rw [Memory.findItem, hchild, hsite.seg.indexWhere (hsite.nullFree (List.subset_append_left ..)) hnamed
    hshort, hindex, headAddr_drop, Nat.zero_add]

/-- **`cJSON_GetArraySize`** counts the children. -/
theorem Owns.getArraySize (h : Owns m F lost) (hd : At F array d) :
    m.cJSONGetArraySize array = some d.children.toList.length := by
  obtain ⟨n, hn, hchild⟩ := h.exists_node hd
  have hsite := h.siteAt hd
  have hshort : (d.children.toList.map Branch.entry).length < m.live + 1 := by
    rw [List.length_map]
    exact Nat.lt_succ_of_le hsite.short
  have hwalk := hsite.seg.indexWhere (hsite.nullFree (List.subset_append_left ..))
    (P := fun _ => some false) (Q := fun _ => false) (fun _ _ => rfl) hshort 0
  have hall : ((d.children.toList.map Branch.entry).findIdx fun _ => false) =
      d.children.toList.length := by
    rw [List.findIdx_eq_length_of_false fun _ _ => rfl, List.length_map]
  rw [hall, Nat.zero_add] at hwalk
  rw [cJSONGetArraySize, hn, Option.bind_eq_bind, Option.bind_some, hchild, hwalk]
  rfl

theorem Owns.childOf (h : Owns m F lost) (hd : At F array d) :
    m.childOf array = some (headAddr (d.children.toList.map Branch.entry) nullPtr) := by
  obtain ⟨n, hn, hchild⟩ := h.exists_node hd
  have hnull : array ≠ nullPtr := fun heq => h.null_notMem (heq ▸ hd.mem)
  rw [Memory.childOf, if_neg hnull, hn, ← hchild]
  rfl

/-- **`cJSON_GetArrayItem`** gives a child by its number, and the first one for a negative number. -/
theorem Owns.getArrayItem (h : Owns m F lost) (hd : At F array d) (which : Int) :
    m.cJSONGetArrayItem array which =
      some ((d.children.toList[which.toNat]?.map Branch.addr).getD nullPtr) := by
  have hsite := h.siteAt hd
  rw [cJSONGetArrayItem, h.childOf hd, Option.bind_eq_bind, Option.bind_some,
    hsite.seg.nth (hsite.nullFree (List.subset_append_left ..)), headAddr_drop]

/-- Without an array there is no item. -/
theorem cJSONGetArrayItem_null (m : Memory) (which : Int) :
    m.cJSONGetArrayItem nullPtr which = some nullPtr := by
  rw [cJSONGetArrayItem, Memory.childOf, if_pos rfl, Option.bind_eq_bind, Option.bind_some]
  cases which.toNat with
  | zero => rfl
  | succ k => rw [nth, if_pos rfl]

theorem cJSONGetObjectItem_null (m : Memory) (string : CharPtr) :
    m.cJSONGetObjectItem nullPtr string = some nullPtr := rfl

/-- **`cJSON_GetObjectItem`** gives the first child with the name. -/
theorem Owns.getObjectItem (h : Owns m F lost) (hd : At F array d) {key : Option CStr}
    (hread : m.read string = some key) :
    m.cJSONGetObjectItem array string =
      some ((d.children.toList[indexOf m key d]?.map Branch.addr).getD nullPtr) := by
  obtain ⟨n, -, hchild⟩ := h.exists_node hd
  rw [cJSONGetObjectItem, h.childOf hd, Option.bind_eq_bind, Option.bind_some, ← hchild,
    h.findItem hd hread hchild]
  rfl

theorem Owns.addr_ne_null (h : Owns m F lost) (hd : At F array d) {k : Nat}
    (hc : d.children.toList[k]? = some c) : c.addr ≠ nullPtr := fun heq =>
  (h.siteAt hd).nonnull (List.mem_map.2
    ⟨c, List.mem_append_left _ (List.mem_of_getElem? hc), heq⟩)

/-- **`cJSON_DetachItemFromObject`** makes the first child with the name a root. -/
theorem Owns.detachItemFromObject (h : Owns m F lost) (hd : At F array d) {key : Option CStr}
    (hread : m.read string = some key) (hc : d.children.toList[indexOf m key d]? = some c) :
    ∃ m', m.cJSONDetachItemFromObject array string = some (c.addr, m') ∧ m'.strings = m.strings ∧
      Owns m' (c :: F.edit array (·.eraseIdx (indexOf m key d))) lost := by
  obtain ⟨n, hn, hchild⟩ := h.exists_node hd
  have hfind := h.findItem hd hread hchild
  rw [hc, Option.map_some, Option.getD_some] at hfind
  have hc' : d.children.toList[(indexOf m key d : Int).toNat]? = some c := hc
  obtain ⟨m', hdetach, hstrings, hF⟩ := h.detachItemFromArray hd hc'
  refine ⟨m', ?_, hstrings, hF⟩
  simp only [cJSONDetachItemFromObject, hn, hfind, if_neg (h.addr_ne_null hd hc), hdetach,
    Option.bind_eq_bind, Option.bind_some]

theorem Owns.detachItemFromObject_out (h : Owns m F lost) (hd : At F array d) {key : Option CStr}
    (hread : m.read string = some key) (hc : d.children.toList[indexOf m key d]? = none) :
    m.cJSONDetachItemFromObject array string = some (nullPtr, m) := by
  obtain ⟨n, hn, hchild⟩ := h.exists_node hd
  have hfind := h.findItem hd hread hchild
  rw [hc, Option.map_none, Option.getD_none] at hfind
  simp only [cJSONDetachItemFromObject, hn, hfind, if_true, Option.bind_eq_bind, Option.bind_some]

/-- **`cJSON_DeleteItemFromObject`** takes the first child with the name out and deletes it. -/
theorem Owns.deleteItemFromObject (h : Owns m F lost) (hd : At F array d) {key : Option CStr}
    (hread : m.read string = some key) (hc : d.children.toList[indexOf m key d]? = some c) :
    ∃ m', m.cJSONDeleteItemFromObject array string = some m' ∧
      Owns m' (F.edit array (·.eraseIdx (indexOf m key d))) (lost ++ strayStrings c) ∧
      ∀ x, x ∉ ownedStrings (onlyChild c) → m'.strings x = m.strings x := by
  obtain ⟨m₁, hdetach, hstrings, hF⟩ := h.detachItemFromObject hd hread hc
  obtain ⟨hdel, hown⟩ := hF.delete
  refine ⟨_, ?_, hown, fun x hx => (without_strings m₁ hx).trans (by rw [hstrings])⟩
  simp only [cJSONDeleteItemFromObject, hdetach, hdel, Option.bind_eq_bind, Option.bind_some]

theorem Owns.deleteItemFromObject_out (h : Owns m F lost) (hd : At F array d) {key : Option CStr}
    (hread : m.read string = some key) (hc : d.children.toList[indexOf m key d]? = none) :
    m.cJSONDeleteItemFromObject array string = some m := by
  simp only [cJSONDeleteItemFromObject, h.detachItemFromObject_out hd hread hc, cJSONDelete_null,
    Option.bind_eq_bind, Option.bind_some]

/-! ## Putting in -/

/-- A new element before the one with the number, or at the end. -/
def insertAt {α : Type} (k : Nat) (x : α) (xs : List α) : List α := xs.take k ++ x :: xs.drop k

theorem insertAt_of_le {α : Type} {k : Nat} (x : α) {xs : List α} (hk : xs.length ≤ k) :
    insertAt k x xs = xs ++ [x] := by
  rw [insertAt, List.take_of_length_le hk, List.drop_of_length_le hk]

/-- **`cJSON_InsertItemInArray`** makes a root a child, at a number or at the end. -/
theorem Owns.insertItemInArray (h : Owns m F lost) (hm : Move F array item b G d) (which : Int) :
    ∃ m', m.cJSONInsertItemInArray array which item = some m' ∧ m'.strings = m.strings ∧
      Owns m' (G.edit array (insertAt which.toNat b)) lost := by
  have hF : Owns m ([b] ++ G) lost := h.perm hm.perm
  have hsite := hF.site hm.place.found hm.place.own
  rcases Nat.lt_or_ge which.toNat d.children.toList.length with hk | hk
  · -- before a child
    obtain ⟨c, hc, hl⟩ := exists_split hk
    have hlen : which.toNat = (d.children.toList.take which.toNat).length :=
      (List.length_take_of_le (Nat.le_of_lt hk)).symm
    obtain ⟨m', hinsert, hlinks, hr⟩ := hsite.insertItemInArray hl hlen
    rw [hm.addr] at hinsert
    refine ⟨m', hinsert, hlinks.strings, hF.rewire hm.place.found hm.place.own hlinks hr ?_⟩
    rw [insertAt, List.drop_eq_getElem_cons hk, ← Option.some.inj
      ((List.getElem?_eq_getElem hk).symm.trans hc)]
  · -- behind the last one
    obtain ⟨n, hn, -, hchild⟩ := hsite.exists_node
    obtain ⟨m', hadd, hlinks, hr⟩ := hsite.addItemToArray
    rw [hm.addr] at hadd
    refine ⟨m', ?_, hlinks.strings, hF.rewire hm.place.found hm.place.own hlinks hr
      (insertAt_of_le b hk)⟩
    simp only [cJSONInsertItemInArray, hn, hsite.nth_out hchild hk, if_true, hadd,
      Option.bind_eq_bind, Option.bind_some]

/-! ## Replacing -/

/-- **`cJSON_ReplaceItemInArray`** puts a root in the place of a child and deletes the child. -/
theorem Owns.replaceItemInArray (h : Owns m F lost) (hm : Move F array item b G d) {which : Int}
    (hc : d.children.toList[which.toNat]? = some c) :
    ∃ m₁ m' : Memory, m.cJSONReplaceItemInArray array which item = some m' ∧ m₁.strings = m.strings ∧
      m₁.answers = m.answers ∧ m' = m₁.without c.addrs (ownedStrings (onlyChild c)) ∧
      Owns m' (G.edit array (·.set which.toNat b)) (lost ++ strayStrings c) := by
  have hF : Owns m ([b] ++ G) lost := h.perm hm.perm
  have hsite := hF.site hm.place.found hm.place.own
  obtain ⟨hk, -⟩ := List.getElem?_eq_some_iff.1 hc
  obtain ⟨c', hc', hl⟩ := exists_split hk
  obtain rfl := Option.some.inj (hc'.symm.trans hc)
  obtain ⟨m₁, hreplace, hlinks, hr⟩ := hsite.replaceItemInArray hl
    (List.length_take_of_le (Nat.le_of_lt hk)).symm
  rw [hm.addr] at hreplace
  have hown : Owns m₁ (c' :: G.edit array (·.set which.toNat b)) lost :=
    hF.rewire hm.place.found hm.place.own hlinks hr (by rw [List.set_eq_take_append_cons_drop, if_pos hk])
  obtain ⟨hdel, hG⟩ := hown.delete
  exact ⟨m₁, _, hreplace.trans hdel, hlinks.strings, hlinks.answers, rfl, hG⟩

/-- Without a child of the number nothing happens, and the item is still a root. -/
theorem Owns.replaceItemInArray_out (h : Owns m F lost) (hd : At F array d) {which : Int} {item : Ptr}
    (hc : d.children.toList[which.toNat]? = none) :
    m.cJSONReplaceItemInArray array which item = some m := by
  have hsite := h.siteAt hd
  obtain ⟨n, hn, -, hchild⟩ := hsite.exists_node
  simp only [cJSONReplaceItemInArray, hn, hsite.nth_out hchild (List.getElem?_eq_none_iff.1 hc),
    Option.bind_eq_bind, Option.bind_some, if_true]

theorem ownedStrings_subset (c : Branch Ptr Cell) :
    ownedStrings (onlyChild c) ⊆ c.gather fun _ v => v.strings := by
  intro x hx
  rw [ownedStrings, gather_onlyChild] at hx
  exact (Branch.gather_perm (fun _ v => v.strings_perm) c).mem_iff.2 (List.mem_append_left _ hx)

/-- The name of a root is none of the strings of an item below another one. -/
theorem Owns.name_notMem (h : Owns m (b :: G) lost) (hd : At G array d) (hc : c ∈ d.children.toList)
    {x : Ptr} (hx : x ∈ b.twig.val.string.addrs) : x ∉ ownedStrings (onlyChild c) := by
  intro hmem
  obtain ⟨hnodup, -, -⟩ := List.nodup_append'.1 h.strings.nodup
  refine (List.nodup_append'.1 hnodup).2.2 ?_ (hd.gather_subset _ hc (ownedStrings_subset c hmem))
  exact List.mem_append_left _ (List.mem_append_right _ hx)

/-- **`cJSON_ReplaceItemInObject`** gives the item a name, too, and forgets the one it had. -/
theorem Owns.replaceItemInObject (h : Owns m F lost) (hm : Move F array item b G d)
    (hread : m.read string = some (some s)) (hc : d.children.toList[indexOf m (some s) d]? = some c) :
    ∃ (m₁ m' : Memory) (copy : CharPtr), m.cJSONReplaceItemInObject array string item = some m' ∧
      Names m string m' copy ∧
      (∀ x, (m.strings x).isSome → m₁.strings x = m.strings x) ∧
      m' = m₁.without c.addrs (ownedStrings (onlyChild c)) ∧
      Owns m' (G.edit array (·.set (indexOf m (some s) d) (withVal b { b.twig.val with string := copy })))
        (b.twig.val.string.addrs ++ lost ++ strayStrings c) := by
  have hF := h.perm hm.perm
  have hat := hm.at_cons h
  obtain ⟨n, hn, hchild⟩ := hF.exists_node hat
  have hfind := hF.findItem hat hread hchild
  rw [hc, Option.map_some, Option.getD_some] at hfind
  obtain ⟨m₁, copy, m₂, hdup, hset, hown, hcopy, hframe⟩ := hF.renameKeeping hread
  rw [hm.addr] at hset
  have hc' : d.children.toList[(indexOf m (some s) d : Int).toNat]? = some c := hc
  obtain ⟨m₃, m', hreplace, hstrings, hanswers, hm', hG⟩ := hown.replaceItemInArray hm.withVal hc'
  refine ⟨m₃, m', copy, ?_, ?_, ?_, hm', hG⟩
  · simp only [cJSONReplaceItemInObject, hn, hfind, if_neg (hF.addr_ne_null hat hc), hdup, hset, hreplace,
      Option.bind_eq_bind, Option.bind_some]
  · -- the copy is not one of the strings of the child
    have hkept : m'.read copy = m₃.read copy := by
      rw [hm']
      refine read_eq fun x hx => without_strings m₃ fun hmem => ?_
      exact hown.name_notMem hm.place (List.mem_of_getElem? hc) hx hmem
    have hserved : m'.refused = m₃.refused := by rw [hm']; rfl
    have hnames : Names m string m₃ copy := hcopy.congr hstrings hanswers
    unfold Names at hnames ⊢
    rwa [hkept, hserved]
  · rwa [hstrings]

theorem Owns.replaceItemInObject_out (h : Owns m F lost) (hd : At F array d) {item : Ptr}
    {key : Option CStr} (hread : m.read string = some key)
    (hc : d.children.toList[indexOf m key d]? = none) :
    m.cJSONReplaceItemInObject array string item = some m := by
  obtain ⟨n, hn, hchild⟩ := h.exists_node hd
  have hfind := h.findItem hd hread hchild
  rw [hc, Option.map_none, Option.getD_none] at hfind
  simp only [cJSONReplaceItemInObject, hn, hfind, Option.bind_eq_bind, Option.bind_some, if_true]

end XToolkits.Json
