import XToolkits.Json.Forest

set_option autoImplicit false

/-! # Surgery on the children of an item

What the functions that add, detach, insert and replace do with the links: from the children of an item
and items on their own they make other children, and nothing else is written to. -/

namespace XToolkits.Json

open Siblings Memory TreeLayout

/-! ## Before and after -/

/-- An item with its children, and some items on their own. -/
structure Site (m : Memory) (array : Ptr) (d : Branch Ptr Cell) (out : List (Branch Ptr Cell)) :
    Prop where
  node : ∃ pre next, m.items array = some ⟨d.twig, pre, next⟩
  child : d.twig.child = d.children.first nullPtr
  seg : Seg m.items nullPtr (d.children.toList.map Branch.entry) nullPtr
  loose : ∀ e ∈ out, m.items e.addr = some ⟨e.twig, nullPtr, nullPtr⟩
  nodup : (array :: (d.children.toList ++ out).map Branch.addr).Nodup
  nonnull : nullPtr ∉ (d.children.toList ++ out).map Branch.addr
  short : d.children.toList.length ≤ m.live

/-- Only links were written to. -/
structure Relinked (m m' : Memory) : Prop where
  strings : m'.strings = m.strings
  live : m'.live = m.live
  answers : m'.answers = m.answers
  isSome : ∀ a, (m'.items a).isSome = (m.items a).isSome

variable {m m' : Memory} {array : Ptr} {b c d : Branch Ptr Cell} {out l r : List (Branch Ptr Cell)}

theorem Relinked.refl (m : Memory) : Relinked m m := ⟨rfl, rfl, rfl, fun _ => rfl⟩

theorem map_entry_fst (bs : List (Branch Ptr Cell)) :
    (bs.map Branch.entry).map Prod.fst = bs.map Branch.addr := by
  rw [List.map_map]
  rfl

theorem addr_mem_of_entry {x : Ptr × Twig Ptr Cell} {bs : List (Branch Ptr Cell)}
    (hx : x ∈ bs.map Branch.entry) : x.1 ∈ bs.map Branch.addr :=
  map_entry_fst bs ▸ List.mem_map_of_mem hx

namespace Site

theorem nullFree (h : Site m array d out) {bs : List (Branch Ptr Cell)}
    (hsub : bs ⊆ d.children.toList ++ out) : NullFree nullPtr (bs.map Branch.entry) := by
  intro x hx heq
  obtain ⟨e, he, rfl⟩ := List.mem_map.1 hx
  exact h.nonnull (heq ▸ List.mem_map_of_mem (hsub he))

theorem array_notMem (h : Site m array d out) {e : Branch Ptr Cell}
    (he : e ∈ d.children.toList ++ out) : e.addr ≠ array := by
  rintro rfl
  exact (List.nodup_cons.1 h.nodup).1 (List.mem_map_of_mem he)

/-- The item itself, and the first of its children. -/
theorem exists_node (h : Site m array d out) : ∃ n, m.items array = some n ∧ n.val = d.twig ∧
    n.val.child = headAddr (d.children.toList.map Branch.entry) nullPtr := by
  obtain ⟨pre, next, hnode⟩ := h.node
  refine ⟨_, hnode, rfl, ?_⟩
  rw [headAddr_entries, ofList_toList]
  exact h.child

end Site

/-- `a->child = b` in the heap. -/
theorem setChild_eq {a child : Ptr} {n : Node Ptr (Twig Ptr Cell)} (ha : m.items a = some n) :
    m.setChild a child =
      some { m with items := m.items.set a { n with val.child := child } } := by
  rw [setChild, ha]
  rfl

theorem Relinked.setChild {a child : Ptr} (h : m.setChild a child = some m') : Relinked m m' := by
  obtain ⟨n, hn, rfl⟩ := Option.map_eq_some_iff.1 h
  refine ⟨rfl, rfl, rfl, fun x => ?_⟩
  show (m.items.set a _ x).isSome = _
  by_cases hx : x = a
  · rw [hx, Heap.set_self, hn, Option.isSome_some, Option.isSome_some]
  · rw [Heap.set_of_ne m.items _ hx]

/-- The addresses of the children and of the items on their own. -/
theorem Site.addrNodup (h : Site m array d out) :
    AddrNodup ((d.children.toList ++ out).map Branch.entry) := by
  rw [AddrNodup, map_entry_fst]
  exact (List.nodup_cons.1 h.nodup).2

/-- What is to be shown of a surgery. -/
theorem rewired_of {items : Heap Ptr (Node Ptr (Twig Ptr Cell))} {n : Node Ptr (Twig Ptr Cell)}
    {bs res : List (Branch Ptr Cell)} (hn : m.items array = some n)
    (hnode : items array = some { n with val.child := headAddr (bs.map Branch.entry) nullPtr })
    (hseg : Seg items nullPtr (bs.map Branch.entry) nullPtr)
    (halone : ∀ e ∈ res, items e.addr = some ⟨e.twig, nullPtr, nullPtr⟩)
    (hframe : ∀ x, x ≠ array → x ∉ (d.children.toList ++ out).map Branch.addr → items x = m.items x)
    (hperm : (bs ++ res).Perm (d.children.toList ++ out)) :
    Rewired cJSONLayout m.items items array d out bs res := by
  refine ⟨fun n' hn' => ?_, hseg, halone, hframe, hperm⟩
  rw [hn] at hn'
  rw [hnode, headAddr_entries, Option.some.inj hn']
  rfl

/-! ## Adding -/

/-- The last child, if there is one. -/
def lastChild (d : Branch Ptr Cell) : Ptr := lastAddr nullPtr (d.children.toList.map Branch.entry)

/-- An item that is linked behind the last child, or from the item above if there is none. -/
theorem Site.append (h : Site m array d [b]) :
    ∃ m', (if lastChild d = nullPtr then m.setChild array b.addr
        else m.suffixObject (lastChild d) b.addr) = some m' ∧ Relinked m m' ∧
      Rewired cJSONLayout m.items m'.items array d [b] (d.children.toList ++ [b]) [] := by
  obtain ⟨n, hn, -, hchild⟩ := h.exists_node
  have hb : m.items b.addr = some ⟨b.twig, nullPtr, nullPtr⟩ := h.loose b (List.mem_singleton_self b)
  have hbarray : b.addr ≠ array := h.array_notMem (List.mem_append_right _ (List.mem_singleton_self b))
  have hfree := h.nullFree (List.subset_append_left ..)
  have hdistinct := h.addrNodup
  rw [List.map_append, AddrNodup, List.map_append, List.nodup_append] at hdistinct
  by_cases hempty : d.children.toList = []
  · -- the first child: a write to the item
    have hnull : lastChild d = nullPtr := hfree.last_eq_null.2 (by rw [hempty]; rfl)
    rw [if_pos hnull, setChild_eq hn, hempty]
    refine ⟨_, rfl, Relinked.setChild (setChild_eq hn), rewired_of hn (Heap.set_self ..) ?_
      (fun _ he => absurd he List.not_mem_nil) (fun x hx _ => Heap.set_of_ne m.items _ hx) ?_⟩
    · exact ⟨(Heap.set_of_ne m.items _ hbarray).trans hb, trivial⟩
    · rw [hempty, List.append_nil]
  · -- behind the last one
    have hne : d.children.toList.map Branch.entry ≠ [] := mt List.map_eq_nil_iff.1 hempty
    have hnew : b.addr ∉ (d.children.toList.map Branch.entry).map Prod.fst := fun hmem =>
      hdistinct.2.2 _ hmem _ (List.mem_singleton_self b.addr) rfl
    obtain ⟨h₁, h₂, hset₁, hset₂, hseg₂, hframe⟩ := h.seg.suffix (y := b.entry) hne hdistinct.1 hb hnew
    have hframe' : ∀ x, x ∉ (d.children.toList ++ [b]).map Branch.addr → h₂ x = m.items x :=
      fun x hx => hframe x (by rwa [← List.map_singleton (f := Branch.entry), ← List.map_append,
        map_entry_fst])
    have hrun : m.suffixObject (lastChild d) b.addr = some { m with items := h₂ } := by
      rw [suffixObject, show setNext m.items (lastChild d) b.addr = some h₁ from hset₁,
        Option.bind_eq_bind, Option.bind_some,
        show setPre h₁ b.addr (lastChild d) = some h₂ from hset₂]
      rfl
    have hnull : lastChild d ≠ nullPtr := mt hfree.last_eq_null.1 hne
    rw [if_neg hnull, hrun]
    refine ⟨_, rfl, ⟨rfl, rfl, rfl, fun x => ?_⟩, rewired_of hn ?_ ?_
      (fun _ he => absurd he List.not_mem_nil) (fun x _ hx => hframe' x hx) ?_⟩
    · exact (setPre_isSome hset₂ x).trans (setNext_isSome hset₁ x)
    · -- the first child is still the first one
      refine (hframe' array (List.nodup_cons.1 h.nodup).1).trans ?_
      rw [hn, List.map_append, headAddr_append, headAddr_of_ne_nil hne _ nullPtr, ← hchild]
    · rw [List.map_append]
      exact hseg₂
    · rw [List.append_nil]

/-- **`cJSON_AddItemToArray`** makes the item the last child. -/
theorem Site.addItemToArray (h : Site m array d [b]) :
    ∃ m', m.cJSONAddItemToArray array b.addr = some m' ∧ Relinked m m' ∧
      Rewired cJSONLayout m.items m'.items array d [b] (d.children.toList ++ [b]) [] := by
  obtain ⟨n, hn, -, hchild⟩ := h.exists_node
  have hbnull : b.addr ≠ nullPtr := h.nullFree (List.subset_append_right ..) b.entry
    (List.mem_singleton_self _)
  have hfree := h.nullFree (List.subset_append_left ..)
  have happend := h.append
  have hseg := h.seg
  have hshort := h.short
  simp only [cJSONAddItemToArray, hn, if_neg hbnull, Option.bind_eq_bind, Option.bind_some]
  by_cases hempty : d.children.toList.map Branch.entry = []
  · have hnull : n.val.child = nullPtr := by rw [hchild, hempty]; rfl
    have hlast : lastChild d = nullPtr := hfree.last_eq_null.2 hempty
    rw [if_pos hlast] at happend
    rwa [if_pos hnull]
  · have hnull : n.val.child ≠ nullPtr := by
      rw [hchild]
      exact mt hfree.head_eq_null.1 hempty
    have hlast : lastNode m.items nullPtr (m.live + 1) n.val.child =
        some (lastChild d) := by
      obtain ⟨x, xs, hxs⟩ := List.exists_cons_of_ne_nil hempty
      have hlen : xs.length + 1 = d.children.toList.length := by
        have hmap : (d.children.toList.map Branch.entry).length = _ := List.length_map _
        rw [← hmap, hxs, List.length_cons]
      rw [lastChild, hchild, hxs, headAddr_cons]
      rw [hxs] at hseg hfree
      exact hseg.lastNode hfree (by omega)
    have hsome : lastChild d ≠ nullPtr := mt hfree.last_eq_null.1 hempty
    rw [if_neg hsome] at happend
    rwa [if_neg hnull, hlast, Option.bind_some]

/-- The item that is put in is another one than all the others. -/
theorem Site.new_notMem (h : Site m array d [b]) :
    b.addr ∉ d.children.toList.map Branch.addr ∧ b.addr ≠ array ∧ b.addr ≠ nullPtr := by
  have hnodup := (List.nodup_cons.1 h.nodup).2
  rw [List.map_append, List.nodup_append'] at hnodup
  refine ⟨fun hmem => hnodup.2.2 hmem (List.mem_singleton_self b.addr),
    h.array_notMem (List.mem_append_right _ (List.mem_singleton_self b)),
    h.nullFree (List.subset_append_right ..) b.entry (List.mem_singleton_self _)⟩

/-- No child has the index. -/
theorem Site.nth_out (h : Site m array d out) {n : Node Ptr (Twig Ptr Cell)}
    (hchild : n.val.child = headAddr (d.children.toList.map Branch.entry) nullPtr) {which : Int}
    (hwhich : d.children.toList.length ≤ which.toNat) :
    nth m.items nullPtr which.toNat n.val.child = some nullPtr := by
  rw [hchild, h.seg.nth (h.nullFree (List.subset_append_left ..)),
    List.drop_eq_nil_of_le (by rwa [List.length_map])]
  rfl

/-- A child has the index. -/
theorem Site.nth_child (h : Site m array d out) {n : Node Ptr (Twig Ptr Cell)}
    (hchild : n.val.child = headAddr (d.children.toList.map Branch.entry) nullPtr)
    (hl : d.children.toList = l ++ c :: r) {which : Int} (hwhich : which.toNat = l.length) :
    nth m.items nullPtr which.toNat n.val.child = some c.addr := by
  rw [hchild, h.seg.nth (h.nullFree (List.subset_append_left ..)), hl, hwhich, List.map_append,
    List.drop_left' (List.length_map _)]
  rfl

/-! ## The child in the middle -/

/-- The children before and behind the child `c`: how they are linked, and that all these items are
    different ones. -/
structure Split (m : Memory) (array : Ptr) (l : List (Branch Ptr Cell)) (c : Branch Ptr Cell)
    (r : List (Branch Ptr Cell)) : Prop where
  left : Seg m.items nullPtr (l.map Branch.entry) c.addr
  node : m.items c.addr = some ⟨c.twig, lastAddr nullPtr (l.map Branch.entry),
    headAddr (r.map Branch.entry) nullPtr⟩
  right : Seg m.items c.addr (r.map Branch.entry) nullPtr
  nodup : (array :: (l ++ c :: r).map Branch.addr).Nodup
  nonnull : nullPtr ∉ (l ++ c :: r).map Branch.addr

theorem Site.split (h : Site m array d out) (hl : d.children.toList = l ++ c :: r) :
    Split m array l c r := by
  have hseg := h.seg
  have hnodup := h.nodup
  have hnonnull := h.nonnull
  rw [hl, List.map_append] at hseg hnodup hnonnull
  obtain ⟨hleft, hnode, hright⟩ := seg_append.1 hseg
  refine ⟨hleft, hnode, hright, hnodup.sublist ?_, fun hmem => hnonnull ?_⟩
  · exact (List.sublist_append_left ..).cons_cons array
  · exact List.mem_append_left _ hmem

namespace Split

theorem array_notMem (h : Split m array l c r) :
    array ∉ l.map Branch.addr ∧ array ≠ c.addr ∧ array ∉ r.map Branch.addr := by
  have hnot := (List.nodup_cons.1 h.nodup).1
  rw [List.map_append, List.map_cons, List.mem_append, List.mem_cons, not_or, not_or] at hnot
  exact hnot

theorem child_notMem (h : Split m array l c r) :
    c.addr ∉ l.map Branch.addr ∧ c.addr ∉ r.map Branch.addr := by
  have hnodup := (List.nodup_cons.1 h.nodup).2
  rw [List.map_append, List.map_cons, List.nodup_middle, List.nodup_cons, List.mem_append,
    not_or] at hnodup
  exact hnodup.1

theorem sides (h : Split m array l c r) : AddrNodup (l.map Branch.entry) ∧
    AddrNodup (r.map Branch.entry) ∧ ∀ x ∈ l.map Branch.addr, x ∉ r.map Branch.addr := by
  have hnodup := (List.nodup_cons.1 h.nodup).2
  rw [List.map_append, List.map_cons, List.nodup_middle, List.nodup_cons,
    List.nodup_append'] at hnodup
  rw [AddrNodup, AddrNodup, map_entry_fst, map_entry_fst]
  exact ⟨hnodup.2.1, hnodup.2.2.1, fun x hx => hnodup.2.2.2 hx⟩

theorem nullFree (h : Split m array l c r) {bs : List (Branch Ptr Cell)} (hsub : bs ⊆ l ++ c :: r) :
    NullFree nullPtr (bs.map Branch.entry) := by
  intro x hx heq
  obtain ⟨e, he, rfl⟩ := List.mem_map.1 hx
  exact h.nonnull (heq ▸ List.mem_map_of_mem (hsub he))

theorem nullFree_right (h : Split m array l c r) : NullFree nullPtr (r.map Branch.entry) :=
  h.nullFree fun _ hx => List.mem_append_right _ (List.mem_cons_of_mem c hx)

theorem child_ne_null (h : Split m array l c r) : c.addr ≠ nullPtr := fun heq =>
  h.nonnull (heq ▸ List.mem_map_of_mem (List.mem_append_right _ (List.mem_cons_self ..)))

/-- Only the first child is the one that the item points to. -/
theorem first_iff (h : Split m array l c r) :
    c.addr = headAddr ((l ++ c :: r).map Branch.entry) nullPtr ↔ l = [] := by
  cases l with
  | nil => exact iff_of_true rfl rfl
  | cons e l =>
      refine iff_of_false (fun heq => h.child_notMem.1 ?_) (List.cons_ne_nil e l)
      rw [heq]
      exact List.mem_cons_self ..

end Split

/-- The item points to the next child if the one that goes was the first one. -/
theorem childOut_eq (m' : Memory) {n : Node Ptr (Twig Ptr Cell)} {q : Ptr} (hs : Split m array l c r)
    (hn : m'.items array = some n)
    (hchild : n.val.child = headAddr ((l ++ c :: r).map Branch.entry) nullPtr)
    (hc : m'.items c.addr = some ⟨c.twig, q, headAddr (r.map Branch.entry) nullPtr⟩) :
    ∃ m₁, (if c.addr = n.val.child then (m'.items c.addr).bind fun k => m'.setChild array k.next
        else some m') = some m₁ ∧ Relinked m' m₁ ∧
      m₁.items array = some { n with val.child := headAddr ((l ++ r).map Branch.entry) nullPtr } ∧
      ∀ x, x ≠ array → m₁.items x = m'.items x := by
  have hfirst := hs.first_iff
  rw [← hchild] at hfirst
  by_cases hempty : l = []
  · rw [if_pos (hfirst.2 hempty), hc, Option.bind_some, setChild_eq hn, hempty]
    exact ⟨_, rfl, Relinked.setChild (setChild_eq hn), Heap.set_self ..,
      fun x hx => Heap.set_of_ne m'.items _ hx⟩
  · have hne : l.map Branch.entry ≠ [] := mt List.map_eq_nil_iff.1 hempty
    have hkeep : headAddr ((l ++ r).map Branch.entry) nullPtr = n.val.child := by
      rw [hchild, List.map_append, List.map_append, headAddr_append, headAddr_append]
      exact headAddr_of_ne_nil hne _ _
    rw [if_neg (mt hfirst.1 hempty), hkeep]
    exact ⟨m', rfl, Relinked.refl m', hn, fun x _ => rfl⟩

/-- **`cJSON_DetachItemFromArray`** takes a child out. -/
theorem Site.detachItemFromArray (h : Site m array d []) (hl : d.children.toList = l ++ c :: r)
    {which : Int} (hwhich : which.toNat = l.length) :
    ∃ m', m.cJSONDetachItemFromArray array which = some (c.addr, m') ∧ Relinked m m' ∧
      Rewired cJSONLayout m.items m'.items array d [] (l ++ r) [c] := by
  obtain ⟨n, hn, -, hchild⟩ := h.exists_node
  have hs := h.split hl
  obtain ⟨hal, hac, har⟩ := hs.array_notMem
  obtain ⟨hcl, hcr⟩ := hs.child_notMem
  obtain ⟨hndl, hndr, hlr⟩ := hs.sides
  have hfreel := hs.nullFree (List.subset_append_left ..)
  have hfreer := hs.nullFree_right
  have hcnull := hs.child_ne_null
  have hnth := h.nth_child hchild hl hwhich
  -- the neighbours
  obtain ⟨h₁, hset₁, hleft, hframe₁⟩ :=
    hs.left.setNextIf hfreel hndl (headAddr (r.map Branch.entry) nullPtr)
  rw [map_entry_fst] at hframe₁
  have hright₁ : Seg h₁ c.addr (r.map Branch.entry) nullPtr := hs.right.congr fun x hx =>
    hframe₁ x.1 fun hmem => hlr x.1 hmem (map_entry_fst r ▸ List.mem_map_of_mem hx)
  obtain ⟨h₂, hset₂, hright, hframe₂⟩ :=
    hright₁.setPreIf hfreer hndr (lastAddr nullPtr (l.map Branch.entry))
  rw [map_entry_fst] at hframe₂
  have hc₁ : h₁ c.addr = some ⟨c.twig, lastAddr nullPtr (l.map Branch.entry),
      headAddr (r.map Branch.entry) nullPtr⟩ := (hframe₁ _ hcl).trans hs.node
  have hc₂ := (hframe₂ _ hcr).trans hc₁
  have hn₂ : h₂ array = some n := (hframe₂ _ har).trans ((hframe₁ _ hal).trans hn)
  obtain ⟨m₃, hset₃, hm₃, hn₃, hframe₃⟩ :=
    childOut_eq { m with items := h₂ } hs hn₂ (hl ▸ hchild) hc₂
  -- the child is on its own
  have hc₃ := (hframe₃ _ hac.symm).trans hc₂
  obtain ⟨h₄, hset₄, hc₄, hframe₄⟩ := setNext_node hc₃ nullPtr
  obtain ⟨h₅, hset₅, hc₅, hframe₅⟩ := setPre_node hc₄ nullPtr
  have hframe : ∀ x, x ≠ c.addr → x ≠ array → h₅ x = h₂ x := fun x hxc hxa =>
    ((hframe₅ x hxc).trans (hframe₄ x hxc)).trans (hframe₃ x hxa)
  refine ⟨{ m₃ with items := h₅ }, ?_, ?_, rewired_of hn ?_ ?_ ?_ ?_ ?_⟩
  · simp only [cJSONDetachItemFromArray, hn, hnth, if_neg hcnull, hs.node, hset₁, hc₁, hset₂, hn₂,
      hset₃, hset₄, hset₅, Option.bind_eq_bind, Option.bind_some]
  · refine ⟨hm₃.strings, hm₃.live, hm₃.answers, fun x => ?_⟩
    rw [setPre_isSome hset₅, setNext_isSome hset₄, hm₃.isSome]
    exact (setPreIf_isSome hset₂ x).trans (setNextIf_isSome hset₁ x)
  · exact ((hframe₅ array hac).trans (hframe₄ array hac)).trans hn₃
  · rw [List.map_append]
    refine seg_append.2 ⟨hleft.congr fun x hx => ?_, hright.congr fun x hx => ?_⟩
    · have hx' := addr_mem_of_entry hx
      exact (hframe x.1 (ne_of_mem_of_not_mem hx' hcl) (ne_of_mem_of_not_mem hx' hal)).trans
        (hframe₂ x.1 (hlr _ hx'))
    · have hx' := addr_mem_of_entry hx
      exact hframe x.1 (ne_of_mem_of_not_mem hx' hcr) (ne_of_mem_of_not_mem hx' har)
  · rintro e he
    rw [List.mem_singleton.1 he]
    exact hc₅
  · intro x hxa hx
    rw [hl, List.append_nil, List.map_append, List.map_cons, List.mem_append, List.mem_cons, not_or,
      not_or] at hx
    exact ((hframe x hx.2.1 hxa).trans (hframe₂ x hx.2.2)).trans (hframe₁ x hx.1)
  · rw [hl, List.append_nil, List.append_assoc]
    exact (List.perm_append_singleton c r).append_left l

/-- Nothing is detached behind the last child. -/
theorem Site.detachItemFromArray_out (h : Site m array d out) {which : Int}
    (hwhich : d.children.toList.length ≤ which.toNat) :
    m.cJSONDetachItemFromArray array which = some (nullPtr, m) := by
  obtain ⟨n, hn, -, hchild⟩ := h.exists_node
  simp only [cJSONDetachItemFromArray, hn, h.nth_out hchild hwhich, Option.bind_eq_bind,
    Option.bind_some, if_true]

/-! ## Putting in -/

/-- The link to an item that is put in: from the one before it, or from the item above. -/
theorem linkIn_eq (m' : Memory) {n : Node Ptr (Twig Ptr Cell)} {t : Twig Ptr Cell} {q : Ptr}
    (hs : Split m array l c r) (hn : m'.items array = some n)
    (hchild : n.val.child = headAddr ((l ++ c :: r).map Branch.entry) nullPtr)
    (hleft : Seg m'.items nullPtr (l.map Branch.entry) c.addr)
    (hb : m'.items b.addr = some ⟨t, lastAddr nullPtr (l.map Branch.entry), q⟩) :
    ∃ m₁, m'.linkIn array c.addr b.addr = some m₁ ∧ Relinked m' m₁ ∧
      m₁.items array = some { n with val.child := headAddr (l.map Branch.entry) b.addr } ∧
      Seg m₁.items nullPtr (l.map Branch.entry) b.addr ∧
      ∀ x, x ≠ array → x ∉ l.map Branch.addr → m₁.items x = m'.items x := by
  have hfirst := hs.first_iff
  rw [← hchild] at hfirst
  rw [linkIn, hn, Option.bind_eq_bind, Option.bind_some]
  by_cases hempty : l = []
  · rw [if_pos (hfirst.2 hempty), setChild_eq hn, hempty]
    exact ⟨_, rfl, Relinked.setChild (setChild_eq hn), Heap.set_self .., trivial,
      fun x hx _ => Heap.set_of_ne m'.items _ hx⟩
  · have hne : l.map Branch.entry ≠ [] := mt List.map_eq_nil_iff.1 hempty
    obtain ⟨h₁, hset, hseg, hframe⟩ := hleft.setNext hne hs.sides.1 b.addr
    rw [map_entry_fst] at hframe
    have hkeep : headAddr (l.map Branch.entry) b.addr = n.val.child := by
      rw [hchild, List.map_append, headAddr_append]
      exact headAddr_of_ne_nil hne _ _
    simp only [if_neg (mt hfirst.1 hempty), hb, hset, Option.bind_some, Option.bind_eq_bind]
    refine ⟨_, rfl, ⟨rfl, rfl, rfl, setNext_isSome hset⟩, ?_, hseg, fun x _ hx => hframe x hx⟩
    rw [hkeep]
    exact (hframe array hs.array_notMem.1).trans hn

/-- The links of an item that is put in. -/
theorem Site.linkNew (h : Site m array d [b]) (q p : Ptr) :
    ∃ h₁ h₂, setNext m.items b.addr q = some h₁ ∧ setPre h₁ b.addr p = some h₂ ∧
      h₂ b.addr = some ⟨b.twig, p, q⟩ ∧ (∀ x, x ≠ b.addr → h₁ x = m.items x) ∧
      (∀ x, x ≠ b.addr → h₂ x = m.items x) ∧ ∀ x, (h₂ x).isSome = (m.items x).isSome := by
  obtain ⟨h₁, hset₁, hb₁, hframe₁⟩ := setNext_node (h.loose b (List.mem_singleton_self b)) q
  obtain ⟨h₂, hset₂, hb₂, hframe₂⟩ := setPre_node hb₁ p
  refine ⟨h₁, h₂, hset₁, hset₂, hb₂, hframe₁, fun x hx => (hframe₂ x hx).trans (hframe₁ x hx), fun x => ?_⟩
  exact (setPre_isSome hset₂ x).trans (setNext_isSome hset₁ x)

/-- **`cJSON_InsertItemInArray`** puts the item in before a child. -/
theorem Site.insertItemInArray (h : Site m array d [b]) (hl : d.children.toList = l ++ c :: r)
    {which : Int} (hwhich : which.toNat = l.length) :
    ∃ m', m.cJSONInsertItemInArray array which b.addr = some m' ∧ Relinked m m' ∧
      Rewired cJSONLayout m.items m'.items array d [b] (l ++ b :: c :: r) [] := by
  obtain ⟨n, hn, -, hchild⟩ := h.exists_node
  have hs := h.split hl
  obtain ⟨hal, hac, har⟩ := hs.array_notMem
  obtain ⟨hcl, hcr⟩ := hs.child_notMem
  obtain ⟨hndl, hndr, hlr⟩ := hs.sides
  obtain ⟨hbch, hba, hbnull⟩ := h.new_notMem
  rw [hl, List.map_append, List.map_cons, List.mem_append, List.mem_cons, not_or, not_or] at hbch
  have hcnull := hs.child_ne_null
  -- the links of the new one
  obtain ⟨h₁, h₂, hset₁, hset₂, hb₂, hframe₁, hold, hsome₂⟩ :=
    h.linkNew c.addr (lastAddr nullPtr (l.map Branch.entry))
  have hc₁ := (hframe₁ c.addr (Ne.symm hbch.2.1)).trans hs.node
  -- the child behind it
  have hbehind : Seg m.items (lastAddr nullPtr (l.map Branch.entry)) ((c :: r).map Branch.entry) nullPtr :=
    ⟨hs.node, hs.right⟩
  have hndc : AddrNodup ((c :: r).map Branch.entry) := by
    rw [AddrNodup, map_entry_fst]
    exact List.nodup_cons.2 ⟨hcr, map_entry_fst r ▸ hndr⟩
  have hbc : b.addr ∉ (c :: r).map Branch.addr := fun hmem =>
    (List.mem_cons.1 hmem).elim hbch.2.1 hbch.2.2
  have hac' : array ∉ (c :: r).map Branch.addr := fun hmem => (List.mem_cons.1 hmem).elim hac har
  have hlc : ∀ x ∈ l.map Branch.addr, x ∉ (c :: r).map Branch.addr := fun x hx hmem =>
    (List.mem_cons.1 hmem).elim (ne_of_mem_of_not_mem hx hcl) (hlr x hx)
  obtain ⟨h₃, hset₃, hright, hframe₃⟩ := (hbehind.congr fun x hx => hold x.1
    (ne_of_mem_of_not_mem (addr_mem_of_entry hx) hbc)).setPre
      (mt List.map_eq_nil_iff.1 (List.cons_ne_nil c r)) hndc b.addr
  rw [map_entry_fst] at hframe₃
  -- the link to it
  have hn₃ : h₃ array = some n := ((hframe₃ array hac').trans (hold array hba.symm)).trans hn
  have hb₃ := (hframe₃ b.addr hbc).trans hb₂
  obtain ⟨m₁, hlink, hm₁, hn₁, hleft, hframe₄⟩ := linkIn_eq { m with items := h₃ } hs hn₃
    (hl ▸ hchild) (hs.left.congr fun x hx => (hframe₃ x.1 (hlc _ (addr_mem_of_entry hx))).trans
      (hold x.1 (ne_of_mem_of_not_mem (addr_mem_of_entry hx) hbch.1))) hb₃
  refine ⟨m₁, ?_, ?_, rewired_of hn ?_ ?_ (fun _ he => absurd he List.not_mem_nil) ?_ ?_⟩
  · have hset₃' : setPre h₂ c.addr b.addr = some h₃ := hset₃
    simp only [cJSONInsertItemInArray, hn, h.nth_child hchild hl hwhich, if_neg hcnull, hset₁, hc₁,
      hset₂, hset₃', hlink, Option.bind_eq_bind, Option.bind_some]
  · refine ⟨hm₁.strings, hm₁.live, hm₁.answers, fun x => (hm₁.isSome x).trans ?_⟩
    exact (setPre_isSome hset₃ x).trans (hsome₂ x)
  · rw [hn₁, List.map_append, headAddr_append]
    rfl
  · rw [List.map_append]
    refine seg_append.2 ⟨hleft, ?_, hright.congr fun x hx => ?_⟩
    · exact (hframe₄ b.addr hba hbch.1).trans hb₃
    · have hx' := addr_mem_of_entry hx
      exact hframe₄ x.1 (ne_of_mem_of_not_mem hx' hac') fun hmem => hlc x.1 hmem hx'
  · intro x hxa hx
    rw [hl, List.map_append, List.map_append, List.mem_append, List.mem_append, not_or, not_or] at hx
    have hxb : x ≠ b.addr := fun heq => hx.2 (List.mem_singleton.2 heq)
    exact ((hframe₄ x hxa hx.1.1).trans (hframe₃ x hx.1.2)).trans (hold x hxb)
  · rw [hl, List.append_nil, List.append_assoc]
    exact (List.perm_append_singleton b (c :: r)).symm.append_left l

/-- **`cJSON_ReplaceItemInArray`** puts the item in the place of a child before it deletes the child. -/
theorem Site.replaceItemInArray (h : Site m array d [b]) (hl : d.children.toList = l ++ c :: r)
    {which : Int} (hwhich : which.toNat = l.length) :
    ∃ m', m.cJSONReplaceItemInArray array which b.addr = m'.cJSONDelete c.addr ∧ Relinked m m' ∧
      Rewired cJSONLayout m.items m'.items array d [b] (l ++ b :: r) [c] := by
  obtain ⟨n, hn, -, hchild⟩ := h.exists_node
  have hs := h.split hl
  obtain ⟨hal, hac, har⟩ := hs.array_notMem
  obtain ⟨hcl, hcr⟩ := hs.child_notMem
  obtain ⟨hndl, hndr, hlr⟩ := hs.sides
  obtain ⟨hbch, hba, hbnull⟩ := h.new_notMem
  rw [hl, List.map_append, List.map_cons, List.mem_append, List.mem_cons, not_or, not_or] at hbch
  have hcnull := hs.child_ne_null
  have hfreer := hs.nullFree_right
  -- the links of the new one are those of the child
  obtain ⟨h₁, h₂, hset₁, hset₂, hb₂, hframe₁, hold, hsome₂⟩ :=
    h.linkNew (headAddr (r.map Branch.entry) nullPtr) (lastAddr nullPtr (l.map Branch.entry))
  have hc₁ := (hframe₁ c.addr (Ne.symm hbch.2.1)).trans hs.node
  -- the ones behind it
  obtain ⟨h₃, hset₃, hright, hframe₃⟩ := (hs.right.congr fun x hx => hold x.1
    (ne_of_mem_of_not_mem (addr_mem_of_entry hx) hbch.2.2)).setPreIf hfreer hndr b.addr
  rw [map_entry_fst] at hframe₃
  -- the link to it
  have hn₃ : h₃ array = some n := ((hframe₃ array har).trans (hold array hba.symm)).trans hn
  have hb₃ := (hframe₃ b.addr hbch.2.2).trans hb₂
  obtain ⟨m₁, hlink, hm₁, hn₁, hleft, hframe₄⟩ := linkIn_eq { m with items := h₃ } hs hn₃
    (hl ▸ hchild) (hs.left.congr fun x hx => (hframe₃ x.1 (hlr _ (addr_mem_of_entry hx))).trans
      (hold x.1 (ne_of_mem_of_not_mem (addr_mem_of_entry hx) hbch.1))) hb₃
  -- the child is on its own
  have hc₃ := ((hframe₄ c.addr hac.symm hcl).trans (hframe₃ c.addr hcr)).trans
    ((hold c.addr (Ne.symm hbch.2.1)).trans hs.node)
  obtain ⟨h₄, hset₄, hc₄, hframe₅⟩ := setPre_node hc₃ nullPtr
  obtain ⟨h₅, hset₅, hc₅, hframe₆⟩ := setNext_node hc₄ nullPtr
  have hframe : ∀ x, x ≠ c.addr → h₅ x = m₁.items x := fun x hx => (hframe₆ x hx).trans (hframe₅ x hx)
  refine ⟨{ m₁ with items := h₅ }, ?_, ?_, rewired_of hn ?_ ?_ ?_ ?_ ?_⟩
  · simp only [cJSONReplaceItemInArray, hn, h.nth_child hchild hl hwhich, if_neg hcnull, hs.node, hset₁,
      hc₁, hset₂, hb₂, hset₃, hlink, hset₄, hset₅, Option.bind_eq_bind, Option.bind_some]
  · refine ⟨hm₁.strings, hm₁.live, hm₁.answers, fun x => ?_⟩
    rw [setNext_isSome hset₅, setPre_isSome hset₄, hm₁.isSome]
    exact (setPreIf_isSome hset₃ x).trans (hsome₂ x)
  · refine (hframe array hac).trans ?_
    rw [hn₁, List.map_append, headAddr_append]
    rfl
  · rw [List.map_append]
    refine seg_append.2 ⟨hleft.congr fun x hx => ?_, ?_, hright.congr fun x hx => ?_⟩
    · exact hframe x.1 (ne_of_mem_of_not_mem (addr_mem_of_entry hx) hcl)
    · exact ((hframe b.addr hbch.2.1).trans (hframe₄ b.addr hba hbch.1)).trans hb₃
    · have hx' := addr_mem_of_entry hx
      exact (hframe x.1 (ne_of_mem_of_not_mem hx' hcr)).trans
        (hframe₄ x.1 (ne_of_mem_of_not_mem hx' har) fun hmem => hlr x.1 hmem hx')
  · rintro e he
    rw [List.mem_singleton.1 he]
    exact hc₅
  · intro x hxa hx
    rw [hl, List.map_append, List.map_append, List.map_cons, List.mem_append, List.mem_append,
      List.mem_cons, not_or, not_or, not_or] at hx
    have hxb : x ≠ b.addr := fun heq => hx.2 (List.mem_singleton.2 heq)
    exact (((hframe x hx.1.2.1).trans (hframe₄ x hxa hx.1.1)).trans (hframe₃ x hx.1.2.2)).trans (hold x hxb)
  · rw [hl, List.append_assoc, List.append_assoc]
    refine List.Perm.append_left l ?_
    exact (List.perm_append_singleton c (b :: r)).trans
      (((List.perm_append_singleton b r).symm).cons c)

/-! ## In the forest -/

/-- Other children for an item of the forest. -/
def Forest.edit (array : Ptr) (f : List (Branch Ptr Cell) → List (Branch Ptr Cell)) (F : Forest) : Forest :=
  ((ofList F).edit nullPtr array f).toList

/-- An item of the forest with what is below it. -/
def Forest.find (array : Ptr) (F : Forest) : Option (Branch Ptr Cell) := (ofList F).find array

variable {G : Forest} {lost : List Ptr} {bs res : List (Branch Ptr Cell)}
  {f : List (Branch Ptr Cell) → List (Branch Ptr Cell)}

theorem map_addr_sublist (bs : List (Branch Ptr Cell)) :
    (bs.map Branch.addr).Sublist (bs.flatMap Branch.addrs) := by
  induction bs with
  | nil => exact List.Sublist.refl _
  | cons b bs ih =>
      rw [List.map_cons, List.flatMap_cons, Branch.addrs, Branch.gather, List.singleton_append,
        List.cons_append]
      exact (ih.trans (List.sublist_append_right ..)).cons_cons b.addr

theorem Owns.stand (h : Owns m (out ++ G) lost) : cJSONLayout.Stand m.items false nullPtr (ofList G) := by
  refine stand_apart_iff.2 fun e he => h.roots e ?_
  rw [toList_ofList] at he
  exact List.mem_append_right out he

theorem Forest.addrs_append (F G : Forest) : Forest.addrs (F ++ G) = F.addrs ++ (ofList G).addrs := by
  rw [Forest.addrs, List.flatMap_append, Siblings.addrs, gather_ofList]
  rfl

/-- An item of the forest that is not a reference is one whose children may be changed. -/
theorem Owns.site (h : Owns m (out ++ G) lost) (hd : G.find array = some d)
    (hown : d.twig.val.isReference = false) : Site m array d out := by
  obtain ⟨hnode, hinner⟩ := h.stand.find hd
  have hnodup := h.items.nodup
  have hnull := h.null_notMem
  have hlive := h.live
  rw [Forest.addrs_append] at hnodup hnull hlive
  have hself : (array :: d.children.addrs).Sublist (ofList G).addrs := by
    have hsub := find_sublist (fun addr _ => [addr]) hd
    rw [Branch.gather, find_addr hd] at hsub
    exact hsub
  have hbelow : (d.children.toList.map Branch.addr).Sublist d.children.addrs := by
    rw [Siblings.addrs, gather_eq_flatMap]
    exact map_addr_sublist _
  have hall : (out.map Branch.addr ++ array :: d.children.toList.map Branch.addr).Sublist
      (Forest.addrs out ++ (ofList G).addrs) :=
    (map_addr_sublist out).append ((hbelow.cons_cons array).trans hself)
  have hperm : (array :: (d.children.toList ++ out).map Branch.addr).Perm
      (out.map Branch.addr ++ array :: d.children.toList.map Branch.addr) := by
    rw [List.map_append]
    show ((array :: d.children.toList.map Branch.addr) ++ out.map Branch.addr).Perm _
    exact List.perm_append_comm
  refine ⟨hnode, hinner.fits.owned hown, (holds_iff.1 hinner.below).1,
    fun e he => (h.roots e (List.mem_append_left _ he)).node, hperm.nodup_iff.2 (hnodup.sublist hall),
    fun hmem => hnull (hall.subset (hperm.mem_iff.1 (List.mem_cons_of_mem array hmem))), ?_⟩
  have hlen := hall.length_le
  rw [← hlive, List.length_append, List.length_cons, List.length_map, List.length_map] at hlen
  omega

/-- **A surgery keeps the forest a forest.** -/
theorem Owns.rewire (h : Owns m (out ++ G) lost) (hd : G.find array = some d)
    (hown : d.twig.val.isReference = false) (hm : Relinked m m')
    (hr : Rewired cJSONLayout m.items m'.items array d out bs res) (hf : f d.children.toList = bs) :
    Owns m' (res ++ Forest.edit array f G) lost := by
  have hnodup := h.items.nodup
  rw [Forest.addrs_append] at hnodup
  obtain ⟨hstand, halone, hgather⟩ := hr.forest h.stand
    (fun e he => h.roots e (List.mem_append_left _ he)) hnodup hd hown hf
  have hperm : ∀ {W : Type} (g : Ptr → Cell → List W), ((out ++ G).flatMap (Branch.gather g)).Perm
      ((res ++ Forest.edit array f G).flatMap (Branch.gather g)) := by
    intro W g
    rw [List.flatMap_append, List.flatMap_append, Forest.edit, ← gather_eq_flatMap, ← gather_ofList g G]
    exact (hgather g).symm
  refine ⟨fun e he => ?_, ?_, ?_, fun c hc => h.sound c ((hperm _).mem_iff.2 hc), ?_, ?_⟩
  · rcases List.mem_append.1 he with he | he
    · exact halone e he
    · exact stand_apart_iff.1 hstand e he
  · exact (h.items.congr hm.isSome).perm (hperm fun addr _ => [addr])
  · rw [hm.strings]
    exact h.strings.perm ((hperm _).append_right lost)
  · rw [hm.live, h.live]
    exact (hperm fun addr _ => [addr]).length_eq
  · rw [← Option.not_isSome_iff_eq_none, hm.isSome, h.null]
    exact Bool.false_ne_true

end XToolkits.Json
