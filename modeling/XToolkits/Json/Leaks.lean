import XToolkits.Json.Calls

set_option autoImplicit false

/-! # Programs that lose nothing

Two functions forget strings: `cJSON_ReplaceItemInObject` the name that the new item had, and
`cJSON_AddItemToObjectCS` makes `cJSON_Delete` leave the names alone, also those that were allocated
afterwards. A program that does without the one, and names its items only once, gives everything back
when it deletes the roots that it has left. -/

namespace XToolkits.Json

open Siblings Memory

/-- A call that forgets no string. -/
def Call.Tidy (m : Memory) : Call → Prop
  | .addItemToObjectCS .. => False
  | .replaceItemInObject _ _ newitem =>
      ∀ n, m.items newitem = some n → n.val.val.string = .null
  | _ => True

/-- No item has the flag under which `cJSON_Delete` leaves the name alone. -/
def Clean (F : Forest) : Prop := ∀ c ∈ F.cells, c.stringIsConst = false

/-- No string is lost, and `cJSON_Delete` leaves none. -/
structure World.Neat (w : World) : Prop where
  lost : w.lost = []
  clean : Clean w.forest

variable {w w' : World} {m : Memory} {F G : Forest} {lost : List Ptr} {b d e : Branch Ptr Cell}
  {array : Ptr} {f : List (Branch Ptr Cell) → List (Branch Ptr Cell)}

/-! ## Items without the flag -/

theorem clean_cons : Clean (b :: F) ↔ Clean [b] ∧ Clean F := by
  unfold Clean Forest.cells
  simp only [List.flatMap_cons, List.flatMap_nil, List.append_nil, List.forall_mem_append]

theorem Clean.perm (h : Clean F) (hperm : F.Perm G) : Clean G :=
  fun c hc => h c ((hperm.flatMap_right _).mem_iff.2 hc)

theorem clean_leaf {a : Ptr} {v : Cell} (hv : v.type < 256) : Clean [leaf a v] := by
  intro c hc
  rw [show Forest.cells [leaf a v] = [v] from rfl, List.mem_singleton] at hc
  rw [hc]
  exact stringIsConst_of_lt hv

/-- A new name does not change the flag. -/
theorem Clean.renamed (h : Clean [b]) (name : CharPtr) : Clean [renamed b name] := by
  intro c hc
  rcases List.mem_cons.1 hc with rfl | hc
  · exact h b.twig.val (List.mem_cons_self ..)
  · exact h c (List.mem_cons_of_mem _ hc)

theorem clean_reference {a : Ptr} {t : Twig Ptr Cell} (ht : t.val.stringIsConst = false) :
    Clean [reference a t] := by
  intro c hc
  rw [show Forest.cells [reference a t] = [(reference a t).twig.val] from rfl, List.mem_singleton] at hc
  have htype : (t.val.type ||| cJSONIsReference) &&& cJSONStringIsConst =
      t.val.type &&& cJSONStringIsConst := by
    rw [Nat.and_or_distrib_right]
    exact Nat.or_zero _
  rw [hc, Cell.stringIsConst, reference, htype]
  exact ht

/-- Nothing of such items is left. -/
theorem Clean.stray (h : Clean [b]) : strayStrings b = [] := by
  refine List.eq_nil_iff_forall_not_mem.2 fun x hx => ?_
  rw [strayStrings, ← gather_onlyChild] at hx
  obtain ⟨c, hc, hx⟩ := (mem_gather _).1 hx
  rw [gather_onlyChild] at hc
  have hconst := h c (List.mem_append_left _ hc)
  rw [Cell.stray, hconst] at hx
  cases hx

theorem Clean.child (h : Clean F) (hd : At F array d) (he : e ∈ d.children.toList) : Clean [e] := by
  intro c hc
  rw [Forest.cells, List.flatMap_cons, List.flatMap_nil, List.append_nil] at hc
  exact h c (hd.gather_subset _ he hc)

/-- No item comes from anywhere else. -/
theorem Clean.edit {extra : Forest} (h : Clean G) (hextra : Clean extra)
    (hnodup : (ofList G).addrs.Nodup) (hd : At G array d)
    (hf : ∀ e ∈ f d.children.toList, e ∈ d.children.toList ∨ e ∈ extra) : Clean (G.edit array f) := by
  intro c hc
  have hperm : (((ofList G).edit nullPtr array f).gather (fun _ c => [c]) ++ _).Perm _ :=
    gather_edit (f := f) (fun _ c => [c]) hnodup hd.found
  rw [gather_ofList] at hperm
  have hedit : c ∈ ((ofList G).edit nullPtr array f).gather (fun _ c => [c]) := by
    rw [gather_eq_flatMap]
    exact hc
  rcases List.mem_append.1 (hperm.subset (List.mem_append_left _ hedit)) with hG | hnew
  · exact h c hG
  · obtain ⟨e, he, hce⟩ := List.mem_flatMap.1 hnew
    rcases hf e he with hold | hnew
    · exact h c (hd.gather_subset _ hold hce)
    · exact hextra c (List.mem_flatMap.2 ⟨e, hnew, hce⟩)

theorem clean_nil : Clean [] := fun _ hc => absurd hc List.not_mem_nil

theorem Clean.eraseIdx (h : Clean G) (hnodup : (ofList G).addrs.Nodup) (hd : At G array d) (k : Nat) :
    Clean (G.edit array (·.eraseIdx k)) :=
  h.edit clean_nil hnodup hd fun _ he => Or.inl (List.mem_of_mem_eraseIdx he)

/-- The value of an item is in the forest. -/
theorem Owns.mem_cells (h : Owns m F lost) {item : Ptr} {n : Node Ptr (Twig Ptr Cell)}
    (hn : m.items item = some n) : n.val.val ∈ F.cells := by
  have hmem : item ∈ (ofList F).addrs := by
    rw [addrs_ofList]
    exact (h.items.mem item).1 (by rw [hn]; rfl)
  obtain ⟨d, hfind⟩ := Option.isSome_iff_exists.1 (find_isSome.2 hmem)
  obtain ⟨⟨_, _, hnode⟩, -⟩ := h.standAll.find hfind
  rw [hn] at hnode
  rw [Option.some.inj hnode, Forest.cells, ← gather_ofList]
  exact (find_sublist _ hfind).subset (List.mem_append_left _ (List.mem_singleton_self _))

theorem Owns.nodup_ofList (h : Owns m F lost) : (ofList F).addrs.Nodup := by
  rw [addrs_ofList]
  exact h.items.nodup

theorem Move.nodup {item : Ptr} (hm : Move F array item b G d) (h : Owns m F lost) :
    (ofList G).addrs.Nodup := by
  rw [addrs_ofList]
  exact (List.nodup_append'.1 (h.perm hm.perm).items.nodup).2.1

theorem Move.clean {item : Ptr} (hm : Move F array item b G d) (h : Clean F) : Clean [b] ∧ Clean G :=
  clean_cons.1 (h.perm hm.perm)

/-! ## One call -/

theorem neat_of_leaves {lost released : List Ptr} (h : Leaves w w' F lost released)
    (hlost : lost = []) (hF : Clean F) : w'.Neat :=
  ⟨h.lost.trans hlost, h.forest ▸ hF⟩

theorem Creates.neat {es : List Answer} {v : Cell} (h : Creates w es w' v) (hw : w.Neat)
    (hv : v.type < 256) : w'.Neat := by
  rcases h with ⟨-, -, hleaves⟩ | ⟨-, a, -, -, hleaves⟩
  · exact neat_of_leaves hleaves hw.lost hw.clean
  · exact neat_of_leaves hleaves hw.lost (clean_cons.2 ⟨clean_leaf hv, hw.clean⟩)

theorem Detaches.neat {es : List Answer} {k : Branch Ptr Cell → Nat} (h : Detaches w es w' array k)
    (hvalid : w.Valid) (hw : w.Neat) : w'.Neat := by
  obtain ⟨d, hd, ⟨-, -, rfl⟩ | ⟨c, hc, -, hleaves⟩⟩ := h
  · exact hw
  · refine neat_of_leaves hleaves hw.lost (clean_cons.2 ⟨hw.clean.child hd (List.mem_of_getElem? hc), ?_⟩)
    exact hw.clean.eraseIdx hvalid.nodup_ofList hd _

theorem Removes.neat {k : Branch Ptr Cell → Nat} (h : Removes w w' array k) (hvalid : w.Valid)
    (hw : w.Neat) : w'.Neat := by
  obtain ⟨d, hd, ⟨-, rfl⟩ | ⟨c, hc, hleaves⟩⟩ := h
  · exact hw
  · have hstray := (hw.clean.child hd (List.mem_of_getElem? hc)).stray
    refine neat_of_leaves hleaves (by rw [hw.lost, hstray]; rfl) ?_
    exact hw.clean.eraseIdx hvalid.nodup_ofList hd _

/-- A root that becomes a child, or the child that it takes the place of. -/
theorem Clean.moved {item : Ptr} (h : Clean F) (hown : Owns m F lost) (hm : Move F array item b G d)
    {b' : Branch Ptr Cell} (hb' : Clean [b] → Clean [b'])
    (hf : ∀ e ∈ f d.children.toList, e ∈ d.children.toList ∨ e ∈ [b']) : Clean (G.edit array f) := by
  obtain ⟨hb, hG⟩ := hm.clean h
  exact hG.edit (hb' hb) (hm.nodup hown) hm.place hf

theorem mem_insertAt {α : Type} {k : Nat} {x y : α} {xs : List α} (hy : y ∈ insertAt k x xs) :
    y ∈ xs ∨ y ∈ [x] := by
  rw [insertAt, List.mem_append, List.mem_cons] at hy
  rcases hy with hy | rfl | hy
  · exact Or.inl (List.mem_of_mem_take hy)
  · exact Or.inr (List.mem_singleton_self _)
  · exact Or.inl (List.mem_of_mem_drop hy)

theorem mem_set {α : Type} {k : Nat} {x y : α} {xs : List α} (hy : y ∈ xs.set k x) :
    y ∈ xs ∨ y ∈ [x] :=
  (List.mem_or_eq_of_mem_set hy).imp_right fun heq => List.mem_singleton.2 heq

/-- **A tidy call** loses nothing. -/
theorem Call.Does.neat {c : Call} {es : List Answer} (h : c.Does w es w') (hvalid : w.Valid)
    (hw : w.Neat) (hc : c.Allowed w.memory w.forest) (htidy : c.Tidy w.memory) : w'.Neat := by
  cases c with
  | create type => exact Creates.neat h hw hc
  | createNumber num => exact Creates.neat h hw (show cJSONNumber < 256 by decide)
  | createString string =>
      obtain ⟨text, hcreates, -⟩ := h
      exact hcreates.neat hw (show cJSONString < 256 by decide)
  | delete c =>
      obtain ⟨-, ⟨-, rfl⟩ | ⟨b, G, hperm, -, hleaves⟩⟩ := h
      · exact hw
      · obtain ⟨hb, hG⟩ := clean_cons.1 (hw.clean.perm hperm)
        exact neat_of_leaves hleaves (by rw [hw.lost, hb.stray]; rfl) hG
  | addItemToArray array item =>
      obtain ⟨-, ⟨-, rfl⟩ | ⟨b, G, d, hm, hleaves⟩⟩ := h
      · exact hw
      · exact neat_of_leaves hleaves hw.lost
          (hw.clean.moved hvalid hm id fun e he => List.mem_append.1 he)
  | addItemToObject object string item =>
      obtain ⟨-, ⟨-, rfl⟩ | ⟨b, G, d, name, hm, -, hleaves⟩⟩ := h
      · exact hw
      · exact neat_of_leaves hleaves hw.lost
          (hw.clean.moved hvalid hm (·.renamed name) fun e he => List.mem_append.1 he)
  | addItemToObjectCS object s item => exact htidy.elim
  | addItemReferenceToArray array item =>
      obtain ⟨-, ⟨-, hleaves⟩ | ⟨-, a, n, hn, hleaves⟩⟩ := h
      · exact neat_of_leaves hleaves hw.lost hw.clean
      · obtain ⟨d, hd⟩ := hc.2
        have href : Clean [reference a n.val] := clean_reference (hw.clean _ (hvalid.mem_cells hn))
        exact neat_of_leaves hleaves hw.lost
          (hw.clean.edit href hvalid.nodup_ofList hd fun e he => List.mem_append.1 he)
  | addItemReferenceToObject object string item =>
      obtain ⟨-, ⟨-, hleaves⟩ | ⟨a, n, name, hn, -, hleaves⟩⟩ := h
      · exact neat_of_leaves hleaves hw.lost hw.clean
      · obtain ⟨d, hd⟩ := hc.2.1
        have href : Clean [reference a n.val] := clean_reference (hw.clean _ (hvalid.mem_cells hn))
        exact neat_of_leaves hleaves hw.lost
          (hw.clean.edit (href.renamed name) hvalid.nodup_ofList hd fun e he => List.mem_append.1 he)
  | detachItemFromArray array which => exact Detaches.neat h hvalid hw
  | deleteItemFromArray array which => exact h.2.neat hvalid hw
  | detachItemFromObject object string => exact Detaches.neat h hvalid hw
  | deleteItemFromObject object string => exact h.2.neat hvalid hw
  | insertItemInArray array which newitem =>
      obtain ⟨-, b, G, d, hm, hleaves⟩ := h
      exact neat_of_leaves hleaves hw.lost (hw.clean.moved hvalid hm id fun e he => mem_insertAt he)
  | replaceItemInArray array which newitem =>
      obtain ⟨-, b, G, d, hm, ⟨-, rfl⟩ | ⟨c, hchild, hleaves⟩⟩ := h
      · exact hw
      · have hstray := ((hm.clean hw.clean).2.child hm.place (List.mem_of_getElem? hchild)).stray
        exact neat_of_leaves hleaves (by rw [hw.lost, hstray]; rfl)
          (hw.clean.moved hvalid hm id fun e he => mem_set he)
  | replaceItemInObject object string newitem =>
      obtain ⟨-, b, G, d, hm, ⟨-, rfl⟩ | ⟨c, name, hchild, -, hleaves⟩⟩ := h
      · exact hw
      · -- the new item had no name that could be lost
        have hname : b.twig.val.string = .null := htidy _ (Owns.root_node hvalid hm)
        have hstray := ((hm.clean hw.clean).2.child hm.place (List.mem_of_getElem? hchild)).stray
        exact neat_of_leaves hleaves (by rw [hw.lost, hstray, hname]; rfl)
          (hw.clean.moved hvalid hm (·.renamed name) fun e he => mem_set he)
  | getArraySize array => exact h.1 ▸ hw
  | getArrayItem array item => exact h.1 ▸ hw
  | getObjectItem object string => exact h.1 ▸ hw

/-! ## Whole programs -/

/-- A call that is legal and forgets nothing. -/
def Call.LegalTidy (m : Memory) (c : Call) : Prop := c.Legal m ∧ c.Tidy m

theorem World.Neat.run (hw : w.Neat) (h : w.Valid) {cs : List Call}
    (hcs : EachStep Memory.step Call.LegalTidy w.memory cs) :
    ∃ (w' : World) (es : List Answer),
      XToolkits.run Memory.step w.memory cs = some (w'.memory, es) ∧ w'.Valid ∧ w'.Neat := by
  induction cs generalizing w with
  | nil => exact ⟨w, [], rfl, h, hw⟩
  | cons c cs ih =>
      obtain ⟨⟨hlegal, htidy⟩, hrest⟩ := eachStep_cons.1 hcs
      have hc := hlegal w.forest w.lost h
      obtain ⟨w', es, hstep, hvalid, hdoes⟩ := h.served hc
      obtain ⟨w'', es', hrun, hvalid', hneat⟩ :=
        ih (hdoes.neat h hw hc htidy) hvalid (hrest w'.memory es hstep)
      exact ⟨w'', es ++ es', run_cons_eq_some.2 ⟨w'.memory, es, es', hstep, hrun, rfl⟩, hvalid', hneat⟩

/-- Deleting the roots. -/
def deleteRoots (F : Forest) : List Call := F.map fun b => .delete b.addr

theorem Owns.eq_empty (h : Owns m [] []) : m = emptyMemory m.answers := by
  have hitems : m.items = fun _ => none := funext fun x => h.items.eq_none List.not_mem_nil
  have hstrings : m.strings = fun _ => none := funext fun x => h.strings.eq_none List.not_mem_nil
  have hlive : m.live = 0 := h.live
  obtain ⟨items, strings, live, answers⟩ := m
  subst hitems hstrings hlive
  rfl

/-- **Cleaning up** gives everything back. -/
theorem Owns.deleteRoots (h : Owns m F []) (hclean : Clean F) :
    XToolkits.run Memory.step m (deleteRoots F) = some (emptyMemory m.answers, []) := by
  induction F generalizing m with
  | nil => rw [← h.eq_empty]; rfl
  | cons b F ih =>
      obtain ⟨hb, hF⟩ := clean_cons.1 hclean
      obtain ⟨hdel, hown⟩ := h.delete
      rw [hb.stray, List.append_nil] at hown
      exact run_cons_eq_some.2 ⟨_, [], [], congrArg silent hdel, ih hown hF, rfl⟩

/-- **Main result.** A program of legal and tidy calls loses no string: when it deletes the roots it is
    left with, nothing is allocated any more. -/
theorem tidy_calls_lose_nothing (answers : Answers) (cs : List Call)
    (h : EachStep Memory.step Call.LegalTidy (emptyMemory answers) cs) :
    ∃ (w : World) (es : List Answer),
      XToolkits.run Memory.step (emptyMemory answers) cs = some (w.memory, es) ∧ w.Valid ∧
      w.lost = [] ∧ XToolkits.run Memory.step w.memory (deleteRoots w.forest) =
        some (emptyMemory w.memory.answers, []) := by
  have hempty : World.Valid ⟨emptyMemory answers, [], []⟩ := owns_empty answers
  have hneat : World.Neat ⟨emptyMemory answers, [], []⟩ := ⟨rfl, clean_nil⟩
  obtain ⟨w, es, hrun, hvalid, hw⟩ := hneat.run hempty h
  have hown : Owns w.memory w.forest [] := hw.lost ▸ hvalid
  exact ⟨w, es, hrun, hvalid, hw.lost, hown.deleteRoots hw.clean⟩

theorem sampleProgram_tidy :
    EachStep Memory.step Call.LegalTidy (emptyMemory sampleAnswers) sampleProgram := by
  intro pre c post m es hsplit hrun
  refine ⟨sampleProgram_legal pre c post m es hsplit hrun, ?_⟩
  have hmem : c ∈ sampleProgram := hsplit ▸ List.mem_append_right _ (List.mem_cons_self ..)
  unfold sampleProgram at hmem
  simp only [List.mem_cons, List.not_mem_nil, or_false] at hmem
  rcases hmem with rfl | rfl | rfl | rfl | rfl | rfl <;> trivial

/-- **A witness**: the program leaves roots, and deleting them gives everything back. -/
theorem tidy_calls_lose_nothing_sample : ∃ (w : World) (es : List Answer),
    XToolkits.run Memory.step (emptyMemory sampleAnswers) sampleProgram = some (w.memory, es) ∧ w.Valid ∧
      w.forest ≠ [] ∧ w.lost = [] ∧ XToolkits.run Memory.step w.memory (deleteRoots w.forest) =
        some (emptyMemory w.memory.answers, []) := by
  obtain ⟨w, es, hrun, hvalid, hlost, hdel⟩ :=
    tidy_calls_lose_nothing sampleAnswers sampleProgram sampleProgram_tidy
  refine ⟨w, es, hrun, hvalid, fun hnil => ?_, hlost, hdel⟩
  -- the object is still in memory
  obtain ⟨m, hrun', hobject, -⟩ := sampleProgram_run
  obtain ⟨rfl, -⟩ := Prod.mk.inj (Option.some.inj (hrun.symm.trans hrun'))
  have hmem := (hvalid.items.mem 1).1 hobject
  rw [hnil] at hmem
  cases hmem

end XToolkits.Json
