import XToolkits.Lib.Ring

set_option autoImplicit false

/-! # Lists of nodes that end

The other kind of list of nodes that know the one before and the one after them: before the first one
and behind the last one there is `null`. The walks are the loops that programs run along such a list,
and a guarded write is one that is left out where there is no neighbour. -/

namespace XToolkits

variable {A V : Type}

section Walks

variable [DecidableEq A]

/-! ## Walks -/

/-- `while (c && k > 0) c = c->next, k--;` -/
def nth (h : Heap A (Node A V)) (null : A) : Nat → A → Option A
  | 0, c => some c
  | k + 1, c =>
      if c = null then some null
      else do
        let n ← h c
        nth h null k n.next

/-- `while (c->next) c = c->next;` -/
def lastNode (h : Heap A (Node A V)) (null : A) : Nat → A → Option A
  | 0, _ => none
  | fuel + 1, c => do
      let n ← h c
      if n.next = null then some c else lastNode h null fuel n.next

/-- `while (c && ! P(c)) i++, c = c->next;` -/
def indexWhere (h : Heap A (Node A V)) (null : A) (P : V → Option Bool) :
    Nat → A → Nat → Option (A × Nat)
  | 0, _, _ => none
  | fuel + 1, c, i =>
      if c = null then some (null, i)
      else do
        let n ← h c
        if ← P n.val then some (c, i) else indexWhere h null P fuel n.next (i + 1)

/-- `if (a) a->next = b;` and `if (a) a->pre = b;` -/
def setNextIf (h : Heap A (Node A V)) (null a b : A) : Option (Heap A (Node A V)) :=
  if a = null then some h else setNext h a b

def setPreIf (h : Heap A (Node A V)) (null a b : A) : Option (Heap A (Node A V)) :=
  if a = null then some h else setPre h a b

end Walks

/-! ## The ends -/

variable {h h' : Heap A (Node A V)} {null p q : A} {x : A × V} {xs ys : List (A × V)}

/-- No node is at `null`. -/
def NullFree (null : A) (xs : List (A × V)) : Prop := ∀ x ∈ xs, x.1 ≠ null

theorem NullFree.tail (hn : NullFree null (x :: xs)) : NullFree null xs :=
  fun y hy => hn y (List.mem_cons_of_mem x hy)

theorem NullFree.head_eq_null (hn : NullFree null xs) : headAddr xs null = null ↔ xs = [] := by
  cases xs with
  | nil => exact iff_of_true rfl rfl
  | cons x xs => exact iff_of_false (hn x (List.mem_cons_self ..)) (List.cons_ne_nil x xs)

theorem NullFree.last_eq_null (hn : NullFree null xs) : lastAddr null xs = null ↔ xs = [] := by
  rcases List.eq_nil_or_concat xs with rfl | ⟨ys, y, rfl⟩
  · exact iff_of_true rfl rfl
  · rw [List.concat_eq_append] at hn ⊢
    rw [lastAddr_concat]
    exact iff_of_false (hn y (by simp)) (by simp)

theorem headAddr_cons (x : A × V) (xs : List (A × V)) (q : A) : headAddr (x :: xs) q = x.1 := rfl

variable [DecidableEq A]

/-! ## What the walks find -/

theorem Seg.nth (hs : Seg h p xs null) (hn : NullFree null xs) (k : Nat) :
    XToolkits.nth h null k (headAddr xs null) = some (headAddr (xs.drop k) null) := by
  induction k generalizing p xs with
  | zero => rfl
  | succ k ih =>
      cases xs with
      | nil => exact if_pos rfl
      | cons x xs =>
          have hx : headAddr (x :: xs) null ≠ null := hn x (List.mem_cons_self ..)
          rw [XToolkits.nth, if_neg hx]
          simp only [headAddr_cons, hs.1, Option.bind_eq_bind, Option.bind_some]
          exact ih hs.2 hn.tail

theorem Seg.lastNode (hs : Seg h p (x :: xs) null) (hn : NullFree null (x :: xs)) {fuel : Nat}
    (hfuel : xs.length < fuel) :
    XToolkits.lastNode h null fuel x.1 = some (lastAddr p (x :: xs)) := by
  induction xs generalizing p x fuel with
  | nil =>
      obtain ⟨fuel, rfl⟩ := Nat.exists_eq_add_of_lt hfuel
      simp only [XToolkits.lastNode, hs.1, Option.bind_eq_bind, Option.bind_some]
      exact if_pos rfl
  | cons y ys ih =>
      cases fuel with
      | zero => exact absurd hfuel (Nat.not_lt_zero _)
      | succ fuel =>
          have hy : y.1 ≠ null := hn.tail y (List.mem_cons_self ..)
          simp only [XToolkits.lastNode, hs.1, headAddr_cons, Option.bind_eq_bind, Option.bind_some]
          rw [if_neg hy, ih hs.2 hn.tail (Nat.lt_of_succ_lt_succ hfuel)]
          rfl

theorem Seg.indexWhere (hs : Seg h p xs null) (hn : NullFree null xs) {P : V → Option Bool}
    {Q : V → Bool} (hP : ∀ x ∈ xs, P x.2 = some (Q x.2)) {fuel : Nat} (hfuel : xs.length < fuel)
    (i : Nat) :
    XToolkits.indexWhere h null P fuel (headAddr xs null) i =
      some (headAddr (xs.drop (xs.findIdx fun x => Q x.2)) null,
        i + xs.findIdx fun x => Q x.2) := by
  induction xs generalizing p fuel i with
  | nil =>
      obtain ⟨fuel, rfl⟩ := Nat.exists_eq_add_of_lt hfuel
      exact if_pos rfl
  | cons x xs ih =>
      cases fuel with
      | zero => exact absurd hfuel (Nat.not_lt_zero _)
      | succ fuel =>
          have hx : headAddr (x :: xs) null ≠ null := hn x (List.mem_cons_self ..)
          rw [XToolkits.indexWhere, if_neg hx]
          simp only [headAddr_cons, hs.1, hP x (List.mem_cons_self ..), Option.bind_eq_bind,
            Option.bind_some, List.findIdx_cons]
          cases Q x.2 with
          | true => rfl
          | false =>
              rw [if_neg Bool.false_ne_true, ih hs.2 hn.tail
                (fun y hy => hP y (List.mem_cons_of_mem x hy)) (Nat.lt_of_succ_lt_succ hfuel)]
              simp only [cond_false, List.drop_succ_cons]
              rw [Nat.add_assoc, Nat.add_comm 1]

/-! ## Guarded writes -/

/-- A new successor for the last node, if there is one. -/
theorem Seg.setNextIf (hs : Seg h null xs q) (hn : NullFree null xs) (hnodup : AddrNodup xs) (q' : A) :
    ∃ h', XToolkits.setNextIf h null (lastAddr null xs) q' = some h' ∧ Seg h' null xs q' ∧
      ∀ a, a ∉ xs.map Prod.fst → h' a = h a := by
  by_cases hxs : xs = []
  · subst hxs
    exact ⟨h, if_pos rfl, trivial, fun _ _ => rfl⟩
  · rw [XToolkits.setNextIf, if_neg (mt hn.last_eq_null.1 hxs)]
    exact hs.setNext hxs hnodup q'

/-- A new predecessor for the first node, if there is one. -/
theorem Seg.setPreIf (hs : Seg h p xs null) (hn : NullFree null xs) (hnodup : AddrNodup xs) (p' : A) :
    ∃ h', XToolkits.setPreIf h null (headAddr xs null) p' = some h' ∧ Seg h' p' xs null ∧
      ∀ a, a ∉ xs.map Prod.fst → h' a = h a := by
  by_cases hxs : xs = []
  · subst hxs
    exact ⟨h, if_pos rfl, trivial, fun _ _ => rfl⟩
  · rw [XToolkits.setPreIf, if_neg (mt hn.head_eq_null.1 hxs)]
    exact hs.setPre hxs hnodup p'

/-- **One more at the end.** -/
theorem Seg.suffix {y : A × V} {o : A} (hs : Seg h p xs null) (hne : xs ≠ []) (hnodup : AddrNodup xs)
    (hy : h y.1 = some ⟨y.2, o, null⟩) (hnew : y.1 ∉ xs.map Prod.fst) :
    ∃ h₁ h₂, XToolkits.setNext h (lastAddr p xs) y.1 = some h₁ ∧
      XToolkits.setPre h₁ y.1 (lastAddr p xs) = some h₂ ∧ Seg h₂ p (xs ++ [y]) null ∧
      ∀ a, a ∉ (xs ++ [y]).map Prod.fst → h₂ a = h a := by
  obtain ⟨h₁, hset, hseg, hframe⟩ := hs.setNext hne hnodup y.1
  have hy₁ : h₁ y.1 = some ⟨y.2, o, null⟩ := (hframe y.1 hnew).trans hy
  refine ⟨h₁, h₁.set y.1 ⟨y.2, lastAddr p xs, null⟩, hset, ?_, ?_, fun a ha => ?_⟩
  · rw [XToolkits.setPre, hy₁]
    rfl
  · refine seg_append.2 ⟨hseg.congr fun x hx => Heap.set_of_ne h₁ _ ?_, Heap.set_self .., trivial⟩
    rintro heq
    exact hnew (heq ▸ List.mem_map_of_mem hx)
  · rw [List.map_append, List.mem_append, not_or] at ha
    rw [Heap.set_of_ne h₁ _ fun heq => ha.2 (List.mem_singleton.2 heq), hframe a ha.1]

/-- A link of one node. -/
theorem setNext_node {a : A} {n : Node A V} (ha : h a = some n) (b : A) :
    ∃ h', XToolkits.setNext h a b = some h' ∧ h' a = some { n with next := b } ∧
      ∀ x, x ≠ a → h' x = h x :=
  ⟨_, by rw [XToolkits.setNext, ha]; rfl, Heap.set_self .., fun _ hx => Heap.set_of_ne h _ hx⟩

theorem setPre_node {a : A} {n : Node A V} (ha : h a = some n) (b : A) :
    ∃ h', XToolkits.setPre h a b = some h' ∧ h' a = some { n with pre := b } ∧
      ∀ x, x ≠ a → h' x = h x :=
  ⟨_, by rw [XToolkits.setPre, ha]; rfl, Heap.set_self .., fun _ hx => Heap.set_of_ne h _ hx⟩

/-! ## Allocation -/

theorem setNext_isSome {a b : A} (hset : XToolkits.setNext h a b = some h') (x : A) :
    (h' x).isSome = (h x).isSome := by
  obtain ⟨n, hn, rfl⟩ := Option.map_eq_some_iff.1 hset
  by_cases hx : x = a
  · rw [hx, Heap.set_self, hn, Option.isSome_some, Option.isSome_some]
  · rw [Heap.set_of_ne h _ hx]

theorem setPre_isSome {a b : A} (hset : XToolkits.setPre h a b = some h') (x : A) :
    (h' x).isSome = (h x).isSome := by
  obtain ⟨n, hn, rfl⟩ := Option.map_eq_some_iff.1 hset
  by_cases hx : x = a
  · rw [hx, Heap.set_self, hn, Option.isSome_some, Option.isSome_some]
  · rw [Heap.set_of_ne h _ hx]

theorem setNextIf_isSome {a b : A} (hset : XToolkits.setNextIf h null a b = some h') (x : A) :
    (h' x).isSome = (h x).isSome := by
  rw [XToolkits.setNextIf] at hset
  split at hset
  · rw [Option.some.inj hset]
  · exact setNext_isSome hset x

theorem setPreIf_isSome {a b : A} (hset : XToolkits.setPreIf h null a b = some h') (x : A) :
    (h' x).isSome = (h x).isSome := by
  rw [XToolkits.setPreIf] at hset
  split at hset
  · rw [Option.some.inj hset]
  · exact setPre_isSome hset x

end XToolkits
