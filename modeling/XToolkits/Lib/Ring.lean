import Mathlib.Data.List.Nodup
import Mathlib.Order.Basic
import Mathlib.Tactic.Common

set_option autoImplicit false

/-! # Rings of nodes in a heap

A heap says which addresses are allocated and what is there. A ring is a circular list of nodes
that know the one before and the one after them; `Ring h xs` says that the nodes `xs` (address and
content, in the order of `next`) are one. It may be read from any of its nodes (`Ring.rotate`), so
what two writes do to it at one place (`Ring.unlink`, `Ring.link`) they do to it at every place. -/

namespace XToolkits

variable {A V : Type}

/-! ## Heaps -/

/-- What is at the addresses that are allocated. -/
def Heap (A V : Type) := A → Option V

/-- A node with its two links. -/
structure Node (A V : Type) where
  val : V
  pre : A
  next : A
  deriving DecidableEq, Repr

section Stores

variable [DecidableEq A]

namespace Heap

/-- Store at an address, and give an address back. -/
def set (h : Heap A V) (a : A) (v : V) : Heap A V := fun x => if x = a then some v else h x

def free (h : Heap A V) (a : A) : Heap A V := fun x => if x = a then none else h x

@[simp] theorem set_self (h : Heap A V) (a : A) (v : V) : h.set a v a = some v := if_pos rfl

theorem set_of_ne (h : Heap A V) {a x : A} (v : V) (hx : x ≠ a) : h.set a v x = h x := if_neg hx

@[simp] theorem free_self (h : Heap A V) (a : A) : h.free a a = none := if_pos rfl

theorem free_of_ne (h : Heap A V) {a x : A} (hx : x ≠ a) : h.free a x = h x := if_neg hx

end Heap

/-- `a->next = b` and `a->pre = b`: an error where nothing is allocated. -/
def setNext (h : Heap A (Node A V)) (a b : A) : Option (Heap A (Node A V)) :=
  (h a).map fun n => h.set a { n with next := b }

def setPre (h : Heap A (Node A V)) (a b : A) : Option (Heap A (Node A V)) :=
  (h a).map fun n => h.set a { n with pre := b }

/-- Link the neighbours of the node `a` with each other. -/
def unlink (h : Heap A (Node A V)) (a : A) : Option (Heap A (Node A V)) := do
  let n ← h a
  let h₁ ← setNext h n.pre n.next
  let n₁ ← h₁ a
  setPre h₁ n₁.next n₁.pre

/-- Link the node `a` in before the node `b`. -/
def linkBefore (h : Heap A (Node A V)) (a b : A) : Option (Heap A (Node A V)) := do
  let n ← h b
  let h₁ ← setPre h a n.pre
  let h₂ ← setNext h₁ a b
  let n₂ ← h₂ b
  let h₃ ← setNext h₂ n₂.pre a
  setPre h₃ b a

/-- From `a` on, the first node whose content has the property, up to the one before `first`. -/
def seek (h : Heap A (Node A V)) (first : A) (P : V → Bool) : Nat → A → Option (Option A)
  | 0, _ => none
  | fuel + 1, a => do
      let n ← h a
      if P n.val then some (some a)
      else if n.next = first then some none
      else seek h first P fuel n.next

/-- The nodes from `a` to the one before `first`. -/
def walk (h : Heap A (Node A V)) (first : A) : Nat → A → Option (List (A × V))
  | 0, _ => none
  | fuel + 1, a => do
      let n ← h a
      if n.next = first then some [(a, n.val)]
      else (walk h first fuel n.next).map ((a, n.val) :: ·)

end Stores

/-! ## Segments -/

/-- The address where a segment begins, or `q` if it is empty; the one where it ends, or `p`. -/
def headAddr : List (A × V) → A → A
  | [], q => q
  | x :: _, _ => x.1

def lastAddr : A → List (A × V) → A
  | p, [] => p
  | _, x :: xs => lastAddr x.1 xs

/-- The nodes `xs` are linked with each other, with `p` before them and `q` after them. -/
def Seg (h : Heap A (Node A V)) : A → List (A × V) → A → Prop
  | _, [], _ => True
  | p, x :: xs, q => h x.1 = some ⟨x.2, p, headAddr xs q⟩ ∧ Seg h x.1 xs q

variable {h h' : Heap A (Node A V)} {p q p' q' : A} {x : A × V} {xs ys : List (A × V)}

theorem headAddr_append (xs ys : List (A × V)) (q : A) :
    headAddr (xs ++ ys) q = headAddr xs (headAddr ys q) := by
  cases xs <;> rfl

theorem headAddr_of_ne_nil (hne : xs ≠ []) (q q' : A) : headAddr xs q = headAddr xs q' := by
  cases xs with
  | nil => exact absurd rfl hne
  | cons x xs => rfl

theorem lastAddr_append (p : A) (xs ys : List (A × V)) :
    lastAddr p (xs ++ ys) = lastAddr (lastAddr p xs) ys := by
  induction xs generalizing p with
  | nil => rfl
  | cons x xs ih => exact ih x.1

theorem lastAddr_concat (p : A) (xs : List (A × V)) (x : A × V) :
    lastAddr p (xs ++ [x]) = x.1 := by
  rw [lastAddr_append]
  rfl

theorem seg_append : Seg h p (xs ++ ys) q ↔
    Seg h p xs (headAddr ys q) ∧ Seg h (lastAddr p xs) ys q := by
  induction xs generalizing p with
  | nil => exact (true_and _).symm ▸ Iff.rfl
  | cons x xs ih =>
      rw [List.cons_append, Seg, Seg, ih, headAddr_append, and_assoc]
      rfl

/-- A segment depends on its own nodes only. -/
theorem Seg.congr (hs : Seg h p xs q) (heq : ∀ x ∈ xs, h' x.1 = h x.1) : Seg h' p xs q := by
  induction xs generalizing p with
  | nil => trivial
  | cons x xs ih =>
      obtain ⟨hx, hrest⟩ := hs
      refine ⟨?_, ih hrest fun y hy => heq y (List.mem_cons_of_mem x hy)⟩
      rw [heq x (List.mem_cons_self ..), hx]

/-- No address twice. -/
def AddrNodup (xs : List (A × V)) : Prop := (xs.map Prod.fst).Nodup

/-- Induction along a segment with fuel for each of its nodes: behind the last one comes `q`, and behind
    each of the others a node that is not `q`. -/
theorem Seg.fuel_induction {C : Nat → A × V → List (A × V) → Prop} (hs : Seg h p (x :: xs) q)
    (hq : q ∉ xs.map Prod.fst) {fuel : Nat} (hfuel : xs.length < fuel)
    (last : ∀ fuel p x, h x.1 = some ⟨x.2, p, q⟩ → C (fuel + 1) x [])
    (step : ∀ fuel p x y ys, h x.1 = some ⟨x.2, p, y.1⟩ → y.1 ≠ q → C fuel y ys →
      C (fuel + 1) x (y :: ys)) : C fuel x xs := by
  induction xs generalizing p x fuel with
  | nil =>
      cases fuel with
      | zero => omega
      | succ fuel => exact last fuel p x hs.1
  | cons y ys ih =>
      cases fuel with
      | zero => omega
      | succ fuel =>
          obtain ⟨hx, hrest⟩ := hs
          obtain ⟨hy, hq'⟩ := not_or.1 (mt List.mem_cons.2 hq)
          exact step fuel p x y ys hx (Ne.symm hy) (ih hrest hq' (Nat.lt_of_succ_lt_succ hfuel))

/-! ## Rings -/

/-- The nodes `xs` are a ring: the last one is before the first one. -/
def Ring (h : Heap A (Node A V)) : List (A × V) → Prop
  | [] => True
  | x :: xs => Seg h (lastAddr x.1 xs) (x :: xs) x.1 ∧ AddrNodup (x :: xs)

/-- A new node that is linked to itself is a ring. -/
theorem Ring.single {a : A} {v : V} (ha : h a = some ⟨v, a, a⟩) : Ring h [(a, v)] :=
  ⟨⟨ha, trivial⟩, List.nodup_singleton a⟩

theorem Ring.addrNodup (hr : Ring h xs) : AddrNodup xs := by
  cases xs with
  | nil => exact List.nodup_nil
  | cons x xs => exact hr.2

/-- A ring depends on its own nodes only. -/
theorem Ring.congr (hr : Ring h xs) (heq : ∀ x ∈ xs, h' x.1 = h x.1) : Ring h' xs := by
  cases xs with
  | nil => trivial
  | cons x xs => exact ⟨hr.1.congr heq, hr.2⟩

theorem Ring.not_mem_tail (hr : Ring h (x :: xs)) : x.1 ∉ xs.map Prod.fst :=
  (List.nodup_cons.1 hr.2).1

/-- A ring may be read from its next node. -/
theorem Ring.rotate_one (hr : Ring h (x :: xs)) : Ring h (xs ++ [x]) := by
  cases xs with
  | nil => exact hr
  | cons y ys =>
      obtain ⟨⟨hx, hseg⟩, hnodup⟩ := hr
      have hperm : (y :: ys ++ [x]).Perm (x :: y :: ys) := List.perm_append_singleton x (y :: ys)
      refine ⟨?_, ((hperm.map Prod.fst).nodup_iff).2 hnodup⟩
      show Seg h (lastAddr y.1 (ys ++ [x])) (y :: ys ++ [x]) y.1
      rw [lastAddr_concat]
      exact seg_append.2 ⟨hseg, hx, trivial⟩

/-- **A ring may be read from any of its nodes.** -/
theorem Ring.rotate (hr : Ring h (xs ++ ys)) : Ring h (ys ++ xs) := by
  induction xs generalizing ys with
  | nil => rwa [List.append_nil]
  | cons x xs ih =>
      have hone : Ring h (xs ++ ys ++ [x]) := hr.rotate_one
      rw [List.append_assoc] at hone
      have hrest := ih hone
      rwa [List.append_assoc] at hrest

/-- What is in a node of a ring. -/
theorem Ring.exists_node (hr : Ring h xs) (hx : x ∈ xs) : ∃ p q, h x.1 = some ⟨x.2, p, q⟩ := by
  obtain ⟨ys, zs, rfl⟩ := List.append_of_mem hx
  obtain ⟨⟨hnode, -⟩, -⟩ := hr.rotate
  exact ⟨_, _, hnode⟩

/-! ## The other way round -/

/-- The heap in which every node has its two links exchanged. -/
def Heap.mirror (h : Heap A (Node A V)) : Heap A (Node A V) :=
  fun a => (h a).map fun n => { n with pre := n.next, next := n.pre }

theorem Seg.mirror (hs : Seg h p xs q) : Seg h.mirror q xs.reverse p := by
  induction xs generalizing p with
  | nil => trivial
  | cons x xs ih =>
      obtain ⟨hx, hrest⟩ := hs
      rw [List.reverse_cons]
      refine seg_append.2 ⟨ih hrest, ?_, trivial⟩
      have hlast : lastAddr q xs.reverse = headAddr xs q := by
        cases xs with
        | nil => rfl
        | cons y ys => rw [List.reverse_cons, lastAddr_concat]; rfl
      rw [Heap.mirror, hx, hlast]
      rfl

/-- **A ring read backwards** is a ring of the mirrored heap. -/
theorem Ring.mirror (hr : Ring h xs) : Ring h.mirror xs.reverse := by
  cases xs with
  | nil => trivial
  | cons x xs =>
      obtain ⟨hseg, hnodup⟩ := hr
      obtain ⟨ws, z, heq⟩ := (List.eq_nil_or_concat (x :: xs)).resolve_left (List.cons_ne_nil x xs)
      rw [List.concat_eq_append] at heq
      have hrev : (x :: xs).reverse = z :: ws.reverse := by
        rw [heq, List.reverse_append, List.reverse_singleton, List.singleton_append]
      have hz : lastAddr x.1 xs = z.1 := by
        show lastAddr x.1 (x :: xs) = z.1
        rw [heq, lastAddr_concat]
      have hx : lastAddr z.1 ws.reverse = x.1 := by
        show lastAddr z.1 (z :: ws.reverse) = x.1
        rw [← hrev, List.reverse_cons, lastAddr_concat]
      have hmirror := hseg.mirror
      have hnodup' : AddrNodup (x :: xs).reverse :=
        (((List.reverse_perm (x :: xs)).map Prod.fst).nodup_iff).2 hnodup
      rw [hrev] at hmirror hnodup' ⊢
      exact ⟨by rwa [hx, ← hz], hnodup'⟩

/-- The node after a node knows it. -/
theorem Ring.next_pre (hr : Ring h xs) (hx : x ∈ xs) :
    ∃ n n', h x.1 = some n ∧ h n.next = some n' ∧ n'.pre = x.1 := by
  obtain ⟨ys, zs, rfl⟩ := List.append_of_mem hx
  have hring : Ring h (x :: (zs ++ ys)) := hr.rotate
  obtain ⟨⟨hnode, hrest⟩, -⟩ := hring
  cases hws : zs ++ ys with
  | nil =>
      rw [hws] at hnode
      exact ⟨_, _, hnode, hnode, rfl⟩
  | cons w ws =>
      rw [hws] at hnode hrest
      exact ⟨_, _, hnode, hrest.1, rfl⟩

/-- The node before a node knows it. -/
theorem Ring.pre_next (hr : Ring h xs) (hx : x ∈ xs) :
    ∃ n n', h x.1 = some n ∧ h n.pre = some n' ∧ n'.next = x.1 := by
  obtain ⟨m, m', hm, hm', heq⟩ := hr.mirror.next_pre (List.mem_reverse.2 hx)
  simp only [Heap.mirror, Option.map_eq_some_iff] at hm hm'
  obtain ⟨n, hn, rfl⟩ := hm
  obtain ⟨n', hn', rfl⟩ := hm'
  exact ⟨n, n', hn, hn', heq⟩

/-! ## Writing links -/

variable [DecidableEq A]

/-- A new successor for the last node. -/
theorem Seg.setNext (hs : Seg h p xs q) (hne : xs ≠ []) (hnodup : AddrNodup xs) (q' : A) :
    ∃ h', XToolkits.setNext h (lastAddr p xs) q' = some h' ∧ Seg h' p xs q' ∧
      ∀ a, a ∉ xs.map Prod.fst → h' a = h a := by
  obtain ⟨ys, y, rfl⟩ := (List.eq_nil_or_concat xs).resolve_left hne
  rw [List.concat_eq_append] at hs hnodup ⊢
  obtain ⟨hys, hlast, -⟩ := seg_append.1 hs
  rw [lastAddr_concat]
  refine ⟨h.set y.1 ⟨y.2, lastAddr p ys, q'⟩, ?_, ?_, fun a ha => Heap.set_of_ne h _ ?_⟩
  · rw [XToolkits.setNext, hlast]
    rfl
  · refine seg_append.2 ⟨hys.congr fun z hz => Heap.set_of_ne h _ fun heq => ?_,
      Heap.set_self .., trivial⟩
    rw [AddrNodup, List.map_append, List.nodup_append] at hnodup
    exact hnodup.2.2 _ (List.mem_map_of_mem hz) _ (List.mem_singleton_self _) heq
  · rintro rfl
    exact ha (by simp)

/-- A new predecessor for the first node. -/
theorem Seg.setPre (hs : Seg h p xs q) (hne : xs ≠ []) (hnodup : AddrNodup xs) (p' : A) :
    ∃ h', XToolkits.setPre h (headAddr xs q) p' = some h' ∧ Seg h' p' xs q ∧
      ∀ a, a ∉ xs.map Prod.fst → h' a = h a := by
  obtain ⟨y, ys, rfl⟩ := List.exists_cons_of_ne_nil hne
  obtain ⟨hfirst, hys⟩ := hs
  refine ⟨h.set y.1 ⟨y.2, p', headAddr ys q⟩, ?_, ?_, fun a ha => Heap.set_of_ne h _ ?_⟩
  · show (h y.1).map _ = _
    rw [hfirst]
    rfl
  · refine ⟨Heap.set_self .., hys.congr fun z hz => Heap.set_of_ne h _ fun heq => ?_⟩
    exact (List.nodup_cons.1 hnodup).1 (heq ▸ List.mem_map_of_mem hz)
  · rintro rfl
    exact ha (by simp)

/-- **New neighbours for a segment**, by one write at each end. -/
theorem Seg.relink (hs : Seg h p xs q) (hne : xs ≠ []) (hnodup : AddrNodup xs) (p' q' : A) :
    ∃ h₁ h₂, XToolkits.setNext h (lastAddr p xs) q' = some h₁ ∧
      XToolkits.setPre h₁ (headAddr xs q) p' = some h₂ ∧ Seg h₂ p' xs q' ∧
      ∀ a, a ∉ xs.map Prod.fst → h₂ a = h a := by
  obtain ⟨h₁, hset₁, hs₁, hframe₁⟩ := hs.setNext hne hnodup q'
  obtain ⟨h₂, hset₂, hs₂, hframe₂⟩ := hs₁.setPre hne hnodup p'
  rw [headAddr_of_ne_nil hne q' q] at hset₂
  exact ⟨h₁, h₂, hset₁, hset₂, hs₂, fun a ha => (hframe₂ a ha).trans (hframe₁ a ha)⟩

/-- **Unlinking.** The other nodes are a ring. -/
theorem Ring.unlink (hr : Ring h (x :: xs)) (hne : xs ≠ []) :
    ∃ h', XToolkits.unlink h x.1 = some h' ∧ Ring h' xs ∧
      ∀ a, a ∉ xs.map Prod.fst → h' a = h a := by
  obtain ⟨⟨hx, hseg⟩, hnodup⟩ := hr
  obtain ⟨hxs, hnodup'⟩ := List.nodup_cons.1 hnodup
  obtain ⟨h₁, hset₁, hseg₁, hframe₁⟩ := hseg.setNext hne hnodup' (headAddr xs x.1)
  obtain ⟨h₂, hset₂, hseg₂, hframe₂⟩ := hseg₁.setPre hne hnodup' (lastAddr x.1 xs)
  rw [headAddr_of_ne_nil hne _ x.1] at hset₂
  refine ⟨h₂, ?_, ?_, fun a ha => (hframe₂ a ha).trans (hframe₁ a ha)⟩
  · -- the node itself is not written to
    have hx₁ := (hframe₁ _ hxs).trans hx
    simp only [XToolkits.unlink, hx, hset₁, hx₁, hset₂, Option.bind_eq_bind, Option.bind_some]
  · obtain ⟨y, ys, rfl⟩ := List.exists_cons_of_ne_nil hne
    exact ⟨hseg₂, hnodup'⟩

/-- **Linking in.** A node that is not in the ring becomes the last one. -/
theorem Ring.linkBefore (hr : Ring h (x :: xs)) {a : A} {v : V} {p q : A}
    (ha : h a = some ⟨v, p, q⟩) (hnew : a ∉ (x :: xs).map Prod.fst) :
    ∃ h', XToolkits.linkBefore h a x.1 = some h' ∧ Ring h' (x :: xs ++ [(a, v)]) ∧
      ∀ b, b ≠ a → b ∉ (x :: xs).map Prod.fst → h' b = h b := by
  obtain ⟨hseg, hnodup⟩ := hr
  have hne : ∀ y ∈ x :: xs, y.1 ≠ a := fun y hy heq => hnew (heq ▸ List.mem_map_of_mem hy)
  have hx : h x.1 = some ⟨x.2, lastAddr x.1 xs, headAddr xs x.1⟩ := hseg.1
  have hxa : x.1 ≠ a := hne x (List.mem_cons_self ..)
  -- the links of the new node
  obtain ⟨h₁, hset₁, ha₁, hframe₁⟩ : ∃ h₁, XToolkits.setPre h a (lastAddr x.1 xs) = some h₁ ∧
      h₁ a = some ⟨v, lastAddr x.1 xs, q⟩ ∧ ∀ b, b ≠ a → h₁ b = h b :=
    ⟨_, by rw [XToolkits.setPre, ha]; rfl, Heap.set_self .., fun b hb => Heap.set_of_ne h _ hb⟩
  obtain ⟨h₂, hset₂, ha₂, hframe₂⟩ : ∃ h₂, XToolkits.setNext h₁ a x.1 = some h₂ ∧
      h₂ a = some ⟨v, lastAddr x.1 xs, x.1⟩ ∧ ∀ b, b ≠ a → h₂ b = h₁ b :=
    ⟨_, by rw [XToolkits.setNext, ha₁]; rfl, Heap.set_self .., fun b hb => Heap.set_of_ne h₁ _ hb⟩
  have hold : ∀ b, b ≠ a → h₂ b = h b := fun b hb => (hframe₂ b hb).trans (hframe₁ b hb)
  -- the links of its neighbours
  have hseg₂ := hseg.congr fun y hy => hold y.1 (hne y hy)
  obtain ⟨h₃, h₄, hset₃, hset₄, hseg₄, hframe₄⟩ :=
    hseg₂.relink (List.cons_ne_nil x xs) hnodup a a
  refine ⟨h₄, ?_, ⟨?_, ?_⟩, fun b hb hmem => (hframe₄ b hmem).trans (hold b hb)⟩
  · have hx₂ := (hold _ hxa).trans hx
    simp only [XToolkits.linkBefore, hx, hset₁, hset₂, hx₂, Option.bind_eq_bind, Option.bind_some]
    rw [show XToolkits.setNext h₂ (lastAddr x.1 xs) a = some h₃ from hset₃]
    exact hset₄
  · show Seg h₄ (lastAddr x.1 (xs ++ [(a, v)])) (x :: xs ++ [(a, v)]) x.1
    rw [lastAddr_concat]
    exact seg_append.2 ⟨hseg₄, (hframe₄ a hnew).trans ha₂, trivial⟩
  · have hperm : (x :: xs ++ [(a, v)]).Perm ((a, v) :: x :: xs) :=
      List.perm_append_singleton (a, v) (x :: xs)
    exact ((hperm.map Prod.fst).nodup_iff).2 (List.nodup_cons.2 ⟨hnew, hnodup⟩)

/-! ## Going round a ring -/

theorem Seg.walk (hs : Seg h p (x :: xs) q) (hq : q ∉ xs.map Prod.fst) {fuel : Nat}
    (hfuel : xs.length < fuel) : XToolkits.walk h q fuel x.1 = some (x :: xs) := by
  refine hs.fuel_induction (C := fun fuel x xs => XToolkits.walk h q fuel x.1 = some (x :: xs))
    hq hfuel ?_ ?_
  · intro fuel p x hx
    simp only [XToolkits.walk, hx, Option.bind_eq_bind, Option.bind_some, if_true]
  · intro fuel p x y ys hx hy ih
    simp only [XToolkits.walk, hx, Option.bind_eq_bind, Option.bind_some]
    rw [if_neg hy, ih]
    rfl

/-- **Once round the ring**: every node, in order. -/
theorem Ring.walk (hr : Ring h (x :: xs)) {fuel : Nat} (hfuel : xs.length < fuel) :
    XToolkits.walk h x.1 fuel x.1 = some (x :: xs) :=
  hr.1.walk hr.not_mem_tail hfuel

/-- **Once round the ring backwards**, from its last node. -/
theorem Ring.walk_mirror (hr : Ring h (x :: xs)) {fuel : Nat} (hfuel : xs.length < fuel) :
    XToolkits.walk h.mirror (lastAddr x.1 xs) fuel (lastAddr x.1 xs) = some (x :: xs).reverse := by
  obtain ⟨ws, z, heq⟩ := (List.eq_nil_or_concat (x :: xs)).resolve_left (List.cons_ne_nil x xs)
  rw [List.concat_eq_append] at heq
  have hz : lastAddr x.1 xs = z.1 := by
    show lastAddr x.1 (x :: xs) = z.1
    rw [heq, lastAddr_concat]
  have hlen : ws.length = xs.length := by
    have := congrArg List.length heq
    simpa using this.symm
  have hmirror := hr.mirror
  rw [heq, List.reverse_append, List.reverse_singleton, List.singleton_append] at hmirror ⊢
  rw [hz]
  exact hmirror.walk (by rwa [List.length_reverse, hlen])

theorem Seg.seek (hs : Seg h p (x :: xs) q) (hq : q ∉ xs.map Prod.fst) {fuel : Nat}
    (hfuel : xs.length < fuel) (P : V → Bool) :
    XToolkits.seek h q P fuel x.1 = some (((x :: xs).find? fun y => P y.2).map Prod.fst) := by
  refine hs.fuel_induction (C := fun fuel x xs => XToolkits.seek h q P fuel x.1 =
    some (((x :: xs).find? fun y => P y.2).map Prod.fst)) hq hfuel ?_ ?_
  · intro fuel p x hx
    simp only [XToolkits.seek, hx, Option.bind_eq_bind, Option.bind_some, if_true, List.find?_cons,
      List.find?_nil]
    cases P x.2 <;> rfl
  · intro fuel p x y ys hx hy ih
    simp only [XToolkits.seek, hx, Option.bind_eq_bind, Option.bind_some]
    rw [if_neg hy, ih, List.find?_cons (a := x)]
    cases P x.2 <;> rfl

/-- **A search in the ring** finds the first node with the property. -/
theorem Ring.seek (hr : Ring h (x :: xs)) {fuel : Nat} (hfuel : xs.length < fuel) (P : V → Bool) :
    XToolkits.seek h x.1 P fuel x.1 = some (((x :: xs).find? fun y => P y.2).map Prod.fst) :=
  hr.1.seek hr.not_mem_tail hfuel P

end XToolkits
