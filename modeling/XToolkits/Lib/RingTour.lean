import XToolkits.Lib.Ring
import XToolkits.Lib.Transition

set_option autoImplicit false

/-! # Going round a ring that changes on the way

A tour calls a visitor on every node of a ring. The visitor works on a state that contains the heap,
so a visit may unlink the node it is made on (`OwnUnlink`). The loop follows the link of a node only
after the visit: it gets round exactly when no node but the last one is given back on the way
(`tour_of_spared`, `tour_of_not_spared`). -/

namespace XToolkits

variable {S A V : Type}

section Definitions

variable (heap : S → Heap A (Node A V)) (first : S → Option A) (visit : S → V → Option S)

/-- From node `a` on: a visit, and then the link of the node, up to the node before the first one. -/
def tour [DecidableEq A] : Nat → S → A → Option (S × Nat)
  | 0, _, _ => none
  | fuel + 1, s, a => do
      let n ← heap s a
      let t ← visit s n.val
      if some n.next ≠ first s then
        let n' ← heap t a
        (tour fuel t n'.next).map fun r => (r.1, r.2 + 1)
      else some (t, 1)

/-- A visit as a step, which makes the node it is made on visible. -/
def visitStep (s : S) (x : A × V) : Option (S × List (A × V)) := (visit s x.2).map fun t => (t, [x])

/-- A visit can be made on every node of the ring, and it leaves the ring as it is or takes its own
    node out and gives it back. -/
structure OwnUnlink (Inv : S → List (A × V) → Prop) : Prop where
  ring : ∀ {s : S} {xs : List (A × V)}, Inv s xs → Ring (heap s) xs
  first : ∀ {s : S} {xs : List (A × V)}, Inv s xs → first s = xs.head?.map Prod.fst
  visit : ∀ {s : S} {ys zs : List (A × V)} {x : A × V}, Inv s (ys ++ x :: zs) →
    ∃ t, visit s x.2 = some t ∧
      (Inv t (ys ++ x :: zs) ∨ Inv t (ys ++ zs) ∧ heap t x.1 = none)

/-- The visit does not give its node back. -/
def Spares (s : S) (x : A × V) : Prop := ∀ t, visit s x.2 = some t → heap t x.1 ≠ none

/-- The nodes that are still there. -/
def present (s : S) (xs : List (A × V)) : List (A × V) := xs.filter fun x => (heap s x.1).isSome

end Definitions

variable {heap : S → Heap A (Node A V)} {first : S → Option A} {visit : S → V → Option S}
  {Inv : S → List (A × V) → Prop} {s : S} {x : A × V} {xs ys zs : List (A × V)} {fuel : Nat}

/-- All nodes of a ring are there. -/
theorem present_of_ring (hring : Ring (heap s) xs) : present heap s xs = xs := by
  refine List.filter_eq_self.2 fun x hx => ?_
  obtain ⟨p, q, hnode⟩ := hring.exists_node hx
  rw [hnode]
  rfl

/-- The link of a node of a ring. -/
theorem Ring.exists_next {h : Heap A (Node A V)} (hring : Ring h (ys ++ x :: zs)) :
    ∃ p, h x.1 = some ⟨x.2, p, headAddr (zs ++ ys) x.1⟩ :=
  have hrotated : Ring h (x :: (zs ++ ys)) := hring.rotate
  ⟨_, hrotated.1.1⟩

/-- The link of the last node goes to the first one. -/
theorem headAddr_last (ys : List (A × V)) (x : A × V) :
    some (headAddr ys x.1) = (ys ++ [x]).head?.map Prod.fst := by
  cases ys <;> rfl

/-- The link of an earlier node does not. -/
theorem Ring.headAddr_ne {h : Heap A (Node A V)} {z : A × V}
    (hring : Ring h (ys ++ x :: z :: zs)) :
    some z.1 ≠ (ys ++ x :: z :: zs).head?.map Prod.fst := by
  have hnodup := hring.addrNodup
  cases ys with
  | nil =>
      intro heq
      obtain ⟨hx, -⟩ := List.nodup_cons.1 hnodup
      exact hx (Option.some.inj heq ▸ List.mem_map_of_mem (List.mem_cons_self ..))
  | cons y ys =>
      intro heq
      obtain ⟨hy, -⟩ := List.nodup_cons.1 hnodup
      exact hy (Option.some.inj heq ▸ List.mem_map_of_mem (by simp))

variable [DecidableEq A]

/-- The last node: nothing is read after the visit. -/
theorem OwnUnlink.tour_last (h : OwnUnlink heap first visit Inv) (hs : Inv s (ys ++ [x]))
    (fuel : Nat) :
    ∃ t, tour heap first visit (fuel + 1) s x.1 = some (t, 1) ∧ visit s x.2 = some t ∧
      Inv t (present heap t (ys ++ [x])) := by
  obtain ⟨p, hnode⟩ := (h.ring hs).exists_next
  obtain ⟨t, hvisit, hcases⟩ := h.visit hs
  refine ⟨t, ?_, hvisit, ?_⟩
  · have hlast := headAddr_last ys x
    rw [← h.first hs] at hlast
    simp [tour, hnode, hvisit, hlast]
  · rcases hcases with hkept | ⟨hrest, hgone⟩
    · rwa [present_of_ring (h.ring hkept)]
    · rw [List.append_nil] at hrest
      have hys := present_of_ring (h.ring hrest)
      rw [present] at hys ⊢
      rwa [List.filter_append, hys, List.filter_cons_of_neg (by simp [hgone]), List.filter_nil,
        List.append_nil]

/-- An earlier node: its link is read after the visit. -/
theorem OwnUnlink.tour_next (h : OwnUnlink heap first visit Inv) {z : A × V}
    (hs : Inv s (ys ++ x :: z :: zs)) (fuel : Nat) :
    ∃ t, visit s x.2 = some t ∧
      ((Spares heap visit s x ∧ Inv t ((ys ++ [x]) ++ z :: zs) ∧
          tour heap first visit (fuel + 1) s x.1 =
            (tour heap first visit fuel t z.1).map fun r => (r.1, r.2 + 1)) ∨
        (¬ Spares heap visit s x ∧ tour heap first visit (fuel + 1) s x.1 = none)) := by
  obtain ⟨p, hnode⟩ := (h.ring hs).exists_next
  obtain ⟨t, hvisit, hcases⟩ := h.visit hs
  have hnext := (h.ring hs).headAddr_ne
  rw [← h.first hs] at hnext
  refine ⟨t, hvisit, ?_⟩
  rcases hcases with hkept | ⟨-, hgone⟩
  · obtain ⟨q, hnode'⟩ := (h.ring hkept).exists_next
    refine Or.inl ⟨fun t' ht' => ?_, by rwa [List.append_assoc], ?_⟩
    · rw [hvisit, Option.some.injEq] at ht'
      rw [← ht', hnode']
      exact Option.some_ne_none _
    · simp [tour, hnode, hvisit, headAddr, hnext, hnode']
  · refine Or.inr ⟨fun hspares => hspares t hvisit hgone, ?_⟩
    simp [tour, hnode, hvisit, headAddr, hnext, hgone]

/-- **A tour that gets round.** While no node but the last one is given back, every node is visited
    once, in order, and the nodes that are left are a ring. -/
theorem OwnUnlink.tour_of_spared (h : OwnUnlink heap first visit Inv)
    (hs : Inv s (ys ++ x :: zs)) (hfuel : zs.length < fuel)
    (hspared : EachStep (visitStep visit) (Spares heap visit) s (x :: zs).dropLast) :
    ∃ t, tour heap first visit fuel s x.1 = some (t, zs.length + 1) ∧
      run (visitStep visit) s (x :: zs) = some (t, x :: zs) ∧
      Inv t (present heap t (ys ++ x :: zs)) := by
  induction zs generalizing ys x s fuel with
  | nil =>
      obtain ⟨fuel, rfl⟩ := Nat.exists_eq_succ_of_ne_zero (Nat.ne_of_gt hfuel)
      obtain ⟨t, htour, hvisit, hinv⟩ := h.tour_last hs fuel
      exact ⟨t, htour, run_singleton (by rw [visitStep, hvisit]; rfl), hinv⟩
  | cons z zs ih =>
      obtain ⟨fuel, rfl⟩ := Nat.exists_eq_succ_of_ne_zero (Nat.ne_of_gt (Nat.zero_lt_of_lt hfuel))
      obtain ⟨t, hvisit, hcases⟩ := h.tour_next hs fuel
      have hstep : visitStep visit s x = some (t, [x]) := by rw [visitStep, hvisit]; rfl
      obtain ⟨hx, hrest⟩ := (eachStep_cons_of_step hstep).1 hspared
      obtain ⟨-, hinv, htour⟩ := hcases.resolve_right fun hgone => hgone.1 hx
      obtain ⟨t', htour', hrun, hinv'⟩ := ih hinv (Nat.lt_of_succ_lt_succ hfuel) hrest
      refine ⟨t', by rw [htour, htour']; rfl, ?_, by rwa [List.append_assoc] at hinv'⟩
      exact run_cons_eq_some.2 ⟨t, [x], z :: zs, hstep, hrun, rfl⟩

/-- **A tour that does not.** When another node is given back, its link is read all the same. -/
theorem OwnUnlink.tour_of_not_spared (h : OwnUnlink heap first visit Inv)
    (hs : Inv s (ys ++ x :: zs))
    (hnot : ¬ EachStep (visitStep visit) (Spares heap visit) s (x :: zs).dropLast) (fuel : Nat) :
    tour heap first visit fuel s x.1 = none := by
  induction zs generalizing ys x s fuel with
  | nil => exact absurd (EachStep.nil _ s) hnot
  | cons z zs ih =>
      cases fuel with
      | zero => rfl
      | succ fuel =>
          obtain ⟨t, hvisit, hcases⟩ := h.tour_next hs fuel
          have hstep : visitStep visit s x = some (t, [x]) := by rw [visitStep, hvisit]; rfl
          rcases hcases with ⟨hx, hinv, htour⟩ | ⟨-, htour⟩
          · have hrest : ¬ EachStep (visitStep visit) (Spares heap visit) t (z :: zs).dropLast :=
              fun hall => hnot ((eachStep_cons_of_step hstep).2 ⟨hx, hall⟩)
            rw [htour, ih hinv hrest fuel]
            rfl
          · exact htour

end XToolkits
