import XToolkits.Lib.Chain
import Mathlib.Data.List.Perm.Basic
import Mathlib.Data.List.Flatten
import Mathlib.Data.List.Nodup
import Mathlib.Data.List.Pairwise
import Mathlib.Algebra.Order.Group.Multiset
import Mathlib.Tactic.Abel

set_option autoImplicit false

/-! # Trees of linked nodes

A node knows the one before and the one after it in the list of its siblings, and the first of its
children. `TreeLayout.Holds` says that a list of siblings with everything below it stands in a heap.
A change of the children of one node, wherever it is, takes writes to that list and to the node only
(`TreeLayout.Holds.edit`), and what the nodes hold is rearranged by it, neither lost nor doubled
(`gather_edit`). -/

namespace XToolkits

/-- What a node holds besides its links to its siblings. -/
structure Twig (A V : Type) where
  child : A
  val : V
  deriving DecidableEq, Repr

/-- Nodes that follow each other, each with its children. -/
inductive Siblings (A V : Type) where
  | nil
  | cons (addr : A) (twig : Twig A V) (children rest : Siblings A V)
  deriving DecidableEq

/-- A node with its children. -/
structure Branch (A V : Type) where
  addr : A
  twig : Twig A V
  children : Siblings A V
  deriving DecidableEq

/-- A null pointer, and the nodes whose child link belongs to somebody else. -/
structure TreeLayout (A V : Type) where
  null : A
  shares : V → Bool

variable {A V W : Type}

/-! ## Lists of siblings -/

namespace Siblings

def toList : Siblings A V → List (Branch A V)
  | nil => []
  | cons addr twig children rest => ⟨addr, twig, children⟩ :: rest.toList

def ofList : List (Branch A V) → Siblings A V
  | [] => nil
  | b :: bs => cons b.addr b.twig b.children (ofList bs)

@[simp] theorem toList_ofList (bs : List (Branch A V)) : (ofList bs).toList = bs := by
  induction bs with
  | nil => rfl
  | cons b bs ih => exact congrArg (b :: ·) ih

@[simp] theorem ofList_toList (s : Siblings A V) : ofList s.toList = s := by
  induction s with
  | nil => rfl
  | cons addr twig children rest _ ih => exact congrArg (cons addr twig children) ih

/-- The address of the first one, or `null`. -/
def first (null : A) : Siblings A V → A
  | nil => null
  | cons addr _ _ _ => addr

/-- Something of every node, those below included. -/
def gather (g : A → V → List W) : Siblings A V → List W
  | nil => []
  | cons addr twig children rest => g addr twig.val ++ (children.gather g ++ rest.gather g)

/-- The addresses of all nodes. -/
def addrs (s : Siblings A V) : List A := s.gather fun addr _ => [addr]

end Siblings

def Branch.gather (g : A → V → List W) (b : Branch A V) : List W :=
  g b.addr b.twig.val ++ b.children.gather g

def Branch.addrs (b : Branch A V) : List A := b.gather fun addr _ => [addr]

/-- A node as one of a list. -/
def Branch.entry (b : Branch A V) : A × Twig A V := (b.addr, b.twig)

open Siblings

variable {a b p : A} {t : Twig A V} {s ch rest : Siblings A V} {d : Branch A V}
  {f : List (Branch A V) → List (Branch A V)}

theorem gather_eq_flatMap (g : A → V → List W) (s : Siblings A V) :
    s.gather g = s.toList.flatMap (Branch.gather g) := by
  induction s with
  | nil => rfl
  | cons addr twig children rest _ ih =>
      rw [gather, ih, toList, List.flatMap_cons, Branch.gather, List.append_assoc]

theorem gather_ofList (g : A → V → List W) (bs : List (Branch A V)) :
    (ofList bs).gather g = bs.flatMap (Branch.gather g) := by
  rw [gather_eq_flatMap, toList_ofList]

/-- What is gathered comes from one of the values. -/
theorem mem_gather {k : V → List W} {x : W} (s : Siblings A V) :
    x ∈ s.gather (fun _ v => k v) ↔ ∃ v ∈ s.gather (fun _ v => [v]), x ∈ k v := by
  induction s with
  | nil =>
      refine iff_of_false List.not_mem_nil ?_
      rintro ⟨v, hv, -⟩
      exact List.not_mem_nil hv
  | cons a t ch rest ihc ihr =>
      simp only [gather, List.mem_append, List.mem_singleton, ihc, ihr, or_and_right, exists_or,
        exists_eq_left]

/-- What is gathered in two parts. -/
theorem gather_perm {g g₁ g₂ : A → V → List W} (hg : ∀ a v, (g a v).Perm (g₁ a v ++ g₂ a v))
    (s : Siblings A V) : (s.gather g).Perm (s.gather g₁ ++ s.gather g₂) := by
  induction s with
  | nil => exact List.Perm.refl _
  | cons a t ch rest ihc ihr =>
      rw [gather, gather, gather]
      refine ((hg a t.val).append (ihc.append ihr)).trans ?_
      simp only [← Multiset.coe_eq_coe, ← Multiset.coe_add]
      abel

theorem Branch.gather_perm {g g₁ g₂ : A → V → List W} (hg : ∀ a v, (g a v).Perm (g₁ a v ++ g₂ a v))
    (b : Branch A V) : (b.gather g).Perm (b.gather g₁ ++ b.gather g₂) := by
  refine ((hg b.addr b.twig.val).append (XToolkits.gather_perm hg b.children)).trans ?_
  simp only [Branch.gather, ← Multiset.coe_eq_coe, ← Multiset.coe_add]
  abel

theorem headAddr_entries (null : A) (bs : List (Branch A V)) :
    headAddr (bs.map Branch.entry) null = (ofList bs).first null := by
  cases bs <;> rfl

theorem mem_addrs_cons : b ∈ (cons a t ch rest).addrs ↔ b = a ∨ b ∈ ch.addrs ∨ b ∈ rest.addrs := by
  simp only [addrs, gather, List.mem_append, List.mem_singleton]

theorem nodup_addrs_cons : (cons a t ch rest).addrs.Nodup ↔
    (a ∉ ch.addrs ∧ a ∉ rest.addrs) ∧ ch.addrs.Nodup ∧ rest.addrs.Nodup ∧
      ch.addrs.Disjoint rest.addrs := by
  simp only [addrs, gather, List.singleton_append, List.nodup_cons, List.mem_append, not_or,
    List.nodup_append']

theorem addr_mem_addrs {e : Branch A V} (he : e ∈ s.toList) : e.addr ∈ s.addrs := by
  rw [addrs, gather_eq_flatMap]
  exact List.mem_flatMap.2 ⟨e, he, List.mem_append_left _ (List.mem_singleton_self _)⟩

/-! ## Nodes in a heap -/

namespace TreeLayout

variable (L : TreeLayout A V)

/-- The child link of a node leads to its children, unless it belongs to somebody else. -/
structure Fits (t : Twig A V) (ch : Siblings A V) : Prop where
  shared : L.shares t.val = true → ch = .nil
  owned : L.shares t.val = false → t.child = ch.first L.null

/-- Nodes and all that is below them stand in the heap: linked with each other, with `p` before the
    first one, or each on its own. -/
def Stand (h : Heap A (Node A (Twig A V))) (linked : Bool) : A → Siblings A V → Prop
  | _, .nil => True
  | p, .cons a t ch rest =>
      h a = some ⟨t, if linked then p else L.null, if linked then rest.first L.null else L.null⟩ ∧
        L.Fits t ch ∧ Stand h true L.null ch ∧ Stand h linked a rest

/-- The siblings, with `p` before them, and all that is below them stand in the heap. -/
abbrev Holds (h : Heap A (Node A (Twig A V))) (p : A) (s : Siblings A V) : Prop := L.Stand h true p s

/-- All that is below a node stands in the heap. -/
structure Inner (h : Heap A (Node A (Twig A V))) (d : Branch A V) : Prop where
  fits : L.Fits d.twig d.children
  below : L.Holds h L.null d.children

/-- A node without siblings, and all that is below it. -/
structure Alone (h : Heap A (Node A (Twig A V))) (d : Branch A V) : Prop where
  node : h d.addr = some ⟨d.twig, L.null, L.null⟩
  inner : L.Inner h d

variable {L} {h h' : Heap A (Node A (Twig A V))} {linked : Bool}

/-- Siblings are a list of nodes with something below each of them. -/
theorem holds_iff : L.Holds h p s ↔
    Seg h p (s.toList.map Branch.entry) L.null ∧ ∀ d ∈ s.toList, L.Inner h d := by
  induction s generalizing p with
  | nil => simp [Stand, toList, Seg]
  | cons a t ch rest _ ih =>
      have hfirst : headAddr (rest.toList.map Branch.entry) L.null = rest.first L.null := by
        rw [headAddr_entries, ofList_toList]
      rw [toList, List.map_cons, Seg, List.forall_mem_cons, Branch.entry, hfirst]
      constructor
      · rintro ⟨ha, hfits, hch, hrest⟩
        exact ⟨⟨ha, (ih.1 hrest).1⟩, ⟨hfits, hch⟩, (ih.1 hrest).2⟩
      · rintro ⟨⟨ha, hseg⟩, hinner, hrest⟩
        exact ⟨ha, hinner.fits, hinner.below, ih.2 ⟨hseg, hrest⟩⟩

theorem holds_ofList {bs : List (Branch A V)} : L.Holds h p (ofList bs) ↔
    Seg h p (bs.map Branch.entry) L.null ∧ ∀ d ∈ bs, L.Inner h d := by
  rw [holds_iff, toList_ofList]

/-- Nodes on their own. -/
theorem stand_apart_iff : L.Stand h false p s ↔ ∀ d ∈ s.toList, L.Alone h d := by
  induction s generalizing p with
  | nil => simp [Stand, toList]
  | cons a t ch rest _ ih =>
      rw [toList, List.forall_mem_cons]
      constructor
      · rintro ⟨ha, hfits, hch, hrest⟩
        exact ⟨⟨ha, hfits, hch⟩, ih.1 hrest⟩
      · rintro ⟨⟨ha, hinner⟩, hrest⟩
        exact ⟨ha, hinner.fits, hinner.below, ih.2 hrest⟩

/-- Nodes depend on their own place in the heap and those below only. -/
theorem Stand.congr (hs : L.Stand h linked p s) (heq : ∀ x ∈ s.addrs, h' x = h x) :
    L.Stand h' linked p s := by
  induction s generalizing p linked with
  | nil => trivial
  | cons a t ch rest ihc ihr =>
      obtain ⟨ha, hfits, hch, hrest⟩ := hs
      refine ⟨?_, hfits, ihc hch fun x hx => heq x ?_, ihr hrest fun x hx => heq x ?_⟩
      · rw [heq a (mem_addrs_cons.2 (Or.inl rfl)), ha]
      · exact mem_addrs_cons.2 (Or.inr (Or.inl hx))
      · exact mem_addrs_cons.2 (Or.inr (Or.inr hx))

/-- What the nodes are decides what is in the heap. -/
theorem Stand.eq (hs : L.Stand h linked p s) (hs' : L.Stand h' linked p s) :
    ∀ x ∈ s.addrs, h' x = h x := by
  induction s generalizing p linked with
  | nil => exact fun _ hx => absurd hx List.not_mem_nil
  | cons b t ch rest ihc ihr =>
      intro x hx
      rcases mem_addrs_cons.1 hx with rfl | hx | hx
      · rw [hs.1, hs'.1]
      · exact ihc hs.2.2.1 hs'.2.2.1 x hx
      · exact ihr hs.2.2.2 hs'.2.2.2 x hx

/-- What is in the heap decides what the nodes are. -/
theorem Stand.unique {s' : Siblings A V} (hs : L.Holds h p s) (hs' : L.Holds h p s')
    (hnull : L.null ∉ s.addrs) (hnull' : L.null ∉ s'.addrs) (hfirst : s.first L.null = s'.first L.null) :
    s = s' := by
  induction s generalizing p s' with
  | nil =>
      cases s' with
      | nil => rfl
      | cons a' t' ch' rest' => exact absurd (mem_addrs_cons.2 (Or.inl hfirst)) hnull'
  | cons a t ch rest ihc ihr =>
      cases s' with
      | nil => exact absurd (mem_addrs_cons.2 (Or.inl hfirst.symm)) hnull
      | cons a' t' ch' rest' =>
          obtain rfl : a = a' := hfirst
          obtain ⟨ha, hfits, hch, hrest⟩ := hs
          obtain ⟨ha', hfits', hch', hrest'⟩ := hs'
          obtain ⟨rfl, -, hnext⟩ := Node.mk.inj (Option.some.inj (ha.symm.trans ha'))
          have hbelow : ch = ch' := by
            cases hsh : L.shares t.val with
            | true => rw [hfits.shared hsh, hfits'.shared hsh]
            | false =>
                refine ihc hch hch' (fun hmem => hnull ?_) (fun hmem => hnull' ?_)
                  ((hfits.owned hsh).symm.trans (hfits'.owned hsh))
                · exact mem_addrs_cons.2 (Or.inr (Or.inl hmem))
                · exact mem_addrs_cons.2 (Or.inr (Or.inl hmem))
          have hbehind : rest = rest' := by
            refine ihr hrest hrest' (fun hmem => hnull ?_) (fun hmem => hnull' ?_) hnext
            · exact mem_addrs_cons.2 (Or.inr (Or.inr hmem))
            · exact mem_addrs_cons.2 (Or.inr (Or.inr hmem))
          rw [hbelow, hbehind]

/-- The same for a node by itself. -/
theorem Inner.unique {d' : Branch A V} (hd : L.Inner h d) (hd' : L.Inner h d') (haddr : d.addr = d'.addr)
    (htwig : d.twig = d'.twig) (hnull : L.null ∉ d.children.addrs) (hnull' : L.null ∉ d'.children.addrs) :
    d = d' := by
  obtain ⟨a, t, ch⟩ := d
  obtain ⟨a', t', ch'⟩ := d'
  obtain rfl : a = a' := haddr
  obtain rfl : t = t' := htwig
  have hch : ch = ch' := by
    cases hsh : L.shares t.val with
    | true => exact (hd.fits.shared hsh).trans (hd'.fits.shared hsh).symm
    | false =>
        have hfirst : ch.first L.null = ch'.first L.null :=
          (hd.fits.owned hsh).symm.trans (hd'.fits.owned hsh)
        exact Stand.unique hd.below hd'.below hnull hnull' hfirst
  rw [hch]

theorem Inner.congr (hd : L.Inner h d) (heq : ∀ x ∈ d.children.addrs, h' x = h x) : L.Inner h' d :=
  ⟨hd.fits, hd.below.congr heq⟩

theorem Alone.congr (hd : L.Alone h d) (heq : ∀ x ∈ d.addrs, h' x = h x) : L.Alone h' d :=
  ⟨(heq d.addr (List.mem_append_left _ (List.mem_singleton_self _))).trans hd.node,
    hd.inner.congr fun x hx => heq x (List.mem_append_right _ hx)⟩

end TreeLayout

/-! ## A node anywhere in a tree -/

section Edit

variable [DecidableEq A]

/-- The node at an address. -/
def Siblings.find (a : A) : Siblings A V → Option (Branch A V)
  | nil => none
  | cons b t ch rest => if b = a then some ⟨b, t, ch⟩ else (ch.find a).or (rest.find a)

/-- Other children for the node at an address. -/
def Siblings.edit (null a : A) (f : List (Branch A V) → List (Branch A V)) :
    Siblings A V → Siblings A V
  | nil => nil
  | cons b t ch rest =>
      if b = a then
        let ch' := ofList (f ch.toList)
        cons b { t with child := ch'.first null } ch' rest
      else cons b t (ch.edit null a f) (rest.edit null a f)

theorem find_eq_none (ha : a ∉ s.addrs) : s.find a = none := by
  induction s with
  | nil => rfl
  | cons b t ch rest ihc ihr =>
      obtain ⟨hb, hch, hrest⟩ : a ≠ b ∧ a ∉ ch.addrs ∧ a ∉ rest.addrs := by
        simpa only [mem_addrs_cons, not_or] using ha
      rw [Siblings.find, if_neg hb.symm, ihc hch, ihr hrest]
      rfl

theorem find_isSome : (s.find a).isSome ↔ a ∈ s.addrs := by
  refine ⟨fun hsome => ?_, fun hmem => ?_⟩
  · by_contra ha
    rw [find_eq_none ha] at hsome
    cases hsome
  · induction s with
    | nil => cases hmem
    | cons b t ch rest ihc ihr =>
        rw [Siblings.find]
        split
        · rfl
        · next hb =>
            rw [Option.isSome_or, Bool.or_eq_true]
            rcases mem_addrs_cons.1 hmem with rfl | hch | hrest
            · exact absurd rfl hb
            · exact Or.inl (ihc hch)
            · exact Or.inr (ihr hrest)

theorem mem_addrs_of_find (hd : s.find a = some d) : a ∈ s.addrs :=
  find_isSome.1 (Option.isSome_iff_exists.2 ⟨d, hd⟩)

theorem edit_eq_self {null : A} (ha : a ∉ s.addrs) : s.edit null a f = s := by
  induction s with
  | nil => rfl
  | cons b t ch rest ihc ihr =>
      obtain ⟨hb, hch, hrest⟩ : a ≠ b ∧ a ∉ ch.addrs ∧ a ∉ rest.addrs := by
        simpa only [mem_addrs_cons, not_or] using ha
      rw [Siblings.edit, if_neg hb.symm, ihc hch, ihr hrest]

theorem first_edit (null : A) : (s.edit null a f).first null = s.first null := by
  cases s with
  | nil => rfl
  | cons b t ch rest =>
      rw [Siblings.edit]
      split <;> rfl

/-- Where a node is found: at the head, below it or behind it. -/
theorem find_cases (hd : (cons b t ch rest).find a = some d) :
    (b = a ∧ d = ⟨b, t, ch⟩) ∨ (b ≠ a ∧ ch.find a = some d) ∨
      (b ≠ a ∧ a ∉ ch.addrs ∧ rest.find a = some d) := by
  rw [Siblings.find] at hd
  split at hd
  · next hb => exact Or.inl ⟨hb, (Option.some.inj hd).symm⟩
  · next hb =>
      by_cases hch : a ∈ ch.addrs
      · obtain ⟨d', hd'⟩ := Option.isSome_iff_exists.1 (find_isSome.2 hch)
        rw [hd', Option.some_or] at hd
        exact Or.inr (Or.inl ⟨hb, hd'.trans hd⟩)
      · rw [find_eq_none hch, Option.none_or] at hd
        exact Or.inr (Or.inr ⟨hb, hch, hd⟩)

theorem find_addr (hd : s.find a = some d) : d.addr = a := by
  induction s with
  | nil => cases hd
  | cons b t ch rest ihc ihr =>
      rcases find_cases hd with ⟨hb, rfl⟩ | ⟨-, hch⟩ | ⟨-, -, hrest⟩
      · exact hb
      · exact ihc hch
      · exact ihr hrest

/-- What is in a node that was found is in the tree. -/
theorem find_sublist (g : A → V → List W) (hd : s.find a = some d) :
    (d.gather g).Sublist (s.gather g) := by
  induction s with
  | nil => cases hd
  | cons b t ch rest ihc ihr =>
      rw [gather]
      rcases find_cases hd with ⟨-, rfl⟩ | ⟨-, hch⟩ | ⟨-, -, hrest⟩
      · exact (List.sublist_append_left (ch.gather g) _).append_left _
      · exact ((ihc hch).trans (List.sublist_append_left ..)).trans (List.sublist_append_right ..)
      · exact ((ihr hrest).trans (List.sublist_append_right ..)).trans (List.sublist_append_right ..)

theorem find_children_subset (hd : s.find a = some d) : d.children.addrs ⊆ s.addrs :=
  fun _ hx => (find_sublist _ hd).subset (List.mem_append_right _ hx)

theorem find_children_nodup (hnodup : s.addrs.Nodup) (hd : s.find a = some d) :
    a ∉ d.children.addrs ∧ d.children.addrs.Nodup := by
  have hsub : (d.addr :: d.children.addrs).Nodup :=
    hnodup.sublist (find_sublist (fun addr _ => [addr]) hd)
  rw [find_addr hd] at hsub
  exact List.nodup_cons.1 hsub

/-- **An edit rearranges.** What the nodes hold, together with what the old children hold, is what
    they held before together with what the new children hold. -/
theorem gather_edit (g : A → V → List W) {null : A} (hnodup : s.addrs.Nodup)
    (hd : s.find a = some d) :
    ((s.edit null a f).gather g ++ d.children.gather g).Perm
      (s.gather g ++ (f d.children.toList).flatMap (Branch.gather g)) := by
  induction s with
  | nil => cases hd
  | cons b t ch rest ihc ihr =>
      obtain ⟨⟨-, -⟩, hnch, hnrest, hdisj⟩ := nodup_addrs_cons.1 hnodup
      rw [Siblings.edit]
      rcases find_cases hd with ⟨hb, rfl⟩ | ⟨hb, hch⟩ | ⟨hb, hout, hrest⟩
      · simp only [if_pos hb, gather, gather_ofList, List.append_assoc]
        refine List.Perm.append_left _ ?_
        -- the new children and the old ones change places
        rw [← List.append_assoc, ← List.append_assoc]
        refine List.perm_append_comm.trans ?_
        rw [List.append_assoc]
        exact List.perm_append_comm.append_left _
      · have hrest : a ∉ rest.addrs :=
          hdisj (mem_addrs_of_find hch)
        simp only [if_neg hb, gather, edit_eq_self hrest, List.append_assoc]
        refine List.Perm.append_left _ ?_
        have hperm := (ihc hnch hch).append_right (rest.gather g)
        simp only [List.append_assoc] at hperm
        exact (List.perm_append_comm.append_left _).trans
          (hperm.trans (List.perm_append_comm.append_left _))
      · simp only [if_neg hb, gather, edit_eq_self hout, List.append_assoc]
        exact List.Perm.append_left _ (List.Perm.append_left _ (ihr hnrest hrest))

/-- A node below others is found below the head or behind it. -/
theorem find_of_children (hch : ch.find a = some d) (hb : b ∉ ch.addrs) :
    (cons b t ch rest).find a = some d := by
  have hne : b ≠ a := fun heq => hb (heq ▸ mem_addrs_of_find hch)
  rw [Siblings.find, if_neg hne, hch, Option.some_or]

theorem find_of_rest (hrest : rest.find a = some d) (hb : b ∉ rest.addrs)
    (hdisj : ch.addrs.Disjoint rest.addrs) : (cons b t ch rest).find a = some d := by
  have hmem := mem_addrs_of_find hrest
  have hne : b ≠ a := fun heq => hb (heq ▸ hmem)
  rw [Siblings.find, if_neg hne, find_eq_none fun hch => hdisj hch hmem, Option.none_or, hrest]

/-- A node is one of the list or the child of another one. -/
theorem exists_parent (hnodup : s.addrs.Nodup) (ha : a ∈ s.addrs) :
    (∃ e ∈ s.toList, e.addr = a) ∨
      ∃ b d, s.find b = some d ∧ ∃ e ∈ d.children.toList, e.addr = a := by
  induction s with
  | nil => cases ha
  | cons c t ch rest ihc ihr =>
      obtain ⟨⟨hcch, hcrest⟩, hnch, hnrest, hdisj⟩ := nodup_addrs_cons.1 hnodup
      rcases mem_addrs_cons.1 ha with rfl | ha | ha
      · exact Or.inl ⟨_, List.mem_cons_self .., rfl⟩
      · rcases ihc hnch ha with hhead | ⟨b, d, hfind, he⟩
        · exact Or.inr ⟨c, ⟨c, t, ch⟩, if_pos rfl, hhead⟩
        · exact Or.inr ⟨b, d, find_of_children hfind hcch, he⟩
      · rcases ihr hnrest ha with ⟨e, he, hea⟩ | ⟨b, d, hfind, he⟩
        · exact Or.inl ⟨e, List.mem_cons_of_mem _ he, hea⟩
        · exact Or.inr ⟨b, d, find_of_rest hfind hcrest hdisj, he⟩

/-- A node of the list is nobody's child. -/
theorem not_child_of_mem (hnodup : s.addrs.Nodup) {e e' : Branch A V} (he : e ∈ s.toList)
    (hd : s.find a = some d) (he' : e' ∈ d.children.toList) : e'.addr ≠ e.addr := by
  induction s with
  | nil => cases hd
  | cons c t ch rest ihc ihr =>
      obtain ⟨⟨hcch, hcrest⟩, hnch, hnrest, hdisj⟩ := nodup_addrs_cons.1 hnodup
      have hbelow : e'.addr ∈ d.children.addrs := addr_mem_addrs he'
      rcases List.mem_cons.1 he with rfl | he <;>
        rcases find_cases hd with ⟨-, rfl⟩ | ⟨-, hfind⟩ | ⟨-, -, hfind⟩
      · exact ne_of_mem_of_not_mem hbelow hcch
      · exact ne_of_mem_of_not_mem (find_children_subset hfind hbelow) hcch
      · exact ne_of_mem_of_not_mem (find_children_subset hfind hbelow) hcrest
      · exact ne_of_mem_of_not_mem hbelow fun hmem => hdisj hmem (addr_mem_addrs he)
      · exact ne_of_mem_of_not_mem (find_children_subset hfind hbelow)
          fun hmem => hdisj hmem (addr_mem_addrs he)
      · exact ihr hnrest he hfind

namespace TreeLayout

variable {L : TreeLayout A V} {h h' : Heap A (Node A (Twig A V))} {linked : Bool}

/-- A node that was found stands in the heap with all that is below it. -/
theorem Stand.find (hs : L.Stand h linked p s) (hd : s.find a = some d) :
    (∃ pre next, h a = some ⟨d.twig, pre, next⟩) ∧ L.Inner h d := by
  induction s generalizing p linked with
  | nil => cases hd
  | cons b t ch rest ihc ihr =>
      obtain ⟨hb, hfits, hch, hrest⟩ := hs
      rcases find_cases hd with ⟨rfl, rfl⟩ | ⟨-, hfound⟩ | ⟨-, -, hfound⟩
      · exact ⟨⟨_, _, hb⟩, hfits, hch⟩
      · exact ihc hch hfound
      · exact ihr hrest hfound

/-- **The heap decides which nodes stand in it on their own.** -/
theorem Stand.subset {s' : Siblings A V} (hs : L.Stand h false p s) (hs' : L.Stand h false p s')
    (hnodup : s.addrs.Nodup) (hnodup' : s'.addrs.Nodup) (hmem : ∀ x, x ∈ s.addrs ↔ x ∈ s'.addrs)
    (hnull : L.null ∉ s.addrs) : s.toList ⊆ s'.toList := by
  have hnull' : L.null ∉ s'.addrs := mt (hmem _).2 hnull
  intro e he
  have halone := stand_apart_iff.1 hs e he
  rcases exists_parent hnodup' ((hmem _).1 (addr_mem_addrs he)) with ⟨e', he', haddr⟩ | hparent
  · -- one of the others: both are what the heap says
    have halone' := stand_apart_iff.1 hs' e' he'
    have hnode := halone'.node
    rw [haddr, halone.node] at hnode
    obtain ⟨htwig, -, -⟩ := Node.mk.inj (Option.some.inj hnode)
    have hbelow : ∀ {r : Siblings A V} {b : Branch A V}, b ∈ r.toList → b.children.addrs ⊆ r.addrs := by
      intro r b hb x hx
      rw [addrs, gather_eq_flatMap]
      exact List.mem_flatMap.2 ⟨b, hb, List.mem_append_right _ hx⟩
    have heq := halone.inner.unique halone'.inner haddr.symm htwig (fun hx => hnull (hbelow he hx))
      fun hx => hnull' (hbelow he' hx)
    rwa [heq]
  · -- below another one: that one has the same children on both sides
    obtain ⟨b, d', hfind', e', he', haddr⟩ := hparent
    obtain ⟨d, hfind⟩ := Option.isSome_iff_exists.1
      (find_isSome.2 ((hmem b).2 (mem_addrs_of_find hfind')))
    obtain ⟨⟨_, _, hnode⟩, hinner⟩ := hs.find hfind
    obtain ⟨⟨_, _, hnode'⟩, hinner'⟩ := hs'.find hfind'
    obtain ⟨htwig, -, -⟩ := Node.mk.inj (Option.some.inj (hnode.symm.trans hnode'))
    have heq := hinner.unique hinner' ((find_addr hfind).trans (find_addr hfind').symm) htwig
      (fun hx => hnull (find_children_subset hfind hx))
      fun hx => hnull' (find_children_subset hfind' hx)
    rw [← heq] at he'
    exact absurd haddr (not_child_of_mem hnodup he hfind he')

/-- What the writes of an edit did: the node has a new child link, the new children stand in the heap,
    and the other nodes of `keep` were not written to. -/
structure Edited (L : TreeLayout A V) (h h' : Heap A (Node A (Twig A V))) (keep : List A) (a : A)
    (d : Branch A V) (bs : List (Branch A V)) : Prop where
  owned : L.shares d.twig.val = false
  node : ∀ n, h a = some n → h' a = some { n with val.child := (ofList bs).first L.null }
  children : L.Holds h' L.null (ofList bs)
  frame : ∀ x ∈ keep, x ≠ a → x ∉ d.children.addrs → h' x = h x

/-- **An edit below a node** that is somewhere among the nodes or below them. -/
theorem Stand.edit (hs : L.Stand h linked p s) (hnodup : s.addrs.Nodup) (hd : s.find a = some d)
    (hedit : L.Edited h h' s.addrs a d (f d.children.toList)) :
    L.Stand h' linked p (s.edit L.null a f) := by
  obtain ⟨howned, hnode, hchildren, hframe⟩ := hedit
  induction s generalizing p linked with
  | nil => cases hd
  | cons b t ch rest ihc ihr =>
      obtain ⟨hb, hfits, hch, hrest⟩ := hs
      obtain ⟨⟨hbch, hbrest⟩, hnch, hnrest, hdisj⟩ := nodup_addrs_cons.1 hnodup
      have hself : b ∈ (cons b t ch rest).addrs := mem_addrs_cons.2 (Or.inl rfl)
      have hinch : ch.addrs ⊆ (cons b t ch rest).addrs :=
        fun x hx => mem_addrs_cons.2 (Or.inr (Or.inl hx))
      have hinrest : rest.addrs ⊆ (cons b t ch rest).addrs :=
        fun x hx => mem_addrs_cons.2 (Or.inr (Or.inr hx))
      rw [Siblings.edit]
      rcases find_cases hd with ⟨rfl, rfl⟩ | ⟨hne, hfound⟩ | ⟨hne, hout, hfound⟩
      · -- here: the ones behind are not written to
        rw [if_pos rfl]
        refine ⟨hnode _ hb, ⟨fun hsh => ?_, fun _ => rfl⟩, hchildren, hrest.congr fun x hx => ?_⟩
        · exact absurd (hsh.symm.trans howned) (by decide)
        · exact hframe x (hinrest hx) (ne_of_mem_of_not_mem hx hbrest) fun hmem => hdisj hmem hx
      · -- below: the ones behind are not written to
        have hrest' : a ∉ rest.addrs := hdisj (mem_addrs_of_find hfound)
        have hsub := find_children_subset hfound
        rw [if_neg hne, edit_eq_self hrest']
        refine ⟨?_, ⟨fun hsh => ?_, fun hown => ?_⟩,
          ihc hch hnch hfound fun x hx => hframe x (hinch hx), hrest.congr fun x hx => ?_⟩
        · rw [hframe b hself hne fun hmem => hbch (hsub hmem), hb]
        · rw [hfits.shared hsh] at hfound
          cases hfound
        · rw [first_edit, hfits.owned hown]
        · exact hframe x (hinrest hx) (ne_of_mem_of_not_mem hx hrest') fun hmem => hdisj (hsub hmem) hx
      · -- behind: the children are not written to
        have hsub := find_children_subset hfound
        rw [if_neg hne, edit_eq_self hout]
        refine ⟨?_, hfits, hch.congr fun x hx => ?_, ihr hrest hnrest hfound fun x hx => hframe x (hinrest hx)⟩
        · rw [first_edit, hframe b hself hne fun hmem => hbrest (hsub hmem), hb]
        · exact hframe x (hinch hx) (ne_of_mem_of_not_mem hx hout) fun hmem => hdisj hx (hsub hmem)

/-! ## Nodes that change their place -/

/-- What a surgery on the children of a node did with them and with the nodes `out` on their own: `bs`
    are the children now, and `res` are on their own. Nothing but links was written to. -/
structure Rewired (L : TreeLayout A V) (h h' : Heap A (Node A (Twig A V))) (a : A) (d : Branch A V)
    (out bs res : List (Branch A V)) : Prop where
  node : ∀ n, h a = some n → h' a = some { n with val.child := (ofList bs).first L.null }
  seg : Seg h' L.null (bs.map Branch.entry) L.null
  alone : ∀ e ∈ res, h' e.addr = some ⟨e.twig, L.null, L.null⟩
  frame : ∀ x, x ≠ a → x ∉ (d.children.toList ++ out).map Branch.addr → h' x = h x
  perm : (bs ++ res).Perm (d.children.toList ++ out)

variable {out bs res : List (Branch A V)}

/-- An exchange for what `b` and `d` have in common. -/
theorem perm_of_moved {e s b d r o : List W} (hedit : (e ++ d).Perm (s ++ b))
    (hmove : (b ++ r).Perm (d ++ o)) : (r ++ e).Perm (o ++ s) := by
  refine (List.perm_append_right_iff d).1 ?_
  simp only [← Multiset.coe_eq_coe, ← Multiset.coe_add] at hedit hmove ⊢
  calc (r + e + d : Multiset W) = s + (b + r) := by rw [add_assoc, hedit]; abel
    _ = o + s + d := by rw [hmove]; abel

/-- What is below the nodes stays as it was. -/
theorem Rewired.inner (hr : L.Rewired h h' a d out bs res)
    (hin : ∀ e ∈ d.children.toList ++ out, L.Inner h e)
    (hnodup : (a :: (d.children.toList ++ out).flatMap Branch.addrs).Nodup) :
    ∀ e ∈ bs ++ res, L.Inner h' e := by
  intro e he
  have hmem := hr.perm.mem_iff.1 he
  obtain ⟨ha, hnodup⟩ := List.nodup_cons.1 hnodup
  obtain ⟨hself, hpair⟩ := List.nodup_flatMap.1 hnodup
  refine (hin e hmem).congr fun x hx => hr.frame x ?_ fun hhead => ?_
  · rintro rfl
    exact ha (List.mem_flatMap.2 ⟨e, hmem, List.mem_append_right _ hx⟩)
  · obtain ⟨e', he', rfl⟩ := List.mem_map.1 hhead
    by_cases heq : e' = e
    · -- not the node itself
      rw [heq] at hx
      exact (List.nodup_cons.1 (hself e hmem)).1 hx
    · -- nor another one
      have : Std.Symm (Function.onFun List.Disjoint (Branch.addrs (A := A) (V := V))) :=
        ⟨fun _ _ h => h.symm⟩
      have hdisj := hpair.forall he' hmem heq
      exact hdisj (List.mem_append_left _ (List.mem_singleton_self _)) (List.mem_append_right _ hx)

/-- **A surgery in a forest**: the forest has the new children at their place, the others are on their
    own, and what the nodes hold is rearranged. -/
theorem Rewired.forest (hr : L.Rewired h h' a d out bs res) (hs : L.Stand h false p s)
    (hout : ∀ e ∈ out, L.Alone h e) (hnodup : (out.flatMap Branch.addrs ++ s.addrs).Nodup)
    (hd : s.find a = some d) (howned : L.shares d.twig.val = false) (hf : f d.children.toList = bs) :
    L.Stand h' false p (s.edit L.null a f) ∧ (∀ e ∈ res, L.Alone h' e) ∧
      ∀ {W : Type} (g : A → V → List W), (res.flatMap (Branch.gather g) ++
        (s.edit L.null a f).gather g).Perm (out.flatMap (Branch.gather g) ++ s.gather g) := by
  subst hf
  obtain ⟨hnout, hns, hdisj⟩ := List.nodup_append'.1 hnodup
  obtain ⟨hach, hnch⟩ := find_children_nodup hns hd
  have hsub := find_children_subset hd
  have hch : d.children.addrs = d.children.toList.flatMap Branch.addrs := gather_eq_flatMap _ _
  have hinner := hr.inner (fun e he => ?_) (List.nodup_cons.2 ⟨fun hmem => ?_, ?_⟩)
  rotate_left
  · rcases List.mem_append.1 he with he | he
    · exact (holds_iff.1 (hs.find hd).2.below).2 e he
    · exact (hout e he).inner
  · rw [List.flatMap_append, ← hch, List.mem_append] at hmem
    exact hmem.elim hach fun hmem => hdisj hmem (mem_addrs_of_find hd)
  · rw [List.flatMap_append, ← hch]
    exact List.nodup_append'.2 ⟨hnch, hnout, fun x hx hx' => hdisj hx' (hsub hx)⟩
  refine ⟨hs.edit hns hd ⟨howned, hr.node, ?_, fun x hx hxa hxch => ?_⟩, fun e he => ?_,
    fun g => ?_⟩
  · exact holds_ofList.2 ⟨hr.seg, fun e he => hinner e (List.mem_append_left _ he)⟩
  · refine hr.frame x hxa fun hmem => ?_
    obtain ⟨e, he, rfl⟩ := List.mem_map.1 hmem
    have hself : e.addr ∈ e.addrs := List.mem_append_left _ (List.mem_singleton_self _)
    rcases List.mem_append.1 he with he | he
    · exact hxch (hch ▸ List.mem_flatMap.2 ⟨e, he, hself⟩)
    · exact hdisj (List.mem_flatMap.2 ⟨e, he, hself⟩) hx
  · exact ⟨hr.alone e he, hinner e (List.mem_append_right _ he)⟩
  · have hedit : ((s.edit L.null a f).gather g ++ d.children.gather g).Perm _ := gather_edit g hns hd
    have hmove := hr.perm.flatMap_right (Branch.gather g)
    rw [List.flatMap_append, List.flatMap_append, ← gather_eq_flatMap] at hmove
    exact perm_of_moved hedit hmove

end TreeLayout

end Edit

end XToolkits
