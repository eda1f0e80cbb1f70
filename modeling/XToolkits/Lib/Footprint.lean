import XToolkits.Lib.Ring
import Mathlib.Data.List.Perm.Basic
import Mathlib.Data.Multiset.AddSub

set_option autoImplicit false

/-! # What is allocated

`Heap.Domain h as` says that the allocated addresses are those of a list, each once. Every write, every
`malloc` and every `free` has its own way of changing that list. -/

namespace XToolkits

variable {A V W : Type}

/-- The allocated addresses are the ones of the list, and none is in it twice. -/
structure Heap.Domain (h : Heap A V) (as : List A) : Prop where
  nodup : as.Nodup
  mem : ∀ a, (h a).isSome ↔ a ∈ as

variable {h h' : Heap A V} {a : A} {as bs cs : List A} {v : V}

namespace Heap

theorem Domain.perm (hd : h.Domain as) (hperm : as.Perm bs) : h.Domain bs :=
  ⟨hperm.nodup_iff.1 hd.nodup, fun a => (hd.mem a).trans hperm.mem_iff⟩

/-- The same addresses are allocated in another heap. -/
theorem Domain.congr {h'' : Heap A W} (hd : h.Domain as) (heq : ∀ a, (h'' a).isSome = (h a).isSome) :
    h''.Domain as :=
  ⟨hd.nodup, fun a => heq a ▸ hd.mem a⟩

theorem Domain.exists_eq (hd : h.Domain as) (ha : a ∈ as) : ∃ v, h a = some v :=
  Option.isSome_iff_exists.1 ((hd.mem a).2 ha)

theorem Domain.eq_none (hd : h.Domain as) (ha : a ∉ as) : h a = none :=
  Option.not_isSome_iff_eq_none.1 (mt (hd.mem a).1 ha)

variable [DecidableEq A]

/-- Nothing is allocated any more at the addresses. -/
def freeAll (h : Heap A V) (as : List A) : Heap A V := fun x => if x ∈ as then none else h x

theorem freeAll_nil (h : Heap A V) : h.freeAll [] = h := by
  funext x
  exact if_neg List.not_mem_nil

theorem free_eq_freeAll (h : Heap A V) (a : A) : h.free a = h.freeAll [a] := by
  funext x
  simp only [free, freeAll, List.mem_singleton]

theorem freeAll_freeAll (h : Heap A V) (as bs : List A) :
    (h.freeAll as).freeAll bs = h.freeAll (as ++ bs) := by
  funext x
  by_cases hb : x ∈ bs <;> by_cases ha : x ∈ as <;> simp [freeAll, ha, hb]

theorem freeAll_perm (h : Heap A V) (hperm : as.Perm bs) : h.freeAll as = h.freeAll bs := by
  funext x
  simp only [freeAll, hperm.mem_iff]

theorem freeAll_of_notMem (h : Heap A V) (ha : a ∉ as) : h.freeAll as a = h a := if_neg ha

/-- New memory. -/
theorem Domain.new (hd : h.Domain as) (ha : h a = none) (v : V) : (h.set a v).Domain (a :: as) := by
  refine ⟨List.nodup_cons.2 ⟨fun hmem => ?_, hd.nodup⟩, fun x => ?_⟩
  · obtain ⟨w, hw⟩ := hd.exists_eq hmem
    rw [ha] at hw
    cases hw
  · rw [set, List.mem_cons]
    split
    · next hx => exact iff_of_true rfl (Or.inl hx)
    · next hx => exact (hd.mem x).trans (or_iff_right hx).symm

/-- A write to what is allocated. -/
theorem Domain.write (hd : h.Domain as) (ha : a ∈ as) (v : V) : (h.set a v).Domain as := by
  refine hd.congr fun x => ?_
  rw [set]
  split
  · next hx => rw [hx, (hd.mem a).2 ha, Option.isSome_some]
  · rfl

/-- Freeing some of the addresses. -/
theorem Domain.freeAll (hd : h.Domain (as ++ bs)) : (h.freeAll as).Domain bs := by
  obtain ⟨-, hbs, hdisj⟩ := List.nodup_append'.1 hd.nodup
  refine ⟨hbs, fun x => ?_⟩
  rw [Heap.freeAll]
  split
  · next hx => exact iff_of_false Bool.false_ne_true fun hmem => hdisj hx hmem
  · next hx => exact (hd.mem x).trans (List.mem_append.trans (or_iff_right hx))

end Heap

end XToolkits
