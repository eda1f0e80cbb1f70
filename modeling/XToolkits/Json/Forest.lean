import XToolkits.Json.Heap
import XToolkits.Lib.Footprint

set_option autoImplicit false

/-! # The forest in memory

The items that are allocated are a forest: its roots are the items that the caller has to delete, and
an item hangs below the item that `cJSON_Delete` reaches it from. `Owns` says so for a memory, with an
account of every string: an item points to it, or it is lost. -/

namespace XToolkits.Json

/-! ## Ownership -/

/-- An item whose type says that it is a reference shares its child with another item. -/
def cJSONLayout : TreeLayout Ptr Cell := ⟨nullPtr, Cell.isReference⟩

/-- The roots, each with what is below it. -/
abbrev Forest := List (Branch Ptr Cell)

/-- The string that was allocated, if a pointer leads to one. -/
def CharPtr.addrs : CharPtr → List Ptr
  | .heap a => [a]
  | .null | .const _ => []

/-- `free` may be called with it. -/
def CharPtr.Freeable : CharPtr → Prop
  | .null | .heap _ => True
  | .const _ => False

instance (s : CharPtr) : Decidable s.Freeable := by
  cases s <;> (rw [CharPtr.Freeable]; infer_instance)

namespace Cell

/-- The strings an item has, the ones `cJSON_Delete` frees, and the one it leaves. -/
def strings (c : Cell) : List Ptr :=
  (if c.isReference then [] else c.valuestring.addrs) ++ c.string.addrs

def owned (c : Cell) : List Ptr :=
  (if c.isReference then [] else c.valuestring.addrs) ++
    (if c.stringIsConst then [] else c.string.addrs)

def stray (c : Cell) : List Ptr := if c.stringIsConst then c.string.addrs else []

/-- What `cJSON_Delete` frees was allocated. -/
structure Sound (c : Cell) : Prop where
  valuestring : c.isReference = false → c.valuestring.Freeable
  string : c.stringIsConst = false → c.string.Freeable

theorem strings_perm (c : Cell) : c.strings.Perm (c.owned ++ c.stray) := by
  unfold strings owned stray
  cases c.stringIsConst <;> simp

end Cell

namespace Forest

variable (F : Forest)

/-- The addresses of all items, their strings, and the items themselves. -/
def addrs : List Ptr := F.flatMap Branch.addrs
def strings : List Ptr := F.flatMap (Branch.gather fun _ c => c.strings)
def cells : List Cell := F.flatMap (Branch.gather fun _ c => [c])

end Forest

/-- The memory holds the forest, and besides the strings of its items the lost ones. -/
structure Owns (m : Memory) (F : Forest) (lost : List Ptr) : Prop where
  roots : ∀ d ∈ F, cJSONLayout.Alone m.items d
  items : m.items.Domain F.addrs
  strings : m.strings.Domain (F.strings ++ lost)
  sound : ∀ c ∈ F.cells, c.Sound
  live : m.live = F.addrs.length
  null : m.items nullPtr = none

variable {m m' : Memory} {F G : Forest} {lost : List Ptr} {b d : Branch Ptr Cell} {a array : Ptr}

/-- The order of the roots is of no importance. -/
theorem Owns.perm (h : Owns m F lost) (hperm : F.Perm G) : Owns m G lost where
  roots := fun d hd => h.roots d (hperm.mem_iff.2 hd)
  items := h.items.perm (hperm.flatMap_right _)
  strings := h.strings.perm ((hperm.flatMap_right _).append_right lost)
  sound := fun c hc => h.sound c ((hperm.flatMap_right _).mem_iff.2 hc)
  live := h.live.trans (hperm.flatMap_right Branch.addrs).length_eq
  null := h.null

theorem Owns.null_notMem (h : Owns m F lost) : nullPtr ∉ F.addrs := fun hmem => by
  obtain ⟨n, hn⟩ := h.items.exists_eq hmem
  rw [h.null] at hn
  cases hn

/-! ## Deleting -/

/-- The memory without some items and strings. -/
def Memory.without (m : Memory) (as ss : List Ptr) : Memory :=
  { m with
    items := m.items.freeAll as
    strings := m.strings.freeAll ss
    live := m.live - as.length }

namespace Memory

variable {as bs ss ts : List Ptr}

theorem without_nil (m : Memory) : m.without [] [] = m := by
  rw [without, Heap.freeAll_nil, Heap.freeAll_nil, List.length_nil, Nat.sub_zero]

theorem without_without (m : Memory) (as bs ss ts : List Ptr) :
    (m.without as ss).without bs ts = m.without (as ++ bs) (ss ++ ts) := by
  simp only [without, Heap.freeAll_freeAll, List.length_append, Nat.sub_sub]

theorem without_perm (m : Memory) (has : as.Perm bs) (hss : ss.Perm ts) :
    m.without as ss = m.without bs ts := by
  simp only [without, Heap.freeAll_perm _ has, Heap.freeAll_perm _ hss, has.length_eq]

theorem without_items (m : Memory) {a : Ptr} (ha : a ∉ as) : (m.without as ss).items a = m.items a :=
  Heap.freeAll_of_notMem m.items ha

theorem without_strings (m : Memory) {a : Ptr} (ha : a ∉ ss) :
    (m.without as ss).strings a = m.strings a :=
  Heap.freeAll_of_notMem m.strings ha

theorem freeString_eq (m : Memory) {s : CharPtr} (hs : s.Freeable)
    (hlive : ∀ a ∈ s.addrs, (m.strings a).isSome) : m.freeString s = some (m.without [] s.addrs) := by
  cases s with
  | null => rw [CharPtr.addrs, without_nil]; rfl
  | heap a =>
      obtain ⟨v, hv⟩ := Option.isSome_iff_exists.1 (hlive a (List.mem_singleton_self a))
      rw [freeString, hv, Option.map_some, CharPtr.addrs, without, Heap.free_eq_freeAll,
        Heap.freeAll_nil]
      rfl
  | const s => exact hs.elim

theorem freeUnless_eq (m : Memory) {s : CharPtr} {kept : Bool} (hs : kept = false → s.Freeable)
    (hlive : ∀ a ∈ (if kept then [] else s.addrs), (m.strings a).isSome) :
    m.freeUnless kept s = some (m.without [] (if kept then [] else s.addrs)) := by
  cases kept with
  | true => exact congrArg some m.without_nil.symm
  | false => exact m.freeString_eq (hs rfl) hlive

theorem freeItem_eq (m : Memory) {c : Ptr} {n : Node Ptr (Twig Ptr Cell)} (hc : m.items c = some n) :
    m.freeItem c = some (m.without [c] []) := by
  rw [freeItem, hc, Option.map_some, without, Heap.free_eq_freeAll, Heap.freeAll_nil]
  rfl

end Memory

/-- The strings that are freed with siblings and what is below them. -/
def ownedStrings (s : Siblings Ptr Cell) : List Ptr := s.gather fun _ c => c.owned

open Siblings Memory

/-- What `cJSON_Delete` needs of items besides their links: no item and no string is freed twice, and
    each string that is freed was allocated. -/
structure Deletable (m : Memory) (s : Siblings Ptr Cell) : Prop where
  nodup : s.addrs.Nodup
  null : nullPtr ∉ s.addrs
  sound : ∀ c ∈ s.gather fun _ c => [c], c.Sound
  once : (ownedStrings s).Nodup
  live : ∀ x ∈ ownedStrings s, (m.strings x).isSome

section Parts

variable {t : Twig Ptr Cell} {s ch rest : Siblings Ptr Cell} {fuel : Nat} {p : Ptr}

theorem ownedStrings_cons : ownedStrings (cons a t ch rest) =
    t.val.owned ++ (ownedStrings ch ++ ownedStrings rest) := rfl

theorem length_addrs_cons (a : Ptr) (t : Twig Ptr Cell) (ch rest : Siblings Ptr Cell) :
    (cons a t ch rest).addrs.length = ch.addrs.length + rest.addrs.length + 1 := by
  simp only [addrs, gather, List.length_append, List.length_singleton]
  omega

theorem Deletable.children (h : Deletable m (cons a t ch rest)) : Deletable m ch where
  nodup := (nodup_addrs_cons.1 h.nodup).2.1
  null := fun hmem => h.null (mem_addrs_cons.2 (Or.inr (Or.inl hmem)))
  sound := fun c hc => h.sound c (List.mem_append_right _ (List.mem_append_left _ hc))
  once := (List.nodup_append'.1 (List.nodup_append'.1 h.once).2.1).1
  live := fun x hx => h.live x (List.mem_append_right _ (List.mem_append_left _ hx))

/-- The ones behind, when the item itself and its children are gone. -/
theorem Deletable.behind (h : Deletable m (cons a t ch rest)) {as : List Ptr} :
    Deletable (m.without as (t.val.owned ++ ownedStrings ch)) rest where
  nodup := (nodup_addrs_cons.1 h.nodup).2.2.1
  null := fun hmem => h.null (mem_addrs_cons.2 (Or.inr (Or.inr hmem)))
  sound := fun c hc => h.sound c (List.mem_append_right _ (List.mem_append_right _ hc))
  once := (List.nodup_append'.1 (List.nodup_append'.1 h.once).2.1).2.1
  live := fun x hx => by
    have honce := h.once
    rw [ownedStrings_cons, ← List.append_assoc] at honce
    rw [without_strings m fun hmem => (List.nodup_append'.1 honce).2.2 hmem hx]
    exact h.live x (List.mem_append_right _ (List.mem_append_right _ hx))

/-- The children, if there are any, and if they are the item's own. -/
theorem deleteChildren_eq (hfits : cJSONLayout.Fits t ch) (hfuel : 0 < fuel)
    (hch : deleteLoop fuel m (ch.first nullPtr) = some (m.without ch.addrs (ownedStrings ch))) :
    (if ¬ t.val.isReference ∧ t.child ≠ nullPtr then deleteLoop fuel m t.child else some m) =
      some (m.without ch.addrs (ownedStrings ch)) := by
  cases href : t.val.isReference with
  | true =>
      rw [hfits.shared href]
      exact congrArg some m.without_nil.symm
  | false =>
      have hchild : t.child = ch.first nullPtr := hfits.owned href
      by_cases hnull : t.child = nullPtr
      · -- the call would do nothing
        obtain ⟨fuel, rfl⟩ := Nat.exists_eq_add_of_lt hfuel
        rw [if_neg (fun hc => hc.2 hnull), ← hch, ← hchild, hnull]
        rfl
      · rw [if_pos ⟨Bool.false_ne_true, hnull⟩, hchild, hch]

/-- The strings of an item and the item itself. -/
theorem deleteSelf_eq {n : Node Ptr (Twig Ptr Cell)} (ha : m.items a = some n)
    (hsound : n.val.val.Sound) (honce : n.val.val.owned.Nodup)
    (hlive : ∀ x ∈ n.val.val.owned, (m.strings x).isSome) :
    ∃ m₁ m₂, m.freeUnless n.val.val.isReference n.val.val.valuestring = some m₁ ∧
      m₁.freeUnless n.val.val.stringIsConst n.val.val.string = some m₂ ∧
      m₂.freeItem a = some (m.without [a] n.val.val.owned) := by
  obtain ⟨-, -, hdisj⟩ := List.nodup_append'.1 honce
  refine ⟨_, _, freeUnless_eq m hsound.valuestring fun x hx => hlive x (List.mem_append_left _ hx),
    freeUnless_eq _ hsound.string fun x hx => ?_, ?_⟩
  · rw [without_strings m fun hmem => hdisj hmem hx]
    exact hlive x (List.mem_append_right _ hx)
  · rw [without_without, List.append_nil, freeItem_eq _ ((without_items m List.not_mem_nil).trans ha),
      without_without, List.append_nil]
    rfl

/-- **`cJSON_Delete`** frees an item and the ones after it with all that is below them, and nothing
    else. -/
theorem deleteLoop_eq (hs : cJSONLayout.Holds m.items p s) (h : Deletable m s)
    (hfuel : s.addrs.length < fuel) :
    deleteLoop fuel m (s.first nullPtr) = some (m.without s.addrs (ownedStrings s)) := by
  induction s generalizing m p fuel with
  | nil =>
      obtain ⟨fuel, rfl⟩ := Nat.exists_eq_add_of_lt hfuel
      exact congrArg some m.without_nil.symm
  | cons a t ch rest ihc ihr =>
      cases fuel with
      | zero => exact absurd hfuel (Nat.not_lt_zero _)
      | succ fuel =>
          obtain ⟨ha, hfits, hch, hrest⟩ := hs
          obtain ⟨⟨hach, harest⟩, -, -, hdisj⟩ := nodup_addrs_cons.1 h.nodup
          obtain ⟨hown, -, hdown⟩ := List.nodup_append'.1 h.once
          have hlen := length_addrs_cons a t ch rest
          have hnull : a ≠ nullPtr := fun heq => h.null (heq ▸ mem_addrs_cons.2 (Or.inl rfl))
          have hchildren := deleteChildren_eq hfits (by omega)
            (ihc hch h.children (show ch.addrs.length < fuel by omega))
          have hself : (m.without ch.addrs (ownedStrings ch)).items a =
              some ⟨t, p, rest.first nullPtr⟩ :=
            (without_items m hach).trans ha
          obtain ⟨m₁, m₂, hfree₁, hfree₂, hfree₃⟩ := deleteSelf_eq hself
            (h.sound _ (List.mem_append_left _ (List.mem_singleton_self _))) hown fun x hx => by
              have hkept : (m.without ch.addrs (ownedStrings ch)).strings x = m.strings x :=
                without_strings m fun hmem => hdown hx (List.mem_append_left _ hmem)
              rw [hkept]
              exact h.live x (List.mem_append_left _ hx)
          -- the item and its children are gone
          rw [without_without, without_perm m (List.Perm.refl _) List.perm_append_comm] at hfree₃
          have hframe : ∀ x ∈ rest.addrs, x ∉ ch.addrs ++ [a] := fun x hx hmem => by
            rcases List.mem_append.1 hmem with hmem | hmem
            · exact hdisj hmem hx
            · exact harest (List.mem_singleton.1 hmem ▸ hx)
          have hbehind := ihr (hrest.congr fun x hx => without_items m (hframe x hx)) h.behind
            (show rest.addrs.length < fuel by omega)
          rw [without_without] at hbehind
          rw [first, deleteLoop, if_neg hnull]
          simp only [ha, hchildren, hself, hfree₁, hfree₂, hfree₃, if_true, Option.bind_eq_bind,
            Option.bind_some]
          refine hbehind.trans (congrArg some (m.without_perm ?_ ?_))
          · rw [List.append_assoc]
            exact List.perm_middle
          · exact List.Perm.of_eq (List.append_assoc ..)

end Parts

/-- A root as the only one of a list. -/
def onlyChild (b : Branch Ptr Cell) : Siblings Ptr Cell := .cons b.addr b.twig b.children .nil

theorem gather_onlyChild {W : Type} (g : Ptr → Cell → List W) (b : Branch Ptr Cell) :
    (onlyChild b).gather g = b.gather g := by
  rw [onlyChild, gather, gather, List.append_nil, Branch.gather]

/-- The strings of a root that `cJSON_Delete` leaves behind. -/
def strayStrings (b : Branch Ptr Cell) : List Ptr := b.gather fun _ c => c.stray

theorem strings_cons_perm (b : Branch Ptr Cell) (G : Forest) (lost : List Ptr) :
    (Forest.strings (b :: G) ++ lost).Perm
      (ownedStrings (onlyChild b) ++ (G.strings ++ (lost ++ strayStrings b))) := by
  have hb : (b.gather fun _ c => c.strings).Perm (ownedStrings (onlyChild b) ++ strayStrings b) := by
    rw [ownedStrings, gather_onlyChild]
    exact Branch.gather_perm (fun _ c => c.strings_perm) b
  rw [Forest.strings, List.flatMap_cons, ← Forest.strings]
  refine ((hb.append_right _).append_right _).trans ?_
  simp only [← Multiset.coe_eq_coe, ← Multiset.coe_add]
  abel

theorem Owns.deletable (h : Owns m (b :: G) lost) : Deletable m (onlyChild b) := by
  have hstrings := h.strings.perm (strings_cons_perm b G lost)
  have haddrs : (onlyChild b).addrs = b.addrs := gather_onlyChild _ b
  refine ⟨?_, fun hmem => h.null_notMem ?_, fun c hc => h.sound c ?_, ?_, fun x hx => ?_⟩
  · rw [haddrs]
    exact (List.nodup_append'.1 h.items.nodup).1
  · rw [haddrs] at hmem
    exact List.mem_append_left _ hmem
  · rw [gather_onlyChild] at hc
    exact List.mem_append_left _ hc
  · exact (List.nodup_append'.1 hstrings.nodup).1
  · exact (hstrings.mem x).2 (List.mem_append_left _ hx)

theorem Owns.stand_onlyChild (h : Owns m (b :: G) lost) :
    cJSONLayout.Holds m.items nullPtr (onlyChild b) := by
  obtain ⟨hnode, hinner⟩ := h.roots b (List.mem_cons_self ..)
  exact ⟨hnode, hinner.fits, hinner.below, trivial⟩

/-- **`cJSON_Delete` of a root** takes it out of the forest, and only the names that it does not free
    are left. -/
theorem Owns.delete (h : Owns m (b :: G) lost) :
    m.cJSONDelete b.addr = some (m.without b.addrs (ownedStrings (onlyChild b))) ∧
      Owns (m.without b.addrs (ownedStrings (onlyChild b))) G (lost ++ strayStrings b) := by
  have haddrs : (onlyChild b).addrs = b.addrs := gather_onlyChild _ b
  have hfuel : (onlyChild b).addrs.length < m.live + 1 := by
    rw [haddrs, h.live, Forest.addrs, List.flatMap_cons, List.length_append]
    omega
  have hdel := deleteLoop_eq h.stand_onlyChild h.deletable hfuel
  rw [haddrs] at hdel
  refine ⟨hdel, ?_⟩
  have hG : ∀ d ∈ G, ∀ x ∈ d.addrs, x ∉ b.addrs := fun d hd x hx hmem =>
    (List.nodup_append'.1 h.items.nodup).2.2 hmem (List.mem_flatMap.2 ⟨d, hd, hx⟩)
  refine ⟨fun d hd => ?_, h.items.freeAll, (h.strings.perm (strings_cons_perm b G lost)).freeAll,
    fun c hc => h.sound c (List.mem_append_right _ hc), ?_, ?_⟩
  · exact (h.roots d (List.mem_cons_of_mem b hd)).congr fun x hx => without_items m (hG d hd x hx)
  · show m.live - b.addrs.length = _
    rw [h.live, Forest.addrs, List.flatMap_cons, List.length_append, Nat.add_sub_cancel_left]
    rfl
  · exact (without_items m fun hmem => h.null_notMem (List.mem_append_left _ hmem)).trans h.null

end XToolkits.Json
